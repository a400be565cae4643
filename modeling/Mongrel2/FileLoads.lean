/-
The parts of a configuration file that load (`config_file.c` of `m2sh`).

A part is refused for what the file says of it, or by the database.

* `serverParams`, `serverSql` and those of the targets — what of a class is in its row;
* `LoadsHost`, `LoadsServers`, `LoadsSettings` — the file says what is needed;
* `loadsServers_of_rc`, `loadsSettings_of_rc` — if it does not, no database makes the walk
  succeed;
* `recording` — a database that refuses nothing, with which the walk succeeds if it does.

Design notes: what comes of the hosts of a server is no part of it, since nobody looks at
the result of that walk.
-/
import Mongrel2.ConfigFile

namespace Mongrel2

open ByteStream HttpParser

namespace M2sh

/-! ### The rows of classes -/

/-- The parameters of a server that go into its row. -/
def serverParams : List (String × ValueType) :=
  [("uuid", .qstring), ("access_log", .qstring), ("error_log", .qstring), ("pid_file", .qstring),
    ("chroot", .qstring), ("default_host", .qstring), ("name", .qstring), ("port", .number)]

/-- The parameters of a directory. -/
def dirParams : List (String × ValueType) :=
  [("base", .qstring), ("index_file", .qstring), ("default_ctype", .qstring)]

/-- The parameters of a handler. -/
def handlerParams : List (String × ValueType) :=
  [("send_spec", .qstring), ("send_ident", .qstring), ("recv_spec", .qstring),
    ("recv_ident", .qstring)]

/-- The parameters of a proxy. -/
def proxyParams : List (String × ValueType) := [("addr", .qstring), ("port", .number)]

section

variable (settings params : Pairs)

/-- The row of a server. -/
def serverSql : Sql :=
  .server (str settings params (bytes "uuid") .qstring)
    (str settings params (bytes "access_log") .qstring)
    (str settings params (bytes "error_log") .qstring)
    (str settings params (bytes "pid_file") .qstring)
    (str settings params (bytes "chroot") .qstring)
    (str settings params (bytes "default_host") .qstring)
    (str settings params (bytes "name") .qstring)
    (str settings params (bytes "port") .number)

/-- The row of a directory. -/
def dirSql : Sql :=
  .directory (str settings params (bytes "base") .qstring)
    (str settings params (bytes "index_file") .qstring)
    (str settings params (bytes "default_ctype") .qstring)

/-- The row of a handler. -/
def handlerSql : Sql :=
  .handler (str settings params (bytes "send_spec") .qstring)
    (str settings params (bytes "send_ident") .qstring)
    (str settings params (bytes "recv_spec") .qstring)
    (str settings params (bytes "recv_ident") .qstring)

/-- The row of a proxy. -/
def proxySql : Sql :=
  .proxy (str settings params (bytes "addr") .qstring) (str settings params (bytes "port") .number)

end

/-! ### What is needed -/

section

variable (settings : Pairs)

/-- A host with a name and routes. -/
def LoadsHost (val : Value) : Prop :=
  ∃ params, val = .cls (bytes "Host") params ∧
    str settings params (bytes "name") .qstring ≠ none ∧
    get settings params (bytes "routes") .hash ≠ none

/-- A server with hosts. -/
def LoadsServer (val : Value) : Prop :=
  ∃ params, val = .cls (bytes "Server") params ∧ get settings params (bytes "hosts") .list ≠ none

/-- A list of servers with hosts. -/
def LoadsServers : Prop :=
  ∃ key servers, settings.search (bytes "servers") = some ⟨key, .list servers⟩ ∧
    ∀ ref ∈ servers, ∃ found, ref.resolve settings = some found ∧ LoadsServer settings found

/-- Settings without a dangling reference, if there are any. -/
def LoadsSettings : Prop :=
  ∀ set, get settings settings (bytes "settings") .hash = some (.hash set) →
    ∀ pair ∈ set.traverse, pair.value.resolve settings ≠ none

end

instance (settings : Pairs) : DecidablePred (LoadsHost settings)
  | .cls ident params =>
    decidable_of_iff
      (ident = bytes "Host" ∧ str settings params (bytes "name") .qstring ≠ none ∧
        get settings params (bytes "routes") .hash ≠ none) (by simp [LoadsHost])
  | .qstring _ | .pattern _ | .number _ | .list _ | .hash _ | .ident _ | .ref _ =>
    isFalse (by simp [LoadsHost])

instance (settings : Pairs) : DecidablePred (LoadsServer settings)
  | .cls ident params =>
    decidable_of_iff
      (ident = bytes "Server" ∧ get settings params (bytes "hosts") .list ≠ none)
      (by simp [LoadsServer])
  | .qstring _ | .pattern _ | .number _ | .list _ | .hash _ | .ident _ | .ref _ =>
    isFalse (by simp [LoadsServer])

/-- A database that takes every statement and keeps all of them. -/
def recording : Sqlite (List Sql) where
  begins := true
  exec sql content := ⟨true, content ++ [sql], 0⟩
  commits _ := true

/-! ### Lookups -/

section

variable {settings fr : Pairs} {name : List Byte} {type : ValueType} {val : Value}

theorem get_eq_some_iff :
    get settings fr name type = some val ↔
      (∃ pair, fr.search name = some pair ∧ pair.value.resolve settings = some val) ∧
        val.type = type := by
  unfold get
  rcases fr.search name with _ | pair
  · simp
  · show (do
        let val ← pair.value.resolve settings
        if val.type = type then some val else none) = some val ↔ _
    rcases hval : pair.value.resolve settings with _ | found
    · simp [hval]
    · show (if found.type = type then some found else none) = some val ↔ _
      simp only [Option.ite_none_right_eq_some, Option.some.injEq, exists_eq_left', hval]
      refine ⟨?_, ?_⟩
      · rintro ⟨htype, rfl⟩
        exact ⟨rfl, htype⟩
      · rintro ⟨rfl, htype⟩
        exact ⟨htype, rfl⟩

theorem type_of_get (h : get settings fr name type = some val) : val.type = type :=
  (get_eq_some_iff.mp h).2

theorem exists_list_of_get (h : get settings fr name .list = some val) :
    ∃ elements, val = .list elements := by
  have htype := type_of_get h
  rcases val with _ | _ | _ | _ | elements | _ | _ | _
  case list => exact ⟨elements, rfl⟩
  all_goals cases htype

theorem exists_hash_of_get (h : get settings fr name .hash = some val) :
    ∃ elements, val = .hash elements := by
  have htype := type_of_get h
  rcases val with _ | _ | _ | _ | _ | elements | _ | _
  case hash => exact ⟨elements, rfl⟩
  all_goals cases htype

end

/-! ### The loads -/

section

variable {C : Type} {db : Sqlite C} {settings : Pairs}

theorem hostLoad_rc_iff (val : Value) (s : Loading C) :
    (hostLoad db settings val s).1 = 0 ↔ (hostRow db settings val s).1 ≠ none := by
  unfold hostLoad
  rcases hostRow db settings val s with ⟨_ | routes, s'⟩
  · simp
  · simp

theorem serverLoad_rc_iff (val : Value) (s : Loading C) :
    (serverLoad db settings val s).1 = 0 ↔ (serverRow db settings val s).1 ≠ none := by
  unfold serverLoad
  rcases serverRow db settings val s with ⟨_ | hosts, s'⟩
  · simp
  · simp

theorem loadsHost_of_rc {val : Value} {s : Loading C} (h : (hostLoad db settings val s).1 = 0) :
    LoadsHost settings val := by
  have hrow := (hostLoad_rc_iff val s).mp h
  unfold hostRow at hrow
  split at hrow
  · rename_i ident params
    split at hrow
    · exact absurd rfl hrow
    rename_i hident
    split at hrow
    · exact absurd rfl hrow
    rename_i name hname
    dsimp only at hrow
    split at hrow
    · exact absurd rfl hrow
    split at hrow
    · rename_i routes hroutes
      rw [not_not] at hident
      exact ⟨params, by rw [hident], by simp [hname], by simp [hroutes]⟩
    · exact absurd rfl hrow
  · exact absurd rfl hrow

theorem loadsServer_of_rc {val : Value} {s : Loading C}
    (h : (serverLoad db settings val s).1 = 0) : LoadsServer settings val := by
  have hrow := (serverLoad_rc_iff val s).mp h
  unfold serverRow at hrow
  split at hrow
  · rename_i ident params
    split at hrow
    · exact absurd rfl hrow
    rename_i hident
    dsimp only at hrow
    split at hrow
    · exact absurd rfl hrow
    split at hrow
    · rename_i hosts hhosts
      rw [not_not] at hident
      exact ⟨params, by rw [hident], by simp [hhosts]⟩
    · exact absurd rfl hrow
  · exact absurd rfl hrow

/-- A walk over a list that succeeds has come to all of it. -/
theorem exists_of_walkList_rc {σ : Type*} {lost : σ → σ} {cb : Value → σ → ℤ × σ}
    {loads : Value → Prop} (hcb : ∀ val s, (cb val s).1 = 0 → loads val) {data : List Value} {s : σ}
    (h : (walkList settings lost cb data s).1 = 0) :
    ∀ ref ∈ data, ∃ found, ref.resolve settings = some found ∧ loads found := by
  induction data generalizing s with
  | nil => simp
  | cons ref data ih =>
    unfold walkList at h
    rcases href : ref.resolve settings with _ | found
    · rw [href] at h
      exact absurd h (by simp)
    rw [href] at h
    dsimp only at h
    split at h
    · rename_i hrc
      intro val hval
      rcases List.mem_cons.mp hval with rfl | hval
      · exact ⟨found, href, hcb found s hrc⟩
      · exact ih h val hval
    · exact absurd h (by simp)

/-- A walk over a list succeeds if nothing in it fails. -/
theorem walkList_rc {σ : Type*} {lost : σ → σ} {cb : Value → σ → ℤ × σ} {loads : Value → Prop}
    (hcb : ∀ val s, loads val → (cb val s).1 = 0) {data : List Value}
    (h : ∀ ref ∈ data, ∃ found, ref.resolve settings = some found ∧ loads found) (s : σ) :
    (walkList settings lost cb data s).1 = 0 := by
  induction data generalizing s with
  | nil => rfl
  | cons ref data ih =>
    obtain ⟨found, href, hfound⟩ := h ref List.mem_cons_self
    unfold walkList
    rw [href]
    dsimp only
    rw [if_pos (hcb found s hfound)]
    exact ih (fun val hval => h val (List.mem_cons_of_mem ref hval)) _

theorem foldl_rc_iff {σ : Type*} (cb : Pair (Option Value) → σ → ℤ × σ) (pair : Pair Value)
    (pairs : List (Pair Value)) (s : σ) :
    ((pair :: pairs).foldl (hashTraverseCb settings cb) (0, s)).1 = 0 ↔
      (cb ⟨pair.key, pair.value.resolve settings⟩ s).1 = 0 ∧
        (pairs.foldl (hashTraverseCb settings cb)
          (0, (cb ⟨pair.key, pair.value.resolve settings⟩ s).2)).1 = 0 := by
  have hstep : hashTraverseCb settings cb (0, s) pair =
      cb ⟨pair.key, pair.value.resolve settings⟩ s := rfl
  rw [List.foldl_cons, foldl_hashTraverseCb, hstep]
  dsimp only
  split
  · rename_i hrc
    exact ⟨fun h => ⟨hrc, h⟩, fun h => h.2⟩
  · rename_i hrc
    exact iff_of_false hrc fun h => hrc h.1

/-- A walk over a hash that succeeds has succeeded with each pair. -/
theorem of_walkHash_rc {σ : Type*} {cb : Pair (Option Value) → σ → ℤ × σ}
    {loads : Pair (Option Value) → Prop} (hcb : ∀ pair s, (cb pair s).1 = 0 → loads pair)
    {data : Pairs} {s : σ} (h : (walkHash settings cb data s).1 = 0) :
    ∀ pair ∈ data.traverse, loads ⟨pair.key, pair.value.resolve settings⟩ := by
  unfold walkHash at h
  generalize data.traverse = pairs at h ⊢
  induction pairs generalizing s with
  | nil => simp
  | cons pair pairs ih =>
    obtain ⟨hrc, hrest⟩ := (foldl_rc_iff cb pair pairs s).mp h
    intro pair' hpair'
    rcases List.mem_cons.mp hpair' with rfl | hpair'
    · exact hcb _ s hrc
    · exact ih hrest pair' hpair'

/-- A walk over a hash succeeds if it does with each pair. -/
theorem walkHash_rc {σ : Type*} {cb : Pair (Option Value) → σ → ℤ × σ}
    {loads : Pair (Option Value) → Prop} (hcb : ∀ pair s, loads pair → (cb pair s).1 = 0)
    {data : Pairs} (h : ∀ pair ∈ data.traverse, loads ⟨pair.key, pair.value.resolve settings⟩)
    (s : σ) : (walkHash settings cb data s).1 = 0 := by
  unfold walkHash
  generalize data.traverse = pairs at h ⊢
  induction pairs generalizing s with
  | nil => rfl
  | cons pair pairs ih =>
    refine (foldl_rc_iff cb pair pairs s).mpr ⟨?_, ?_⟩
    · exact hcb _ s (h pair List.mem_cons_self)
    · exact ih _ fun pair' hpair' => h pair' (List.mem_cons_of_mem pair hpair')

/-- **The servers load** in no database if the file does not say what is needed. -/
theorem loadsServers_of_rc {s : Loading C} (h : (walkServers db settings s).1 = 0) :
    LoadsServers settings := by
  unfold walkServers at h
  split at h
  · rename_i key servers hservers
    refine ⟨key, servers, hservers, ?_⟩
    have hserver : ∀ val s, (serverLoad db settings val s).1 = 0 → LoadsServer settings val :=
      fun val s => loadsServer_of_rc
    exact exists_of_walkList_rc hserver h
  · exact absurd h (by simp [Loading.fail])

theorem value_ne_none_of_settingsLoad {misread : Value → List Byte} {pair : Pair (Option Value)}
    {s : Loading C} (h : (settingsLoad db misread pair s).1 = 0) : pair.value ≠ none := by
  intro hnone
  unfold settingsLoad at h
  rw [hnone] at h
  exact absurd h (by simp [Loading.fail])

/-- **The settings load** in no database if one of them is a dangling reference. -/
theorem loadsSettings_of_rc {misread : Value → List Byte} {s : Loading C}
    (h : (walkVar settings (bytes "settings") .settings (settingsLoad db misread) s).1 = 0) :
    LoadsSettings settings := by
  intro set hset
  unfold walkVar at h
  rw [hset] at h
  have hvalue : ∀ pair s, (settingsLoad db misread pair s).1 = 0 → pair.value ≠ none :=
    fun pair s => value_ne_none_of_settingsLoad
  exact of_walkHash_rc hvalue h

end

/-! ### With nothing refused -/

section

variable {settings : Pairs} {val : Value} (s : Loading (List Sql))

theorem hostLoad_recording (h : LoadsHost settings val) :
    (hostLoad recording settings val s).1 = 0 := by
  obtain ⟨params, rfl, hname, hroutes⟩ := h
  obtain ⟨name, hname⟩ := Option.ne_none_iff_exists'.mp hname
  obtain ⟨routes, hroutes⟩ := Option.ne_none_iff_exists'.mp hroutes
  obtain ⟨routes, rfl⟩ := exists_hash_of_get hroutes
  rw [hostLoad_rc_iff]
  dsimp only [hostRow]
  rw [if_neg (not_not.mpr rfl), hname]
  dsimp only [dbExec, recording]
  rw [hroutes]
  simp

theorem serverLoad_recording (h : LoadsServer settings val) :
    (serverLoad recording settings val s).1 = 0 := by
  obtain ⟨params, rfl, hhosts⟩ := h
  obtain ⟨hosts, hhosts⟩ := Option.ne_none_iff_exists'.mp hhosts
  obtain ⟨hosts, rfl⟩ := exists_list_of_get hhosts
  rw [serverLoad_rc_iff]
  dsimp only [serverRow]
  rw [if_neg (not_not.mpr rfl)]
  dsimp only [dbExec, recording]
  rw [hhosts]
  simp

/-- **The servers load** in some database if the file says what is needed. -/
theorem walkServers_recording (h : LoadsServers settings) :
    (walkServers recording settings s).1 = 0 := by
  obtain ⟨key, servers, hservers, hloads⟩ := h
  unfold walkServers
  rw [hservers]
  exact walkList_rc (fun val s => serverLoad_recording s) hloads s

/-- **The settings load** in some database if none of them is a dangling reference. -/
theorem walkSettings_recording (misread : Value → List Byte) (h : LoadsSettings settings) :
    (walkVar settings (bytes "settings") .settings (settingsLoad recording misread) s).1 = 0 := by
  unfold walkVar
  split
  · rename_i set hset
    refine walkHash_rc (fun pair s (hvalue : pair.value ≠ none) => ?_) (h set hset) s
    obtain ⟨val, hval⟩ := Option.ne_none_iff_exists'.mp hvalue
    unfold settingsLoad
    rw [hval]
    rfl
  · rfl

end

end M2sh

end Mongrel2
