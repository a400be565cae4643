/-
Loading a configuration file (`config_file.c` of `m2sh`).

`Config_load` stores the servers, the settings and the mimetypes of a file in one
transaction.  Some of the walks that do it have their results thrown away.

* `configLoad` — the load, for any database that takes or refuses statements;
* `store` — what it is for: every element of the file is stored, or nothing is;
* `AllOrNothing` — the load does what it is for;
* `allOrNothing_iff` — it does exactly if no load fails whose result is thrown away,
  or another fails as well.

Design notes: a statement that is refused may have changed something, and the
transaction stays open.  What `DB_close` finds uncommitted is rolled back.  Memory is
always there.  `misread` is what a value that is no token gives where it is read as one.
-/
import Mongrel2.Ast

namespace Mongrel2

open ByteStream HttpParser

namespace M2sh

/-! ### The database -/

/-- The statements, with the values that are printed into them. -/
inductive Sql
  | schema
  | server (uuid accessLog errorLog pidFile chroot defaultHost name port : Option (List Byte))
  | host (serverId : ℤ) (name matching : List Byte)
  | directory (base indexFile defaultCtype : Option (List Byte))
  | proxy (addr port : Option (List Byte))
  | handler (sendSpec sendIdent recvSpec recvIdent : Option (List Byte))
  | route (path : List Byte) (hostId targetId : ℤ) (targetType : List Byte)
  | setting (key value : List Byte)
  | mimetype (extension mimetype : List Byte)
  | mimetypesDefault
  deriving DecidableEq

/-- What a statement leaves. -/
structure Reply (C : Type) where
  ok : Bool
  content : C
  lastId : ℤ

/-- SQLite, for a database with contents in `C`. -/
structure Sqlite (C : Type) where
  /-- `begin` is taken -/
  begins : Bool
  exec : Sql → C → Reply C
  /-- `commit` is taken -/
  commits : C → Bool

/-- The parts of a load that can fail. -/
inductive Part
  | file | setup | servers | server | host | route | settings | setting | defaults
  | mimetypes | mimetype | commit
  deriving DecidableEq

/-- The state of a load. -/
structure Loading (C : Type) where
  /-- what is committed, and what the transaction makes of it -/
  committed : C
  content : C
  /-- `DB_lastid` -/
  lastId : ℤ
  /-- `SERVER_ID` and `HOST_ID` -/
  serverId : ℤ
  hostId : ℤ
  /-- the loads that failed so far -/
  failed : List Part

section

variable {C : Type}

/-- A load fails. -/
def Loading.lose (p : Part) (s : Loading C) : Loading C := { s with failed := s.failed ++ [p] }

/-- A load fails and returns -1. -/
def Loading.fail (p : Part) (s : Loading C) : ℤ × Loading C := (-1, s.lose p)

variable (db : Sqlite C) (settings : Pairs) (misread : Value → List Byte)

/-- `DB_exec`: whether it returned 0. -/
def dbExec (sql : Sql) (s : Loading C) : Bool × Loading C :=
  let r := db.exec sql s.content
  (r.ok, { s with content := r.content, lastId := r.lastId })

/-- A statement whose refusal fails the load of a part, which else returns 0. -/
def insert (p : Part) (sql : Sql) (s : Loading C) : ℤ × Loading C :=
  let (ok, s) := dbExec db sql s
  if ok then (0, s) else s.fail p

/-! ### Targets of routes -/

/-- A statement and the id of its row; -1 when it is refused. -/
def insertTarget (sql : Sql) (s : Loading C) : ℤ × Loading C :=
  let (ok, s) := dbExec db sql s
  if ok then (s.lastId, s) else (-1, s)

/-- `Dir_load`. -/
def dirLoad (params : Pairs) (s : Loading C) : ℤ × Loading C :=
  insertTarget db
    (.directory (str settings params (bytes "base") .qstring)
      (str settings params (bytes "index_file") .qstring)
      (str settings params (bytes "default_ctype") .qstring)) s

/-- `Handler_load`. -/
def handlerLoad (params : Pairs) (s : Loading C) : ℤ × Loading C :=
  insertTarget db
    (.handler (str settings params (bytes "send_spec") .qstring)
      (str settings params (bytes "send_ident") .qstring)
      (str settings params (bytes "recv_spec") .qstring)
      (str settings params (bytes "recv_ident") .qstring)) s

/-- `Proxy_load`. -/
def proxyLoad (params : Pairs) (s : Loading C) : ℤ × Loading C :=
  insertTarget db
    (.proxy (str settings params (bytes "addr") .qstring)
      (str settings params (bytes "port") .number)) s

/-- `btolower` on one byte. -/
def tolower (b : Byte) : Byte := if chr 'A' ≤ b ∧ b ≤ chr 'Z' then b + 32 else b

/-! ### Elements of the file -/

/-- `Route_load`. -/
def routeLoad (pair : Pair (Option Value)) (s : Loading C) : ℤ × Loading C :=
  match pair.value with
  | some (.cls ident params) =>
    let type := ident.map tolower
    let (rc, s) :=
      if type = bytes "dir" then dirLoad db settings params s
      else if type = bytes "proxy" then proxyLoad db settings params s
      else if type = bytes "handler" then handlerLoad db settings params s
      else (-1, s)
    if rc = -1 then s.fail .route else insert db .route (.route pair.key s.hostId rc type) s
  | _ => s.fail .route

/-- `Host_load` up to the walk over its routes, which it returns. -/
def hostRow (val : Value) (s : Loading C) : Option Pairs × Loading C :=
  match val with
  | .cls ident params =>
    if ident ≠ bytes "Host" then (none, s.lose .host)
    else
      match str settings params (bytes "name") .qstring with
      | none => (none, s.lose .host)
      | some name =>
        let (ok, s) := dbExec db (.host s.serverId name name) s
        if !ok then (none, s.lose .host)
        else
          let s := { s with hostId := s.lastId }
          match get settings params (bytes "routes") .hash with
          | some (.hash routes) => (some routes, s)
          | _ => (none, s.lose .host)
  | _ => (none, s.lose .host)

/-- `Host_load`. -/
def hostLoad (val : Value) (s : Loading C) : ℤ × Loading C :=
  match hostRow db settings val s with
  | (none, s) => (-1, s)
  -- the result of the walk is not looked at
  | (some routes, s) => (0, (walkHash settings (routeLoad db settings) routes s).2)

/-- `Server_load` up to the walk over its hosts, which it returns. -/
def serverRow (val : Value) (s : Loading C) : Option (List Value) × Loading C :=
  match val with
  | .cls ident params =>
    if ident ≠ bytes "Server" then (none, s.lose .server)
    else
      let (ok, s) := dbExec db
        (.server (str settings params (bytes "uuid") .qstring)
          (str settings params (bytes "access_log") .qstring)
          (str settings params (bytes "error_log") .qstring)
          (str settings params (bytes "pid_file") .qstring)
          (str settings params (bytes "chroot") .qstring)
          (str settings params (bytes "default_host") .qstring)
          (str settings params (bytes "name") .qstring)
          (str settings params (bytes "port") .number)) s
      if !ok then (none, s.lose .server)
      else
        let s := { s with serverId := s.lastId }
        match get settings params (bytes "hosts") .list with
        | some (.list hosts) => (some hosts, s)
        | _ => (none, s.lose .server)
  | _ => (none, s.lose .server)

/-- `Server_load`. -/
def serverLoad (val : Value) (s : Loading C) : ℤ × Loading C :=
  match serverRow db settings val s with
  | (none, s) => (-1, s)
  -- nor is the result of this one
  | (some hosts, s) => (0, (walkList settings (.lose .host) (hostLoad db settings) hosts s).2)

/-- What `val->as.string->data` gives of any value. -/
def asString (val : Value) : List Byte := val.string.getD (misread val)

/-- `Settings_load`. -/
def settingsLoad (pair : Pair (Option Value)) (s : Loading C) : ℤ × Loading C :=
  match pair.value with
  | none => s.fail .setting
  | some val => insert db .setting (.setting pair.key (asString misread val)) s

/-- `Mimetypes_load`. -/
def mimetypesLoad (pair : Pair (Option Value)) (s : Loading C) : ℤ × Loading C :=
  match pair.value with
  | none => s.fail .mimetype
  | some val => insert db .mimetype (.mimetype pair.key (asString misread val)) s

/-! ### The file -/

/-- `AST_walk`. -/
def walkServers (s : Loading C) : ℤ × Loading C :=
  match settings.search (bytes "servers") with
  | some ⟨_, .list servers⟩ => walkList settings (.lose .server) (serverLoad db settings) servers s
  | _ => s.fail .servers

/-- A hash that the file may set, and the walk over it. -/
def walkVar (name : List Byte) (p : Part) (cb : Pair (Option Value) → Loading C → ℤ × Loading C)
    (s : Loading C) : ℤ × Loading C :=
  match get settings settings name .hash with
  | some (.hash set) => walkHash settings cb set s
  -- a variable that is no hash is passed over like one that is not set
  | _ => (0, if settings.search name = none then s else s.lose p)

/-- `Config_setup`. -/
def configSetup (s : Loading C) : ℤ × Loading C :=
  if !db.begins then s.fail .setup else insert db .setup .schema s

/-- `Config_commit`. -/
def configCommit (s : Loading C) : ℤ × Loading C :=
  if db.commits s.content then (0, { s with committed := s.content }) else s.fail .commit

/-- `check(rc == 0, …)`, and what follows it. -/
def check (x : ℤ × Loading C) (f : Loading C → ℤ × Loading C) : ℤ × Loading C :=
  if x.1 = 0 then f x.2 else (-1, x.2)

/-- A load before anything was done. -/
def Loading.start (before : C) : Loading C := ⟨before, before, 0, 0, 0, []⟩

/-- `Config_load` for what `Parse_config_file` returned.  When it has returned, the
database holds what is committed. -/
def configLoad (file : Option Pairs) (before : C) : ℤ × Loading C :=
  match file with
  | none => (Loading.start before).fail .file
  | some settings =>
    check (configSetup db (.start before)) fun s =>
    check (walkServers db settings s) fun s =>
    check (walkVar settings (bytes "settings") .settings (settingsLoad db misread) s) fun s =>
    check (insert db .defaults .mimetypesDefault s) fun s =>
    -- `rc` is still that of the previous step
    check (0, (walkVar settings (bytes "mimetypes") .mimetypes (mimetypesLoad db misread) s).2)
      fun s => configCommit db s

end

/-! ### What it is for -/

section

variable {C σ : Type}

/-- A state that was reached without a failure. -/
def stored (x : ℤ × σ) : Option σ := if x.1 = 0 then some x.2 else none

/-- Every element of a list is stored. -/
def storeAll {α : Type} (f : α → σ → Option σ) : List α → σ → Option σ
  | [], s => some s
  | a :: as, s => (f a s).bind fun s => storeAll f as s

variable (db : Sqlite C) (settings : Pairs) (misread : Value → List Byte)

/-- Every element of a list is stored, and none is a reference without a target. -/
def storeList (f : Value → σ → Option σ) : List Value → σ → Option σ :=
  storeAll fun ref s => (ref.resolve settings).bind fun val => f val s

/-- Every pair of a hash is stored. -/
def storeHash (cb : Pair (Option Value) → σ → ℤ × σ) (data : Pairs) : σ → Option σ :=
  storeAll (fun pair s => stored (cb ⟨pair.key, pair.value.resolve settings⟩ s)) data.traverse

/-- A host is stored, with all of its routes. -/
def storeHost (val : Value) (s : Loading C) : Option (Loading C) :=
  match hostRow db settings val s with
  | (none, _) => none
  | (some routes, s) => storeHash settings (routeLoad db settings) routes s

/-- A server is stored, with all of its hosts. -/
def storeServer (val : Value) (s : Loading C) : Option (Loading C) :=
  match serverRow db settings val s with
  | (none, _) => none
  | (some hosts, s) => storeList settings (storeHost db settings) hosts s

/-- All servers of the file are stored. -/
def storeServers (s : Loading C) : Option (Loading C) :=
  match settings.search (bytes "servers") with
  | some ⟨_, .list servers⟩ => storeList settings (storeServer db settings) servers s
  | _ => none

/-- A hash is stored if the file sets it. -/
def storeVar (name : List Byte) (cb : Pair (Option Value) → σ → ℤ × σ) (s : σ) : Option σ :=
  match get settings settings name .hash with
  | some (.hash set) => storeHash settings cb set s
  | _ => if settings.search name = none then some s else none

/-- The content of the database after every element of a file was stored; `none` if one
of them cannot be. -/
def store (file : Option Pairs) (before : C) : Option C :=
  let all : Option (Loading C) := do
    let settings ← file
    let s ← stored (configSetup db (.start before))
    let s ← storeServers db settings s
    let s ← storeVar settings (bytes "settings") (settingsLoad db misread) s
    let s ← stored (insert db .defaults .mimetypesDefault s)
    let s ← storeVar settings (bytes "mimetypes") (mimetypesLoad db misread) s
    stored (configCommit db s)
  all.map Loading.committed

/-- If an element of the file cannot be stored, the load returns -1 and leaves the
database as it was; it returns 0 only when every element was stored. -/
def AllOrNothing (file : Option Pairs) (before : C) : Prop :=
  (store db misread file before = none →
    (configLoad db misread file before).1 = -1 ∧
      (configLoad db misread file before).2.committed = before) ∧
  ((configLoad db misread file before).1 = 0 →
    store db misread file before = some (configLoad db misread file before).2.committed)

instance [DecidableEq C] (file : Option Pairs) (before : C) :
    Decidable (AllOrNothing db misread file before) := by
  unfold AllOrNothing
  infer_instance

end

/-- The parts whose failure nobody looks at: what the three walks come to, and the
variables that are passed over. -/
def Part.Discarded : Part → Prop
  | .host | .route | .settings | .mimetypes | .mimetype => True
  | _ => False

instance : DecidablePred Part.Discarded := fun p => by
  unfold Part.Discarded
  split <;> infer_instance

/-! ### A load and what it stores -/

section

variable {C : Type}

/-- A load from a state, and the same of every element or nothing: `new` are the parts
that fail, of which there are only some kinds, and those that are kept make the result
other than 0. -/
structure Loads (among kept : Part → Prop) (s : Loading C) (x : ℤ × Loading C)
    (all : Option (Loading C)) (new : List Part) : Prop where
  failed : x.2.failed = s.failed ++ new
  committed : x.2.committed = s.committed
  among : ∀ p ∈ new, among p
  rc : x.1 = 0 ↔ ∀ p ∈ new, ¬ kept p
  all : all = if new = [] then some x.2 else none

variable {among kept : Part → Prop} {s : Loading C} {x : ℤ × Loading C}
  {all : Option (Loading C)} {new : List Part}

theorem Loads.ok (s : Loading C) : Loads among kept s (0, s) (some s) [] :=
  ⟨(List.append_nil _).symm, rfl, by simp, by simp, rfl⟩

theorem Loads.lost {p : Part} (hp : among p) (hkept : ¬ kept p) :
    Loads among kept s (0, s.lose p) none [p] :=
  ⟨rfl, rfl, by simpa using hp, by simpa using hkept, rfl⟩

theorem Loads.fails {p : Part} (hp : among p) (hkept : kept p) :
    Loads among kept s (s.fail p) none [p] :=
  ⟨rfl, rfl, by simpa using hp, by simpa [Loading.fail] using hkept, rfl⟩

theorem fail_loads (p : Part) (s : Loading C) :
    Loads (· = p) (· = p) s (s.fail p) (stored (s.fail p)) [p] :=
  .fails rfl rfl

/-- A longer list of kinds, and the same of them kept. -/
theorem Loads.mono {among' kept' : Part → Prop} (h : Loads among kept s x all new)
    (hamong : ∀ p, among p → among' p) (hkept : ∀ p, among p → (kept p ↔ kept' p)) :
    Loads among' kept' s x all new := by
  refine ⟨h.failed, h.committed, fun p hp => hamong p (h.among p hp), h.rc.trans ?_, h.all⟩
  exact forall₂_congr fun p hp => not_congr (hkept p (h.among p hp))

/-- The result is thrown away. -/
theorem Loads.discard {kept' : Part → Prop} (h : Loads among kept s x all new)
    (hkept : ∀ p, among p → ¬ kept' p) : Loads among kept' s (0, x.2) all new :=
  ⟨h.failed, h.committed, h.among, iff_of_true rfl fun p hp => hkept p (h.among p hp), h.all⟩

/-- The failures are those since a state with the same ones. -/
theorem Loads.of_eq {s' : Loading C} (h : Loads among kept s' x all new)
    (hfailed : s'.failed = s.failed) (hcommitted : s'.committed = s.committed) :
    Loads among kept s x all new :=
  ⟨hfailed ▸ h.failed, hcommitted ▸ h.committed, h.among, h.rc, h.all⟩

theorem Loads.ne_nil (h : Loads among kept s x all new) (hx : x.1 ≠ 0) : new ≠ [] := by
  rintro rfl
  exact hx (h.rc.mpr (by simp))

theorem Loads.all_eq_none (h : Loads among kept s x all new) (hx : x.1 ≠ 0) : all = none := by
  rw [h.all, if_neg (h.ne_nil hx)]

/-- One load after the other: both fail what they fail, and what is stored by both is
stored by the one and then by the other. -/
theorem Loads.append {x' : ℤ × Loading C} {next : Loading C → Option (Loading C)}
    {new' : List Part} {rc : ℤ} (h : Loads among kept s x all new)
    (h' : Loads among kept x.2 x' (next x.2) new') (hrc : rc = 0 ↔ x.1 = 0 ∧ x'.1 = 0) :
    Loads among kept s (rc, x'.2) (all.bind next) (new ++ new') := by
  refine ⟨?_, h'.committed.trans h.committed, ?_, ?_, ?_⟩
  · rw [h'.failed, h.failed, List.append_assoc]
  · intro p hp
    exact (List.mem_append.mp hp).elim (h.among p) (h'.among p)
  · rw [hrc, h.rc, h'.rc]
    simp only [List.mem_append, or_imp, forall_and]
  · rw [h.all]
    by_cases hnew : new = []
    · rw [if_pos hnew, Option.bind_some, h'.all, hnew, List.nil_append]
    · rw [if_neg hnew, if_neg (by simp [hnew])]
      rfl

theorem Loads.check {f : Loading C → ℤ × Loading C} {next : Loading C → Option (Loading C)}
    (h : Loads among kept s x all new)
    (hf : ∀ s, ∃ new', Loads among kept s (f s) (next s) new') :
    ∃ new', Loads among kept s (M2sh.check x f) (all.bind next) new' := by
  unfold M2sh.check
  by_cases hx : x.1 = 0
  · obtain ⟨new', h'⟩ := hf x.2
    rw [if_pos hx]
    exact ⟨_, h.append h' (by simp [hx])⟩
  · refine ⟨new, ?_⟩
    rw [if_neg hx, h.all_eq_none hx]
    refine ⟨h.failed, h.committed, h.among, ?_, (if_neg (h.ne_nil hx)).symm⟩
    exact iff_of_false (by simp) fun hnew => hx (h.rc.mpr hnew)

variable (db : Sqlite C) (settings : Pairs) (misread : Value → List Byte)

/-! ### The loads, one by one -/

theorem insert_loads (p : Part) (sql : Sql) (s : Loading C) :
    ∃ new, Loads (· = p) (· = p) s (insert db p sql s) (stored (insert db p sql s)) new := by
  unfold insert dbExec
  dsimp only
  split
  · exact ⟨[], (Loads.ok _).of_eq rfl rfl⟩
  · exact ⟨[p], (fail_loads p _).of_eq rfl rfl⟩

theorem insertTarget_failed (sql : Sql) (s : Loading C) :
    (insertTarget db sql s).2.failed = s.failed ∧
      (insertTarget db sql s).2.committed = s.committed := by
  unfold insertTarget dbExec
  dsimp only
  split <;> exact ⟨rfl, rfl⟩

theorem routeLoad_loads (pair : Pair (Option Value)) (s : Loading C) :
    ∃ new, Loads (· = .route) (· = .route) s (routeLoad db settings pair s)
      (stored (routeLoad db settings pair s)) new := by
  unfold routeLoad
  split
  · rename_i ident params _
    dsimp only
    -- the row of the target changes neither what has failed nor what is committed
    have htarget : ∀ x : ℤ × Loading C, x = (if ident.map tolower = bytes "dir" then
          dirLoad db settings params s
        else if ident.map tolower = bytes "proxy" then proxyLoad db settings params s
        else if ident.map tolower = bytes "handler" then handlerLoad db settings params s
        else (-1, s)) → x.2.failed = s.failed ∧ x.2.committed = s.committed := by
      rintro x rfl
      split_ifs
      · exact insertTarget_failed db _ s
      · exact insertTarget_failed db _ s
      · exact insertTarget_failed db _ s
      · exact ⟨rfl, rfl⟩
    generalize (if ident.map tolower = bytes "dir" then dirLoad db settings params s
        else if ident.map tolower = bytes "proxy" then proxyLoad db settings params s
        else if ident.map tolower = bytes "handler" then handlerLoad db settings params s
        else (-1, s)) = x at htarget ⊢
    obtain ⟨hfailed, hcommitted⟩ := htarget x rfl
    split
    · exact ⟨_, (fail_loads .route x.2).of_eq hfailed hcommitted⟩
    · obtain ⟨new, h⟩ := insert_loads db .route (.route pair.key x.2.hostId x.1 (ident.map tolower)) x.2
      exact ⟨new, h.of_eq hfailed hcommitted⟩
  · exact ⟨_, fail_loads .route s⟩

theorem settingsLoad_loads (pair : Pair (Option Value)) (s : Loading C) :
    ∃ new, Loads (· = .setting) (· = .setting) s (settingsLoad db misread pair s)
      (stored (settingsLoad db misread pair s)) new := by
  unfold settingsLoad
  split
  · exact ⟨_, fail_loads .setting s⟩
  · exact insert_loads db .setting _ s

theorem mimetypesLoad_loads (pair : Pair (Option Value)) (s : Loading C) :
    ∃ new, Loads (· = .mimetype) (· = .mimetype) s (mimetypesLoad db misread pair s)
      (stored (mimetypesLoad db misread pair s)) new := by
  unfold mimetypesLoad
  split
  · exact ⟨_, fail_loads .mimetype s⟩
  · exact insert_loads db .mimetype _ s

/-! ### The walks -/

/-- A walk over a hash loads each of its pairs. -/
theorem walkHash_loads {cb : Pair (Option Value) → Loading C → ℤ × Loading C}
    (hcb : ∀ pair s, ∃ new, Loads among kept s (cb pair s) (stored (cb pair s)) new)
    (data : Pairs) (s : Loading C) :
    ∃ new, Loads among kept s (walkHash settings cb data s)
      (storeHash settings cb data s) new := by
  unfold walkHash storeHash
  induction data.traverse generalizing s with
  | nil => exact ⟨[], .ok s⟩
  | cons pair pairs ih =>
    obtain ⟨new, h⟩ := hcb ⟨pair.key, pair.value.resolve settings⟩ s
    obtain ⟨new', h'⟩ := ih (cb ⟨pair.key, pair.value.resolve settings⟩ s).2
    refine ⟨new ++ new', ?_⟩
    rw [List.foldl_cons, foldl_hashTraverseCb]
    refine h.append h' ?_
    simp only [hashTraverseCb, if_pos]
    split
    · rename_i hx
      exact ⟨fun h' => ⟨hx, h'⟩, fun h' => h'.2⟩
    · rename_i hx
      exact iff_of_false hx fun h' => hx h'.1

/-- A walk over a list loads each of its values, up to the first whose failure is kept. -/
theorem walkList_loads {lost : Part} {cb : Value → Loading C → ℤ × Loading C}
    {f : Value → Loading C → Option (Loading C)}
    (hcb : ∀ val s, ∃ new, Loads among kept s (cb val s) (f val s) new)
    (hlost : among lost) (hkept : kept lost) (data : List Value) (s : Loading C) :
    ∃ new, Loads among kept s (walkList settings (.lose lost) cb data s)
      (storeList settings f data s) new := by
  induction data generalizing s with
  | nil => exact ⟨[], .ok s⟩
  | cons ref data ih =>
    unfold walkList storeList storeAll
    rcases ref.resolve settings with _ | found
    · exact ⟨_, .fails hlost hkept⟩
    · obtain ⟨new, h⟩ := hcb found s
      have hrest := h.check fun s => ih s
      exact hrest

/-! ### Hosts, servers and the file -/

/-- The first part of a load, which fails or returns what is left to be walked. -/
structure Row {α : Type} (p : Part) (s : Loading C) (x : Option α × Loading C) : Prop where
  committed : x.2.committed = s.committed
  failed : x.2.failed = s.failed ++ if x.1.isSome then [] else [p]

theorem hostRow_row (val : Value) (s : Loading C) : Row .host s (hostRow db settings val s) := by
  unfold hostRow dbExec
  dsimp only
  split
  · split
    · exact ⟨rfl, rfl⟩
    split
    · exact ⟨rfl, rfl⟩
    split
    · exact ⟨rfl, rfl⟩
    split
    · exact ⟨rfl, (List.append_nil _).symm⟩
    · exact ⟨rfl, rfl⟩
  · exact ⟨rfl, rfl⟩

theorem serverRow_row (val : Value) (s : Loading C) :
    Row .server s (serverRow db settings val s) := by
  unfold serverRow dbExec
  dsimp only
  split
  · split
    · exact ⟨rfl, rfl⟩
    split
    · exact ⟨rfl, rfl⟩
    split
    · exact ⟨rfl, (List.append_nil _).symm⟩
    · exact ⟨rfl, rfl⟩
  · exact ⟨rfl, rfl⟩

theorem Row.loads_none {α : Type} {p : Part} {s s' : Loading C}
    (h : Row p s ((none : Option α), s')) (hp : among p) :
    Loads among (· = p) s (-1, s') none [p] :=
  ⟨h.failed, h.committed, by simpa using hp, by simp, rfl⟩

/-- What the rest of the load comes to is thrown away. -/
theorem Row.loads_some {α : Type} {p : Part} {s s' : Loading C} {a : α}
    (h : Row p s (some a, s'))
    (hrest : Loads (fun q => among q ∧ q ≠ p) kept s' x all new) :
    Loads among (· = p) s (0, x.2) all new := by
  have hfailed : s'.failed = s.failed := h.failed.trans (List.append_nil _)
  refine Loads.of_eq ?_ hfailed h.committed
  exact (hrest.discard fun q hq => hq.2).mono (fun q hq => hq.1) fun q _ => Iff.rfl

theorem hostLoad_loads (val : Value) (s : Loading C) :
    ∃ new, Loads (fun p => p = .host ∨ p = .route) (· = .host) s (hostLoad db settings val s)
      (storeHost db settings val s) new := by
  have hrow := hostRow_row db settings val s
  unfold hostLoad storeHost
  generalize hostRow db settings val s = x at hrow ⊢
  rcases x with ⟨_ | routes, s'⟩
  · exact ⟨_, hrow.loads_none (.inl rfl)⟩
  · obtain ⟨new, h⟩ := walkHash_loads settings (routeLoad_loads db settings) routes s'
    refine ⟨new, hrow.loads_some (h.mono ?_ fun p _ => Iff.rfl)⟩
    rintro p rfl
    exact ⟨.inr rfl, by simp⟩

theorem serverLoad_loads (val : Value) (s : Loading C) :
    ∃ new, Loads (fun p => p = .server ∨ p = .host ∨ p = .route) (· = .server) s
      (serverLoad db settings val s) (storeServer db settings val s) new := by
  have hrow := serverRow_row db settings val s
  unfold serverLoad storeServer
  generalize serverRow db settings val s = x at hrow ⊢
  rcases x with ⟨_ | hosts, s'⟩
  · exact ⟨_, hrow.loads_none (.inl rfl)⟩
  · obtain ⟨new, h⟩ := walkList_loads settings (hostLoad_loads db settings) (.inl rfl) rfl hosts s'
    refine ⟨new, hrow.loads_some (h.mono ?_ fun p _ => Iff.rfl)⟩
    intro p hp
    exact ⟨.inr hp, by rcases hp with rfl | rfl <;> simp⟩

/-! ### The whole file -/

/-- A step of `Config_load` among all parts, of which those that are not discarded are
looked at. -/
abbrev Step (s : Loading C) (x : ℤ × Loading C) (all : Option (Loading C)) : Prop :=
  ∃ new, Loads (fun _ => True) (fun p => ¬ p.Discarded) s x all new

theorem configSetup_step (s : Loading C) : Step s (configSetup db s) (stored (configSetup db s)) := by
  have hsetup : ∀ {x all new}, Loads (· = .setup) (· = .setup) s x all new →
      Loads (fun _ => True) (fun p => ¬ p.Discarded) s x all new := by
    intro x all new h
    refine h.mono (fun _ _ => trivial) ?_
    rintro p rfl
    exact iff_of_true rfl (by decide)
  unfold configSetup
  split
  · exact ⟨_, hsetup (fail_loads .setup s)⟩
  · obtain ⟨new, h⟩ := insert_loads db .setup .schema s
    exact ⟨new, hsetup h⟩

theorem walkServers_step (s : Loading C) :
    Step s (walkServers db settings s) (storeServers db settings s) := by
  unfold walkServers storeServers
  split
  · rename_i servers _
    obtain ⟨new, h⟩ := walkList_loads settings (serverLoad_loads db settings) (.inl rfl) rfl servers s
    refine ⟨new, h.mono (fun _ _ => trivial) ?_⟩
    rintro p (rfl | rfl | rfl) <;> decide
  · exact ⟨_, .fails trivial (by decide)⟩

theorem walkVar_loads {name : List Byte} {p var : Part}
    {cb : Pair (Option Value) → Loading C → ℤ × Loading C}
    (hcb : ∀ pair s, ∃ new, Loads (· = p) (· = p) s (cb pair s) (stored (cb pair s)) new)
    (hvar : var ≠ p) (s : Loading C) :
    ∃ new, Loads (fun q => q = p ∨ q = var) (· = p) s (walkVar settings name var cb s)
      (storeVar settings name cb s) new := by
  unfold walkVar storeVar
  split
  · obtain ⟨new, h⟩ := walkHash_loads settings hcb _ s
    exact ⟨new, h.mono (fun q hq => .inl hq) fun q _ => Iff.rfl⟩
  · split
    · exact ⟨[], .ok s⟩
    · exact ⟨[var], .lost (.inr rfl) hvar⟩

theorem settings_step (s : Loading C) :
    Step s (walkVar settings (bytes "settings") .settings (settingsLoad db misread) s)
      (storeVar settings (bytes "settings") (settingsLoad db misread) s) := by
  obtain ⟨new, h⟩ :=
    @walkVar_loads C settings (bytes "settings") .setting .settings _
      (settingsLoad_loads db misread) (by decide) s
  refine ⟨new, h.mono (fun _ _ => trivial) ?_⟩
  rintro p (rfl | rfl) <;> decide

theorem defaults_step (s : Loading C) :
    Step s (insert db .defaults .mimetypesDefault s)
      (stored (insert db .defaults .mimetypesDefault s)) := by
  obtain ⟨new, h⟩ := insert_loads db .defaults .mimetypesDefault s
  refine ⟨new, h.mono (fun _ _ => trivial) ?_⟩
  rintro p rfl
  decide

theorem mimetypes_step (s : Loading C) :
    Step s (0, (walkVar settings (bytes "mimetypes") .mimetypes (mimetypesLoad db misread) s).2)
      (storeVar settings (bytes "mimetypes") (mimetypesLoad db misread) s) := by
  obtain ⟨new, h⟩ :=
    @walkVar_loads C settings (bytes "mimetypes") .mimetype .mimetypes _
      (mimetypesLoad_loads db misread) (by decide) s
  have hdiscard : Loads (fun q => q = .mimetype ∨ q = .mimetypes) (fun p => ¬ p.Discarded) s
      (0, (walkVar settings (bytes "mimetypes") .mimetypes (mimetypesLoad db misread) s).2)
      (storeVar settings (bytes "mimetypes") (mimetypesLoad db misread) s) new := by
    refine h.discard ?_
    rintro p (rfl | rfl) <;> decide
  exact ⟨new, hdiscard.mono (fun _ _ => trivial) fun _ _ => Iff.rfl⟩

/-- How `Config_load` ends: with the commit if no failure was looked at. -/
structure Ends (s : Loading C) (x : ℤ × Loading C) (all : Option (Loading C))
    (new : List Part) : Prop where
  failed : x.2.failed = s.failed ++ new
  returned : (∀ p ∈ new, p.Discarded) → x.1 = 0
  aborted : (∃ p ∈ new, ¬ p.Discarded) → x.1 = -1 ∧ x.2.committed = s.committed
  all : all = if new = [] then some x.2 else none

theorem configCommit_ends (s : Loading C) :
    ∃ new, Ends s (configCommit db s) (stored (configCommit db s)) new := by
  unfold configCommit
  split
  · exact ⟨[], (List.append_nil _).symm, fun _ => rfl, by simp, rfl⟩
  · refine ⟨[.commit], rfl, fun h => ?_, fun _ => ⟨rfl, rfl⟩, rfl⟩
    exact absurd (h .commit (List.mem_singleton_self _)) (by decide)

/-- A step before the end. -/
theorem Step.ends {f : Loading C → ℤ × Loading C} {next : Loading C → Option (Loading C)}
    (h : Step s x all) (hf : ∀ s, ∃ new, Ends s (f s) (next s) new) :
    ∃ new, Ends s (check x f) (all.bind next) new := by
  obtain ⟨new, h⟩ := h
  unfold check
  by_cases hx : x.1 = 0
  · obtain ⟨new', h'⟩ := hf x.2
    have hnew : ∀ p ∈ new, p.Discarded := fun p hp => not_not.mp (h.rc.mp hx p hp)
    rw [if_pos hx]
    refine ⟨new ++ new', ?_, fun hp => ?_, ?_, ?_⟩
    · rw [h'.failed, h.failed, List.append_assoc]
    · exact h'.returned fun p hp' => hp p (List.mem_append_right new hp')
    · rintro ⟨p, hp, hkept⟩
      have hp' : p ∈ new' := (List.mem_append.mp hp).resolve_left fun hp => hkept (hnew p hp)
      rw [← h.committed]
      exact h'.aborted ⟨p, hp', hkept⟩
    · rw [h.all]
      by_cases hnil : new = []
      · rw [if_pos hnil, Option.bind_some, h'.all, hnil, List.nil_append]
      · rw [if_neg hnil, if_neg (by simp [hnil])]
        rfl
  · rw [if_neg hx, h.all_eq_none hx]
    refine ⟨new, h.failed, fun hp => ?_, fun _ => ⟨rfl, h.committed⟩, (if_neg (h.ne_nil hx)).symm⟩
    exact absurd (h.rc.mpr fun p hp' => not_not_intro (hp p hp')) hx

theorem configLoad_ends (settings : Pairs) (before : C) :
    ∃ new, Ends (.start before) (configLoad db misread (some settings) before)
      (do
        let s ← stored (configSetup db (.start before))
        let s ← storeServers db settings s
        let s ← storeVar settings (bytes "settings") (settingsLoad db misread) s
        let s ← stored (insert db .defaults .mimetypesDefault s)
        let s ← storeVar settings (bytes "mimetypes") (mimetypesLoad db misread) s
        stored (configCommit db s)) new := by
  -- from the last step to the first
  have hmimetypes := fun s => (mimetypes_step db settings misread s).ends (configCommit_ends db)
  have hdefaults := fun s => (defaults_step db s).ends hmimetypes
  have hsettings := fun s => (settings_step db settings misread s).ends hdefaults
  have hservers := fun s => (walkServers_step db settings s).ends hsettings
  exact (configSetup_step db (.start before)).ends hservers

variable (file : Option Pairs) (before : C)

end

/-! ### A host without its route -/

/-- A database of rows that refuses a server without a port, whose statement does not
parse then. -/
def rows : Sqlite (List Sql) where
  begins := true
  exec sql content :=
    match sql with
    | .schema => ⟨true, [], 0⟩
    | .server _ _ _ _ _ _ _ none => ⟨false, content, content.length⟩
    | sql => ⟨true, content ++ [sql], content.length + 1⟩
  commits _ := true

/-- The tree of a few pairs, in the order in which the parser inserts them. -/
def pairs (ps : List (String × Value)) : Pairs :=
  ps.foldl (fun t p => (t.insert (bytes p.1) ⟨bytes p.1, p.2⟩).getD t) .nil

/-- One server with one host, whose one route goes to a class of this name. -/
def oneRoute (target : String) : Pairs :=
  pairs [("servers", .list [.cls (bytes "Server") (pairs
    [("port", .number (bytes "80")),
     ("hosts", .list [.cls (bytes "Host") (pairs
        [("name", .qstring (bytes "a")),
         ("routes", .hash (pairs [("/", .cls (bytes target) .nil)]))])])])])]

-- with a class that is known, the five statements are committed
example : (configLoad rows (fun _ => []) (some (oneRoute "Dir")) []).1 = 0 ∧
    (configLoad rows (fun _ => []) (some (oneRoute "Dir")) []).2.committed.length = 5 := by
  decide

end M2sh

end Mongrel2
