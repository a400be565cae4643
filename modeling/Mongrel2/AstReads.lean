/-
What the walks over a configuration file read of its values (`ast.c`, `config_file.c`).

A value is a tag and a union.  The grammar takes any expression in any place, and a
reference without a target is NULL.

* `loadReads` — the reads of values that `Config_load` makes;
* `TypeSafe` — none of them is of NULL or of a member that is not the one of the tag;
* `typeSafe_iff` — the loads of a file are, exactly if what is stored as a setting or a
  mimetype is a string; with the members of all tokens taken as one, a token.

Design notes: `lenient` takes the members that point to a token as one.  The fields of
the database functions are where the loads have them.  A read after a wild one is of
what the model gives for it.
-/
import Mongrel2.FileLoads

namespace Mongrel2

open ByteStream HttpParser

namespace M2sh

/-! ### Reads -/

/-- A read of a value. -/
structure Read where
  /-- its tag; `none` for NULL -/
  tag : Option ValueType
  /-- the member of `as`, by the tag that it belongs to; `none` if just the tag is read -/
  member : Option ValueType

/-- The tags whose member points to a token. -/
def ValueType.isToken : ValueType → Bool
  | .qstring | .pattern | .number | .ident | .ref => true
  | .cls | .list | .hash => false

/-- A member belongs to a tag. -/
def Belongs (lenient : Bool) (member tag : ValueType) : Prop :=
  member = tag ∨ (lenient && member.isToken && tag.isToken) = true

instance (lenient : Bool) (member tag : ValueType) : Decidable (Belongs lenient member tag) := by
  unfold Belongs
  infer_instance

/-- There is a value, and the member that is read belongs to its tag. -/
def Read.Safe (lenient : Bool) (r : Read) : Prop :=
  ∃ tag, r.tag = some tag ∧ ∀ member, r.member = some member → Belongs lenient member tag

instance (lenient : Bool) (r : Read) : Decidable (r.Safe lenient) :=
  decidable_of_iff
    (r.tag.any fun tag => r.member.all fun member => decide (Belongs lenient member tag)) (by
    rcases r with ⟨_ | tag, _ | member⟩
    · simp [Read.Safe]
    · simp [Read.Safe]
    · simp [Read.Safe]
    · simp [Read.Safe])

/-- `val->type`. -/
def readType (val : Option Value) : Read := ⟨val.map Value.type, none⟩

/-- `val->as`, and which member. -/
def readAs (val : Option Value) (member : ValueType) : Read := ⟨val.map Value.type, some member⟩

/-! ### Lookups and walks -/

/-- `Value_resolve`. -/
def Value.resolveReads (val : Value) : List Read :=
  readType (some val) :: if val.type = .ref then [readAs (some val) .ref] else []

/-- What is resolved only if it is a reference. -/
def Value.refReads (val : Value) : List Read :=
  readType (some val) :: if val.type = .ref then val.resolveReads else []

section

variable (settings : Pairs)

/-- `AST_get`. -/
def getReads (fr : Pairs) (name : List Byte) : List Read :=
  match fr.search name with
  | none => []
  | some pair =>
    let val := pair.value.resolve settings
    pair.value.refReads ++ if val.isSome then [readType val] else []

/-- `AST_str`. -/
def strReads (fr : Pairs) (name : List Byte) (type : ValueType) : List Read :=
  let val := get settings fr name type
  getReads settings fr name ++ if val.isSome then [readAs val .qstring] else []

/-- More than one `AST_str`. -/
def strsReads (fr : Pairs) (names : List (String × ValueType)) : List Read :=
  names.flatMap fun p => strReads settings fr (bytes p.1) p.2

variable {σ : Type*}

/-- `AST_walk_list`. -/
def walkListReads (cb : Value → σ → ℤ × σ) (cbReads : Value → σ → List Read) :
    List Value → σ → List Read
  | [], _ => []
  | ref :: data, s =>
    ref.resolveReads ++
      match ref.resolve settings with
      | none => [readAs (some ref) .ref]
      | some found =>
        cbReads found s ++
          if (cb found s).1 = 0 then walkListReads cb cbReads data (cb found s).2 else []

/-- `ast_hash_traverse_cb` for one pair after the other. -/
def hashTraverseReads (cb : Pair (Option Value) → σ → ℤ × σ)
    (cbReads : Pair (Option Value) → σ → List Read) : List (Pair Value) → σ → List Read
  | [], _ => []
  | pair :: pairs, s =>
    let found : Pair (Option Value) := ⟨pair.key, pair.value.resolve settings⟩
    pair.value.refReads ++ cbReads found s ++
      hashTraverseReads cb cbReads pairs (cb found s).2

/-- `AST_walk_hash`. -/
def walkHashReads (cb : Pair (Option Value) → σ → ℤ × σ)
    (cbReads : Pair (Option Value) → σ → List Read) (data : Value) (s : σ) : List Read :=
  readAs (some data) .hash ::
    match data with
    | .hash elements => hashTraverseReads settings cb cbReads elements.traverse s
    | _ => []

end

/-! ### Elements of the file -/

section

variable {C : Type} (db : Sqlite C) (settings : Pairs) (misread : Value → List Byte)

/-- `Dir_load`. -/
def dirReads (params : Pairs) : List Read := strsReads settings params dirParams

/-- `Handler_load`. -/
def handlerReads (params : Pairs) : List Read := strsReads settings params handlerParams

/-- `Proxy_load`. -/
def proxyReads (params : Pairs) : List Read := strsReads settings params proxyParams

/-- `Route_load`. -/
def routeReads (pair : Pair (Option Value)) : List Read :=
  match pair.value with
  | none => []
  | some (.cls ident params) =>
    let type := ident.map tolower
    [readType pair.value, readAs pair.value .cls] ++
      if type = bytes "dir" then dirReads settings params
      else if type = bytes "proxy" then proxyReads settings params
      else if type = bytes "handler" then handlerReads settings params
      else []
  -- the message has the name of the type
  | some _ => [readType pair.value, readType pair.value]

/-- `CONFIRM_TYPE` and `val->as.cls`. -/
def confirmReads (val : Value) : List Read :=
  readType (some val) ::
    if val.type = .cls then [readAs (some val) .cls, readAs (some val) .cls] else []

/-- `Host_load`. -/
def hostReads (val : Value) (s : Loading C) : List Read :=
  confirmReads val ++
    match val with
    | .cls ident params =>
      if ident ≠ bytes "Host" then []
      else
        strReads settings params (bytes "name") .qstring ++
          match str settings params (bytes "name") .qstring with
          | none => []
          | some name =>
            let (ok, s) := dbExec db (.host s.serverId name name) s
            if !ok then []
            else
              let s := { s with hostId := s.lastId }
              getReads settings params (bytes "routes") ++
                match get settings params (bytes "routes") .hash with
                | none => []
                | some routes =>
                  walkHashReads settings (routeLoad db settings)
                    (fun pair _ => routeReads settings pair) routes s
    | _ => []

/-- `Server_load`. -/
def serverReads (val : Value) (s : Loading C) : List Read :=
  confirmReads val ++
    match val with
    | .cls ident params =>
      if ident ≠ bytes "Server" then []
      else
        strsReads settings params serverParams ++
          let (ok, s) := dbExec db (serverSql settings params) s
          if !ok then []
          else
            let s := { s with serverId := s.lastId }
            getReads settings params (bytes "hosts") ++
              match get settings params (bytes "hosts") .list with
              -- the message has two of the parameters
              | none => strsReads settings params [("uuid", .qstring), ("name", .qstring)]
              | some (.list hosts) =>
                readAs (some (.list hosts)) .list ::
                  walkListReads settings (hostLoad db settings) (hostReads db settings) hosts s
              | some hosts => [readAs (some hosts) .list]
    | _ => []

/-- `Settings_load` or `Mimetypes_load`, and what it returns. -/
def textReads (load : Pair (Option Value) → Loading C → ℤ × Loading C) (pair : Pair (Option Value))
    (s : Loading C) : List Read :=
  if pair.value.isNone then []
  else
    readAs pair.value .qstring ::
      -- the message has the value once more
      if (load pair s).1 = 0 then [] else [readAs pair.value .qstring]

/-! ### The file -/

/-- `AST_walk`. -/
def walkServersReads (s : Loading C) : List Read :=
  match settings.search (bytes "servers") with
  | none => []
  | some pair =>
    readType (some pair.value) ::
      match pair.value with
      | .list servers =>
        readAs (some pair.value) .list ::
          walkListReads settings (serverLoad db settings) (serverReads db settings) servers s
      | _ => []

/-- A hash that the file may set, and the walk over it. -/
def walkVarReads (name : List Byte) (load : Pair (Option Value) → Loading C → ℤ × Loading C)
    (s : Loading C) : List Read :=
  getReads settings settings name ++
    match get settings settings name .hash with
    | none => []
    | some set => walkHashReads settings load (textReads load) set s

/-- What follows a `check(rc == 0, …)`. -/
def checkReads (x : ℤ × Loading C) (f : Loading C → List Read) : List Read :=
  if x.1 = 0 then f x.2 else []

mutual

/-- `AST_destroy_value`. -/
def Value.destroyReads : Value → List Read
  | .qstring data => [readType (some (.qstring data)), readAs (some (.qstring data)) .qstring]
  | .pattern data => [readType (some (.pattern data)), readAs (some (.pattern data)) .pattern]
  | .number data => [readType (some (.number data)), readAs (some (.number data)) .number]
  | .cls ident params =>
    readType (some (.cls ident params)) :: readAs (some (.cls ident params)) .cls ::
      destroyReads params
  | .list elements =>
    readType (some (.list elements)) :: readAs (some (.list elements)) .list ::
      destroyListReads elements
  | .hash elements =>
    readType (some (.hash elements)) :: readAs (some (.hash elements)) .hash ::
      destroyReads elements
  | .ident data => [readType (some (.ident data)), readAs (some (.ident data)) .ident]
  | .ref data => [readType (some (.ref data)), readAs (some (.ref data)) .ref]

/-- `AST_destroy_list`. -/
def destroyListReads : List Value → List Read
  | [] => []
  | val :: data => val.destroyReads ++ destroyListReads data

/-- `AST_destroy`. -/
def destroyReads : Pairs → List Read
  | .nil => []
  | .node _ low equal high value =>
    destroyPairReads value ++ destroyReads low ++ destroyReads equal ++ destroyReads high

/-- `AST_destroy_cb`, for a node that has a pair. -/
def destroyPairReads : Option (Pair Value) → List Read
  | none => []
  | some ⟨_, val⟩ => val.destroyReads

end

/-- `Config_load`. -/
def loadReads (file : Option Pairs) (before : C) : List Read :=
  match file with
  | none => []
  | some settings =>
    checkReads (configSetup db (.start before)) (fun s =>
      walkServersReads db settings s ++
      checkReads (walkServers db settings s) fun s =>
      walkVarReads settings (bytes "settings") (settingsLoad db misread) s ++
      checkReads
        (walkVar settings (bytes "settings") .settings (settingsLoad db misread) s) fun s =>
      checkReads (insert db .defaults .mimetypesDefault s) fun s =>
      walkVarReads settings (bytes "mimetypes") (mimetypesLoad db misread) s) ++
    destroyReads settings

end

/-- Whatever the database takes or refuses, and whatever a wild read gives, every read of
a load of the file is safe. -/
def TypeSafe (lenient : Bool) (file : Option Pairs) : Prop :=
  ∀ (C : Type) (db : Sqlite C) (misread : Value → List Byte) (before : C),
    ∀ r ∈ loadReads db misread file before, r.Safe lenient

/-! ### When a load is type safe -/

section

variable (lenient : Bool) (settings : Pairs)

/-- A parameter that is asked for may be read as a string if it is there. -/
def StrFine (params : Pairs) (name : List Byte) (type : ValueType) : Prop :=
  get settings params name type = none ∨ Belongs lenient .qstring type

/-- A proxy has no number for its port, unless that is read like a string. -/
def RouteFine (pair : Pair (Option Value)) : Prop :=
  ∀ ident params, pair.value = some (.cls ident params) → ident.map tolower = bytes "proxy" →
    StrFine lenient settings params (bytes "port") .number

/-- The routes of a host, if it comes to them. -/
def HostFine (val : Value) : Prop :=
  ∀ params, val = .cls (bytes "Host") params →
    str settings params (bytes "name") .qstring ≠ none →
    ∀ routes, get settings params (bytes "routes") .hash = some (.hash routes) →
      ∀ pair ∈ routes.traverse,
        RouteFine lenient settings ⟨pair.key, pair.value.resolve settings⟩

/-- Every value that a walk over a list comes to, which goes on after those that load. -/
def Reached (fine loads : Value → Prop) : List Value → Prop
  | [] => True
  | ref :: data =>
    ∀ found, ref.resolve settings = some found →
      fine found ∧ (loads found → Reached fine loads data)

/-- The port and the hosts of a server. -/
def ServerFine (val : Value) : Prop :=
  ∀ params, val = .cls (bytes "Server") params →
    StrFine lenient settings params (bytes "port") .number ∧
    ∀ hosts, get settings params (bytes "hosts") .list = some (.list hosts) →
      Reached settings (HostFine lenient settings) (LoadsHost settings) hosts

/-- The servers of the file. -/
def ServersFine : Prop :=
  ∀ key servers, settings.search (bytes "servers") = some ⟨key, .list servers⟩ →
    Reached settings (ServerFine lenient settings) (LoadsServer settings) servers

/-- The values of a hash that is stored may be read as strings. -/
def VarFine (name : List Byte) : Prop :=
  ∀ set, get settings settings name .hash = some (.hash set) →
    ∀ pair ∈ set.traverse, ∀ val, pair.value.resolve settings = some val →
      Belongs lenient .qstring val.type

/-- What the load of a file comes to may be read as it is. -/
def FileFine : Prop :=
  ServersFine lenient settings ∧
    (LoadsServers settings →
      VarFine lenient settings (bytes "settings") ∧
        (LoadsSettings settings → VarFine lenient settings (bytes "mimetypes")))

end

/-! ### Lookups -/

section

variable {lenient : Bool} {settings : Pairs}

/-- All of a list of reads are safe. -/
def AllSafe (lenient : Bool) (reads : List Read) : Prop := ∀ r ∈ reads, r.Safe lenient

instance (reads : List Read) : Decidable (AllSafe lenient reads) := by
  unfold AllSafe
  infer_instance

@[simp] theorem allSafe_nil : AllSafe lenient [] := List.forall_mem_nil _

@[simp] theorem allSafe_cons {r : Read} {reads : List Read} :
    AllSafe lenient (r :: reads) ↔ r.Safe lenient ∧ AllSafe lenient reads := List.forall_mem_cons

@[simp] theorem allSafe_append {reads reads' : List Read} :
    AllSafe lenient (reads ++ reads') ↔ AllSafe lenient reads ∧ AllSafe lenient reads' :=
  List.forall_mem_append

theorem belongs_self (tag : ValueType) : Belongs lenient tag tag := .inl rfl

theorem readType_safe (val : Value) : (readType (some val)).Safe lenient :=
  ⟨val.type, rfl, fun _ h => absurd h (by simp [readType])⟩

theorem readAs_safe_iff {val : Value} {member : ValueType} :
    (readAs (some val) member).Safe lenient ↔ Belongs lenient member val.type := by
  simp [Read.Safe, readAs]

theorem resolveReads_safe (val : Value) : AllSafe lenient val.resolveReads := by
  unfold Value.resolveReads
  refine allSafe_cons.mpr ⟨readType_safe val, ?_⟩
  split
  · rename_i href
    refine allSafe_cons.mpr ⟨readAs_safe_iff.mpr ?_, allSafe_nil⟩
    rw [href]
    exact belongs_self _
  · exact allSafe_nil

theorem refReads_safe (val : Value) : AllSafe lenient val.refReads := by
  unfold Value.refReads
  refine allSafe_cons.mpr ⟨readType_safe val, ?_⟩
  split
  · exact resolveReads_safe val
  · exact allSafe_nil

theorem getReads_safe (fr : Pairs) (name : List Byte) :
    AllSafe lenient (getReads settings fr name) := by
  unfold getReads
  split
  · exact allSafe_nil
  · rename_i pair _
    refine allSafe_append.mpr ⟨refReads_safe _, ?_⟩
    rcases pair.value.resolve settings with _ | val
    · exact allSafe_nil
    · exact allSafe_cons.mpr ⟨readType_safe val, allSafe_nil⟩

theorem strReads_safe_iff {fr : Pairs} {name : List Byte} {type : ValueType} :
    AllSafe lenient (strReads settings fr name type) ↔ StrFine lenient settings fr name type := by
  unfold strReads StrFine
  dsimp only
  rw [allSafe_append, and_iff_right (getReads_safe fr name)]
  rcases hget : get settings fr name type with _ | val
  · simp
  · simp [readAs_safe_iff, type_of_get hget]

theorem strFine_qstring (params : Pairs) (name : List Byte) :
    StrFine lenient settings params name .qstring := .inr (belongs_self _)

theorem strsReads_safe_iff {fr : Pairs} {names : List (String × ValueType)} :
    AllSafe lenient (strsReads settings fr names) ↔
      ∀ p ∈ names, StrFine lenient settings fr (bytes p.1) p.2 := by
  unfold strsReads
  rw [AllSafe]
  simp only [List.mem_flatMap, forall_exists_index, and_imp]
  refine ⟨fun h p hp => ?_, fun h r p hp => ?_⟩
  · exact strReads_safe_iff.mp fun r hr => h r p hp hr
  · exact strReads_safe_iff.mpr (h p hp) r

/-! ### Walks -/

section

variable {σ : Type*} {cb : Value → σ → ℤ × σ} {cbReads : Value → σ → List Read}
  {fine loads : Value → Prop}

theorem walkListReads_safe (hcb : ∀ val s, fine val → AllSafe lenient (cbReads val s))
    (hrc : ∀ val s, (cb val s).1 = 0 → loads val) {data : List Value}
    (h : Reached settings fine loads data) (s : σ) :
    AllSafe lenient (walkListReads settings cb cbReads data s) := by
  induction data generalizing s with
  | nil => exact allSafe_nil
  | cons ref data ih =>
    unfold walkListReads
    refine allSafe_append.mpr ⟨resolveReads_safe ref, ?_⟩
    rcases href : ref.resolve settings with _ | found
    · -- only a reference can have no target
      refine allSafe_cons.mpr ⟨readAs_safe_iff.mpr ?_, allSafe_nil⟩
      rcases ref with _ | _ | _ | _ | _ | _ | _ | data
      case ref => exact belongs_self _
      all_goals exact absurd href (by simp [Value.resolve])
    · obtain ⟨hfound, hrest⟩ := h found href
      refine allSafe_append.mpr ⟨hcb found s hfound, ?_⟩
      split
      · rename_i hzero
        exact ih (hrest (hrc found s hzero)) _
      · exact allSafe_nil

theorem reached_of_safe (hcb : ∀ val s, AllSafe lenient (cbReads val s) → fine val)
    (hrc : ∀ val s, loads val → (cb val s).1 = 0) {data : List Value} {s : σ}
    (h : AllSafe lenient (walkListReads settings cb cbReads data s)) :
    Reached settings fine loads data := by
  induction data generalizing s with
  | nil => trivial
  | cons ref data ih =>
    intro found href
    unfold walkListReads at h
    rw [href] at h
    dsimp only at h
    rw [allSafe_append, allSafe_append] at h
    obtain ⟨-, hfound, hrest⟩ := h
    refine ⟨hcb found s hfound, fun hloads => ?_⟩
    rw [if_pos (hrc found s hloads)] at hrest
    exact ih hrest

end

theorem walkHashReads_safe_iff {σ : Type*} {cb : Pair (Option Value) → σ → ℤ × σ}
    {cbReads : Pair (Option Value) → σ → List Read} {fine : Pair (Option Value) → Prop}
    (hcb : ∀ pair s, AllSafe lenient (cbReads pair s) ↔ fine pair) (data : Pairs) (s : σ) :
    AllSafe lenient (walkHashReads settings cb cbReads (.hash data) s) ↔
      ∀ pair ∈ data.traverse, fine ⟨pair.key, pair.value.resolve settings⟩ := by
  have hdata : (readAs (some (.hash data)) .hash).Safe lenient :=
    readAs_safe_iff.mpr (belongs_self _)
  unfold walkHashReads
  rw [allSafe_cons, and_iff_right hdata]
  dsimp only
  generalize data.traverse = pairs
  induction pairs generalizing s with
  | nil => simp [hashTraverseReads]
  | cons pair pairs ih =>
    unfold hashTraverseReads
    dsimp only
    rw [allSafe_append, allSafe_append, and_iff_right (refReads_safe _), List.forall_mem_cons]
    exact and_congr (hcb _ s) (ih _)

/-! ### Elements of the file -/

theorem dirReads_safe (params : Pairs) : AllSafe lenient (dirReads settings params) := by
  rw [dirReads, strsReads_safe_iff]
  simp [dirParams, strFine_qstring]

theorem handlerReads_safe (params : Pairs) : AllSafe lenient (handlerReads settings params) := by
  rw [handlerReads, strsReads_safe_iff]
  simp [handlerParams, strFine_qstring]

theorem proxyReads_safe_iff {params : Pairs} :
    AllSafe lenient (proxyReads settings params) ↔
      StrFine lenient settings params (bytes "port") .number := by
  rw [proxyReads, strsReads_safe_iff]
  simp [proxyParams, strFine_qstring]

theorem routeReads_safe_iff {pair : Pair (Option Value)} :
    AllSafe lenient (routeReads settings pair) ↔ RouteFine lenient settings pair := by
  unfold routeReads RouteFine
  rcases hpair : pair.value with _ | val
  · simp
  rcases val with _ | _ | _ | ⟨ident, params⟩ | _ | _ | _ | _
  case cls =>
    have hval : AllSafe lenient [readType (some (.cls ident params)),
        readAs (some (.cls ident params)) .cls] := by
      refine allSafe_cons.mpr ⟨readType_safe _, allSafe_cons.mpr ⟨?_, allSafe_nil⟩⟩
      exact readAs_safe_iff.mpr (belongs_self _)
    have hfine : (∀ ident' params', some (Value.cls ident params) = some (.cls ident' params') →
        ident'.map tolower = bytes "proxy" →
          StrFine lenient settings params' (bytes "port") .number) ↔
        (ident.map tolower = bytes "proxy" →
          StrFine lenient settings params (bytes "port") .number) := by
      refine ⟨fun h => h ident params rfl, ?_⟩
      rintro h _ _ ⟨⟩
      exact h
    rw [hfine]
    dsimp only
    rw [allSafe_append, and_iff_right hval]
    split_ifs with hdir hprox hhandler
    · exact iff_of_true (dirReads_safe params) fun h => absurd (hdir.symm.trans h) (by decide)
    · rw [proxyReads_safe_iff, forall_prop_of_true hprox]
    · exact iff_of_true (handlerReads_safe params) fun h => absurd h hprox
    · exact iff_of_true allSafe_nil fun h => absurd h hprox
  all_goals
    refine iff_of_true ?_ (by simp)
    exact allSafe_cons.mpr ⟨readType_safe _, allSafe_cons.mpr ⟨readType_safe _, allSafe_nil⟩⟩

theorem confirmReads_safe (val : Value) : AllSafe lenient (confirmReads val) := by
  unfold confirmReads
  refine allSafe_cons.mpr ⟨readType_safe val, ?_⟩
  split
  · rename_i hval
    have hcls : (readAs (some val) .cls).Safe lenient := by
      rw [readAs_safe_iff, hval]
      exact belongs_self _
    exact allSafe_cons.mpr ⟨hcls, allSafe_cons.mpr ⟨hcls, allSafe_nil⟩⟩
  · exact allSafe_nil

section

variable {C : Type} (db : Sqlite C)

/-- The reads of a host are safe if those of its routes are, to which only a host comes
that is stored. -/
theorem hostReads_safe_iff (val : Value) (s : Loading C) :
    AllSafe lenient (hostReads db settings val s) ↔
      ∀ params, val = .cls (bytes "Host") params →
        ∀ name, str settings params (bytes "name") .qstring = some name →
          (db.exec (.host s.serverId name name) s.content).ok = true →
          ∀ routes, get settings params (bytes "routes") .hash = some (.hash routes) →
            ∀ pair ∈ routes.traverse,
              RouteFine lenient settings ⟨pair.key, pair.value.resolve settings⟩ := by
  unfold hostReads dbExec
  dsimp only
  rw [allSafe_append, and_iff_right (confirmReads_safe val)]
  split
  · rename_i ident params
    split
    · rename_i hident
      refine iff_of_true allSafe_nil ?_
      rintro params h
      exact absurd (Value.cls.inj h).1 hident
    rename_i hident
    rw [not_not] at hident
    subst hident
    simp only [Value.cls.injEq, true_and, forall_eq']
    rw [allSafe_append, and_iff_right (strReads_safe_iff.mpr (strFine_qstring _ _))]
    split
    · rename_i hname
      simp [hname]
    rename_i name hname
    rw [hname]
    simp only [Option.some.injEq, forall_eq']
    split
    · rename_i hrefused
      exact iff_of_true allSafe_nil fun hok => absurd hok (by simpa using hrefused)
    rename_i htaken
    rw [forall_prop_of_true (by simpa using htaken), allSafe_append,
      and_iff_right (getReads_safe _ _)]
    split
    · rename_i hroutes
      simp [hroutes]
    · rename_i routes hroutes
      obtain ⟨routes, rfl⟩ := exists_hash_of_get hroutes
      have hroute : ∀ pair, ∀ _ : Loading C, AllSafe lenient (routeReads settings pair) ↔
          RouteFine lenient settings pair := fun pair _ => routeReads_safe_iff
      rw [walkHashReads_safe_iff hroute, hroutes]
      simp
  · rename_i hval
    exact iff_of_true allSafe_nil fun params h => absurd h (hval _ params)

theorem hostReads_safe {val : Value} (h : HostFine lenient settings val) (s : Loading C) :
    AllSafe lenient (hostReads db settings val s) := by
  rw [hostReads_safe_iff]
  intro params hval name hname _ routes hroutes
  exact h params hval (by simp [hname]) routes hroutes

theorem hostFine_of_safe {val : Value} {s : Loading (List Sql)}
    (h : AllSafe lenient (hostReads recording settings val s)) : HostFine lenient settings val := by
  intro params hval hname routes hroutes
  obtain ⟨name, hname⟩ := Option.ne_none_iff_exists'.mp hname
  exact (hostReads_safe_iff recording val s).mp h params hval name hname rfl routes hroutes

theorem serverParams_safe_iff {params : Pairs} :
    AllSafe lenient (strsReads settings params serverParams) ↔
      StrFine lenient settings params (bytes "port") .number := by
  rw [strsReads_safe_iff]
  simp [serverParams, strFine_qstring]

/-- The reads of a server are safe if those of its port and of its hosts are, to which
only a server comes that is stored. -/
theorem serverReads_safe_iff (val : Value) (s : Loading C) :
    ∃ (stored : Prop) (s' : Loading C), ((∀ sql c, (db.exec sql c).ok = true) → stored) ∧
      (AllSafe lenient (serverReads db settings val s) ↔
        ∀ params, val = .cls (bytes "Server") params →
          StrFine lenient settings params (bytes "port") .number ∧
          (stored → ∀ hosts, get settings params (bytes "hosts") .list = some (.list hosts) →
            AllSafe lenient (walkListReads settings (hostLoad db settings)
              (hostReads db settings) hosts s'))) := by
  unfold serverReads dbExec
  dsimp only
  rw [allSafe_append, and_iff_right (confirmReads_safe val)]
  split
  · rename_i ident params
    split
    · rename_i hident
      refine ⟨True, s, fun _ => trivial, iff_of_true allSafe_nil ?_⟩
      rintro params h
      exact absurd (Value.cls.inj h).1 hident
    rename_i hident
    rw [not_not] at hident
    subst hident
    let r := db.exec (serverSql settings params) s.content
    refine ⟨r.ok = true, { s with content := r.content, lastId := r.lastId, serverId := r.lastId },
      fun hok => hok _ _, ?_⟩
    simp only [Value.cls.injEq, true_and, forall_eq']
    rw [allSafe_append]
    refine and_congr serverParams_safe_iff ?_
    split
    · rename_i hrefused
      exact iff_of_true allSafe_nil fun hok => absurd hok (by simpa using hrefused)
    rename_i htaken
    rw [forall_prop_of_true (by simpa using htaken), allSafe_append,
      and_iff_right (getReads_safe _ _)]
    split
    · rename_i hhosts
      have hmessage : AllSafe lenient
          (strsReads settings params [("uuid", .qstring), ("name", .qstring)]) := by
        rw [strsReads_safe_iff]
        simp [strFine_qstring]
      simp [hhosts, hmessage]
    · rename_i hosts hhosts
      have hlist : (readAs (some (.list hosts)) .list).Safe lenient :=
        readAs_safe_iff.mpr (belongs_self _)
      rw [hhosts, allSafe_cons, and_iff_right hlist]
      simp [r]
    · rename_i hosts hnot hhosts
      obtain ⟨elements, rfl⟩ := exists_list_of_get hhosts
      exact absurd rfl (hnot elements)
  · rename_i hval
    refine ⟨True, s, fun _ => trivial, iff_of_true allSafe_nil ?_⟩
    exact fun params h => absurd h (hval _ params)

theorem serverReads_safe {val : Value} (h : ServerFine lenient settings val) (s : Loading C) :
    AllSafe lenient (serverReads db settings val s) := by
  obtain ⟨stored, s', -, hiff⟩ := @serverReads_safe_iff lenient settings C db val s
  rw [hiff]
  intro params hval
  obtain ⟨hport, hhosts⟩ := h params hval
  refine ⟨hport, fun _ hosts hget => ?_⟩
  exact walkListReads_safe (fun val s hval => hostReads_safe db hval s)
    (fun val s hrc => loadsHost_of_rc hrc) (hhosts hosts hget) s'

theorem serverFine_of_safe {val : Value} {s : Loading (List Sql)}
    (h : AllSafe lenient (serverReads recording settings val s)) :
    ServerFine lenient settings val := by
  obtain ⟨stored, s', hstored, hiff⟩ :=
    @serverReads_safe_iff lenient settings (List Sql) recording val s
  intro params hval
  obtain ⟨hport, hhosts⟩ := hiff.mp h params hval
  refine ⟨hport, fun hosts hget => ?_⟩
  have hsafe : ∀ val s, AllSafe lenient (hostReads recording settings val s) →
      HostFine lenient settings val := fun val s => hostFine_of_safe
  have hrc : ∀ val s, LoadsHost settings val → (hostLoad recording settings val s).1 = 0 :=
    fun val s => hostLoad_recording s
  exact reached_of_safe hsafe hrc (hhosts (hstored fun _ _ => rfl) hosts hget)

/-! ### The whole file -/

theorem walkServersReads_safe (h : ServersFine lenient settings) (s : Loading C) :
    AllSafe lenient (walkServersReads db settings s) := by
  unfold walkServersReads
  split
  · exact allSafe_nil
  · rename_i pair hpair
    refine allSafe_cons.mpr ⟨readType_safe _, ?_⟩
    split
    · rename_i servers hvalue
      refine allSafe_cons.mpr ⟨?_, ?_⟩
      · rw [readAs_safe_iff, hvalue]
        exact belongs_self _
      · refine walkListReads_safe (fun val s hval => serverReads_safe db hval s)
          (fun val s hrc => loadsServer_of_rc hrc) (h pair.key servers ?_) s
        rw [hpair, ← hvalue]
    · exact allSafe_nil

theorem serversFine_of_safe {s : Loading (List Sql)}
    (h : AllSafe lenient (walkServersReads recording settings s)) :
    ServersFine lenient settings := by
  intro key servers hsearch
  unfold walkServersReads at h
  rw [hsearch] at h
  dsimp only at h
  rw [allSafe_cons, allSafe_cons] at h
  have hsafe : ∀ val s, AllSafe lenient (serverReads recording settings val s) →
      ServerFine lenient settings val := fun val s => serverFine_of_safe
  have hrc : ∀ val s, LoadsServer settings val → (serverLoad recording settings val s).1 = 0 :=
    fun val s => serverLoad_recording s
  exact reached_of_safe hsafe hrc h.2.2

theorem textReads_safe_iff {load : Pair (Option Value) → Loading C → ℤ × Loading C}
    {pair : Pair (Option Value)} {s : Loading C} :
    AllSafe lenient (textReads load pair s) ↔
      ∀ val, pair.value = some val → Belongs lenient .qstring val.type := by
  unfold textReads
  rcases pair.value with _ | val
  · simp
  · have hval : (readAs (some val) .qstring).Safe lenient ↔ Belongs lenient .qstring val.type :=
      readAs_safe_iff
    split
    · rename_i h
      exact absurd h (by simp)
    split
    · simp [hval]
    · simp [hval]

theorem walkVarReads_safe_iff {name : List Byte}
    {load : Pair (Option Value) → Loading C → ℤ × Loading C} {s : Loading C} :
    AllSafe lenient (walkVarReads settings name load s) ↔ VarFine lenient settings name := by
  unfold walkVarReads VarFine
  rw [allSafe_append, and_iff_right (getReads_safe _ _)]
  split
  · rename_i hset
    simp [hset]
  · rename_i set hset
    obtain ⟨set, rfl⟩ := exists_hash_of_get hset
    have htext : ∀ pair (s : Loading C), AllSafe lenient (textReads load pair s) ↔
        ∀ val, pair.value = some val → Belongs lenient .qstring val.type :=
      fun pair s => textReads_safe_iff
    rw [walkHashReads_safe_iff htext, hset]
    simp

/-- A value is destroyed by its own member. -/
theorem ownReads_safe (val : Value) :
    AllSafe lenient [readType (some val), readAs (some val) val.type] := by
  refine allSafe_cons.mpr ⟨readType_safe val, allSafe_cons.mpr ⟨?_, allSafe_nil⟩⟩
  exact readAs_safe_iff.mpr (belongs_self _)

theorem ownReads_append_safe (val : Value) {reads : List Read} (h : AllSafe lenient reads) :
    AllSafe lenient (readType (some val) :: readAs (some val) val.type :: reads) :=
  allSafe_append.mpr ⟨ownReads_safe val, h⟩

mutual

theorem Value.destroyReads_safe : ∀ val : Value, AllSafe lenient val.destroyReads
  | .qstring _ => ownReads_safe _
  | .pattern _ => ownReads_safe _
  | .number _ => ownReads_safe _
  | .cls _ params => ownReads_append_safe _ (destroyReads_safe params)
  | .list elements => ownReads_append_safe _ (destroyListReads_safe elements)
  | .hash elements => ownReads_append_safe _ (destroyReads_safe elements)
  | .ident _ => ownReads_safe _
  | .ref _ => ownReads_safe _

theorem destroyListReads_safe : ∀ data : List Value, AllSafe lenient (destroyListReads data)
  | [] => allSafe_nil
  | val :: data => allSafe_append.mpr ⟨val.destroyReads_safe, destroyListReads_safe data⟩

theorem destroyReads_safe : ∀ settings : Pairs, AllSafe lenient (destroyReads settings)
  | .nil => allSafe_nil
  | .node _ low equal high value => by
    unfold destroyReads
    rw [allSafe_append, allSafe_append, allSafe_append]
    exact ⟨⟨⟨destroyPairReads_safe value, destroyReads_safe low⟩, destroyReads_safe equal⟩,
      destroyReads_safe high⟩

theorem destroyPairReads_safe : ∀ value, AllSafe lenient (destroyPairReads value)
  | none => allSafe_nil
  | some ⟨_, val⟩ => val.destroyReads_safe

end

theorem checkReads_safe {x : ℤ × Loading C} {f : Loading C → List Read}
    (h : x.1 = 0 → AllSafe lenient (f x.2)) : AllSafe lenient (checkReads x f) := by
  unfold checkReads
  split
  · rename_i hx
    exact h hx
  · exact allSafe_nil

variable (misread : Value → List Byte)

theorem loadReads_safe (h : FileFine lenient settings) (before : C) :
    AllSafe lenient (loadReads db misread (some settings) before) := by
  obtain ⟨hservers, hrest⟩ := h
  refine allSafe_append.mpr ⟨checkReads_safe fun _ => ?_, destroyReads_safe settings⟩
  refine allSafe_append.mpr ⟨walkServersReads_safe db hservers _, checkReads_safe fun hrc => ?_⟩
  obtain ⟨hsettings, hrest⟩ := hrest (loadsServers_of_rc hrc)
  refine allSafe_append.mpr ⟨walkVarReads_safe_iff.mpr hsettings, checkReads_safe fun hrc => ?_⟩
  exact checkReads_safe fun _ => walkVarReads_safe_iff.mpr (hrest (loadsSettings_of_rc hrc))

/-- With the members of all tokens taken as one, nothing of a server is read wrongly. -/
theorem serversFine_lenient : ServersFine true settings := by
  have hport : ∀ params, StrFine true settings params (bytes "port") .number :=
    fun _ => .inr (by decide)
  have hreached : ∀ (fine loads : Value → Prop), (∀ val, fine val) →
      ∀ data, Reached settings fine loads data := by
    intro fine loads hfine data
    induction data with
    | nil => trivial
    | cons ref data ih => exact fun found _ => ⟨hfine found, fun _ => ih⟩
  intro key servers _
  refine hreached _ _ (fun val params _ => ⟨hport params, fun hosts _ => ?_⟩) servers
  exact hreached _ _ (fun val params _ _ routes _ pair _ ident params _ _ => hport params) hosts

/-- Then it is left to what is stored of the two hashes. -/
theorem fileFine_lenient_iff :
    FileFine true settings ↔
      (LoadsServers settings → VarFine true settings (bytes "settings") ∧
        (LoadsSettings settings → VarFine true settings (bytes "mimetypes"))) :=
  and_iff_right serversFine_lenient

theorem fileFine_of_safe
    (h : AllSafe lenient (loadReads recording misread (some settings) [])) :
    FileFine lenient settings := by
  have hload := (allSafe_append.mp h).1
  rw [checkReads, if_pos (show (configSetup recording (.start [])).1 = 0 from rfl)] at hload
  obtain ⟨hservers, hload⟩ := allSafe_append.mp hload
  refine ⟨serversFine_of_safe hservers, fun hloads => ?_⟩
  rw [checkReads, if_pos (walkServers_recording _ hloads)] at hload
  obtain ⟨hsettings, hload⟩ := allSafe_append.mp hload
  refine ⟨walkVarReads_safe_iff.mp hsettings, fun hloads => ?_⟩
  rw [checkReads, if_pos (walkSettings_recording _ misread hloads)] at hload
  exact walkVarReads_safe_iff.mp hload

end

end

/-! ### A setting that is a list -/

/-- A server with a port and hosts, and one setting. -/
def oneSetting (val : Value) : Pairs :=
  pairs [("servers", .list [.cls (bytes "Server") (pairs [("port", .number (bytes "80")),
      ("hosts", .list [])])]),
    ("settings", .hash (pairs [("zeromq.threads", val)]))]

-- a number is read through the member of a string, for a port as well
example :
    let reads := loadReads recording (fun _ => []) (some (oneSetting (.number (bytes "1")))) []
    AllSafe true reads ∧ ¬ AllSafe false reads := by
  decide

end M2sh

end Mongrel2
