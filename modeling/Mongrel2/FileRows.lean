/-
The rows that a configuration file asks for.

* `hostRows`, `serverRows`, `fileRows` — the statements of a host, of a server and of a
  file;
* `configLoad_recording` — a load of the file into a database that refuses nothing
  commits exactly these, if the file says what is needed.

Design notes: the database numbers each of its rows 0, so that the rows of a part do not
depend on those before it.
-/
import Mongrel2.FileLoads

namespace Mongrel2

open ByteStream HttpParser

namespace M2sh

/-! ### Rows -/

section

variable (settings : Pairs) (misread : Value → List Byte)

/-- The row of the target of a route. -/
def targetSql (ident : List Byte) (params : Pairs) : Option Sql :=
  let type := ident.map tolower
  if type = bytes "dir" then some (dirSql settings params)
  else if type = bytes "proxy" then some (proxySql settings params)
  else if type = bytes "handler" then some (handlerSql settings params)
  else none

/-- A route, after its target. -/
def routeRows (pair : Pair (Option Value)) : List Sql :=
  match pair.value with
  | some (.cls ident params) =>
    match targetSql settings ident params with
    | some sql => [sql, .route pair.key 0 0 (ident.map tolower)]
    | none => []
  | _ => []

/-- Each pair of a hash. -/
def hashRows (rows : Pair (Option Value) → List Sql) (data : Pairs) : List Sql :=
  data.traverse.flatMap fun pair => rows ⟨pair.key, pair.value.resolve settings⟩

/-- Each value of a list, up to the first that does not load. -/
def listRows (rows : Value → List Sql) (loads : Value → Prop) [DecidablePred loads] :
    List Value → List Sql
  | [] => []
  | ref :: data =>
    match ref.resolve settings with
    | none => []
    | some found => rows found ++ if loads found then listRows rows loads data else []

/-- A host and its routes. -/
def hostRows (val : Value) : List Sql :=
  match val with
  | .cls ident params =>
    if ident ≠ bytes "Host" then []
    else
      match str settings params (bytes "name") .qstring with
      | none => []
      | some name =>
        .host 0 name name ::
          match get settings params (bytes "routes") .hash with
          | some (.hash routes) => hashRows settings (routeRows settings) routes
          | _ => []
  | _ => []

/-- A server and its hosts. -/
def serverRows (val : Value) : List Sql :=
  match val with
  | .cls ident params =>
    if ident ≠ bytes "Server" then []
    else
      serverSql settings params ::
        match get settings params (bytes "hosts") .list with
        | some (.list hosts) => listRows settings (hostRows settings) (LoadsHost settings) hosts
        | _ => []
  | _ => []

/-- All servers. -/
def serversRows : List Sql :=
  match settings.search (bytes "servers") with
  | some ⟨_, .list servers⟩ =>
    listRows settings (serverRows settings) (LoadsServer settings) servers
  | _ => []

/-- A setting or a mimetype. -/
def textRows (row : List Byte → List Byte → Sql) (pair : Pair (Option Value)) : List Sql :=
  match pair.value with
  | some val => [row pair.key (asString misread val)]
  | none => []

/-- A hash that the file may set. -/
def varRows (name : List Byte) (row : List Byte → List Byte → Sql) : List Sql :=
  match get settings settings name .hash with
  | some (.hash set) => hashRows settings (textRows misread row) set
  | _ => []

/-- The whole file. -/
def fileRows : List Sql :=
  .schema :: serversRows settings ++ varRows settings misread (bytes "settings") .setting ++
    .mimetypesDefault :: varRows settings misread (bytes "mimetypes") .mimetype

end

/-! ### The load of each part -/

/-- The numbers of the server and of the host that were stored last. -/
def AtZero (s : Loading (List Sql)) : Prop := s.serverId = 0 ∧ s.hostId = 0

/-- A load from one state to another stores these rows. -/
structure Emits (s s' : Loading (List Sql)) (rows : List Sql) : Prop where
  content : s'.content = s.content ++ rows
  zero : AtZero s'

section

variable {settings : Pairs} {misread : Value → List Byte} {s s' s'' : Loading (List Sql)}
  {rows rows' : List Sql}

theorem Emits.refl (hs : AtZero s) : Emits s s [] := ⟨(List.append_nil _).symm, hs⟩

theorem Emits.lost (hs : AtZero s) (p : Part) : Emits s (s.lose p) [] :=
  ⟨(List.append_nil _).symm, hs⟩

theorem Emits.trans (h : Emits s s' rows) (h' : Emits s' s'' rows') :
    Emits s s'' (rows ++ rows') :=
  ⟨by rw [h'.content, h.content, List.append_assoc], h'.zero⟩

theorem insert_emits (hs : AtZero s) (p : Part) (sql : Sql) :
    Emits s (insert recording p sql s).2 [sql] := ⟨rfl, hs⟩

/-- What a class gives a route is one row or a failure. -/
theorem routeLoad_cls {C : Type} (db : Sqlite C) (settings params : Pairs) (key ident : List Byte)
    (s : Loading C) :
    routeLoad db settings ⟨key, some (.cls ident params)⟩ s =
      let x := match targetSql settings ident params with
        | some sql => insertTarget db sql s
        | none => (-1, s)
      if x.1 = -1 then x.2.fail .route
      else insert db .route (.route key x.2.hostId x.1 (ident.map tolower)) x.2 := by
  unfold routeLoad targetSql
  dsimp only
  by_cases hdir : ident.map tolower = bytes "dir"
  · rw [if_pos hdir, if_pos hdir]
    rfl
  rw [if_neg hdir, if_neg hdir]
  by_cases hproxy : ident.map tolower = bytes "proxy"
  · rw [if_pos hproxy, if_pos hproxy]
    rfl
  rw [if_neg hproxy, if_neg hproxy]
  by_cases hhandler : ident.map tolower = bytes "handler"
  · rw [if_pos hhandler, if_pos hhandler]
    rfl
  · rw [if_neg hhandler, if_neg hhandler]

theorem routeLoad_emits (pair : Pair (Option Value)) (hs : AtZero s) :
    Emits s (routeLoad recording settings pair s).2 (routeRows settings pair) := by
  rcases pair with ⟨key, _ | val⟩
  · exact .lost hs .route
  rcases val with _ | _ | _ | ⟨ident, params⟩ | _ | _ | _ | _
  case cls =>
    rw [routeLoad_cls]
    dsimp only [routeRows]
    rcases targetSql settings ident params with _ | sql
    · exact .lost hs .route
    · have htarget : Emits s (insertTarget recording sql s).2 [sql] := ⟨rfl, hs⟩
      have hroute := htarget.trans
        (insert_emits htarget.zero .route (.route key s.hostId 0 (ident.map tolower)))
      rw [hs.2] at hroute
      show Emits s (insert recording .route (.route key s.hostId 0 (ident.map tolower))
        (insertTarget recording sql s).2).2 _
      rw [hs.2]
      exact hroute
  all_goals exact .lost hs .route

/-! ### The walks -/

theorem walkHash_emits {cb : Pair (Option Value) → Loading (List Sql) → ℤ × Loading (List Sql)}
    {rows : Pair (Option Value) → List Sql}
    (hcb : ∀ pair s, AtZero s → Emits s (cb pair s).2 (rows pair)) (hs : AtZero s) (data : Pairs) :
    Emits s (walkHash settings cb data s).2 (hashRows settings rows data) := by
  unfold walkHash hashRows
  generalize data.traverse = pairs
  induction pairs generalizing s with
  | nil => exact .refl hs
  | cons pair pairs ih =>
    have hpair := hcb ⟨pair.key, pair.value.resolve settings⟩ s hs
    rw [List.foldl_cons, foldl_hashTraverseCb, List.flatMap_cons]
    exact hpair.trans (ih hpair.zero)

theorem walkList_emits {lost : Part} {cb : Value → Loading (List Sql) → ℤ × Loading (List Sql)}
    {rows : Value → List Sql} {loads : Value → Prop} [DecidablePred loads]
    (hcb : ∀ val s, AtZero s → Emits s (cb val s).2 (rows val))
    (hrc : ∀ val s, (cb val s).1 = 0 ↔ loads val) (hs : AtZero s) (data : List Value) :
    Emits s (walkList settings (.lose lost) cb data s).2 (listRows settings rows loads data) := by
  induction data generalizing s with
  | nil => exact .refl hs
  | cons ref data ih =>
    unfold walkList listRows
    rcases ref.resolve settings with _ | found
    · exact .lost hs lost
    · have hfound := hcb found s hs
      dsimp only
      by_cases hloads : loads found
      · rw [if_pos hloads, if_pos ((hrc found s).mpr hloads)]
        exact hfound.trans (ih hfound.zero)
      · rw [if_neg hloads, if_neg fun h => hloads ((hrc found s).mp h), List.append_nil]
        exact hfound

/-! ### Hosts, servers and the file -/

theorem hostLoad_emits (val : Value) (hs : AtZero s) :
    Emits s (hostLoad recording settings val s).2 (hostRows settings val) := by
  rcases val with _ | _ | _ | ⟨ident, params⟩ | _ | _ | _ | _
  case cls =>
    unfold hostLoad hostRow hostRows
    dsimp only
    by_cases hident : ident ≠ bytes "Host"
    · rw [if_pos hident, if_pos hident]
      exact .lost hs .host
    rw [if_neg hident, if_neg hident]
    rcases str settings params (bytes "name") .qstring with _ | name
    · exact .lost hs .host
    have hrow : Emits s { (dbExec recording (.host s.serverId name name) s).2 with hostId := 0 }
        [.host 0 name name] :=
      ⟨by rw [hs.1]; rfl, hs.1, rfl⟩
    rcases hroutes : get settings params (bytes "routes") .hash with _ | routes
    · exact ⟨hrow.content, hrow.zero⟩
    · obtain ⟨routes, rfl⟩ := exists_hash_of_get hroutes
      exact hrow.trans (walkHash_emits (fun pair s => routeLoad_emits pair) hrow.zero routes)
  all_goals exact .lost hs .host

theorem serverLoad_emits (val : Value) (hs : AtZero s) :
    Emits s (serverLoad recording settings val s).2 (serverRows settings val) := by
  rcases val with _ | _ | _ | ⟨ident, params⟩ | _ | _ | _ | _
  case cls =>
    unfold serverLoad serverRow serverRows
    dsimp only
    by_cases hident : ident ≠ bytes "Server"
    · rw [if_pos hident, if_pos hident]
      exact .lost hs .server
    rw [if_neg hident, if_neg hident]
    have hrow : Emits s { (dbExec recording (serverSql settings params) s).2 with serverId := 0 }
        [serverSql settings params] := ⟨rfl, rfl, hs.2⟩
    rcases hhosts : get settings params (bytes "hosts") .list with _ | hosts
    · exact ⟨hrow.content, hrow.zero⟩
    · obtain ⟨hosts, rfl⟩ := exists_list_of_get hhosts
      have hrc : ∀ val s, (hostLoad recording settings val s).1 = 0 ↔ LoadsHost settings val :=
        fun val s => ⟨loadsHost_of_rc, hostLoad_recording s⟩
      exact hrow.trans (walkList_emits (fun val s => hostLoad_emits val) hrc hrow.zero hosts)
  all_goals exact .lost hs .server

theorem walkServers_emits (hs : AtZero s) :
    Emits s (walkServers recording settings s).2 (serversRows settings) := by
  have hrc : ∀ val s, (serverLoad recording settings val s).1 = 0 ↔ LoadsServer settings val :=
    fun val s => ⟨loadsServer_of_rc, serverLoad_recording s⟩
  unfold walkServers serversRows
  rcases settings.search (bytes "servers") with _ | ⟨key, val⟩
  · exact .lost hs .servers
  rcases val with _ | _ | _ | _ | servers | _ | _ | _
  case list => exact walkList_emits (fun val s => serverLoad_emits val) hrc hs servers
  all_goals exact .lost hs .servers

/-- Settings and mimetypes are stored alike. -/
theorem walkVar_emits {row : List Byte → List Byte → Sql} {part : Part}
    {load : Pair (Option Value) → Loading (List Sql) → ℤ × Loading (List Sql)}
    (hload : ∀ pair s, AtZero s → Emits s (load pair s).2 (textRows misread row pair))
    (hs : AtZero s) (name : List Byte) :
    Emits s (walkVar settings name part load s).2 (varRows settings misread name row) := by
  unfold walkVar varRows
  rcases hget : get settings settings name .hash with _ | set
  · dsimp only
    split
    · exact .refl hs
    · exact .lost hs part
  · obtain ⟨set, rfl⟩ := exists_hash_of_get hget
    exact walkHash_emits hload hs set

theorem settingsLoad_emits (pair : Pair (Option Value)) (s : Loading (List Sql)) (hs : AtZero s) :
    Emits s (settingsLoad recording misread pair s).2 (textRows misread .setting pair) := by
  unfold settingsLoad textRows
  rcases pair.value with _ | val
  · exact .lost hs .setting
  · exact insert_emits hs _ _

theorem mimetypesLoad_emits (pair : Pair (Option Value)) (s : Loading (List Sql)) (hs : AtZero s) :
    Emits s (mimetypesLoad recording misread pair s).2 (textRows misread .mimetype pair) := by
  unfold mimetypesLoad textRows
  rcases pair.value with _ | val
  · exact .lost hs .mimetype
  · exact insert_emits hs _ _

/-- **The rows of a file** are what a load commits to a database that refuses nothing. -/
theorem configLoad_recording (hservers : LoadsServers settings) (hsettings : LoadsSettings settings)
    (before : List Sql) :
    (configLoad recording misread (some settings) before).1 = 0 ∧
      (configLoad recording misread (some settings) before).2.committed =
        before ++ fileRows settings misread := by
  let s₀ := (configSetup recording (.start before)).2
  let s₁ := (walkServers recording settings s₀).2
  let s₂ := (walkVar settings (bytes "settings") .settings (settingsLoad recording misread) s₁).2
  let s₃ := (insert recording .defaults .mimetypesDefault s₂).2
  let s₄ := (walkVar settings (bytes "mimetypes") .mimetypes (mimetypesLoad recording misread) s₃).2
  have hload : configLoad recording misread (some settings) before = configCommit recording s₄ := by
    unfold configLoad
    dsimp only
    rw [check, if_pos (show (configSetup recording (.start before)).1 = 0 from rfl)]
    rw [check, if_pos (walkServers_recording s₀ hservers)]
    rw [check, if_pos (walkSettings_recording s₁ misread hsettings)]
    rfl
  have hsetup : Emits (.start before) s₀ [.schema] := insert_emits ⟨rfl, rfl⟩ .setup .schema
  have hwalk : Emits s₀ s₁ (serversRows settings) := walkServers_emits hsetup.zero
  have hset : Emits s₁ s₂ (varRows settings misread (bytes "settings") .setting) :=
    walkVar_emits settingsLoad_emits hwalk.zero _
  have hdefaults : Emits s₂ s₃ [.mimetypesDefault] := insert_emits hset.zero .defaults _
  have hmime : Emits s₃ s₄ (varRows settings misread (bytes "mimetypes") .mimetype) :=
    walkVar_emits mimetypesLoad_emits hdefaults.zero _
  rw [hload]
  refine ⟨rfl, ?_⟩
  show s₄.content = _
  rw [((hsetup.trans hwalk).trans (hset.trans (hdefaults.trans hmime))).content]
  simp [fileRows, Loading.start]

end

end M2sh

end Mongrel2
