/-
The tables of the configuration (`config_file.c`, `constants.c` of `m2sh`).

`m2sh` writes what a file says into the tables of a database, with a number for each row.  A host
refers to its server by number, a route to its host and to its target.

* `Tables`, `sqlite` — the database;
* `ServerSpec` — a server with each of its parts inside of the one it belongs to;
* `Tables.addServer` — the rows for one, behind those that are there;
* `Tables.sites` — what the references between the rows put together;
* **`sites_deploy`** — this is what was inserted.

Design notes: rows of the tables that the server routes by are never deleted, so the number of a row
is its place.  `integer` is what a column of type `INTEGER` makes of a text.  A NULL that is printed
by `%s` leaves a gap in the statement, which is refused.
-/
import Mongrel2.FileLoads

namespace Mongrel2

open ByteStream HttpParser

namespace M2sh

/-! ### The tables -/

structure ServerRow where
  uuid : Option (List Byte)
  accessLog : Option (List Byte)
  errorLog : Option (List Byte)
  chroot : Option (List Byte)
  pidFile : Option (List Byte)
  defaultHost : Option (List Byte)
  name : Option (List Byte)
  port : List Byte
  deriving DecidableEq

structure HostRow where
  serverId : ℤ
  name : List Byte
  matching : List Byte
  deriving DecidableEq

structure HandlerRow where
  sendSpec : Option (List Byte)
  sendIdent : Option (List Byte)
  recvSpec : Option (List Byte)
  recvIdent : Option (List Byte)
  deriving DecidableEq

structure ProxyRow where
  addr : Option (List Byte)
  port : Option (List Byte)
  deriving DecidableEq

structure DirRow where
  base : Option (List Byte)
  indexFile : Option (List Byte)
  defaultCtype : Option (List Byte)
  deriving DecidableEq

structure RouteRow where
  path : List Byte
  hostId : ℤ
  targetId : ℤ
  targetType : List Byte
  deriving DecidableEq

/-- The tables.  The row at place `i` has the number `i + 1`. -/
structure Tables where
  server : List ServerRow
  host : List HostRow
  handler : List HandlerRow
  proxy : List ProxyRow
  directory : List DirRow
  route : List RouteRow
  setting : List (List Byte × List Byte)
  /-- the extensions, with their types -/
  mimetype : List (List Byte × List Byte)
  deriving DecidableEq

/-- After `CONFIG_SCHEMA`. -/
def Tables.empty : Tables := ⟨[], [], [], [], [], [], [], []⟩

section

variable (integer : List Byte → List Byte) (defaults : List (List Byte × List Byte))

/-- What a statement does. -/
def Tables.exec : Sql → Tables → Reply Tables
  | .schema, _ => ⟨true, .empty, 0⟩
  | .server uuid accessLog errorLog pidFile chroot defaultHost name port, t =>
    match port with
    | none => ⟨false, t, 0⟩
    | some port =>
      let row := ⟨uuid, accessLog, errorLog, chroot, pidFile, defaultHost.map integer, name,
        integer port⟩
      ⟨true, { t with server := t.server ++ [row] }, t.server.length + 1⟩
  | .host serverId name matching, t =>
    ⟨true, { t with host := t.host ++ [⟨serverId, name, matching⟩] }, t.host.length + 1⟩
  | .directory base indexFile defaultCtype, t =>
    ⟨true, { t with directory := t.directory ++ [⟨base, indexFile, defaultCtype⟩] },
      t.directory.length + 1⟩
  | .proxy addr port, t =>
    ⟨true, { t with proxy := t.proxy ++ [⟨addr, port.map integer⟩] }, t.proxy.length + 1⟩
  | .handler sendSpec sendIdent recvSpec recvIdent, t =>
    ⟨true, { t with handler := t.handler ++ [⟨sendSpec, sendIdent, recvSpec, recvIdent⟩] },
      t.handler.length + 1⟩
  | .route path hostId targetId targetType, t =>
    ⟨true, { t with route := t.route ++ [⟨path, hostId, targetId, targetType⟩] },
      t.route.length + 1⟩
  | .setting key value, t =>
    ⟨true, { t with setting := t.setting ++ [(key, value)] }, t.setting.length + 1⟩
  | .mimetype extension mimetype, t =>
    ⟨true, { t with
      mimetype := t.mimetype.filter (·.1 ≠ extension) ++ [(extension, mimetype)] },
      t.mimetype.length + 1⟩
  | .mimetypesDefault, t => ⟨true, { t with mimetype := t.mimetype ++ defaults }, 0⟩

/-- The database of `m2sh`. -/
def sqlite : Sqlite Tables := ⟨true, Tables.exec integer defaults, fun _ => true⟩

end

/-! ### Servers -/

/-- A target, as it is stored. -/
inductive TargetRow
  | handler (row : HandlerRow)
  | proxy (row : ProxyRow)
  | dir (row : DirRow)
  deriving DecidableEq

/-- `target_type`. -/
def TargetRow.type : TargetRow → List Byte
  | handler _ => bytes "handler"
  | proxy _ => bytes "proxy"
  | dir _ => bytes "dir"

structure RouteSpec where
  path : List Byte
  target : TargetRow
  deriving DecidableEq

structure HostSpec where
  name : List Byte
  matching : List Byte
  routes : List RouteSpec
  deriving DecidableEq

structure ServerSpec where
  row : ServerRow
  hosts : List HostSpec
  deriving DecidableEq

/-! ### Insertions -/

/-- The row with a number. -/
def rowAt {α : Type*} (rows : List α) (id : ℤ) : Option α :=
  if 0 < id then rows[id.toNat - 1]? else none

namespace Tables

/-- The row of a target. -/
def addTarget (t : Tables) : TargetRow → Tables
  | .handler row => { t with handler := t.handler ++ [row] }
  | .proxy row => { t with proxy := t.proxy ++ [row] }
  | .dir row => { t with directory := t.directory ++ [row] }

/-- The number that it gets. -/
def targetId (t : Tables) : TargetRow → ℤ
  | .handler _ => t.handler.length + 1
  | .proxy _ => t.proxy.length + 1
  | .dir _ => t.directory.length + 1

/-- A route of a host, behind its target. -/
def addRoute (hostId : ℤ) (t : Tables) (spec : RouteSpec) : Tables :=
  let row : RouteRow := ⟨spec.path, hostId, t.targetId spec.target, spec.target.type⟩
  { t.addTarget spec.target with route := (t.addTarget spec.target).route ++ [row] }

/-- The row of a host. -/
def addHostRow (serverId : ℤ) (t : Tables) (name matching : List Byte) : Tables :=
  { t with host := t.host ++ [⟨serverId, name, matching⟩] }

/-- A host of a server, with its routes. -/
def addHost (serverId : ℤ) (t : Tables) (spec : HostSpec) : Tables :=
  spec.routes.foldl (addRoute (t.host.length + 1)) (t.addHostRow serverId spec.name spec.matching)

/-- The row of a server. -/
def addServerRow (t : Tables) (row : ServerRow) : Tables := { t with server := t.server ++ [row] }

/-- A server, with its hosts. -/
def addServer (t : Tables) (spec : ServerSpec) : Tables :=
  spec.hosts.foldl (addHost (t.server.length + 1)) (t.addServerRow spec.row)

/-! ### What the rows say -/

variable (t : Tables)

/-- The target of a type with a number. -/
def target (type : List Byte) (id : ℤ) : Option TargetRow :=
  if type = bytes "handler" then (rowAt t.handler id).map .handler
  else if type = bytes "proxy" then (rowAt t.proxy id).map .proxy
  else if type = bytes "dir" then (rowAt t.directory id).map .dir
  else none

/-- The hosts of a server. -/
def hostsOf (serverId : ℕ) : List (HostRow × ℕ) :=
  (t.host.zipIdx 1).filter (·.1.serverId = serverId)

/-- The routes of a host of a server. -/
def routesOf (hostId : ℕ) (serverId : ℤ) : List RouteRow :=
  t.route.filter fun row =>
    row.hostId = hostId ∧ (rowAt t.host row.hostId).any (·.serverId = serverId)

/-- A route, with its target. -/
def routeSpec (row : RouteRow) : Option RouteSpec :=
  (t.target row.targetType row.targetId).map (⟨row.path, ·⟩)

/-- A host, with its routes. -/
def hostSpec (host : HostRow × ℕ) : HostSpec :=
  ⟨host.1.name, host.1.matching, (t.routesOf host.2 host.1.serverId).filterMap t.routeSpec⟩

/-- A server, with its hosts. -/
def serverSpec (server : ServerRow × ℕ) : ServerSpec :=
  ⟨server.1, (t.hostsOf server.2).map t.hostSpec⟩

/-- All servers. -/
def sites : List ServerSpec := (t.server.zipIdx 1).map t.serverSpec

/-- The references lead to rows. -/
structure Sound : Prop where
  host : ∀ row ∈ t.host, row.serverId ≤ t.server.length
  route : ∀ row ∈ t.route, row.hostId ≤ t.host.length
  target : ∀ row ∈ t.route, t.routeSpec row ≠ none

end Tables

/-! ### Rows and their numbers -/

section

variable {α : Type*} {rows : List α} {a : α} {id : ℤ}

theorem rowAt_append_of_le (rows' : List α) (h : id ≤ rows.length) :
    rowAt (rows ++ rows') id = rowAt rows id := by
  unfold rowAt
  split
  · exact List.getElem?_append_left (by omega)
  · rfl

theorem rowAt_length_succ (rows : List α) (a : α) :
    rowAt (rows ++ [a]) (rows.length + 1) = some a := by
  have hid : ((rows.length : ℤ) + 1).toNat - 1 = rows.length := by omega
  rw [rowAt, if_pos (by omega), hid]
  simp

theorem le_length_of_rowAt (h : rowAt rows id = some a) : id ≤ rows.length := by
  unfold rowAt at h
  split at h
  · have hlt := (List.getElem?_eq_some_iff.mp h).choose
    omega
  · exact absurd h (by simp)

theorem rowAt_append_of_some (rows' : List α) (h : rowAt rows id = some a) :
    rowAt (rows ++ rows') id = some a := by
  rw [rowAt_append_of_le rows' (le_length_of_rowAt h), h]

end

namespace Tables

/-! ### Targets -/

/-- The targets that are there stay. -/
def Grows (t t' : Tables) : Prop :=
  ∀ type id x, t.target type id = some x → t'.target type id = some x

section

variable {t t' t'' : Tables}

theorem Grows.trans (h : Grows t t') (h' : Grows t' t'') : Grows t t'' :=
  fun type id x hx => h' type id x (h type id x hx)

theorem grows_addTarget (t : Tables) (x : TargetRow) : Grows t (t.addTarget x) := by
  intro type id y hy
  have happend : ∀ {α : Type} {f : α → TargetRow} (rows : List α) (row : α),
      (rowAt rows id).map f = some y → (rowAt (rows ++ [row]) id).map f = some y := by
    intro α f rows row h
    obtain ⟨b, hb, rfl⟩ := Option.map_eq_some_iff.mp h
    rw [rowAt_append_of_some _ hb, Option.map_some]
  unfold target at hy ⊢
  split at hy
  · rw [if_pos ‹_›]
    cases x with
    | handler row => exact happend _ _ hy
    | proxy _ => exact hy
    | dir _ => exact hy
  · rw [if_neg ‹_›]
    split at hy
    · rw [if_pos ‹_›]
      cases x with
      | handler _ => exact hy
      | proxy row => exact happend _ _ hy
      | dir _ => exact hy
    · rw [if_neg ‹_›]
      split at hy
      · rw [if_pos ‹_›]
        cases x with
        | handler _ => exact hy
        | proxy _ => exact hy
        | dir row => exact happend _ _ hy
      · exact absurd hy (by simp)

theorem target_addTarget (t : Tables) (x : TargetRow) :
    (t.addTarget x).target x.type (t.targetId x) = some x := by
  cases x with
  | handler row =>
    show (if bytes "handler" = bytes "handler" then _ else _) = _
    rw [if_pos rfl]
    exact congrArg _ (rowAt_length_succ t.handler row)
  | proxy row =>
    show (if bytes "proxy" = bytes "handler" then _ else if bytes "proxy" = bytes "proxy" then _
      else _) = _
    rw [if_neg (by decide), if_pos rfl]
    exact congrArg _ (rowAt_length_succ t.proxy row)
  | dir row =>
    show (if bytes "dir" = bytes "handler" then _ else if bytes "dir" = bytes "proxy" then _
      else if bytes "dir" = bytes "dir" then _ else _) = _
    rw [if_neg (by decide), if_neg (by decide), if_pos rfl]
    exact congrArg _ (rowAt_length_succ t.directory row)

@[simp] theorem addTarget_route (t : Tables) (x : TargetRow) : (t.addTarget x).route = t.route := by
  cases x <;> rfl

@[simp] theorem addTarget_host (t : Tables) (x : TargetRow) : (t.addTarget x).host = t.host := by
  cases x <;> rfl

@[simp] theorem addTarget_server (t : Tables) (x : TargetRow) :
    (t.addTarget x).server = t.server := by
  cases x <;> rfl

theorem Grows.routeSpec {row : RouteRow} (h : Grows t t') (hrow : t.routeSpec row ≠ none) :
    t'.routeSpec row = t.routeSpec row := by
  unfold Tables.routeSpec at hrow ⊢
  rcases hx : t.target row.targetType row.targetId with _ | x
  · exact absurd (by rw [hx]; rfl) hrow
  · rw [h _ _ _ hx]

end

/-! ### Routes -/

/-- Routes of a host are added: new rows for all of them. -/
structure AddsRoutes (hostId : ℤ) (routes : List RouteSpec) (t t' : Tables)
    (rows : List RouteRow) : Prop where
  route : t'.route = t.route ++ rows
  hostId : ∀ row ∈ rows, row.hostId = hostId
  specs : rows.map t'.routeSpec = routes.map some
  grows : Grows t t'
  host : t'.host = t.host
  server : t'.server = t.server

section

variable {t t' : Tables} {hostId : ℤ}

theorem addsRoutes_foldl (hostId : ℤ) (routes : List RouteSpec) (t : Tables) :
    ∃ rows, AddsRoutes hostId routes t (routes.foldl (addRoute hostId) t) rows := by
  induction routes generalizing t with
  | nil => exact ⟨[], by simp, by simp, rfl, fun _ _ _ hx => hx, rfl, rfl⟩
  | cons spec routes ih =>
    obtain ⟨rows, h⟩ := ih (t.addRoute hostId spec)
    let row : RouteRow := ⟨spec.path, hostId, t.targetId spec.target, spec.target.type⟩
    have hgrows : Grows t (t.addRoute hostId spec) := grows_addTarget t spec.target
    have hrow : (t.addRoute hostId spec).routeSpec row = some spec :=
      congrArg (Option.map _) (target_addTarget t spec.target)
    refine ⟨row :: rows, ?_, ?_, ?_, hgrows.trans h.grows, ?_, ?_⟩
    · rw [List.foldl_cons, h.route]
      simp [addRoute, row]
    · rintro row' (_ | ⟨_, hrow'⟩)
      · rfl
      · exact h.hostId _ hrow'
    · rw [List.map_cons, List.map_cons, List.foldl_cons, h.specs,
        h.grows.routeSpec (by rw [hrow]; simp), hrow]
    · rw [List.foldl_cons, h.host]
      exact addTarget_host t spec.target
    · rw [List.foldl_cons, h.server]
      exact addTarget_server t spec.target

end

/-! ### Hosts -/

/-- The hosts of a server, with their routes. -/
def hostSpecs (t : Tables) (serverId : ℕ) : List HostSpec := (t.hostsOf serverId).map t.hostSpec

section

variable {t t' : Tables}

theorem Sound.routesOf_eq_nil (h : t.Sound) {hostId : ℕ} (hlt : t.host.length < hostId)
    (serverId : ℤ) : t.routesOf hostId serverId = [] := by
  rw [routesOf, List.filter_eq_nil_iff]
  intro row hrow
  have hle := h.route row hrow
  simp only [decide_eq_true_eq, not_and]
  intro heq
  omega

theorem Sound.hostsOf_eq_nil (h : t.Sound) {serverId : ℕ} (hlt : t.server.length < serverId) :
    t.hostsOf serverId = [] := by
  rw [hostsOf, List.filter_eq_nil_iff]
  intro host hhost
  have hle := h.host host.1 (List.fst_mem_of_mem_zipIdx hhost)
  simp only [decide_eq_true_eq]
  omega

theorem mem_hostsOf {serverId : ℕ} {host : HostRow × ℕ} (h : host ∈ t.hostsOf serverId) :
    host.2 ≤ t.host.length := by
  have hmem := List.mem_of_mem_filter h
  have hlt := List.snd_lt_add_of_mem_zipIdx hmem
  omega

theorem exists_addsRoutes (t : Tables) (serverId : ℤ) (spec : HostSpec) :
    ∃ rows, AddsRoutes (t.host.length + 1) spec.routes
      (t.addHostRow serverId spec.name spec.matching) (t.addHost serverId spec) rows :=
  addsRoutes_foldl _ _ _

/-- The routes of a host are still those they were when another host is added. -/
theorem hostSpec_of_adds {spec : HostSpec} {serverId : ℤ} {rows : List RouteRow} (h : t.Sound)
    (hadds : AddsRoutes (t.host.length + 1) spec.routes
      (t.addHostRow serverId spec.name spec.matching) t' rows)
    {host : HostRow × ℕ} (hhost : host.2 ≤ t.host.length) : t'.hostSpec host = t.hostSpec host := by
  have hroutes : t'.routesOf host.2 host.1.serverId = t.routesOf host.2 host.1.serverId := by
    rw [routesOf, hadds.route, List.filter_append, routesOf]
    have hnil : rows.filter (fun row : RouteRow => decide (row.hostId = host.2 ∧
        (rowAt t'.host row.hostId).any (·.serverId = host.1.serverId))) = [] := by
      rw [List.filter_eq_nil_iff]
      intro row hrow
      have hid := hadds.hostId row hrow
      simp only [decide_eq_true_eq, not_and]
      intro heq
      omega
    rw [hnil, List.append_nil]
    refine List.filter_congr fun row hrow => ?_
    have hat : rowAt t'.host row.hostId = rowAt t.host row.hostId := by
      rw [hadds.host]
      exact rowAt_append_of_le _ (h.route row hrow)
    rw [hat]
  rw [hostSpec, hostSpec, hroutes]
  congr 1
  refine List.filterMap_congr fun row hrow => ?_
  exact hadds.grows.routeSpec (h.target row (List.mem_of_mem_filter hrow))

/-- The routes of the new host are the rows that were added. -/
theorem routesOf_of_adds {spec : HostSpec} {serverId : ℤ} {rows : List RouteRow} (h : t.Sound)
    (hadds : AddsRoutes (t.host.length + 1) spec.routes
      (t.addHostRow serverId spec.name spec.matching) t' rows) :
    t'.routesOf (t.host.length + 1) serverId = rows := by
  have hhost : t'.host = t.host ++ [⟨serverId, spec.name, spec.matching⟩] := hadds.host
  have hnil : t.route.filter (fun row : RouteRow => decide (row.hostId = (t.host.length + 1 : ℕ) ∧
      (rowAt t'.host row.hostId).any fun host : HostRow => decide (host.serverId = serverId))) =
      [] := by
    rw [List.filter_eq_nil_iff]
    intro row hrow
    have hle := h.route row hrow
    simp only [decide_eq_true_eq, not_and]
    intro heq
    omega
  have hroute : t'.route = t.route ++ rows := hadds.route
  rw [routesOf, hroute, List.filter_append, hnil, List.nil_append, List.filter_eq_self]
  intro row hrow
  have hid := hadds.hostId row hrow
  rw [hid, hhost, rowAt_length_succ]
  simp

theorem filterMap_of_map {α β : Type*} {f : α → Option β} {as : List α} {bs : List β}
    (h : as.map f = bs.map some) : as.filterMap f = bs := by
  have hid : as.filterMap f = (as.map f).filterMap id := by
    rw [List.filterMap_map, Function.id_comp]
  rw [hid, h, List.filterMap_map, Function.id_comp, List.filterMap_some]

/-- **A host that is added** can be read back, and the others as before. -/
theorem hostSpecs_addHost (h : t.Sound) (serverId : ℕ) (spec : HostSpec) (serverId' : ℕ) :
    (t.addHost serverId spec).hostSpecs serverId' =
      t.hostSpecs serverId' ++ if serverId' = serverId then [spec] else [] := by
  obtain ⟨rows, hadds⟩ := t.exists_addsRoutes serverId spec
  let row : HostRow := ⟨serverId, spec.name, spec.matching⟩
  let number := t.host.length + 1
  have hhosts : (t.addHost serverId spec).hostsOf serverId' =
      t.hostsOf serverId' ++ if serverId' = serverId then [(row, number)] else [] := by
    have hhost : (t.addHost serverId spec).host = t.host ++ [row] := hadds.host
    have hnumber : 1 + t.host.length = number := Nat.add_comm 1 t.host.length
    rw [hostsOf, hhost, List.zipIdx_append, List.filter_append, hnumber, hostsOf]
    congr 1
    by_cases hserver : serverId' = serverId
    · rw [if_pos hserver, hserver]
      simp [row]
    · rw [if_neg hserver]
      have hne : (serverId : ℤ) ≠ serverId' := fun heq => hserver (by omega)
      simp [row, hne]
  rw [hostSpecs, hhosts, List.map_append, hostSpecs]
  congr 1
  · refine List.map_congr_left fun host hhost => ?_
    exact hostSpec_of_adds h hadds (mem_hostsOf hhost)
  · by_cases hserver : serverId' = serverId
    · have hroutes : (t.addHost serverId spec).routesOf number serverId = rows :=
        routesOf_of_adds h hadds
      rw [if_pos hserver, if_pos hserver, List.map_singleton, hostSpec]
      show [HostSpec.mk spec.name spec.matching (((t.addHost serverId spec).routesOf number
        serverId).filterMap (t.addHost serverId spec).routeSpec)] = [spec]
      rw [hroutes, filterMap_of_map hadds.specs]
    · rw [if_neg hserver, if_neg hserver]
      rfl

theorem Sound.addHost (h : t.Sound) {serverId : ℤ} (hle : serverId ≤ t.server.length)
    (spec : HostSpec) : (t.addHost serverId spec).Sound := by
  obtain ⟨rows, hadds⟩ := t.exists_addsRoutes serverId spec
  have hhost : (t.addHost serverId spec).host = t.host ++ [⟨serverId, spec.name, spec.matching⟩] :=
    hadds.host
  have hroute : (t.addHost serverId spec).route = t.route ++ rows := hadds.route
  have hserver : (t.addHost serverId spec).server = t.server := hadds.server
  refine ⟨fun row hrow => ?_, fun row hrow => ?_, fun row hrow => ?_⟩
  · rw [hhost, List.mem_append, List.mem_singleton] at hrow
    rw [hserver]
    rcases hrow with hrow | rfl
    · exact h.host row hrow
    · exact hle
  · rw [hroute, List.mem_append] at hrow
    rw [hhost, List.length_append, List.length_singleton]
    rcases hrow with hrow | hrow
    · have hle := h.route row hrow
      push_cast
      omega
    · rw [hadds.hostId row hrow]
      push_cast
      exact le_refl _
  · rw [hroute, List.mem_append] at hrow
    rcases hrow with hrow | hrow
    · rw [hadds.grows.routeSpec (h.target row hrow)]
      exact h.target row hrow
    · have hspec : (t.addHost serverId spec).routeSpec row ∈ spec.routes.map some :=
        hadds.specs ▸ List.mem_map_of_mem hrow
      obtain ⟨route, -, hroute⟩ := List.mem_map.mp hspec
      rw [← hroute]
      simp

end

/-! ### Servers -/

section

variable {t : Tables}

/-- Hosts of one server are added. -/
theorem addHosts_spec {serverId : ℕ} (hosts : List HostSpec) (h : t.Sound)
    (hle : serverId ≤ t.server.length) :
    (hosts.foldl (addHost serverId) t).Sound ∧
      (hosts.foldl (addHost serverId) t).server = t.server ∧
      ∀ serverId', (hosts.foldl (addHost serverId) t).hostSpecs serverId' =
        t.hostSpecs serverId' ++ if serverId' = serverId then hosts else [] := by
  induction hosts generalizing t with
  | nil => exact ⟨h, rfl, fun serverId' => by simp⟩
  | cons spec hosts ih =>
    have hserver : (t.addHost serverId spec).server = t.server :=
      (t.exists_addsRoutes serverId spec).choose_spec.server
    have hsound : (t.addHost serverId spec).Sound := h.addHost (by exact_mod_cast hle) spec
    obtain ⟨hsound', hserver', hspecs⟩ := ih hsound (by rw [hserver]; exact hle)
    refine ⟨hsound', hserver'.trans hserver, fun serverId' => ?_⟩
    rw [List.foldl_cons, hspecs, hostSpecs_addHost h, List.append_assoc]
    congr 1
    by_cases hid : serverId' = serverId
    · rw [if_pos hid, if_pos hid, if_pos hid]
      rfl
    · rw [if_neg hid, if_neg hid, if_neg hid]
      rfl

/-- **A server that is added** can be read back, behind the others. -/
theorem addServer_spec (h : t.Sound) (spec : ServerSpec) :
    (t.addServer spec).Sound ∧ (t.addServer spec).sites = t.sites ++ [spec] := by
  have hrow : (t.addServerRow spec.row).Sound := by
    refine ⟨fun row hrow => ?_, h.route, h.target⟩
    have hle := h.host row hrow
    show row.serverId ≤ ((t.server ++ [spec.row]).length : ℕ)
    rw [List.length_append, List.length_singleton]
    push_cast
    omega
  have hlength : (t.addServerRow spec.row).server.length = t.server.length + 1 := by
    show (t.server ++ [spec.row]).length = _
    rw [List.length_append, List.length_singleton]
  obtain ⟨hsound, hserver, hspecs⟩ := addHosts_spec spec.hosts hrow hlength.ge
  have hsame : (spec.hosts.foldl (Tables.addHost (t.server.length + 1 : ℕ))
      (t.addServerRow spec.row)) = t.addServer spec := by
    rw [addServer]
    push_cast
    rfl
  rw [hsame] at hsound hserver hspecs
  refine ⟨hsound, ?_⟩
  have hserver : (t.addServer spec).server = t.server ++ [spec.row] := hserver
  rw [sites, hserver, List.zipIdx_append, List.map_append, sites]
  congr 1
  · refine List.map_congr_left fun server hmem => ?_
    have hlt := List.snd_lt_add_of_mem_zipIdx hmem
    have hold := hspecs server.2
    rw [if_neg (by omega), List.append_nil] at hold
    exact congrArg (ServerSpec.mk server.1) hold
  · have hnew := hspecs (t.server.length + 1)
    have hnil : (t.addServerRow spec.row).hostSpecs (t.server.length + 1) = [] := by
      have hhosts : t.hostsOf (t.server.length + 1) = [] := h.hostsOf_eq_nil (Nat.lt_succ_self _)
      show (t.hostsOf (t.server.length + 1)).map _ = []
      rw [hhosts]
      rfl
    rw [if_pos rfl, hnil, List.nil_append] at hnew
    show [ServerSpec.mk spec.row ((t.addServer spec).hostSpecs (1 + t.server.length))] = [spec]
    rw [Nat.add_comm, hnew]

theorem sound_empty : Tables.empty.Sound := ⟨by simp [empty], by simp [empty], by simp [empty]⟩

theorem deploy_spec (specs : List ServerSpec) (h : t.Sound) :
    (specs.foldl addServer t).Sound ∧ (specs.foldl addServer t).sites = t.sites ++ specs := by
  induction specs generalizing t with
  | nil => exact ⟨h, (List.append_nil _).symm⟩
  | cons spec specs ih =>
    obtain ⟨hsound, hsites⟩ := addServer_spec h spec
    obtain ⟨hsound', hsites'⟩ := ih hsound
    refine ⟨hsound', ?_⟩
    rw [List.foldl_cons, hsites', hsites, List.append_assoc]
    rfl

/-- **The servers that were inserted** can be read back from the references between the rows. -/
theorem sites_deploy (specs : List ServerSpec) : (specs.foldl addServer .empty).sites = specs :=
  (deploy_spec specs sound_empty).2

end

/-! ### All targets -/

/-- The rows of the targets. -/
def targets (t : Tables) : List TargetRow :=
  t.handler.map .handler ++ t.proxy.map .proxy ++ t.directory.map .dir

section

variable {t : Tables} {x : TargetRow}

theorem mem_targets_addTarget {y : TargetRow} (h : x ∈ (t.addTarget y).targets) :
    x ∈ t.targets ∨ x = y := by
  cases y <;> simp only [targets, addTarget, List.map_append, List.mem_append, List.map_cons,
    List.map_nil, List.mem_singleton] at h ⊢ <;> tauto

/-- What is added to the tables brings its own targets. -/
theorem mem_targets_foldl {γ : Type*} {add : Tables → γ → Tables} {has : γ → Prop}
    (hadd : ∀ t spec, x ∈ (add t spec).targets → x ∈ t.targets ∨ has spec) {specs : List γ}
    (h : x ∈ (specs.foldl add t).targets) : x ∈ t.targets ∨ ∃ spec ∈ specs, has spec := by
  induction specs generalizing t with
  | nil => exact .inl h
  | cons spec specs ih =>
    rcases ih h with h | ⟨spec', hmem, hspec'⟩
    · rcases hadd t spec h with h | h
      · exact .inl h
      · exact .inr ⟨spec, List.mem_cons_self, h⟩
    · exact .inr ⟨spec', List.mem_cons_of_mem spec hmem, hspec'⟩

/-- **The targets in the tables** are those of routes. -/
theorem mem_targets_deploy {specs : List ServerSpec}
    (h : x ∈ (specs.foldl addServer .empty).targets) :
    ∃ spec ∈ specs, ∃ host ∈ spec.hosts, ∃ route ∈ host.routes, route.target = x := by
  have hroute : ∀ hostId t (route : RouteSpec), x ∈ (addRoute hostId t route).targets →
      x ∈ t.targets ∨ route.target = x := by
    intro hostId t route hx
    rcases mem_targets_addTarget hx with hx | rfl
    · exact .inl hx
    · exact .inr rfl
  have hhost : ∀ serverId t (host : HostSpec), x ∈ (addHost serverId t host).targets →
      x ∈ t.targets ∨ ∃ route ∈ host.routes, route.target = x :=
    fun serverId t host hx =>
      @mem_targets_foldl (t.addHostRow serverId host.name host.matching) x _ _ _ (hroute _) _ hx
  have hserver : ∀ t (spec : ServerSpec), x ∈ (addServer t spec).targets →
      x ∈ t.targets ∨ ∃ host ∈ spec.hosts, ∃ route ∈ host.routes, route.target = x :=
    fun t spec hx => @mem_targets_foldl (t.addServerRow spec.row) x _ _ _ (hhost _) _ hx
  rcases mem_targets_foldl hserver h with hx | hx
  · exact absurd hx (by simp [targets, empty])
  · exact hx

end

end Tables

end M2sh

end Mongrel2
