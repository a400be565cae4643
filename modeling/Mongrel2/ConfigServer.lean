/-
The server of a configuration (`config.c`).

`Config_load_server` makes the targets of all tables, and of the rows with a uuid a server, its
hosts and their routes.  A callback that returns -1 ends its query, and with it the load.

* `loadServer` — the load;
* `ServerServed` — a server has the hosts, the routes and the targets that its specification says;
* **`serverCb_of_good`**, `good_of_serverCb` — what is made of a row is such a server, and it is
  made exactly if nothing is missing, no name is too long and no key comes twice;
* **`dbExec_serverCb`** — of several rows it is the last one's.

Design notes: rows come in the order of their numbers.  A number stands for the address of its
target, and backends are numbered as they are allocated.  The outer `none` is a process that has
died, of a NULL that is read or of a key that is inserted twice.
-/
import Mongrel2.FileTables
import Mongrel2.Netstring
import Mongrel2.RouteInserts
import Mongrel2.TstMap
import Mongrel2.Dir

namespace Mongrel2.ConfigServer

open ByteStream HttpParser M2sh Routing

/-! ### Targets -/

/-- `Proxy`. -/
structure Proxy where
  server : Option (List Byte)
  port : ℤ

/-- A `Dir`, and the type of its files that have no other. -/
structure Directory where
  dir : Mongrel2.Dir
  defaultCtype : Option (List Byte)

/-- What a route leads to.  A `Handler` has the texts of its row. -/
inductive Target
  | handler (handler : HandlerRow)
  | proxy (proxy : Proxy)
  | dir (dir : Directory)

section

variable {ρ σ τ : Type*}

/-- `DB_exec` on rows: whether it returned 0. -/
def dbExec (callback : ρ → σ → Option (Bool × σ)) : List ρ → σ → Option (Bool × σ)
  | [], s => some (true, s)
  | row :: rows, s =>
    (callback row s).bind fun x => if x.1 then dbExec callback rows x.2 else some (false, x.2)

/-- `Handler_create`. -/
def handlerCreate (row : HandlerRow) : Option (Option HandlerRow) := some (some row)

/-- `Proxy_create`; `atoi` reads the port. -/
def proxyCreate (row : ProxyRow) : Option (Option Proxy) :=
  row.port.map fun port => some ⟨row.addr, atoi port⟩

/-- `Dir_create`.  A base that is NULL has no `/` at its end. -/
def dirCreate (maxDirPath : ℕ) (row : DirRow) : Option (Option Directory) :=
  some (row.base.bind fun base =>
    (Mongrel2.Dir.create maxDirPath base (row.indexFile.getD [])).map (⟨·, row.defaultCtype⟩))

/-- `Config_load_handler_cb`, `Config_load_proxy_cb` and `Config_load_dir_cb`. -/
def targetCb (create : ρ → Option (Option τ)) (row : ρ × ℕ) (loaded : Tst (ℕ × τ)) :
    Option (Bool × Tst (ℕ × τ)) :=
  (create row.1).bind fun target =>
    match target with
    | some target => (loaded.insert (Decimal.writeInt row.2) (row.2, target)).map (true, ·)
    | none => some (false, loaded)

/-- `Config_load_handlers`, `Config_load_proxies` and `Config_load_dirs`, whose results are not
looked at. -/
def loadTargets (create : ρ → Option (Option τ)) (rows : List ρ) : Option (Tst (ℕ × τ)) :=
  (dbExec (targetCb create) (rows.zipIdx 1) .nil).map Prod.snd

end

/-- `LOADED_HANDLERS`, `LOADED_PROXIES` and `LOADED_DIRS`. -/
structure Loaded where
  handlers : Tst (ℕ × HandlerRow)
  proxies : Tst (ℕ × Proxy)
  dirs : Tst (ℕ × Directory)

namespace Loaded

variable (l : Loaded)

/-- The target of a type with a number: what `Config_load_route_cb` makes a backend of. -/
def find (type : List Byte) (id : ℤ) : Option (Mongrel2.Backend × ℕ) :=
  if type = bytes "handler" then
    (l.handlers.search (Decimal.writeInt id)).map fun found => (.handler, found.1)
  else if type = bytes "proxy" then
    (l.proxies.search (Decimal.writeInt id)).map fun found => (.proxy, found.1)
  else if type = bytes "dir" then
    (l.dirs.search (Decimal.writeInt id)).map fun found => (.dir, found.1)
  else none

/-- What is at the address of a target. -/
def object (b : Routing.Backend) : Option Target :=
  match b.type with
  | .handler => (l.handlers.search (Decimal.writeInt b.target)).map fun found => .handler found.2
  | .proxy => (l.proxies.search (Decimal.writeInt b.target)).map fun found => .proxy found.2
  | .dir => (l.dirs.search (Decimal.writeInt b.target)).map fun found => .dir found.2

end Loaded

/-! ### The load -/

section

variable (maxDirPath maxHostName : ℕ) (t : Tables) (l : Loaded)

/-- The three tables of targets. -/
def loadAll : Option Loaded := do
  let handlers ← loadTargets handlerCreate t.handler
  let proxies ← loadTargets proxyCreate t.proxy
  let dirs ← loadTargets (dirCreate maxDirPath) t.directory
  some ⟨handlers, proxies, dirs⟩

/-- `Config_load_route_cb`, for a host and the backends that were allocated. -/
def routeCb (row : RouteRow) (s : Host × ℕ) : Option (Bool × Host × ℕ) :=
  match l.find row.targetType row.targetId with
  | none => some (false, s)
  | some target =>
    (s.1.addBackend row.path ⟨s.2, target.1, target.2⟩).map fun host => (true, host, s.2 + 1)

/-- `Config_load_host_cb` for a server whose default host may be NULL, which equals every name. -/
def addHost (default : Option (List Byte)) (srv : Server) (pattern : List Byte) (host : Host) :
    Option Server :=
  (srv.addHost pattern host).map fun srv =>
    if default = none then { srv with defaultHost := some host } else srv

/-- `Config_load_host_cb`. -/
def hostCb (default : Option (List Byte)) (row : HostRow × ℕ) (s : Server × ℕ) :
    Option (Bool × Server × ℕ) :=
  if row.1.name.length < maxHostName then
    (dbExec (routeCb l) (t.routesOf row.2 row.1.serverId) (Host.create row.1.name, s.2)).bind
      fun x =>
        if x.1 then (addHost default s.1 row.1.matching x.2.1).map fun srv => (true, srv, x.2.2)
        else some (false, s.1, x.2.2)
  else some (false, s)

/-- `Server_create`. -/
def serverCreate (row : ServerRow) : Option Server :=
  if row.uuid ≠ none ∧ row.chroot ≠ none ∧ row.accessLog ≠ none ∧ row.errorLog ≠ none ∧
      row.pidFile ≠ none then
    some (Server.create (row.defaultHost.getD []))
  else none

/-- `Config_load_server_cb`.  A server that was made of a row before is destroyed. -/
def serverCb (row : ServerRow × ℕ) (s : Option Server × ℕ) : Option (Bool × Option Server × ℕ) :=
  match serverCreate row.1 with
  | none => some (false, none, s.2)
  | some srv =>
    (dbExec (hostCb maxHostName t l row.1.defaultHost) (t.hostsOf row.2) (srv, s.2)).map
      fun x => (x.1, if x.1 then some x.2.1 else none, x.2.2)

/-- The rows of the servers with a uuid. -/
def serversOf (uuid : List Byte) : List (ServerRow × ℕ) :=
  (t.server.zipIdx 1).filter (·.1.uuid = some uuid)

/-- `Config_load_server`; the inner `none` is NULL. -/
def loadServer (uuid : List Byte) : Option (Option (Loaded × Server)) := do
  let l ← loadAll maxDirPath t
  let x ← dbExec (serverCb maxHostName t l) (serversOf t uuid) (none, 0)
  some (if x.1 then x.2.1.map (l, ·) else none)

end

/-! ### Queries -/

section

variable {ρ σ τ : Type*} {callback : ρ → σ → Option (Bool × σ)} {rows : List ρ} {row : ρ}
  {s s' : σ}

theorem dbExec_cons_eq_some_iff :
    dbExec callback (row :: rows) s = some (true, s') ↔
      ∃ s₁, callback row s = some (true, s₁) ∧ dbExec callback rows s₁ = some (true, s') := by
  rw [dbExec, Option.bind_eq_some_iff]
  constructor
  · rintro ⟨⟨ok, s₁⟩, hrow, hrest⟩
    cases ok with
    | true => exact ⟨s₁, hrow, hrest⟩
    | false => exact absurd hrest (by simp)
  · rintro ⟨s₁, hrow, hrest⟩
    exact ⟨_, hrow, hrest⟩

/-- A query that succeeds has done so with each row. -/
theorem forall_of_dbExec {P : ρ → Prop}
    (hcallback : ∀ row s s', callback row s = some (true, s') → P row)
    (h : dbExec callback rows s = some (true, s')) : ∀ row ∈ rows, P row := by
  induction rows generalizing s with
  | nil => simp
  | cons row rows ih =>
    obtain ⟨s₁, hrow, hrest⟩ := dbExec_cons_eq_some_iff.mp h
    rintro row' (_ | ⟨_, hrow'⟩)
    · exact hcallback row s s₁ hrow
    · exact ih hrest row' hrow'

/-! ### Targets -/

theorem writeInt_ne_nil (n : ℤ) : Decimal.writeInt n ≠ [] := by
  cases n with
  | ofNat n => exact Decimal.write_ne_nil n
  | negSucc n => exact List.cons_ne_nil _ _

theorem writeInt_inj {m n : ℤ} (h : Decimal.writeInt m = Decimal.writeInt n) : m = n := by
  have hread := congrArg Decimal.readInt h
  rwa [Decimal.readInt_writeInt, Decimal.readInt_writeInt, Option.some.injEq] at hread

/-- What a tree has is made of one of the rows. -/
def MadeOf (create : ρ → Option (Option τ)) (rows : List ρ) (tree : Tst (ℕ × τ)) : Prop :=
  ∀ k v, tree.lookup k = some v →
    k = Decimal.writeInt v.1 ∧ ∃ row, rowAt rows v.1 = some row ∧ create row = some (some v.2)

theorem rowAt_of_mem_zipIdx {x : ρ × ℕ} (h : x ∈ rows.zipIdx 1) : rowAt rows x.2 = some x.1 := by
  obtain ⟨i, hi⟩ := List.mem_iff_getElem?.mp h
  rw [List.getElem?_zipIdx, Option.map_eq_some_iff] at hi
  obtain ⟨row, hrow, rfl⟩ := hi
  have hnumber : ((1 + i : ℕ) : ℤ).toNat - 1 = i := by omega
  rw [rowAt, if_pos (by positivity)]
  show rows[((1 + i : ℕ) : ℤ).toNat - 1]? = some row
  rw [hnumber, hrow]

theorem madeOf_targetCb {create : ρ → Option (Option τ)} {x : ρ × ℕ} {tree : Tst (ℕ × τ)}
    {y : Bool × Tst (ℕ × τ)} (hx : rowAt rows x.2 = some x.1) (h : MadeOf create rows tree)
    (hy : targetCb create x tree = some y) : MadeOf create rows y.2 := by
  obtain ⟨target, htarget, hy⟩ := Option.bind_eq_some_iff.mp hy
  rcases target with _ | target
  · obtain rfl := Option.some.inj hy
    exact h
  · obtain ⟨tree', hinsert, rfl⟩ := Option.map_eq_some_iff.mp hy
    intro k v hv
    have hlookup := Tst.lookup_insert (writeInt_ne_nil _) hinsert k
    by_cases hk : k = Decimal.writeInt x.2
    · rw [if_pos hk, hv] at hlookup
      obtain rfl := Option.some.inj hlookup
      exact ⟨hk, x.1, hx, htarget⟩
    · rw [if_neg hk] at hlookup
      exact h k v (hlookup ▸ hv)

theorem madeOf_dbExec {create : ρ → Option (Option τ)} {xs : List (ρ × ℕ)} {tree : Tst (ℕ × τ)}
    {y : Bool × Tst (ℕ × τ)} (hxs : ∀ x ∈ xs, rowAt rows x.2 = some x.1)
    (h : MadeOf create rows tree) (hy : dbExec (targetCb create) xs tree = some y) :
    MadeOf create rows y.2 := by
  induction xs generalizing tree with
  | nil =>
    obtain rfl := Option.some.inj hy
    exact h
  | cons x xs ih =>
    obtain ⟨z, hz, hy⟩ := Option.bind_eq_some_iff.mp hy
    have hmade := madeOf_targetCb (hxs x List.mem_cons_self) h hz
    by_cases hok : z.1 = true
    · rw [if_pos hok] at hy
      exact ih (fun x' hx' => hxs x' (List.mem_cons_of_mem x hx')) hmade hy
    · rw [if_neg hok] at hy
      obtain rfl := Option.some.inj hy
      exact hmade

/-- **A target that is found** is made of the row with its number. -/
theorem exists_of_search {create : ρ → Option (Option τ)} {tree : Tst (ℕ × τ)}
    (h : loadTargets create rows = some tree) {id : ℤ} {type : Mongrel2.Backend}
    {found : Mongrel2.Backend × ℕ}
    (hfound : (tree.search (Decimal.writeInt id)).map (fun v => (type, v.1)) = some found) :
    found.1 = type ∧ ∃ row v, rowAt rows id = some row ∧ create row = some (some v.2) ∧
      tree.search (Decimal.writeInt found.2) = some v := by
  obtain ⟨v, hv, rfl⟩ := Option.map_eq_some_iff.mp hfound
  obtain ⟨y, hy, rfl⟩ := Option.map_eq_some_iff.mp h
  have hnil : MadeOf create rows .nil := by
    intro k v hv
    rw [Tst.lookup_nil_tree] at hv
    exact absurd hv (by simp)
  have hmade := madeOf_dbExec (fun x hx => rowAt_of_mem_zipIdx hx) hnil hy
  obtain ⟨hid, row, hrow, hcreate⟩ :=
    hmade _ v (by rw [← Tst.search_eq_lookup _ (writeInt_ne_nil id), hv])
  have heq : (v.1 : ℤ) = id := (writeInt_inj hid).symm
  exact ⟨rfl, row, v, heq ▸ hrow, hcreate, by rw [heq, hv]⟩

end

/-! ### Routes -/

section

variable (maxDirPath : ℕ)

/-- What is made of a target. -/
def object : TargetRow → Option Target
  | .handler row => (handlerCreate row).join.map .handler
  | .proxy row => (proxyCreate row).join.map .proxy
  | .dir row => (dirCreate maxDirPath row).join.map .dir

/-- A backend leads to what a route says. -/
structure RouteServed (l : Loaded) (c : List Byte × Routing.Backend) (route : RouteSpec) :
    Prop where
  path : c.1 = route.path
  object : l.object c.2 = object maxDirPath route.target

/-- The routes of a host lead to what its specification says. -/
structure HostServed (l : Loaded) (c : List Byte × Host) (spec : HostSpec) : Prop where
  matching : c.1 = spec.matching
  name : c.2.name = spec.name
  routes : ∃ calls, RouteMap.insertAll false calls = some c.2.routes ∧
    List.Forall₂ (RouteServed maxDirPath l) calls spec.routes

end

section

variable {maxDirPath maxHostName : ℕ} {t : Tables} {l : Loaded}

/-- **The target of a route** is made of what the tables have under its type and number. -/
theorem exists_of_find (hl : loadAll maxDirPath t = some l) {type : List Byte} {id : ℤ}
    {found : Mongrel2.Backend × ℕ} (h : l.find type id = some found) :
    ∃ x, t.target type id = some x ∧
      ∀ ptr, l.object ⟨ptr, found.1, found.2⟩ = object maxDirPath x := by
  obtain ⟨handlers, hhandlers, hl⟩ := Option.bind_eq_some_iff.mp hl
  obtain ⟨proxies, hproxies, hl⟩ := Option.bind_eq_some_iff.mp hl
  obtain ⟨dirs, hdirs, hl⟩ := Option.bind_eq_some_iff.mp hl
  obtain rfl := Option.some.inj hl
  rcases found with ⟨found, n⟩
  unfold Loaded.find at h
  unfold Tables.target
  by_cases htype : type = bytes "handler"
  · rw [if_pos htype] at h ⊢
    obtain ⟨rfl, row, v, hrow, hcreate, hv⟩ := exists_of_search hhandlers h
    refine ⟨.handler row, by rw [hrow]; rfl, fun ptr => ?_⟩
    rw [object, hcreate]
    exact congrArg (Option.map _) hv
  rw [if_neg htype] at h ⊢
  by_cases htype : type = bytes "proxy"
  · rw [if_pos htype] at h ⊢
    obtain ⟨rfl, row, v, hrow, hcreate, hv⟩ := exists_of_search hproxies h
    refine ⟨.proxy row, by rw [hrow]; rfl, fun ptr => ?_⟩
    rw [object, hcreate]
    exact congrArg (Option.map _) hv
  rw [if_neg htype] at h ⊢
  by_cases htype : type = bytes "dir"
  · rw [if_pos htype] at h ⊢
    obtain ⟨rfl, row, v, hrow, hcreate, hv⟩ := exists_of_search hdirs h
    refine ⟨.dir row, by rw [hrow]; rfl, fun ptr => ?_⟩
    rw [object, hcreate]
    exact congrArg (Option.map _) hv
  · rw [if_neg htype] at h
    exact absurd h (by simp)

theorem find_of_routeCb {row : RouteRow} {s s' : Host × ℕ} (h : routeCb l row s = some (true, s')) :
    l.find row.targetType row.targetId ≠ none := by
  intro hnone
  rw [routeCb, hnone] at h
  exact absurd h (by simp)

/-- **The routes of a host** are inserted one after the other if all of their targets are found. -/
theorem dbExec_routeCb (hl : loadAll maxDirPath t = some l) {rows : List RouteRow}
    (hrows : ∀ row ∈ rows, l.find row.targetType row.targetId ≠ none) (s : Host × ℕ) :
    ∃ calls, List.Forall₂ (RouteServed maxDirPath l) calls (rows.filterMap t.routeSpec) ∧
      dbExec (routeCb l) rows s = (calls.foldlM (RouteMap.insertRoute false) s.1.routes).map
        fun routes => (true, ⟨s.1.name, routes⟩, s.2 + rows.length) := by
  induction rows generalizing s with
  | nil => exact ⟨[], .nil, rfl⟩
  | cons row rows ih =>
    obtain ⟨found, hfound⟩ := Option.ne_none_iff_exists'.mp (hrows row List.mem_cons_self)
    obtain ⟨x, hx, hobject⟩ := exists_of_find hl hfound
    have hspec : t.routeSpec row = some ⟨row.path, x⟩ := by rw [Tables.routeSpec, hx]; rfl
    have hrest := ih fun row' hrow' => hrows row' (List.mem_cons_of_mem row hrow')
    let c : List Byte × Routing.Backend := (row.path, ⟨s.2, found.1, found.2⟩)
    have hcb : routeCb l row s = (s.1.routes.insert c.1 c.2).map
        fun routes => (true, ⟨s.1.name, routes⟩, s.2 + 1) := by
      rw [routeCb, hfound]
      exact Option.map_map _ _ _
    rw [List.filterMap_cons_some hspec]
    rcases hinsert : s.1.routes.insert c.1 c.2 with _ | routes
    · -- the key is there, and the process dies
      obtain ⟨calls, hcalls, -⟩ := hrest s
      refine ⟨c :: calls, .cons ⟨rfl, hobject s.2⟩ hcalls, ?_⟩
      have hinsert' : RouteMap.insertRoute false s.1.routes c = none := hinsert
      rw [dbExec, hcb, hinsert, List.foldlM_cons, hinsert']
      rfl
    · obtain ⟨calls, hcalls, hexec⟩ := hrest (⟨s.1.name, routes⟩, s.2 + 1)
      refine ⟨c :: calls, .cons ⟨rfl, hobject s.2⟩ hcalls, ?_⟩
      have hinsert' : RouteMap.insertRoute false s.1.routes c = some routes := hinsert
      have hcount : s.2 + 1 + rows.length = s.2 + (row :: rows).length := by
        rw [List.length_cons]
        omega
      rw [dbExec, hcb, hinsert, List.foldlM_cons, hinsert', ← hcount]
      exact hexec

/-! ### Hosts -/

/-- A host that can be loaded: its name is not too long, and the keys of its routes differ. -/
structure HostGood (maxHostName : ℕ) (spec : HostSpec) : Prop where
  name : spec.name.length < maxHostName
  keys : (spec.routes.map fun route => RouteMap.routeKey false route.path).Nodup

/-- The targets of its routes are found. -/
def HostFound (t : Tables) (l : Loaded) (row : HostRow × ℕ) : Prop :=
  ∀ route ∈ t.routesOf row.2 row.1.serverId, l.find route.targetType route.targetId ≠ none

theorem keysOf_eq {α β : Type*} {reversed : Bool} {R : List Byte × α → β → Prop}
    {pattern : β → List Byte} {calls : List (List Byte × α)} {specs : List β}
    (hpattern : ∀ c spec, R c spec → c.1 = pattern spec) (h : List.Forall₂ R calls specs) :
    RouteMap.keysOf reversed calls =
      specs.map fun spec => RouteMap.routeKey reversed (pattern spec) := by
  induction h with
  | nil => rfl
  | cons hc _ ih =>
    rw [List.map_cons, ← ih, ← hpattern _ _ hc]
    rfl

/-- **A host** is added with its routes. -/
theorem hostCb_of_good (hl : loadAll maxDirPath t = some l) {row : HostRow × ℕ}
    (hgood : HostGood maxHostName (t.hostSpec row)) (hfound : HostFound t l row)
    (default : Option (List Byte)) (s : Server × ℕ) :
    ∃ host n, HostServed maxDirPath l (row.1.matching, host) (t.hostSpec row) ∧
      hostCb maxHostName t l default row s =
        (addHost default s.1 row.1.matching host).map fun srv => (true, srv, n) := by
  obtain ⟨calls, hcalls, hexec⟩ := dbExec_routeCb hl hfound (Host.create row.1.name, s.2)
  have hkeys : RouteMap.keysOf false calls =
      (t.hostSpec row).routes.map fun route => RouteMap.routeKey false route.path :=
    keysOf_eq (fun c route h => h.path) hcalls
  obtain ⟨tree, hall, -, -⟩ := RouteMap.insertAll_spec (hkeys ▸ hgood.keys)
  have hexec' : dbExec (routeCb l) (t.routesOf row.2 row.1.serverId) (Host.create row.1.name, s.2) =
      some (true, ⟨row.1.name, ⟨tree⟩⟩, s.2 + (t.routesOf row.2 row.1.serverId).length) := by
    rw [hexec]
    exact congrArg _ hall
  refine ⟨⟨row.1.name, ⟨tree⟩⟩, s.2 + (t.routesOf row.2 row.1.serverId).length,
    ⟨rfl, rfl, calls, hall, hcalls⟩, ?_⟩
  rw [hostCb, if_pos (show row.1.name.length < maxHostName from hgood.name), hexec']
  rfl

theorem good_of_hostCb (hl : loadAll maxDirPath t = some l) {row : HostRow × ℕ}
    {default : Option (List Byte)} {s s' : Server × ℕ}
    (h : hostCb maxHostName t l default row s = some (true, s')) :
    HostGood maxHostName (t.hostSpec row) ∧ HostFound t l row := by
  unfold hostCb at h
  by_cases hname : row.1.name.length < maxHostName
  · rw [if_pos hname] at h
    obtain ⟨⟨ok, x⟩, hroutes, h⟩ := Option.bind_eq_some_iff.mp h
    cases ok with
    | false => exact absurd h (by simp)
    | true =>
      have hfound : HostFound t l row := forall_of_dbExec (fun _ _ _ => find_of_routeCb) hroutes
      obtain ⟨calls, hcalls, hexec⟩ := dbExec_routeCb hl hfound (Host.create row.1.name, s.2)
      rw [hroutes] at hexec
      obtain ⟨routes, hall, -⟩ := Option.map_eq_some_iff.mp hexec.symm
      have hkeys : RouteMap.keysOf false calls =
          (t.hostSpec row).routes.map fun route => RouteMap.routeKey false route.path :=
        keysOf_eq (fun c route h => h.path) hcalls
      exact ⟨⟨hname, hkeys ▸ RouteMap.nodup_of_insertAll hall⟩, hfound⟩
  · rw [if_neg hname] at h
    exact absurd h (by simp)

/-- **The hosts of a server** are added one after the other. -/
theorem dbExec_hostCb (hl : loadAll maxDirPath t = some l) {rows : List (HostRow × ℕ)}
    (hrows : ∀ row ∈ rows, HostGood maxHostName (t.hostSpec row) ∧ HostFound t l row)
    (default : Option (List Byte)) (s : Server × ℕ) :
    ∃ calls n, List.Forall₂ (HostServed maxDirPath l) calls (rows.map t.hostSpec) ∧
      dbExec (hostCb maxHostName t l default) rows s =
        (calls.foldlM (fun srv c => addHost default srv c.1 c.2) s.1).map
          fun srv => (true, srv, n) := by
  induction rows generalizing s with
  | nil => exact ⟨[], s.2, .nil, rfl⟩
  | cons row rows ih =>
    obtain ⟨hgood, hfound⟩ := hrows row List.mem_cons_self
    obtain ⟨host, n, hserved, hcb⟩ := hostCb_of_good hl hgood hfound default s
    have hrest := ih fun row' hrow' => hrows row' (List.mem_cons_of_mem row hrow')
    rcases hadd : addHost default s.1 row.1.matching host with _ | srv
    · obtain ⟨calls, n', hcalls, -⟩ := hrest s
      refine ⟨(row.1.matching, host) :: calls, n', .cons hserved hcalls, ?_⟩
      rw [dbExec, hcb, hadd, List.foldlM_cons, hadd]
      rfl
    · obtain ⟨calls, n', hcalls, hexec⟩ := hrest (srv, n)
      refine ⟨(row.1.matching, host) :: calls, n', .cons hserved hcalls, ?_⟩
      rw [dbExec, hcb, hadd, List.foldlM_cons, hadd]
      exact hexec

/-! ### Servers -/

/-- The host is the default one of its server. -/
def isDefault (default : Option (List Byte)) (name : List Byte) : Bool :=
  default = none ∨ default = some name

theorem addHost_eq (default : Option (List Byte)) (srv : Server)
    (hsrv : srv.defaultHostname = default.getD []) (c : List Byte × Host) :
    addHost default srv c.1 c.2 = (RouteMap.insertRoute true srv.hosts c).map fun hosts =>
      ⟨hosts, if isDefault default c.2.name then some c.2 else srv.defaultHost,
        srv.defaultHostname⟩ := by
  rw [addHost, Server.addHost, Option.map_map]
  refine congrArg (Option.map · _) (funext fun hosts => ?_)
  rcases default with _ | name
  · simp [isDefault]
  · have hname : srv.defaultHostname = name := hsrv
    simp [isDefault, hname, eq_comm]

/-- **All hosts** of a server: a map of them, and the last one that is a default host. -/
theorem foldlM_addHost (default : Option (List Byte)) (calls : List (List Byte × Host))
    (srv : Server) (hsrv : srv.defaultHostname = default.getD []) :
    calls.foldlM (fun srv c => addHost default srv c.1 c.2) srv =
      (calls.foldlM (RouteMap.insertRoute true) srv.hosts).map fun hosts =>
        ⟨hosts, ((calls.reverse.find? fun c => isDefault default c.2.name).map Prod.snd).orElse
          fun _ => srv.defaultHost, srv.defaultHostname⟩ := by
  induction calls generalizing srv with
  | nil => rfl
  | cons c calls ih =>
    rw [List.foldlM_cons, List.foldlM_cons, addHost_eq default srv hsrv c]
    rcases RouteMap.insertRoute true srv.hosts c with _ | hosts
    · rfl
    · refine (ih ⟨hosts, if isDefault default c.2.name then some c.2 else srv.defaultHost,
        srv.defaultHostname⟩ hsrv).trans ?_
      refine congrArg (Option.map · _) (funext fun hosts' => ?_)
      rw [List.reverse_cons, List.find?_append]
      generalize calls.reverse.find? (fun c : List Byte × Host =>
        isDefault default c.2.name) = found
      rcases found with _ | c'
      · cases hd : isDefault default c.2.name <;> simp [hd]
      · rfl

/-- A server that can be loaded: the texts that are needed are there, so can its hosts, and the
keys of these differ. -/
structure ServerGood (maxHostName : ℕ) (spec : ServerSpec) : Prop where
  row : serverCreate spec.row ≠ none
  hosts : ∀ host ∈ spec.hosts, HostGood maxHostName host
  keys : (spec.hosts.map fun host => RouteMap.routeKey true host.matching).Nodup

/-- The default host: the last one with the name. -/
def defaultHost (spec : ServerSpec) : Option HostSpec :=
  spec.hosts.reverse.find? fun host => isDefault spec.row.defaultHost host.name

/-- A server has the hosts that its specification says. -/
structure ServerServed (maxDirPath : ℕ) (l : Loaded) (srv : Server) (spec : ServerSpec) :
    Prop where
  hosts : ∃ calls, RouteMap.insertAll true calls = some srv.hosts ∧
    List.Forall₂ (HostServed maxDirPath l) calls spec.hosts ∧
    srv.defaultHost =
      (calls.reverse.find? fun c => isDefault spec.row.defaultHost c.2.name).map Prod.snd
  name : srv.defaultHostname = spec.row.defaultHost.getD []

/-- The targets of all routes of a server are found. -/
def ServerFound (t : Tables) (l : Loaded) (row : ServerRow × ℕ) : Prop :=
  ∀ host ∈ t.hostsOf row.2, HostFound t l host

theorem serverCreate_eq {row : ServerRow} {srv : Server} (h : serverCreate row = some srv) :
    srv = Server.create (row.defaultHost.getD []) := by
  unfold serverCreate at h
  split at h
  · exact (Option.some.inj h).symm
  · exact absurd h (by simp)

/-- **A server** is made with its hosts. -/
theorem serverCb_of_good (hl : loadAll maxDirPath t = some l) {row : ServerRow × ℕ}
    (hgood : ServerGood maxHostName (t.serverSpec row)) (hfound : ServerFound t l row)
    (s : Option Server × ℕ) :
    ∃ srv n, ServerServed maxDirPath l srv (t.serverSpec row) ∧
      serverCb maxHostName t l row s = some (true, some srv, n) := by
  obtain ⟨srv, hsrv⟩ : ∃ srv, serverCreate row.1 = some srv :=
    Option.ne_none_iff_exists'.mp hgood.row
  have hcreate : srv = Server.create (row.1.defaultHost.getD []) := serverCreate_eq hsrv
  have hhosts : ∀ host ∈ t.hostsOf row.2,
      HostGood maxHostName (t.hostSpec host) ∧ HostFound t l host := fun host hhost =>
    ⟨hgood.hosts _ (List.mem_map_of_mem hhost), hfound host hhost⟩
  obtain ⟨calls, n, hcalls, hexec⟩ := dbExec_hostCb hl hhosts row.1.defaultHost (srv, s.2)
  have hkeys : RouteMap.keysOf true calls =
      (t.serverSpec row).hosts.map fun host => RouteMap.routeKey true host.matching :=
    keysOf_eq (fun c host h => h.matching) hcalls
  obtain ⟨tree, hall, -, -⟩ := RouteMap.insertAll_spec (hkeys ▸ hgood.keys)
  have hname : srv.defaultHostname = row.1.defaultHost.getD [] := by rw [hcreate]; rfl
  have hmap : srv.hosts = .create := by rw [hcreate]; rfl
  have hnone : srv.defaultHost = none := by rw [hcreate]; rfl
  have hfold : calls.foldlM (RouteMap.insertRoute true) srv.hosts = some ⟨tree⟩ := by
    rw [hmap]
    exact hall
  rw [foldlM_addHost row.1.defaultHost calls srv hname, hfold] at hexec
  let default := (calls.reverse.find? fun c => isDefault row.1.defaultHost c.2.name).map Prod.snd
  refine ⟨⟨⟨tree⟩, default, srv.defaultHostname⟩, n, ⟨⟨calls, hall, hcalls, rfl⟩, hname⟩, ?_⟩
  rw [serverCb, hsrv]
  dsimp only
  rw [hexec, hnone]
  simp [default]

theorem good_of_serverCb (hl : loadAll maxDirPath t = some l) {row : ServerRow × ℕ}
    {s s' : Option Server × ℕ} (h : serverCb maxHostName t l row s = some (true, s')) :
    ServerGood maxHostName (t.serverSpec row) ∧ ServerFound t l row := by
  unfold serverCb at h
  rcases hsrv : serverCreate row.1 with _ | srv
  · rw [hsrv] at h
    exact absurd h (by simp)
  rw [hsrv] at h
  obtain ⟨⟨ok, x⟩, hexec, h⟩ := Option.map_eq_some_iff.mp h
  obtain rfl : ok = true := congrArg Prod.fst h
  have hhosts : ∀ host ∈ t.hostsOf row.2,
      HostGood maxHostName (t.hostSpec host) ∧ HostFound t l host :=
    forall_of_dbExec (fun _ _ _ => good_of_hostCb hl) hexec
  obtain ⟨calls, n, hcalls, hexec'⟩ := dbExec_hostCb hl hhosts row.1.defaultHost (srv, s.2)
  have hname : srv.defaultHostname = row.1.defaultHost.getD [] := by
    rw [serverCreate_eq hsrv]
    rfl
  have hmap : srv.hosts = .create := by
    rw [serverCreate_eq hsrv]
    rfl
  rw [hexec, foldlM_addHost row.1.defaultHost calls srv hname, hmap, Option.map_map] at hexec'
  obtain ⟨hosts, hall, -⟩ := Option.map_eq_some_iff.mp hexec'.symm
  have hkeys : RouteMap.keysOf true calls =
      (t.serverSpec row).hosts.map fun host => RouteMap.routeKey true host.matching :=
    keysOf_eq (fun c host h => h.matching) hcalls
  have hnodup := hkeys ▸ RouteMap.nodup_of_insertAll hall
  refine ⟨⟨?_, ?_, hnodup⟩, fun host hhost => (hhosts host hhost).2⟩
  · show serverCreate row.1 ≠ none
    rw [hsrv]
    simp
  · intro host hhost
    obtain ⟨row', hrow', rfl⟩ := List.mem_map.mp hhost
    exact (hhosts row' hrow').1

/-- **The rows of a query** make the server of the last one. -/
theorem dbExec_serverCb (hl : loadAll maxDirPath t = some l) {rows : List (ServerRow × ℕ)}
    (hrows : ∀ row ∈ rows, ServerGood maxHostName (t.serverSpec row) ∧ ServerFound t l row)
    (s : Option Server × ℕ) :
    ∃ s', dbExec (serverCb maxHostName t l) rows s = some (true, s') ∧
      (rows = [] → s' = s) ∧ ∀ row, rows.getLast? = some row →
        ∃ srv, s'.1 = some srv ∧ ServerServed maxDirPath l srv (t.serverSpec row) := by
  induction rows generalizing s with
  | nil => exact ⟨s, rfl, fun _ => rfl, fun row hrow => absurd hrow (by simp)⟩
  | cons row rows ih =>
    obtain ⟨hgood, hfound⟩ := hrows row List.mem_cons_self
    obtain ⟨srv, n, hserved, hcb⟩ := serverCb_of_good hl hgood hfound s
    obtain ⟨s', hexec, hnil, hlast⟩ :=
      ih (fun row' hrow' => hrows row' (List.mem_cons_of_mem row hrow')) (some srv, n)
    refine ⟨s', dbExec_cons_eq_some_iff.mpr ⟨_, hcb, hexec⟩, by simp, fun row' hrow' => ?_⟩
    rcases rows with _ | ⟨row₁, rows⟩
    · obtain rfl : row = row' := by simpa using hrow'
      exact ⟨srv, by rw [hnil rfl], hserved⟩
    · exact hlast row' (by simpa using hrow')

end

end Mongrel2.ConfigServer
