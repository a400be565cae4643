/-
Requests to a server of a configuration file (`config.c`, `server.c`, `host.c`, and
`config_file.c` of `m2sh`).

* `Dispatches` — which route of which host a file has for a request, by the texts in it;
* **`configLoad_serves`** — the server that is loaded from the tables of a file routes every request
  there, to a target that is made of what the file says of it;
* **`configLoad_loads_iff`** — there is one exactly if the file has a server with the uuid, and each
  of these can be loaded.

Design notes: the pattern language is a parameter.  A server whose default host is NULL is loaded,
but cannot look at the name of a host that it does not have, and is not followed any further.
-/
import Mongrel2.ConfigServer

namespace Mongrel2.ConfigServer

open ByteStream HttpParser M2sh Routing

section

variable {maxDirPath maxHostName : ℕ} {t : Tables} {l : Loaded}

/-! ### Requests -/

variable (bstringMatch : List Byte → List Byte → Bool)

/-- A pattern is found for a target, and matches it if it is one. -/
def Picks (reversed : Bool) (patterns : List (List Byte)) (target pattern : List Byte) : Prop :=
  target ≠ [] ∧
    Tst.Found reversed (patterns.map (RouteMap.routeKey reversed)) target
      (RouteMap.routeKey reversed pattern) ∧
    ((if reversed then chr ')' else chr '(') ∈ pattern → bstringMatch target pattern = true)

/-- The host of a request, whose header may be missing. -/
def HostFor (spec : ServerSpec) (hostName : Option (List Byte)) (host : HostSpec) : Prop :=
  match hostName with
  | none => defaultHost spec = some host
  | some name =>
    host ∈ spec.hosts ∧ Picks bstringMatch true (spec.hosts.map (·.matching)) name host.matching ∨
      (∀ other ∈ spec.hosts,
        ¬ Picks bstringMatch true (spec.hosts.map (·.matching)) name other.matching) ∧
      bstringMatch name (spec.row.defaultHost.getD []) = true ∧ defaultHost spec = some host

/-- The route of a request. -/
def Dispatches (spec : ServerSpec) (req : Request) (host : HostSpec) (route : RouteSpec) : Prop :=
  HostFor bstringMatch spec req.hostName host ∧ route ∈ host.routes ∧
    Picks bstringMatch false (host.routes.map (·.path)) (req.path.getD []) route.path

/-- The name of the host, what is at the address of the target, and the pattern. -/
def view (l : Loaded) (d : Dispatch) : List Byte × Option Target × List Byte :=
  (d.host.name, l.object d.backend, d.pattern)

variable {bstringMatch}

theorem exists_mem_of_forall₂ {α β : Type*} {R : α → β → Prop} {as : List α} {bs : List β}
    (h : List.Forall₂ R as bs) : (∀ a ∈ as, ∃ b ∈ bs, R a b) ∧ ∀ b ∈ bs, ∃ a ∈ as, R a b := by
  induction h with
  | nil => simp
  | cons hab _ ih =>
    refine ⟨?_, ?_⟩
    · rintro a' (_ | ⟨_, ha'⟩)
      · exact ⟨_, List.mem_cons_self, hab⟩
      · obtain ⟨b', hb', hR⟩ := ih.1 a' ha'
        exact ⟨b', List.mem_cons_of_mem _ hb', hR⟩
    · rintro b' (_ | ⟨_, hb'⟩)
      · exact ⟨_, List.mem_cons_self, hab⟩
      · obtain ⟨a', ha', hR⟩ := ih.2 b' hb'
        exact ⟨a', List.mem_cons_of_mem _ ha', hR⟩

/-- **A lookup** in the map of some routes finds the one whose pattern is picked. -/
theorem lookupRoute_iff (bstringMatch : List Byte → List Byte → Bool) {α β : Type*}
    {reversed : Bool} {R : List Byte × α → β → Prop} {pattern : β → List Byte}
    {calls : List (List Byte × α)} {specs : List β} {map : RouteMap α}
    (hall : RouteMap.insertAll reversed calls = some map)
    (hpattern : ∀ c spec, R c spec → c.1 = pattern spec) (h : List.Forall₂ R calls specs)
    (target : List Byte) (r : Route α) :
    RouteMap.lookupRoute bstringMatch reversed map target = some r ↔
      ∃ c ∈ calls, ∃ spec ∈ specs, R c spec ∧
        Picks bstringMatch reversed (specs.map pattern) target (pattern spec) ∧
          RouteMap.routeOf reversed c = r := by
  obtain ⟨tree, hall', hsearch, -⟩ := RouteMap.insertAll_spec (RouteMap.nodup_of_insertAll hall)
  obtain rfl : map = ⟨tree⟩ := Option.some.inj (hall.symm.trans hall')
  have hkeys : RouteMap.keysOf reversed calls =
      (specs.map pattern).map (RouteMap.routeKey reversed) := by
    rw [keysOf_eq hpattern h, List.map_map]
    rfl
  rw [RouteMap.lookupRoute_eq_some_iff]
  by_cases htarget : target = []
  · subst htarget
    have hnone : tree.searchBy reversed [] = none := by cases reversed <;> rfl
    refine iff_of_false (fun hfound => absurd (hnone.symm.trans hfound.1) (by simp)) ?_
    rintro ⟨c, hc, spec, hspec, hR, hpick, hr⟩
    exact hpick.1 rfl
  rw [hsearch target htarget, hkeys]
  constructor
  · rintro ⟨⟨c, hc, hfound, rfl⟩, hmatch⟩
    obtain ⟨spec, hspec, hR⟩ := (exists_mem_of_forall₂ h).1 c hc
    refine ⟨c, hc, spec, hspec, hR, ⟨htarget, ?_, ?_⟩, rfl⟩
    · rwa [← hpattern c spec hR]
    · intro hparen
      rw [← hpattern c spec hR] at hparen ⊢
      exact hmatch (by simpa [RouteMap.routeOf] using hparen)
  · rintro ⟨c, hc, spec, hspec, hR, ⟨-, hfound, hmatch⟩, rfl⟩
    rw [← hpattern c spec hR] at hfound hmatch
    exact ⟨⟨c, hc, hfound, rfl⟩, fun hparen => hmatch (by simpa [RouteMap.routeOf] using hparen)⟩

theorem find?_forall₂ {α β : Type*} {R : α → β → Prop} {p : α → Bool} {q : β → Bool} {as : List α}
    {bs : List β} (hpq : ∀ a b, R a b → p a = q b) (h : List.Forall₂ R as bs) :
    Option.Rel R (as.find? p) (bs.find? q) := by
  induction h with
  | nil => exact .none
  | @cons a b as bs hab _ ih =>
    rw [List.find?_cons, List.find?_cons, ← hpq a b hab]
    cases p a with
    | true => exact .some hab
    | false => exact ih

/-- The default host is the one that the specification says. -/
theorem rel_defaultHost {srv : Server} {spec : ServerSpec}
    (h : ServerServed maxDirPath l srv spec) :
    Option.Rel (fun host host' => ∃ pattern, HostServed maxDirPath l (pattern, host) host')
      srv.defaultHost (defaultHost spec) := by
  obtain ⟨calls, -, hcalls, hdefault⟩ := h.hosts
  have hrel := find?_forall₂
    (fun c host (hc : HostServed maxDirPath l c host) =>
      congrArg (isDefault spec.row.defaultHost) hc.name) (List.forall₂_reverse_iff.mpr hcalls)
  rw [hdefault, defaultHost]
  generalize calls.reverse.find? (fun c : List Byte × Host =>
    isDefault spec.row.defaultHost c.2.name) = found at hrel ⊢
  generalize spec.hosts.reverse.find? (fun host : HostSpec =>
    isDefault spec.row.defaultHost host.name) = found' at hrel ⊢
  cases hrel with
  | none => exact .none
  | some hc => exact .some ⟨_, hc⟩

theorem exists_of_rel {α β : Type*} {R : α → β → Prop} {a : Option α} {b : Option β}
    (h : Option.Rel R a b) :
    (∀ x, a = some x → ∃ y, b = some y ∧ R x y) ∧ ∀ y, b = some y → ∃ x, a = some x ∧ R x y := by
  cases h with
  | none => simp
  | some hR =>
    refine ⟨?_, ?_⟩
    · rintro x ⟨⟩
      exact ⟨_, rfl, hR⟩
    · rintro y ⟨⟩
      exact ⟨_, rfl, hR⟩

/-- **The host of a request** is the one that the specification says. -/
theorem matchHost_spec {srv : Server} {spec : ServerSpec} (h : ServerServed maxDirPath l srv spec)
    (hostName : Option (List Byte)) :
    (∀ host, srv.matchHost bstringMatch hostName = some host →
      ∃ host', HostFor bstringMatch spec hostName host' ∧
        ∃ pattern, HostServed maxDirPath l (pattern, host) host') ∧
    ∀ host', HostFor bstringMatch spec hostName host' →
      ∃ host, srv.matchHost bstringMatch hostName = some host ∧
        ∃ pattern, HostServed maxDirPath l (pattern, host) host' := by
  obtain ⟨hdefault, hdefault'⟩ := exists_of_rel (rel_defaultHost h)
  rcases hostName with _ | name
  · exact ⟨hdefault, hdefault'⟩
  obtain ⟨calls, hall, hcalls, -⟩ := h.hosts
  have hlookup := lookupRoute_iff bstringMatch hall
    (fun c host (hc : HostServed maxDirPath l c host) => hc.matching) hcalls name
  rcases hfound : RouteMap.lookupRoute bstringMatch true srv.hosts name with _ | r
  · -- no host is found, and the default one is left
    have hmatch : srv.matchHost bstringMatch (some name) =
        if bstringMatch name (spec.row.defaultHost.getD []) then srv.defaultHost else none := by
      have hsuffix : srv.hosts.matchSuffix bstringMatch name = none := hfound
      rw [Server.matchHost, Server.matchBackend, hsuffix, h.name]
    have hnone : ∀ host ∈ spec.hosts,
        ¬ Picks bstringMatch true (spec.hosts.map (·.matching)) name host.matching := by
      intro host hhost hpick
      obtain ⟨c, hc, hserved⟩ := (exists_mem_of_forall₂ hcalls).2 host hhost
      have hsome := (hlookup _).mpr ⟨c, hc, host, hhost, hserved, hpick, rfl⟩
      rw [hfound] at hsome
      exact absurd hsome (by simp)
    rw [hmatch]
    refine ⟨fun host hhost => ?_, ?_⟩
    · by_cases hself : bstringMatch name (spec.row.defaultHost.getD []) = true
      · rw [if_pos hself] at hhost
        obtain ⟨host', hhost', hserved⟩ := hdefault host hhost
        exact ⟨host', .inr ⟨hnone, hself, hhost'⟩, hserved⟩
      · rw [if_neg hself] at hhost
        exact absurd hhost (by simp)
    · rintro host' (⟨hmem, hpick⟩ | ⟨-, hself, hhost'⟩)
      · exact absurd hpick (hnone host' hmem)
      · rw [if_pos hself]
        exact hdefault' host' hhost'
  · have hmatch : srv.matchHost bstringMatch (some name) = some r.data := by
      have hsuffix : srv.hosts.matchSuffix bstringMatch name = some r := hfound
      rw [Server.matchHost, Server.matchBackend, hsuffix]
    obtain ⟨c, hc, host₁, hhost₁, hserved, hpick, rfl⟩ := (hlookup r).mp hfound
    rw [hmatch]
    refine ⟨?_, ?_⟩
    · rintro host ⟨⟩
      exact ⟨host₁, .inl ⟨hhost₁, hpick⟩, c.1, hserved⟩
    · rintro host' (⟨hmem, hpick'⟩ | ⟨hnone, -⟩)
      · obtain ⟨c', hc', hserved'⟩ := (exists_mem_of_forall₂ hcalls).2 host' hmem
        have hsame := (hlookup _).mpr ⟨c', hc', host', hmem, hserved', hpick', rfl⟩
        rw [hfound] at hsame
        have hdata := congrArg Route.data (Option.some.inj hsame)
        exact ⟨_, rfl, c'.1, by rw [hdata]; exact hserved'⟩
      · exact absurd hpick (hnone host₁ hhost₁)

/-- **The route of a request** is the one that the specification says. -/
theorem route_iff {srv : Server} {spec : ServerSpec} (h : ServerServed maxDirPath l srv spec)
    (req : Request) (v : List Byte × Option Target × List Byte) :
    (srv.route bstringMatch req).map (view l) = some v ↔
      ∃ host route, Dispatches bstringMatch spec req host route ∧
        v = (host.name, object maxDirPath route.target, route.path) := by
  obtain ⟨hhost, hhost'⟩ := @matchHost_spec maxDirPath l bstringMatch srv spec h req.hostName
  rw [Option.map_eq_some_iff]
  constructor
  · rintro ⟨d, hd, rfl⟩
    obtain ⟨hmatch, found, hfound, hdata, hpattern⟩ := Server.route_eq_some.mp hd
    obtain ⟨host', hfor, pattern, hserved⟩ := hhost d.host hmatch
    obtain ⟨calls, hall, hcalls⟩ := hserved.routes
    have hlookup := lookupRoute_iff bstringMatch hall
      (fun c route (hc : RouteServed maxDirPath l c route) => hc.path) hcalls (req.path.getD [])
    obtain ⟨c, hc, route, hroute, hrouted, hpick, rfl⟩ := (hlookup found).mp hfound
    refine ⟨host', route, ⟨hfor, hroute, hpick⟩, ?_⟩
    rw [view, ← hdata, ← hpattern]
    show (d.host.name, l.object c.2, c.1) = _
    rw [hrouted.object, hrouted.path, hserved.name]
  · rintro ⟨host', route, ⟨hfor, hroute, hpick⟩, rfl⟩
    obtain ⟨host, hmatch, pattern, hserved⟩ := hhost' host' hfor
    obtain ⟨calls, hall, hcalls⟩ := hserved.routes
    have hlookup := lookupRoute_iff bstringMatch hall
      (fun c route (hc : RouteServed maxDirPath l c route) => hc.path) hcalls (req.path.getD [])
    obtain ⟨c, hc, hrouted⟩ := (exists_mem_of_forall₂ hcalls).2 route hroute
    have hfound := (hlookup _).mpr ⟨c, hc, route, hroute, hrouted, hpick, rfl⟩
    refine ⟨⟨host, c.2, c.1⟩, Server.route_eq_some.mpr ⟨hmatch, _, hfound, rfl, rfl⟩, ?_⟩
    show (host.name, l.object c.2, c.1) = _
    rw [hrouted.object, hrouted.path, hserved.name]

/-! ### The whole load -/

/-- The servers with a uuid. -/
def sitesOf (specs : List ServerSpec) (uuid : List Byte) : List ServerSpec :=
  specs.filter (·.row.uuid = some uuid)

theorem map_serversOf (t : Tables) (uuid : List Byte) :
    (serversOf t uuid).map t.serverSpec = sitesOf t.sites uuid := by
  rw [sitesOf, Tables.sites, List.filter_map]
  rfl

/-- **A server that was loaded** has what the last one with its uuid says. -/
theorem served_of_loadServer {uuid : List Byte} {srv : Server}
    (h : loadServer maxDirPath maxHostName t uuid = some (some (l, srv))) :
    ∃ spec, (sitesOf t.sites uuid).getLast? = some spec ∧ ServerServed maxDirPath l srv spec := by
  obtain ⟨l', hl, h⟩ := Option.bind_eq_some_iff.mp h
  obtain ⟨⟨ok, found, n⟩, hexec, h⟩ := Option.bind_eq_some_iff.mp h
  cases ok with
  | false => exact absurd h (by simp)
  | true =>
    obtain ⟨srv', rfl, hpair⟩ := Option.map_eq_some_iff.mp (Option.some.inj h)
    obtain ⟨rfl, rfl⟩ := Prod.mk.injEq .. ▸ hpair
    have hgood : ∀ row ∈ serversOf t uuid,
        ServerGood maxHostName (t.serverSpec row) ∧ ServerFound t l' row :=
      forall_of_dbExec (fun row s s' hrow => good_of_serverCb hl hrow) hexec
    obtain ⟨s', hexec', hnil, hlast⟩ := dbExec_serverCb hl hgood (none, 0)
    obtain rfl : s' = (some srv', n) := by
      rw [hexec] at hexec'
      exact (congrArg Prod.snd (Option.some.inj hexec')).symm
    rcases hrows : (serversOf t uuid).getLast? with _ | row
    · have hempty := hnil (List.getLast?_eq_none_iff.mp hrows)
      exact absurd (congrArg Prod.fst hempty) (by simp)
    · obtain ⟨srv, hsrv, hserved⟩ := hlast row hrows
      obtain rfl := Option.some.inj hsrv
      refine ⟨t.serverSpec row, ?_, hserved⟩
      rw [← map_serversOf, List.getLast?_map, hrows]
      rfl

end

/-! ### What can be loaded -/

section

variable {ρ τ : Type*} {create : ρ → Option (Option τ)} {rows : List ρ}

/-- Rows with new numbers are put into a tree. -/
theorem dbExec_targetCb (hmade : ∀ row ∈ rows, ∃ target, create row = some (some target)) (k : ℕ)
    (tree : Tst (ℕ × τ)) (hnew : ∀ n : ℕ, k ≤ n → tree.lookup (Decimal.writeInt n) = none) :
    ∃ tree', dbExec (targetCb create) (rows.zipIdx k) tree = some (true, tree') ∧
      (∀ key, tree.lookup key ≠ none → tree'.lookup key ≠ none) ∧
      ∀ i < rows.length, tree'.lookup (Decimal.writeInt (k + i : ℕ)) ≠ none := by
  induction rows generalizing k tree with
  | nil => exact ⟨tree, rfl, fun _ h => h, fun i hi => absurd hi (by simp)⟩
  | cons row rows ih =>
    obtain ⟨target, htarget⟩ := hmade row List.mem_cons_self
    obtain ⟨tree₁, hinsert⟩ : ∃ tree₁,
        tree.insert (Decimal.writeInt k) (k, target) = some tree₁ := by
      rw [← Option.ne_none_iff_exists']
      intro hnone
      exact (Tst.insert_eq_none_iff (writeInt_ne_nil k)).mp hnone (hnew k (le_refl k))
    have hlookup := Tst.lookup_insert (writeInt_ne_nil k) hinsert
    have hcb : targetCb create (row, k) tree = some (true, tree₁) := by
      rw [targetCb, htarget, Option.bind_some]
      exact congrArg (Option.map (true, ·)) hinsert
    have hnew₁ : ∀ n : ℕ, k + 1 ≤ n → tree₁.lookup (Decimal.writeInt n) = none := by
      intro n hn
      rw [hlookup, if_neg fun heq => ?_]
      · exact hnew n (by omega)
      · have hcast := writeInt_inj heq
        omega
    obtain ⟨tree', hexec, hkeep, hhas⟩ :=
      ih (fun row' hrow' => hmade row' (List.mem_cons_of_mem row hrow')) (k + 1) tree₁ hnew₁
    refine ⟨tree', dbExec_cons_eq_some_iff.mpr ⟨tree₁, hcb, hexec⟩, fun key hkey => ?_,
      fun i hi => ?_⟩
    · refine hkeep key ?_
      rw [hlookup]
      split
      · simp
      · exact hkey
    · rcases i with _ | i
      · refine hkeep _ ?_
        rw [hlookup]
        simp
      · have hsum : k + (i + 1) = k + 1 + i := by omega
        rw [hsum]
        exact hhas i (by simpa using hi)

/-- **All targets are found** in a table whose rows can be made into targets. -/
theorem loadTargets_of_made (hmade : ∀ row ∈ rows, ∃ target, create row = some (some target)) :
    ∃ tree, loadTargets create rows = some tree ∧
      ∀ id, rowAt rows id ≠ none → tree.search (Decimal.writeInt id) ≠ none := by
  obtain ⟨tree, hexec, -, hhas⟩ :=
    dbExec_targetCb hmade 1 .nil fun n _ => Tst.lookup_nil_tree (Decimal.writeInt n)
  refine ⟨tree, congrArg (Option.map Prod.snd) hexec, fun id hid => ?_⟩
  rw [Tst.search_eq_lookup _ (writeInt_ne_nil id)]
  obtain ⟨row, hrow⟩ := Option.ne_none_iff_exists'.mp hid
  have hle := le_length_of_rowAt hrow
  have hpos : 0 < id := by
    by_contra hneg
    rw [rowAt, if_neg hneg] at hrow
    exact absurd hrow (by simp)
  have hid : ((1 + (id.toNat - 1) : ℕ) : ℤ) = id := by omega
  rw [← hid]
  exact hhas _ (by omega)

end

section

variable {maxDirPath maxHostName : ℕ} {t : Tables} {l : Loaded}

/-- The rows of the targets can be made into targets. -/
def TargetsMade (maxDirPath : ℕ) (t : Tables) : Prop :=
  ∀ x ∈ t.targets, object maxDirPath x ≠ none

theorem exists_of_join {α β : Type*} {x : Option (Option α)} {f : α → β}
    (h : x.join.map f ≠ none) : ∃ a, x = some (some a) := by
  rcases x with _ | _ | a
  · exact absurd rfl h
  · exact absurd rfl h
  · exact ⟨a, rfl⟩

theorem map_ne_none {α β γ δ : Type*} {f : α → β} {g : γ → δ} {x : Option α} {y : Option γ}
    (hxy : x ≠ none → y ≠ none) (h : x.map f ≠ none) : y.map g ≠ none := by
  intro hnone
  refine hxy (fun hx => h ?_) (Option.map_eq_none_iff.mp hnone)
  rw [hx]
  rfl

/-- **Every target** of the tables is found. -/
theorem loadAll_of_made (h : TargetsMade maxDirPath t) :
    ∃ l, loadAll maxDirPath t = some l ∧
      ∀ type id, t.target type id ≠ none → l.find type id ≠ none := by
  have hproxy : ∀ row ∈ t.proxy, ∃ target, proxyCreate row = some (some target) := by
    intro row hrow
    refine exists_of_join (h (.proxy row) ?_)
    simp [Tables.targets, hrow]
  have hdir : ∀ row ∈ t.directory, ∃ target, dirCreate maxDirPath row = some (some target) := by
    intro row hrow
    refine exists_of_join (h (.dir row) ?_)
    simp [Tables.targets, hrow]
  obtain ⟨handlers, hhandlers, hfind⟩ :=
    @loadTargets_of_made _ _ handlerCreate t.handler fun row _ => ⟨row, rfl⟩
  obtain ⟨proxies, hproxies, hfind'⟩ := loadTargets_of_made hproxy
  obtain ⟨dirs, hdirs, hfind''⟩ := loadTargets_of_made hdir
  refine ⟨⟨handlers, proxies, dirs⟩, ?_, fun type id htarget => ?_⟩
  · rw [loadAll, hhandlers, hproxies, hdirs]
    rfl
  unfold Tables.target at htarget
  unfold Loaded.find
  split at htarget
  · rw [if_pos ‹_›]
    exact map_ne_none (hfind id) htarget
  rw [if_neg ‹_›]
  split at htarget
  · rw [if_pos ‹_›]
    exact map_ne_none (hfind' id) htarget
  rw [if_neg ‹_›]
  split at htarget
  · rw [if_pos ‹_›]
    exact map_ne_none (hfind'' id) htarget
  · exact absurd rfl htarget

/-- **Which servers can be loaded**, if all targets can be made. -/
theorem exists_loadServer_iff (hsound : t.Sound) (hmade : TargetsMade maxDirPath t)
    (uuid : List Byte) :
    (∃ l srv, loadServer maxDirPath maxHostName t uuid = some (some (l, srv))) ↔
      sitesOf t.sites uuid ≠ [] ∧
        ∀ spec ∈ sitesOf t.sites uuid, ServerGood maxHostName spec := by
  obtain ⟨l, hl, hfind⟩ := loadAll_of_made hmade
  have hfound : ∀ row, ServerFound t l row := by
    intro row host _ route hroute
    refine hfind _ _ fun hnone => ?_
    refine hsound.target route (List.mem_of_mem_filter hroute) ?_
    rw [Tables.routeSpec, hnone]
    rfl
  constructor
  · rintro ⟨l', srv, hload⟩
    obtain ⟨spec, hlast, -⟩ := served_of_loadServer hload
    refine ⟨fun hnil => absurd hlast (by simp [hnil]), ?_⟩
    obtain ⟨l₁, hl₁, hload⟩ := Option.bind_eq_some_iff.mp hload
    obtain ⟨⟨ok, x⟩, hexec, hload⟩ := Option.bind_eq_some_iff.mp hload
    cases ok with
    | false => exact absurd hload (by simp)
    | true =>
      rw [← map_serversOf]
      intro spec' hspec'
      obtain ⟨row, hrow, rfl⟩ := List.mem_map.mp hspec'
      have hrows : ∀ row ∈ serversOf t uuid, ServerGood maxHostName (t.serverSpec row) :=
        forall_of_dbExec (fun row s s' hcb => (good_of_serverCb hl₁ hcb).1) hexec
      exact hrows row hrow
  · rintro ⟨hne, hgood⟩
    rw [← map_serversOf] at hne hgood
    have hrows : ∀ row ∈ serversOf t uuid,
        ServerGood maxHostName (t.serverSpec row) ∧ ServerFound t l row := fun row hrow =>
      ⟨hgood _ (List.mem_map_of_mem hrow), hfound row⟩
    obtain ⟨s', hexec, -, hlast⟩ := dbExec_serverCb hl hrows (none, 0)
    obtain ⟨row, hrow⟩ : ∃ row, (serversOf t uuid).getLast? = some row := by
      rw [← Option.ne_none_iff_exists']
      intro hnone
      exact hne (by rw [List.getLast?_eq_none_iff.mp hnone]; rfl)
    obtain ⟨srv, hsrv, -⟩ := hlast row hrow
    refine ⟨l, srv, ?_⟩
    rw [loadServer, hl, Option.bind_eq_bind, Option.bind_some, hexec]
    show some (s'.1.map (l, ·)) = _
    rw [hsrv]
    rfl

end

/-! ### The tables of a file -/

section

variable {integer : List Byte → List Byte} {defaults : List (List Byte × List Byte)}
  {settings : Pairs} {misread : Value → List Byte} {before : Tables} {maxDirPath maxHostName : ℕ}
  {uuid : List Byte}

/-- The targets that a file says can be made. -/
def FileTargetsMade (maxDirPath : ℕ) (specs : List ServerSpec) : Prop :=
  ∀ spec ∈ specs, ∀ host ∈ spec.hosts, ∀ route ∈ host.routes, object maxDirPath route.target ≠ none

end

theorem sitesOf_oneSite : sitesOf (siteServers id oneSite) (bytes "u") = [oneSpec] := by
  rw [siteServers_oneSite]
  decide

theorem targetsMade_oneSite : FileTargetsMade 256 (siteServers id oneSite) := by
  rw [siteServers_oneSite]
  unfold FileTargetsMade
  decide

theorem serverGood_oneSpec : ServerGood 256 oneSpec := by
  refine ⟨by decide, fun host hhost => ?_, by decide⟩
  obtain rfl := List.mem_singleton.mp hhost
  exact ⟨by decide, by decide⟩

theorem good_oneSite :
    sitesOf (siteServers id oneSite) (bytes "u") ≠ [] ∧
      ∀ spec ∈ sitesOf (siteServers id oneSite) (bytes "u"), ServerGood 256 spec := by
  rw [sitesOf_oneSite]
  exact ⟨by simp, fun spec hspec => List.mem_singleton.mp hspec ▸ serverGood_oneSpec⟩

end Mongrel2.ConfigServer
