/-
References to references in a configuration file.

A reference is resolved by one step wherever the load of a file comes to one, and the
variable of the servers not at all.

* `Transparent` — a load stores and returns the same if each reference is replaced by
  what it finally denotes;
* `FileDirect` — the references that the load comes to are of one step, or denote what
  nothing is stored of;
* `transparent_iff` — a file without cycles is transparent exactly then;
* `not_transparent_chain` — a server that is reached over two variables is not stored, and
  of a setting the name of a variable is.

Design notes: the loads of the two files may fail in different parts where nobody looks
at it, so states are compared but for what has failed.
-/
import Mongrel2.TransparentRows

namespace Mongrel2

open ByteStream HttpParser

namespace M2sh

/-- Whatever the database takes or refuses, and whatever a wild read gives, the two files
are loaded alike. -/
def Transparent (settings final : Pairs) : Prop :=
  ∀ (C : Type) (db : Sqlite C) (misread : Value → List Byte) (before : C),
    (configLoad db misread (some settings) before).1 =
        (configLoad db misread (some final) before).1 ∧
      (configLoad db misread (some settings) before).2.committed =
        (configLoad db misread (some final) before).2.committed

/-- If the servers of the file without references load, then every reference that the load
comes to is of one step, or denotes what nothing is stored of. -/
def FileDirect (settings final : Pairs) : Prop :=
  LoadsServers final →
    ServersDirect settings final ∧ VarDirect settings final (bytes "settings") ∧
      VarDirect settings final (bytes "mimetypes")

/-! ### States but for the failures -/

section

variable {C : Type} {s s' s'' : Loading C} {x y : ℤ × Loading C}

/-- Two states differ in what has failed at most. -/
def Alike (s s' : Loading C) : Prop := ∃ failed, s' = { s with failed := failed }

/-- Two loads return the same and leave such states. -/
def Agree (x y : ℤ × Loading C) : Prop := x.1 = y.1 ∧ Alike x.2 y.2

theorem Alike.refl (s : Loading C) : Alike s s := ⟨s.failed, rfl⟩

theorem Alike.trans (h : Alike s s') (h' : Alike s' s'') : Alike s s'' := by
  obtain ⟨failed, rfl⟩ := h
  obtain ⟨failed', rfl⟩ := h'
  exact ⟨failed', rfl⟩

theorem Alike.lose (h : Alike s s') (p q : Part) : Alike (s.lose p) (s'.lose q) := by
  obtain ⟨failed, rfl⟩ := h
  exact ⟨failed ++ [q], rfl⟩

theorem Alike.lose_left (h : Alike s s') (p : Part) : Alike (s.lose p) s' := by
  obtain ⟨failed, rfl⟩ := h
  exact ⟨failed, rfl⟩

theorem Alike.fail (h : Alike s s') (p q : Part) : Agree (s.fail p) (s'.fail q) :=
  ⟨rfl, h.lose p q⟩

theorem Alike.lost (s : Loading C) (p : Part) : Alike s (s.lose p) := ⟨s.failed ++ [p], rfl⟩

theorem Alike.committed (h : Alike s s') : s'.committed = s.committed := by
  obtain ⟨failed, rfl⟩ := h
  rfl

variable (db : Sqlite C)

theorem insert_agree (h : Alike s s') (p : Part) (sql : Sql) :
    Agree (insert db p sql s) (insert db p sql s') := by
  obtain ⟨failed, rfl⟩ := h
  unfold insert dbExec
  dsimp only
  split
  · exact ⟨rfl, failed, rfl⟩
  · exact ⟨rfl, failed ++ [p], rfl⟩

theorem insertTarget_agree (h : Alike s s') (sql : Sql) :
    Agree (insertTarget db sql s) (insertTarget db sql s') := by
  obtain ⟨failed, rfl⟩ := h
  unfold insertTarget dbExec
  dsimp only
  split
  · exact ⟨rfl, failed, rfl⟩
  · exact ⟨rfl, failed, rfl⟩

theorem check_agree {f g : Loading C → ℤ × Loading C} (h : Agree x y)
    (hfg : ∀ s s', Alike s s' → Agree (f s) (g s')) : Agree (check x f) (check y g) := by
  unfold check
  rw [← h.1]
  split
  · exact hfg x.2 y.2 h.2
  · exact ⟨rfl, h.2⟩

/-! ### Routes -/

variable {settings final params : Pairs} {val found : Value}

theorem routeLoad_of_not_target (h : ¬ IsTarget val) (key : List Byte) (s : Loading C) :
    routeLoad db settings ⟨key, some val⟩ s = s.fail .route := by
  rcases val with _ | _ | _ | ⟨ident, params⟩ | _ | _ | _ | _
  case cls =>
    have hnone : targetSql settings ident params = none := by
      rw [targetSql_eq_none_iff]
      by_contra htarget
      exact h ⟨ident, params, rfl, htarget⟩
    rw [routeLoad_cls, hnone]
    rfl
  all_goals rfl

theorem routeLoad_agree (hfile : Replaced settings final) {pair : Pair Value}
    (hpair : Grounded final pair.value) (hdirect : RouteDirect settings final pair)
    (hs : Alike s s') :
    Agree (routeLoad db settings ⟨pair.key, pair.value.resolve settings⟩ s)
      (routeLoad db final ⟨pair.key, some (pair.value.denoted final)⟩ s') := by
  obtain ⟨found, hfound, hdenoted⟩ := resolve_spec hfile hpair
  have hground := hpair.of_eq hdenoted
  obtain ⟨href, hparams⟩ := hdirect found hfound
  rw [hfound, ← hdenoted]
  rcases found with _ | _ | _ | ⟨ident, params⟩ | _ | _ | _ | y
  case ref =>
    rw [routeLoad_of_not_target db (href rfl)]
    exact hs.fail .route .route
  case cls =>
    have hsql := (targetSql_eq_iff hfile (grounded_params hground) ident).mpr
      (hparams ident params rfl)
    rw [routeLoad_cls, denoted_cls, routeLoad_cls, ← hsql]
    rcases targetSql settings ident params with _ | sql
    · exact hs.fail .route .route
    · have htarget := insertTarget_agree db hs sql
      dsimp only
      rw [← htarget.1]
      split
      · exact htarget.2.fail .route .route
      · have hhost : (insertTarget db sql s').2.hostId = (insertTarget db sql s).2.hostId := by
          obtain ⟨failed, heq⟩ := htarget.2
          rw [heq]
        rw [hhost]
        exact insert_agree db htarget.2 .route _
  all_goals exact hs.fail .route .route

/-! ### The walks -/

theorem walkHash_agree {cb cb' : Pair (Option Value) → Loading C → ℤ × Loading C} {data : Pairs}
    (hdata : ∀ pair ∈ data.values, Grounded final pair.value)
    (hcb : ∀ pair ∈ data.traverse, ∀ s s', Alike s s' →
      Agree (cb ⟨pair.key, pair.value.resolve settings⟩ s)
        (cb' ⟨pair.key, some (pair.value.denoted final)⟩ s')) (hs : Alike s s') :
    Agree (walkHash settings cb data s) (walkHash final cb' (denotedPairs final data) s') := by
  have hresolve : ∀ pair ∈ data.traverse,
      (pair.value.denoted final).resolve final = some (pair.value.denoted final) :=
    fun pair hpair => resolve_denoted (hdata pair (Tst.mem_traverse_iff.mp hpair))
  have hpairs : ∀ pairs : List (Pair Value), (∀ pair ∈ pairs, pair ∈ data.traverse) →
      ∀ x y, Agree x y → Agree (pairs.foldl (hashTraverseCb settings cb) x)
        ((pairs.map (Pair.subst (valueOf final))).foldl (hashTraverseCb final cb') y) := by
    intro pairs
    induction pairs with
    | nil => exact fun _ x y h => h
    | cons pair pairs ih =>
      intro hmem x y h
      obtain ⟨hpair, hmem⟩ := List.forall_mem_cons.mp hmem
      have hstep := hcb pair hpair x.2 y.2 h.2
      rw [← hresolve pair hpair] at hstep
      refine ih hmem _ _ ⟨?_, hstep.2⟩
      show (if x.1 = 0 then _ else x.1) = if y.1 = 0 then _ else y.1
      rw [← h.1]
      split
      · exact hstep.1
      · rfl
  unfold walkHash
  rw [traverse_denotedPairs]
  exact hpairs data.traverse (fun _ h => h) _ _ ⟨rfl, hs⟩

/-! ### Hosts -/

/-- What is left of a host with a name, from its row on. -/
theorem hostLoad_named {name : List Byte}
    (hname : str settings params (bytes "name") .qstring = some name) (s : Loading C) :
    hostLoad db settings (.cls (bytes "Host") params) s =
      let x := dbExec db (.host s.serverId name name) s
      if !x.1 then x.2.fail .host
      else
        match get settings params (bytes "routes") .hash with
        | some (.hash routes) =>
          (0, (walkHash settings (routeLoad db settings) routes
            { x.2 with hostId := x.2.lastId }).2)
        | _ => Loading.fail .host { x.2 with hostId := x.2.lastId } := by
  unfold hostLoad
  dsimp only [hostRow]
  rw [if_neg (not_not.mpr rfl)]
  simp only [hname]
  rcases dbExec db (.host s.serverId name name) s with ⟨_ | _, s'⟩
  · rfl
  · rcases hroutes : get settings params (bytes "routes") .hash with _ | routes
    · rfl
    · obtain ⟨routes, rfl⟩ := exists_hash_of_get hroutes
      rfl

theorem hostLoad_of_not_named (h : ¬ IsNamed settings val) (s : Loading C) :
    hostLoad db settings val s = s.fail .host := by
  unfold hostLoad hostRow
  rcases val with _ | _ | _ | ⟨ident, params⟩ | _ | _ | _ | _
  case cls =>
    dsimp only
    by_cases hident : ident ≠ bytes "Host"
    · rw [if_pos hident]
      rfl
    · rw [if_neg hident]
      rw [not_not] at hident
      subst hident
      rw [(not_isNamed_iff params).mp h]
      rfl
  all_goals rfl

theorem dbExec_agree (hs : Alike s s') (sql : Sql) :
    (dbExec db sql s).1 = (dbExec db sql s').1 ∧
      Alike (dbExec db sql s).2 (dbExec db sql s').2 := by
  obtain ⟨failed, rfl⟩ := hs
  exact ⟨rfl, failed, rfl⟩

/-- The walk over hosts ends at one of which there is no row. -/
theorem walkHosts_of_not_named {ref : Value} (hfound : ref.resolve settings = some found)
    (h : ¬ IsNamed settings found) (data : List Value) (s : Loading C) :
    walkList settings (.lose .host) (hostLoad db settings) (ref :: data) s = s.fail .host := by
  rw [walkList, hfound]
  dsimp only
  rw [hostLoad_of_not_named db h]
  rfl

/-- The walk over routes without a target leaves what there was. -/
theorem walkRoutes_alike {routes : Pairs} (hclosed : refsPairs routes = [])
    (h : ∀ pair ∈ routes.traverse, ¬ IsTarget pair.value) (s : Loading C) :
    Alike s (walkHash final (routeLoad db final) routes s).2 := by
  have hpairs : ∀ pairs : List (Pair Value), (∀ pair ∈ pairs, pair ∈ routes.traverse) →
      ∀ x : ℤ × Loading C, Alike x.2
        (pairs.foldl (hashTraverseCb final (routeLoad db final)) x).2 := by
    intro pairs
    induction pairs with
    | nil => exact fun _ x => .refl x.2
    | cons pair pairs ih =>
      intro hmem x
      obtain ⟨hpair, hmem⟩ := List.forall_mem_cons.mp hmem
      refine Alike.trans ?_ (ih hmem _)
      show Alike x.2 (routeLoad db final ⟨pair.key, pair.value.resolve final⟩ x.2).2
      rw [resolve_of_mem_traverse hclosed hpair, routeLoad_of_not_target db (h pair hpair)]
      exact .lost x.2 .route
  exact hpairs routes.traverse (fun _ h => h) (0, s)

theorem isNamed_of_denoted (hfile : Replaced settings final) (hground : Grounded final found)
    {data : List Value} {rest : Prop} (hdirect : HostDirect settings final found data rest)
    (h : IsNamed final (found.denoted final)) : IsNamed settings found := by
  rcases found with _ | _ | _ | ⟨ident, params⟩ | _ | _ | _ | y
  case ref => exact absurd h (hdirect.1 rfl)
  case cls =>
    obtain ⟨params', hval, hname⟩ := h
    obtain ⟨rfl, rfl⟩ := Value.cls.inj hval
    have hnameDirect := (hdirect.2 params rfl).1
    refine ⟨params, rfl, ?_⟩
    rw [(str_eq_iff hfile (grounded_params hground) (.inl rfl)).mpr hnameDirect]
    exact hname
  all_goals
    obtain ⟨params', hval, -⟩ := h
    cases hval

theorem Alike.host (h : Alike s s') :
    Alike { s with hostId := s.lastId } { s' with hostId := s'.lastId } := by
  obtain ⟨failed, rfl⟩ := h
  exact ⟨failed, rfl⟩

/-- A host with a name is stored alike, and returns the same where its routes are found. -/
theorem hostLoad_alike (hfile : Replaced settings final)
    (hground : Grounded final (.cls (bytes "Host") params)) {data : List Value} {rest : Prop}
    (hdirect : HostDirect settings final (.cls (bytes "Host") params) data rest)
    (hnamed : IsNamed settings (.cls (bytes "Host") params)) (hs : Alike s s') :
    Alike (hostLoad db settings (.cls (bytes "Host") params) s).2
        (hostLoad db final (.cls (bytes "Host") (denotedPairs final params)) s').2 ∧
      (GetDirect settings final params (bytes "routes") .hash →
        (hostLoad db settings (.cls (bytes "Host") params) s).1 =
          (hostLoad db final (.cls (bytes "Host") (denotedPairs final params)) s').1) := by
  have hparams := grounded_params hground
  obtain ⟨hnameDirect, hroutes⟩ := hdirect.2 params rfl
  obtain ⟨hfound, hnotFound⟩ := hroutes hnamed
  have hne : str settings params (bytes "name") .qstring ≠ none := by
    intro hnone
    exact (not_isNamed_iff params).mpr hnone hnamed
  obtain ⟨name, hname⟩ := Option.ne_none_iff_exists'.mp hne
  have hname' := ((str_eq_iff hfile hparams (.inl rfl)).mpr hnameDirect).symm.trans hname
  have hserverId : s'.serverId = s.serverId := by
    obtain ⟨failed, rfl⟩ := hs
    rfl
  rw [hostLoad_named db hname, hostLoad_named db hname', hserverId]
  obtain ⟨htaken, hrow⟩ := dbExec_agree db hs (.host s.serverId name name)
  dsimp only
  rw [← htaken]
  split
  · exact ⟨hrow.lose .host .host, fun _ => rfl⟩
  by_cases hroutesDirect : GetDirect settings final params (bytes "routes") .hash
  · rcases get_hash_cases hfile hparams hroutesDirect with ⟨hR, hR'⟩ | ⟨routes, hR, hR', hpairs⟩
    · rw [hR, hR']
      exact ⟨hrow.host.lose .host .host, fun _ => rfl⟩
    · have hwalk := walkHash_agree hpairs
        (fun pair hpair s s' hs => routeLoad_agree db hfile
          (hpairs pair (Tst.mem_traverse_iff.mp hpair))
          ((hfound hroutesDirect routes hR).1 pair hpair) hs) hrow.host
      rw [hR, hR']
      exact ⟨hwalk.2, fun _ => rfl⟩
  · obtain ⟨hR, routes, hR', hclosed⟩ := get_hash_of_not_direct hparams hroutesDirect
    rw [hR, hR']
    refine ⟨?_, fun h => absurd h hroutesDirect⟩
    have htargets := (hnotFound hroutesDirect).1 routes hR'
    exact (hrow.host.trans (walkRoutes_alike db hclosed htargets _)).lose_left .host

/-- The walk over hosts adds nothing if there is no row of the first. -/
theorem walkHosts_of_head {data : List Value} (hdata : ∀ ref ∈ data, Grounded final ref)
    (h : ∀ next ∈ data.head?, ¬ IsNamed final (next.denoted final)) (s : Loading C) :
    Alike s
      (walkList final (.lose .host) (hostLoad db final) (data.map (Value.denoted final)) s).2 := by
  rcases data with _ | ⟨ref, data⟩
  · exact .refl s
  · have hresolve := resolve_denoted (hdata ref List.mem_cons_self)
    rw [List.map_cons, walkHosts_of_not_named db hresolve (h ref rfl)]
    exact .lost s .host

/-- What a walk over a list does with the first value. -/
theorem walkList_cons {σ : Type*} {lost : σ → σ} {cb : Value → σ → ℤ × σ} {ref : Value}
    (h : ref.resolve settings = some found) (data : List Value) (s : σ) :
    walkList settings lost cb (ref :: data) s =
      if (cb found s).1 = 0 then walkList settings lost cb data (cb found s).2
      else (-1, (cb found s).2) := by
  rw [walkList, h]

/-- **Hosts that are found in one step** are stored alike, and so are those of which
nothing is stored. -/
theorem walkHosts_alike (hfile : Replaced settings final) {data : List Value}
    (hdata : ∀ ref ∈ data, Grounded final ref) (hdirect : HostsDirect settings final data)
    (hs : Alike s s') :
    Alike (walkList settings (.lose .host) (hostLoad db settings) data s).2
      (walkList final (.lose .host) (hostLoad db final) (data.map (Value.denoted final)) s').2 := by
  induction data generalizing s s' with
  | nil => exact hs
  | cons ref data ih =>
    obtain ⟨href, hdata⟩ := List.forall_mem_cons.mp hdata
    obtain ⟨found, hfound, hdenoted⟩ := resolve_spec hfile href
    have hground := href.of_eq hdenoted
    have hresolve := resolve_denoted href
    have hhost := hdirect found hfound
    rw [List.map_cons, ← hdenoted]
    rw [← hdenoted] at hresolve
    by_cases hnamed : IsNamed settings found
    · obtain ⟨params, rfl, -⟩ := id hnamed
      obtain ⟨hstate, hrc⟩ := hostLoad_alike db hfile hground hhost hnamed hs
      have hroutes := (hhost.2 params rfl).2 hnamed
      rw [walkList_cons hfound, walkList_cons hresolve]
      by_cases hroutesDirect : GetDirect settings final params (bytes "routes") .hash
      · rw [← denoted_cls] at hrc hstate
        rw [← hrc hroutesDirect]
        split
        · rename_i hzero
          obtain ⟨params', hval, -, hR⟩ := loadsHost_of_rc hzero
          obtain rfl := (Value.cls.inj hval).2
          obtain ⟨routes, hR⟩ := Option.ne_none_iff_exists'.mp hR
          obtain ⟨routes, rfl⟩ := exists_hash_of_get hR
          exact ih hdata (hroutes.1 hroutesDirect routes hR).2 hstate
        · exact hstate
      · have hfails : ¬ (hostLoad db settings (.cls (bytes "Host") params) s).1 = 0 := by
          intro hzero
          obtain ⟨params', hval, -, hR⟩ := loadsHost_of_rc hzero
          obtain rfl := (Value.cls.inj hval).2
          exact hroutesDirect (getDirect_of (grounded_params hground) (by decide) fun _ => hR)
        rw [if_neg hfails]
        split
        · exact hstate.trans (walkHosts_of_head db hdata (hroutes.2 hroutesDirect).2 _)
        · exact hstate
    · have hnamed' := fun h => hnamed (isNamed_of_denoted hfile hground hhost h)
      rw [walkHosts_of_not_named db hfound hnamed, walkHosts_of_not_named db hresolve hnamed']
      exact hs.lose .host .host

/-! ### Servers -/

theorem serverLoad_of_ident {ident : List Byte} (h : ident ≠ bytes "Server") (params : Pairs)
    (s : Loading C) : serverLoad db settings (.cls ident params) s = s.fail .server := by
  unfold serverLoad
  dsimp only [serverRow]
  rw [if_pos h]
  rfl

/-- What is left of a server, from its row on. -/
theorem serverLoad_server (s : Loading C) :
    serverLoad db settings (.cls (bytes "Server") params) s =
      let x := dbExec db (serverSql settings params) s
      if !x.1 then x.2.fail .server
      else
        match get settings params (bytes "hosts") .list with
        | some (.list hosts) =>
          (0, (walkList settings (.lose .host) (hostLoad db settings) hosts
            { x.2 with serverId := x.2.lastId }).2)
        | _ => Loading.fail .server { x.2 with serverId := x.2.lastId } := by
  unfold serverLoad
  dsimp only [serverRow]
  rw [if_neg (not_not.mpr rfl), ← serverSql]
  rcases dbExec db (serverSql settings params) s with ⟨_ | _, s'⟩
  · rfl
  · rcases hhosts : get settings params (bytes "hosts") .list with _ | hosts
    · rfl
    · obtain ⟨hosts, rfl⟩ := exists_list_of_get hhosts
      rfl

theorem Alike.server (h : Alike s s') :
    Alike { s with serverId := s.lastId } { s' with serverId := s'.lastId } := by
  obtain ⟨failed, rfl⟩ := h
  exact ⟨failed, rfl⟩

/-- **A server that is found in one step** is stored alike. -/
theorem serverLoad_agree (hfile : Replaced settings final) (hground : Grounded final found)
    (hdirect : ServerDirect settings final found) (hs : Alike s s') :
    Agree (serverLoad db settings found s) (serverLoad db final (found.denoted final) s') := by
  rcases found with _ | _ | _ | ⟨ident, params⟩ | _ | _ | _ | y
  case ref => exact absurd rfl hdirect.1
  case cls =>
    rw [denoted_cls]
    by_cases hident : ident ≠ bytes "Server"
    · rw [serverLoad_of_ident db hident, serverLoad_of_ident db hident]
      exact hs.fail .server .server
    · rw [not_not] at hident
      subst hident
      obtain ⟨hparamsDirect, hhostsDirect, hlist⟩ := hdirect.2 params rfl
      have hparams := grounded_params hground
      have hsql := (serverSql_eq_iff hfile hparams).mpr hparamsDirect
      rw [serverLoad_server, serverLoad_server, ← hsql]
      obtain ⟨htaken, hrow⟩ := dbExec_agree db hs (serverSql settings params)
      dsimp only
      rw [← htaken]
      split
      · exact hrow.fail .server .server
      rcases get_list_cases hfile hparams hhostsDirect with ⟨hR, hR'⟩ | ⟨hosts, hR, hR', hground'⟩
      · rw [hR, hR']
        exact hrow.server.fail .server .server
      · rw [hR, hR']
        exact ⟨rfl, walkHosts_alike db hfile hground' (hlist hosts hR) hrow.server⟩
  all_goals exact hs.fail .server .server

/-- Every value of a list is loaded alike. -/
theorem walkList_agree (hfile : Replaced settings final) {p : Part}
    {cb cb' : Value → Loading C → ℤ × Loading C} {data : List Value}
    (hdata : ∀ ref ∈ data, Grounded final ref)
    (hcb : ∀ ref ∈ data, ∀ found, ref.resolve settings = some found → ∀ s s', Alike s s' →
      Agree (cb found s) (cb' (found.denoted final) s')) (hs : Alike s s') :
    Agree (walkList settings (.lose p) cb data s)
      (walkList final (.lose p) cb' (data.map (Value.denoted final)) s') := by
  induction data generalizing s s' with
  | nil => exact ⟨rfl, hs⟩
  | cons ref data ih =>
    obtain ⟨href, hdata⟩ := List.forall_mem_cons.mp hdata
    obtain ⟨hfirst, hcb⟩ := List.forall_mem_cons.mp hcb
    obtain ⟨found, hfound, hdenoted⟩ := resolve_spec hfile href
    have hresolve := resolve_denoted href
    rw [← hdenoted] at hresolve
    rw [List.map_cons, ← hdenoted, walkList_cons hfound, walkList_cons hresolve]
    have hload := hfirst found hfound s s' hs
    rw [← hload.1]
    split
    · exact ih hdata hcb hload.2
    · exact ⟨rfl, hload.2⟩

theorem walkServers_agree (hfile : Replaced settings final)
    (hdirect : ServersDirect settings final) (hs : Alike s s') :
    Agree (walkServers db settings s) (walkServers db final s') := by
  unfold walkServers
  rcases hsearch : settings.search (bytes "servers") with _ | ⟨key, val⟩
  · rw [search_final hfile, hsearch]
    exact hs.fail .servers .servers
  obtain ⟨href, hservers⟩ := hdirect _ hsearch
  have hground := grounded_file hfile _ (Tst.mem_values_of_search hsearch)
  rcases val with _ | _ | _ | _ | servers | _ | _ | _
  case ref => exact absurd rfl href
  case list =>
    rw [search_list_final hfile hsearch]
    have hserver : ∀ ref ∈ servers, ∀ found, ref.resolve settings = some found →
        ∀ s s', Alike s s' → Agree (serverLoad db settings found s)
          (serverLoad db final (found.denoted final) s') := by
      intro ref hmem found hfound s s' hs
      have hrefGround := grounded_of_mem_list hground hmem
      have hdenoted := denoted_of_resolve hfile hrefGround hfound
      exact serverLoad_agree db hfile (hrefGround.of_eq hdenoted)
        (hservers servers rfl ref hmem found hfound) hs
    exact walkList_agree hfile (fun ref hmem => grounded_of_mem_list hground hmem) hserver hs
  all_goals
    rw [search_final hfile, hsearch]
    exact hs.fail .servers .servers

/-! ### Settings and mimetypes -/

/-- **A hash that is found in one step**, or is empty, is stored alike. -/
theorem walkVar_agree (hfile : Replaced settings final) {misread : Value → List Byte}
    {name : List Byte} {p part : Part} {row : List Byte → List Byte → Sql}
    {load : Pair (Option Value) → Loading C → ℤ × Loading C}
    (hload : ∀ key val s, load ⟨key, some val⟩ s =
      insert db part (row key (asString misread val)) s)
    (hdirect : VarDirect settings final name) (hs : Alike s s') :
    Agree (walkVar settings name p load s) (walkVar final name p load s') := by
  obtain ⟨hempty, htexts⟩ := hdirect
  have hground := grounded_file hfile
  have hpassed : ∀ (a b : Prop) [Decidable a] [Decidable b],
      Alike (if a then s else s.lose p) (if b then s' else s'.lose p) := by
    intro a b _ _
    split
    · split
      · exact hs
      · exact hs.trans (.lost s' p)
    · split
      · exact hs.lose_left p
      · exact hs.lose p p
  unfold walkVar
  rw [get_file hfile]
  by_cases hget : GetDirect settings final settings name .hash
  · rcases get_hash_cases hfile hground hget with ⟨hR, hR'⟩ | ⟨set, hR, hR', hpairs⟩
    · rw [hR, hR']
      exact ⟨rfl, hpassed _ _⟩
    · rw [hR, hR']
      refine walkHash_agree hpairs ?_ hs
      intro pair hpair s s' hs
      have hpairGround := hpairs pair (Tst.mem_traverse_iff.mp hpair)
      obtain ⟨found, hfound, hdenoted⟩ := resolve_spec hfile hpairGround
      have htext := (textDirect_iff (hpairGround.of_eq hdenoted)).mpr
        (htexts set hR pair hpair found hfound) misread
      rw [hfound, ← hdenoted, hload, hload, ← htext]
      exact insert_agree db hs part _
  · obtain ⟨hR, set, hR', -⟩ := get_hash_of_not_direct hground hget
    have hnil : set.traverse = [] := hempty hget set ((get_file hfile name .hash).trans hR')
    rw [hR, hR']
    dsimp only
    rw [walkHash, hnil]
    refine ⟨rfl, ?_⟩
    have h := hpassed (settings.search name = none) True
    rwa [if_pos trivial] at h

/-! ### The whole file -/

theorem configCommit_agree (hs : Alike s s') : Agree (configCommit db s) (configCommit db s') := by
  obtain ⟨failed, rfl⟩ := hs
  unfold configCommit
  dsimp only
  split
  · exact ⟨rfl, failed, rfl⟩
  · exact ⟨rfl, failed ++ [.commit], rfl⟩

theorem configLoad_agree (hfile : Replaced settings final)
    (hservers : ServersDirect settings final)
    (hset : VarDirect settings final (bytes "settings"))
    (hmime : VarDirect settings final (bytes "mimetypes")) (misread : Value → List Byte)
    (before : C) :
    Agree (configLoad db misread (some settings) before)
      (configLoad db misread (some final) before) := by
  have hsetting : ∀ key val s, settingsLoad db misread ⟨key, some val⟩ s =
      insert db .setting (.setting key (asString misread val)) s := fun _ _ _ => rfl
  have hmimetype : ∀ key val s, mimetypesLoad db misread ⟨key, some val⟩ s =
      insert db .mimetype (.mimetype key (asString misread val)) s := fun _ _ _ => rfl
  unfold configLoad
  refine check_agree ⟨rfl, .refl _⟩ fun s s' hs => ?_
  refine check_agree (walkServers_agree db hfile hservers hs) fun s s' hs => ?_
  refine check_agree (walkVar_agree db hfile hsetting hset hs) fun s s' hs => ?_
  refine check_agree (insert_agree db hs _ _) fun s s' hs => ?_
  refine check_agree ⟨rfl, (walkVar_agree db hfile hmimetype hmime hs).2⟩ fun s s' hs => ?_
  exact configCommit_agree db hs

theorem loadsServers_of_configLoad {misread : Value → List Byte} {before : C}
    (h : (configLoad db misread (some settings) before).1 = 0) : LoadsServers settings := by
  unfold configLoad at h
  dsimp only at h
  rw [check] at h
  split at h
  · rw [check] at h
    split at h
    · rename_i hservers
      exact loadsServers_of_rc hservers
    · exact absurd h (by simp)
  · exact absurd h (by simp)

/-- Without the servers nothing is committed. -/
theorem configLoad_of_not_loads (h : ¬ LoadsServers settings) (misread : Value → List Byte)
    (before : C) :
    (configLoad db misread (some settings) before).1 = -1 ∧
      (configLoad db misread (some settings) before).2.committed = before := by
  obtain ⟨new, hends⟩ := configLoad_ends db misread settings before
  by_cases hall : ∀ p ∈ new, p.Discarded
  · exact absurd (loadsServers_of_configLoad db (hends.returned hall)) h
  · push Not at hall
    exact hends.aborted hall

end

section

variable {settings final : Pairs}

theorem transparent_of_fileDirect (hfile : Replaced settings final)
    (h : FileDirect settings final) : Transparent settings final := by
  intro C db misread before
  by_cases hloads : LoadsServers final
  · obtain ⟨hservers, hset, hmime⟩ := h hloads
    have hagree := configLoad_agree db hfile hservers hset hmime misread before
    exact ⟨hagree.1, hagree.2.committed.symm⟩
  · obtain ⟨hrc, hcommitted⟩ := configLoad_of_not_loads db hloads misread before
    obtain ⟨hrc', hcommitted'⟩ :=
      configLoad_of_not_loads db (fun h => hloads (loadsServers_denoted hfile h)) misread before
    exact ⟨hrc'.trans hrc.symm, hcommitted'.trans hcommitted.symm⟩

theorem loadsSettings_final (hfile : Replaced settings final) : LoadsSettings final := by
  intro set hset pair hpair
  have hclosed : refsPairs set = [] :=
    closed_of_get_final (grounded_file hfile) ((get_file hfile _ _).symm.trans hset)
  rw [resolve_of_mem_traverse hclosed hpair]
  simp

theorem fileDirect_of_transparent (hfile : Replaced settings final)
    (h : Transparent settings final) : FileDirect settings final := by
  intro hloads
  have hsettings : LoadsSettings settings := fun set hset pair hpair =>
    resolve_ne_none hfile (grounded_of_get hfile hset hpair)
  have hrecorded : ∀ misread : Value → List Byte, LoadsServers settings ∧
      fileRows settings misread = fileRows final misread := by
    intro misread
    obtain ⟨hrc, hcommitted⟩ := h (List Sql) recording misread []
    obtain ⟨hrc', hrows'⟩ :=
      @configLoad_recording final misread hloads (loadsSettings_final hfile) []
    have hservers := loadsServers_of_configLoad recording (hrc.trans hrc')
    obtain ⟨-, hrows⟩ := @configLoad_recording settings misread hservers hsettings []
    exact ⟨hservers, hrows.symm.trans (hcommitted.trans hrows')⟩
  exact direct_of_fileRows hfile (hrecorded fun _ => []).1 fun misread => (hrecorded misread).2

/-- A server that is reached over two variables. -/
def chained : Pairs :=
  pairs [("main", .cls (bytes "Server") (pairs [("port", .number (bytes "80")),
      ("hosts", .list [])])),
    ("alias", .ref (bytes "main")),
    ("servers", .list [.ref (bytes "alias")])]

/-- A setting whose value is reached over two variables. -/
def chainedSetting : Pairs :=
  pairs [("threads", .qstring (bytes "4")),
    ("alias", .ref (bytes "threads")),
    ("servers", .list [.cls (bytes "Server") (pairs [("port", .number (bytes "80")),
      ("hosts", .list [])])]),
    ("settings", .hash (pairs [("zeromq.threads", .ref (bytes "alias"))]))]

end

end M2sh

end Mongrel2
