/-
The rows of a file with references and of the file without them.

* `RouteDirect`, `HostsDirect`, `ServersDirect`, `VarDirect` — where references are resolved
  in one step, or nothing is stored of what they finally denote;
* `serversDirect_of_rows`, `varDirect_of_rows` — the rows are the same only there.

Design notes: what a reference to a reference does is that a part is not stored, or
another text is.  So a file has never more rows than the one without references, and the
rows of each part are the same if those of all parts together are.
-/
import Mongrel2.Denoted

namespace Mongrel2

open ByteStream HttpParser

namespace M2sh

/-! ### References of one step -/

section

variable (settings final : Pairs)

/-- A class that a route can go to. -/
def IsTarget (val : Value) : Prop :=
  ∃ ident params, val = .cls ident params ∧ targetParams ident ≠ []

/-- A host with a name, of which there is a row. -/
def IsNamed (val : Value) : Prop :=
  ∃ params, val = .cls (bytes "Host") params ∧ str settings params (bytes "name") .qstring ≠ none

/-- A route goes to a class in one step, or to none, and so do its parameters. -/
def RouteDirect (pair : Pair Value) : Prop :=
  ∀ found, pair.value.resolve settings = some found →
    (found.type = .ref → ¬ IsTarget (found.denoted final)) ∧
    ∀ ident params, found = .cls ident params →
      ParamsDirect settings final params (targetParams ident)

/-- A host is found in one step, and so are its name and its routes; `rest` is for the hosts
after it. -/
def HostDirect (found : Value) (data : List Value) (rest : Prop) : Prop :=
  (found.type = .ref → ¬ IsNamed final (found.denoted final)) ∧
  ∀ params, found = .cls (bytes "Host") params →
    GetDirect settings final params (bytes "name") .qstring ∧
    (IsNamed settings found →
      (GetDirect settings final params (bytes "routes") .hash →
        ∀ routes, get settings params (bytes "routes") .hash = some (.hash routes) →
          (∀ pair ∈ routes.traverse, RouteDirect settings final pair) ∧ rest) ∧
      -- routes that are not found end the walk, where they would have added nothing
      (¬ GetDirect settings final params (bytes "routes") .hash →
        (∀ routes,
          get final (denotedPairs final params) (bytes "routes") .hash = some (.hash routes) →
            ∀ pair ∈ routes.traverse, ¬ IsTarget pair.value) ∧
        ∀ next ∈ data.head?, ¬ IsNamed final (next.denoted final)))

/-- The hosts of a server, up to the first that does not load. -/
def HostsDirect : List Value → Prop
  | [] => True
  | ref :: data =>
    ∀ found, ref.resolve settings = some found →
      HostDirect settings final found data (HostsDirect data)

/-- A server is found in one step, and so are its parameters. -/
def ServerDirect (found : Value) : Prop :=
  found.type ≠ .ref ∧
    ∀ params, found = .cls (bytes "Server") params →
      ParamsDirect settings final params serverParams ∧
      GetDirect settings final params (bytes "hosts") .list ∧
      ∀ hosts, get settings params (bytes "hosts") .list = some (.list hosts) →
        HostsDirect settings final hosts

/-- The variable of the servers is no reference, and each server is found in one step. -/
def ServersDirect : Prop :=
  ∀ pair, settings.search (bytes "servers") = some pair →
    pair.value.type ≠ .ref ∧
      ∀ servers, pair.value = .list servers → ∀ ref ∈ servers,
        ∀ found, ref.resolve settings = some found → ServerDirect settings final found

/-- A text is found in one step, or is the name that this leads to; and what is no text
has no references. -/
def TextDirect (pair : Pair Value) : Prop :=
  ∀ found, pair.value.resolve settings = some found →
    found.string = (found.denoted final).string ∧ (found.string = none → found.refs = [])

/-- A hash is found in one step, or is empty, and each text in it is found. -/
def VarDirect (name : List Byte) : Prop :=
  (¬ GetDirect settings final settings name .hash →
    ∀ set, get final final name .hash = some (.hash set) → set.traverse = []) ∧
  ∀ set, get settings settings name .hash = some (.hash set) →
    ∀ pair ∈ set.traverse, TextDirect settings final pair

end

/-! ### Fewer rows -/

/-- There are fewer rows than others, or as many, and they are the same only in one case. -/
structure Fewer (rows rows' : List Sql) (same : Prop) : Prop where
  le : rows.length ≤ rows'.length
  same : rows = rows' → same

section

variable {rows rows' more more' : List Sql} {same same' : Prop}

theorem Fewer.append (h : Fewer rows rows' same) (h' : Fewer more more' same') :
    Fewer (rows ++ more) (rows' ++ more') (same ∧ same') := by
  have hle := h.le
  have hle' := h'.le
  refine ⟨by simp only [List.length_append]; omega, fun heq => ?_⟩
  have hlength := congrArg List.length heq
  simp only [List.length_append] at hlength
  obtain ⟨hrows, hmore⟩ := List.append_inj heq (by omega)
  exact ⟨h.same hrows, h'.same hmore⟩

theorem Fewer.mono (h : Fewer rows rows' same) (himp : same → same') : Fewer rows rows' same' :=
  ⟨h.le, fun heq => himp (h.same heq)⟩

theorem Fewer.cons (h : Fewer rows rows' same) (sql : Sql) :
    Fewer (sql :: rows) (sql :: rows') same :=
  ⟨by simpa using h.le, fun heq => h.same (List.cons.inj heq).2⟩

/-- Without any rows, there have to be none. -/
theorem Fewer.nil (h : rows' = [] → same) : Fewer [] rows' same :=
  ⟨Nat.zero_le _, fun heq => h heq.symm⟩

theorem Fewer.flatMap {α β : Type} {l : List α} {f : α → List Sql} {e : α → β}
    {g : β → List Sql} {same : α → Prop} (h : ∀ a ∈ l, Fewer (f a) (g (e a)) (same a)) :
    Fewer (l.flatMap f) ((l.map e).flatMap g) (∀ a ∈ l, same a) := by
  induction l with
  | nil => exact ⟨le_rfl, by simp⟩
  | cons a l ih =>
    have hrest := ih fun b hb => h b (List.mem_cons_of_mem a hb)
    exact ((h a List.mem_cons_self).append hrest).mono List.forall_mem_cons.mpr

end

/-! ### Routes -/

section

variable {settings final params : Pairs} {val found : Value}

theorem routeRows_cls (key ident : List Byte) (params : Pairs) :
    routeRows settings ⟨key, some (.cls ident params)⟩ =
      (targetSql settings ident params).elim []
        fun sql => [sql, .route key 0 0 (ident.map tolower)] := by
  dsimp only [routeRows]
  cases targetSql settings ident params <;> rfl

theorem routeRows_eq_nil_iff (key : List Byte) :
    routeRows settings ⟨key, some val⟩ = [] ↔ ¬ IsTarget val := by
  rcases val with _ | _ | _ | ⟨ident, params⟩ | _ | _ | _ | _
  case cls =>
    have htarget : IsTarget (.cls ident params) ↔ targetParams ident ≠ [] := by simp [IsTarget]
    rw [htarget, not_not, ← @targetSql_eq_none_iff settings params, routeRows_cls]
    rcases targetSql settings ident params with _ | sql
    · simp
    · simp
  all_goals exact iff_of_true rfl (by simp [IsTarget])

theorem grounded_params {ident : List Byte} (h : Grounded final (.cls ident params)) :
    ∀ pair ∈ params.values, Grounded final pair.value :=
  fun _ hpair => grounded_of_mem_values h hpair

theorem routeRows_fewer (hfile : Replaced settings final) {pair : Pair Value}
    (hpair : Grounded final pair.value) :
    Fewer (routeRows settings ⟨pair.key, pair.value.resolve settings⟩)
      (routeRows final ⟨pair.key, some (pair.value.denoted final)⟩)
      (RouteDirect settings final pair) := by
  obtain ⟨found, hfound, hdenoted⟩ := resolve_spec hfile hpair
  have hground := hpair.of_eq hdenoted
  rw [hfound, ← hdenoted]
  have hdirect : ((found.type = .ref → ¬ IsTarget (found.denoted final)) ∧
      ∀ ident params, found = .cls ident params →
        ParamsDirect settings final params (targetParams ident)) →
      RouteDirect settings final pair := by
    intro h found' hfound'
    obtain rfl := Option.some.inj (hfound.symm.trans hfound')
    exact h
  refine Fewer.mono ?_ hdirect
  rcases found with _ | _ | _ | ⟨ident, params⟩ | _ | _ | _ | y
  case ref => exact .nil fun hnil => ⟨fun _ => (routeRows_eq_nil_iff _).mp hnil, by simp⟩
  case cls =>
    have hsql := targetSql_eq_iff hfile (grounded_params hground) ident
    have hnone : targetSql settings ident params = none ↔
        targetSql final ident (denotedPairs final params) = none := by
      rw [targetSql_eq_none_iff, targetSql_eq_none_iff]
    have hcls : targetSql settings ident params =
          targetSql final ident (denotedPairs final params) →
        ((Value.cls ident params).type = .ref →
          ¬ IsTarget ((Value.cls ident params).denoted final)) ∧
        ∀ ident' params', Value.cls ident params = .cls ident' params' →
          ParamsDirect settings final params' (targetParams ident') := by
      refine fun heq => ⟨fun href => absurd href (by simp [Value.type]), ?_⟩
      rintro _ _ ⟨⟩
      exact hsql.mp heq
    refine Fewer.mono ?_ hcls
    rw [denoted_cls, routeRows_cls, routeRows_cls]
    generalize targetSql settings ident params = x at hnone ⊢
    generalize targetSql final ident (denotedPairs final params) = x' at hnone ⊢
    rcases x with _ | sql
    · rw [hnone.mp rfl]
      exact .nil fun _ => rfl
    · rcases x' with _ | sql'
      · exact absurd (hnone.mpr rfl) (by simp)
      · exact ⟨le_rfl, fun heq => congrArg some (List.cons.inj heq).1⟩
  all_goals exact .nil fun _ => ⟨by rintro ⟨⟩, by simp⟩

/-- The rows of a hash, given those of each pair. -/
theorem hashRows_fewer {rows rows' : Pair (Option Value) → List Sql} {same : Pair Value → Prop}
    {data : Pairs} (hdata : ∀ pair ∈ data.values, Grounded final pair.value)
    (h : ∀ pair ∈ data.traverse,
      Fewer (rows ⟨pair.key, pair.value.resolve settings⟩)
        (rows' ⟨pair.key, some (pair.value.denoted final)⟩) (same pair)) :
    Fewer (hashRows settings rows data) (hashRows final rows' (denotedPairs final data))
      (∀ pair ∈ data.traverse, same pair) := by
  unfold hashRows
  rw [traverse_denotedPairs]
  refine Fewer.flatMap fun pair hpair => ?_
  have hresolve := resolve_denoted (hdata pair (Tst.mem_traverse_iff.mp hpair))
  show Fewer _ (rows' ⟨pair.key, (pair.value.denoted final).resolve final⟩) _
  rw [hresolve]
  exact h pair hpair

/-! ### Hosts -/

theorem isNamed_of_loadsHost (h : LoadsHost settings val) : IsNamed settings val := by
  obtain ⟨params, hval, hname, -⟩ := h
  exact ⟨params, hval, hname⟩

theorem hostRows_eq_nil_iff : hostRows settings val = [] ↔ ¬ IsNamed settings val := by
  rcases val with _ | _ | _ | ⟨ident, params⟩ | _ | _ | _ | _
  case cls =>
    have hnamed : IsNamed settings (.cls ident params) ↔
        ident = bytes "Host" ∧ str settings params (bytes "name") .qstring ≠ none := by
      simp [IsNamed]
    rw [hnamed]
    unfold hostRows
    dsimp only
    by_cases hident : ident ≠ bytes "Host"
    · rw [if_pos hident]
      exact iff_of_true rfl fun h => hident h.1
    · rw [if_neg hident]
      rw [not_not] at hident
      rcases str settings params (bytes "name") .qstring with _ | name
      · simp
      · simp [hident]
  all_goals exact iff_of_true rfl (by simp [IsNamed])

/-- The rows of hosts, given those after the first of them. -/
theorem hostsRows_cons {ref : Value} {data : List Value} (h : ref.resolve settings = some found) :
    listRows settings (hostRows settings) (LoadsHost settings) (ref :: data) =
      hostRows settings found ++
        if LoadsHost settings found then
          listRows settings (hostRows settings) (LoadsHost settings) data
        else [] := by
  rw [listRows, h]

theorem hostsRows_cons_of_not_named {ref : Value} {data : List Value}
    (h : ref.resolve settings = some found) (hnamed : ¬ IsNamed settings found) :
    listRows settings (hostRows settings) (LoadsHost settings) (ref :: data) = [] := by
  rw [hostsRows_cons h, hostRows_eq_nil_iff.mpr hnamed,
    if_neg fun hloads => hnamed (isNamed_of_loadsHost hloads)]
  rfl

/-- Without rows no host is the first. -/
theorem not_isNamed_head {data : List Value} (hdata : ∀ ref ∈ data, Grounded final ref)
    (h : listRows final (hostRows final) (LoadsHost final) (data.map (Value.denoted final)) = []) :
    ∀ next ∈ data.head?, ¬ IsNamed final (next.denoted final) := by
  rcases data with _ | ⟨ref, data⟩
  · simp
  · intro next hnext
    obtain rfl := Option.some.inj hnext
    rw [List.map_cons, hostsRows_cons (resolve_denoted (hdata ref List.mem_cons_self))] at h
    exact hostRows_eq_nil_iff.mp (List.append_eq_nil_iff.mp h).1

/-- A host with a name has its own row and those of its routes. -/
theorem hostRows_named {name : List Byte}
    (hname : str settings params (bytes "name") .qstring = some name) :
    hostRows settings (.cls (bytes "Host") params) =
      .host 0 name name ::
        match get settings params (bytes "routes") .hash with
        | some (.hash routes) => hashRows settings (routeRows settings) routes
        | _ => [] := by
  dsimp only [hostRows]
  rw [if_neg (not_not.mpr rfl)]
  generalize str settings params (bytes "name") .qstring = found at hname ⊢
  subst hname
  rfl

theorem not_isNamed_iff (params : Pairs) :
    ¬ IsNamed settings (.cls (bytes "Host") params) ↔
      str settings params (bytes "name") .qstring = none := by
  simp [IsNamed]

/-- A host of which there is no row in either file. -/
theorem hostDirect_of_not_named (hfile : Replaced settings final) (hground : Grounded final found)
    (h : ¬ IsNamed settings found) (h' : ¬ IsNamed final (found.denoted final)) (data : List Value)
    (rest : Prop) : HostDirect settings final found data rest := by
  refine ⟨fun _ => h', ?_⟩
  rintro params rfl
  refine ⟨?_, fun hnamed => absurd hnamed h⟩
  rw [← str_eq_iff hfile (grounded_params hground) (.inl rfl), (not_isNamed_iff params).mp h]
  exact ((not_isNamed_iff (denotedPairs final params)).mp h').symm

theorem loadsHost_iff {name : List Byte}
    (hname : str settings params (bytes "name") .qstring = some name) :
    LoadsHost settings (.cls (bytes "Host") params) ↔
      get settings params (bytes "routes") .hash ≠ none := by
  simp [LoadsHost, hname]

/-- A host whose routes are found. -/
theorem hostDirect_of_routes (hname : GetDirect settings final params (bytes "name") .qstring)
    (hdirect : GetDirect settings final params (bytes "routes") .hash) {data : List Value}
    {rest : Prop}
    (h : ∀ routes, get settings params (bytes "routes") .hash = some (.hash routes) →
      (∀ pair ∈ routes.traverse, RouteDirect settings final pair) ∧ rest) :
    HostDirect settings final (.cls (bytes "Host") params) data rest := by
  refine ⟨by rintro ⟨⟩, ?_⟩
  rintro _ ⟨⟩
  exact ⟨hname, fun _ => ⟨fun _ => h, fun hnot => absurd hdirect hnot⟩⟩

/-- A host whose routes are not found, and would have added nothing. -/
theorem hostDirect_of_not_routes (hname : GetDirect settings final params (bytes "name") .qstring)
    (hdirect : ¬ GetDirect settings final params (bytes "routes") .hash) {data : List Value}
    {rest : Prop}
    (h : ∀ routes,
      get final (denotedPairs final params) (bytes "routes") .hash = some (.hash routes) →
        ∀ pair ∈ routes.traverse, ¬ IsTarget pair.value)
    (hnext : ∀ next ∈ data.head?, ¬ IsNamed final (next.denoted final)) :
    HostDirect settings final (.cls (bytes "Host") params) data rest := by
  refine ⟨by rintro ⟨⟩, ?_⟩
  rintro _ ⟨⟩
  exact ⟨hname, fun _ => ⟨fun hyes => absurd hyes hdirect, fun _ => ⟨h, hnext⟩⟩⟩

/-- A host with a name, and the hosts after it if it loads. -/
theorem hostRows_fewer (hfile : Replaced settings final)
    (hground : Grounded final (.cls (bytes "Host") params)) {name : List Byte}
    (hname : str settings params (bytes "name") .qstring = some name) {data : List Value}
    {rest rest' : List Sql} {same : Prop} (hrest : Fewer rest rest' same)
    (hhead : rest' = [] → ∀ next ∈ data.head?, ¬ IsNamed final (next.denoted final)) :
    Fewer
      (hostRows settings (.cls (bytes "Host") params) ++
        if LoadsHost settings (.cls (bytes "Host") params) then rest else [])
      (hostRows final (.cls (bytes "Host") (denotedPairs final params)) ++
        if LoadsHost final (.cls (bytes "Host") (denotedPairs final params)) then rest' else [])
      (HostDirect settings final (.cls (bytes "Host") params) data same) := by
  have hparams := grounded_params hground
  have hnameDirect : GetDirect settings final params (bytes "name") .qstring := by
    refine getDirect_of hparams (by decide) fun _ hnone => ?_
    unfold str at hname
    rw [hnone] at hname
    exact absurd hname (by simp)
  have hname' := ((str_eq_iff hfile hparams (.inl rfl)).mpr hnameDirect).symm.trans hname
  rw [hostRows_named hname, hostRows_named hname']
  by_cases hdirect : GetDirect settings final params (bytes "routes") .hash
  · rcases get_hash_cases hfile hparams hdirect with ⟨hR, hR'⟩ | ⟨routes, hR, hR', hpairs⟩
    · rw [hR, hR', if_neg fun h => (loadsHost_iff hname).mp h hR,
        if_neg fun h => (loadsHost_iff hname').mp h hR']
      refine ⟨le_rfl, fun _ => hostDirect_of_routes hnameDirect hdirect fun routes h => ?_⟩
      exact absurd (hR.symm.trans h) (by simp)
    · have hrows := hashRows_fewer hpairs fun pair hpair =>
        routeRows_fewer hfile (hpairs pair (Tst.mem_traverse_iff.mp hpair))
      rw [hR, hR', if_pos ((loadsHost_iff hname).mpr (by simp [hR])),
        if_pos ((loadsHost_iff hname').mpr (by simp [hR']))]
      refine Fewer.mono ((hrows.append hrest).cons _) fun h => ?_
      refine hostDirect_of_routes hnameDirect hdirect fun routes' hroutes' => ?_
      obtain rfl := Value.hash.inj (Option.some.inj (hR.symm.trans hroutes'))
      exact h
  · -- the routes are found only without references
    obtain ⟨hR, routes, hR', hclosed⟩ := get_hash_of_not_direct hparams hdirect
    rw [hR, hR', if_neg fun h => (loadsHost_iff hname).mp h hR,
      if_pos ((loadsHost_iff hname').mpr (by simp [hR']))]
    refine Fewer.cons (.nil fun hnil => ?_) _
    obtain ⟨hrows, hrest'⟩ := List.append_eq_nil_iff.mp hnil
    refine hostDirect_of_not_routes hnameDirect hdirect ?_ (hhead hrest')
    rintro routes' h pair hpair
    obtain rfl := Value.hash.inj (Option.some.inj (hR'.symm.trans h))
    have hpairRows := List.flatMap_eq_nil_iff.mp hrows pair hpair
    rw [resolve_of_mem_traverse hclosed hpair] at hpairRows
    exact (routeRows_eq_nil_iff _).mp hpairRows

/-- **The rows of hosts** are fewer, and the same only if each of them is found in one step
or adds nothing. -/
theorem hostsRows_fewer (hfile : Replaced settings final) {data : List Value}
    (hdata : ∀ ref ∈ data, Grounded final ref) :
    Fewer (listRows settings (hostRows settings) (LoadsHost settings) data)
      (listRows final (hostRows final) (LoadsHost final) (data.map (Value.denoted final)))
      (HostsDirect settings final data) := by
  induction data with
  | nil => exact .nil fun _ => trivial
  | cons ref data ih =>
    obtain ⟨href, hdata⟩ := List.forall_mem_cons.mp hdata
    obtain ⟨found, hfound, hdenoted⟩ := resolve_spec hfile href
    have hground := href.of_eq hdenoted
    have hresolve := resolve_denoted href
    have hdirect : HostDirect settings final found data (HostsDirect settings final data) →
        HostsDirect settings final (ref :: data) := by
      intro h found' hfound'
      obtain rfl := Option.some.inj (hfound.symm.trans hfound')
      exact h
    refine Fewer.mono ?_ hdirect
    rw [List.map_cons, ← hdenoted]
    rw [← hdenoted] at hresolve
    by_cases hnamed : IsNamed settings found
    · obtain ⟨params, rfl, hname⟩ := hnamed
      obtain ⟨name, hname⟩ := Option.ne_none_iff_exists'.mp hname
      have hrest := ih hdata
      rw [hostsRows_cons hfound, hostsRows_cons hresolve]
      exact hostRows_fewer hfile hground hname hrest (not_isNamed_head hdata)
    · -- then there is no row of the hosts from here on
      rw [hostsRows_cons_of_not_named hfound hnamed]
      refine .nil fun hnil => hostDirect_of_not_named hfile hground hnamed ?_ _ _
      rw [hostsRows_cons hresolve] at hnil
      exact hostRows_eq_nil_iff.mp (List.append_eq_nil_iff.mp hnil).1

/-! ### Servers -/

theorem loadsServer_denoted (hfile : Replaced settings final) (hground : Grounded final found)
    (h : LoadsServer settings found) : LoadsServer final (found.denoted final) := by
  obtain ⟨params, rfl, hhosts⟩ := h
  have hparams := grounded_params hground
  have hdirect : GetDirect settings final params (bytes "hosts") .list :=
    getDirect_of hparams (by decide) fun _ => hhosts
  have hget := get_denoted hfile hparams (by decide) hdirect
  exact ⟨denotedPairs final params, rfl, by rw [hget]; simpa using hhosts⟩

/-- A server with hosts has its own row and those of its hosts. -/
theorem serverRows_server {hosts : List Value}
    (h : get settings params (bytes "hosts") .list = some (.list hosts)) :
    serverRows settings (.cls (bytes "Server") params) = serverSql settings params ::
      listRows settings (hostRows settings) (LoadsHost settings) hosts := by
  dsimp only [serverRows]
  rw [if_neg (not_not.mpr rfl)]
  generalize get settings params (bytes "hosts") .list = found at h ⊢
  subst h
  rfl

/-- A server with hosts. -/
theorem serverRows_fewer (hfile : Replaced settings final) (hground : Grounded final found)
    (hloads : LoadsServer settings found) :
    Fewer (serverRows settings found) (serverRows final (found.denoted final))
      (ServerDirect settings final found) := by
  obtain ⟨params, rfl, hne⟩ := hloads
  have hparams := grounded_params hground
  have hdirect : GetDirect settings final params (bytes "hosts") .list :=
    getDirect_of hparams (by decide) fun _ => hne
  rcases get_list_cases hfile hparams hdirect with ⟨hnone, -⟩ | ⟨hosts, hhosts, hhosts', hground'⟩
  · exact absurd hnone hne
  have hserver : Fewer [serverSql settings params] [serverSql final (denotedPairs final params)]
      (ParamsDirect settings final params serverParams) :=
    ⟨le_rfl, fun heq => (serverSql_eq_iff hfile hparams).mp (List.cons.inj heq).1⟩
  rw [denoted_cls, serverRows_server hhosts, serverRows_server hhosts']
  refine (hserver.append (hostsRows_fewer hfile hground')).mono fun h => ⟨by rintro ⟨⟩, ?_⟩
  rintro _ ⟨⟩
  refine ⟨h.1, hdirect, fun hosts' hhosts' => ?_⟩
  obtain rfl := Value.list.inj (Option.some.inj (hhosts.symm.trans hhosts'))
  exact h.2

/-- Servers that all load. -/
theorem serverList_fewer (hfile : Replaced settings final) {data : List Value}
    (hdata : ∀ ref ∈ data, Grounded final ref)
    (hloads : ∀ ref ∈ data, ∃ found,
      ref.resolve settings = some found ∧ LoadsServer settings found) :
    Fewer (listRows settings (serverRows settings) (LoadsServer settings) data)
      (listRows final (serverRows final) (LoadsServer final) (data.map (Value.denoted final)))
      (∀ ref ∈ data, ∀ found, ref.resolve settings = some found →
        ServerDirect settings final found) := by
  induction data with
  | nil => exact .nil fun _ => by simp
  | cons ref data ih =>
    obtain ⟨href, hdata⟩ := List.forall_mem_cons.mp hdata
    obtain ⟨⟨found, hfound, hserver⟩, hloads⟩ := List.forall_mem_cons.mp hloads
    have hdenoted := denoted_of_resolve hfile href hfound
    have hground := href.of_eq hdenoted
    have hresolve := resolve_denoted href
    rw [← hdenoted] at hresolve
    rw [List.map_cons, ← hdenoted, listRows, listRows, hfound, hresolve]
    dsimp only
    rw [if_pos hserver, if_pos (loadsServer_denoted hfile hground hserver)]
    refine ((serverRows_fewer hfile hground hserver).append (ih hdata hloads)).mono ?_
    rintro ⟨hfirst, hrest⟩
    refine List.forall_mem_cons.mpr ⟨fun found' hfound' => ?_, hrest⟩
    obtain rfl := Option.some.inj (hfound.symm.trans hfound')
    exact hfirst

/-! ### The file -/

theorem search_final (hfile : Replaced settings final) (name : List Byte) :
    final.search name = (settings.search name).map (Pair.subst (valueOf final)) := by
  conv_lhs => rw [hfile.eq]
  exact search_denotedPairs name

theorem grounded_file (hfile : Replaced settings final) :
    ∀ pair ∈ settings.values, Grounded final pair.value := by
  have hclosed : refsPairs (denotedPairs final settings) = [] := by
    rw [denotedPairs, ← hfile.eq]
    exact hfile.closed
  exact fun pair hpair => grounded_of_mem_values hclosed hpair

theorem get_file (hfile : Replaced settings final) (name : List Byte) (type : ValueType) :
    get final final name type = get final (denotedPairs final settings) name type := by
  rw [denotedPairs, ← hfile.eq]

theorem search_list_final (hfile : Replaced settings final) {name key : List Byte}
    {elements : List Value} (h : settings.search name = some ⟨key, .list elements⟩) :
    final.search name = some ⟨key, .list (elements.map (Value.denoted final))⟩ := by
  rw [search_final hfile, h, Option.map_some, Pair.subst]
  exact congrArg (fun val => some (Pair.mk key val)) (denoted_list elements)

/-- The servers load without references if they do with them. -/
theorem loadsServers_denoted (hfile : Replaced settings final) (h : LoadsServers settings) :
    LoadsServers final := by
  obtain ⟨key, servers, hsearch, hloads⟩ := h
  have hground := grounded_file hfile _ (Tst.mem_values_of_search hsearch)
  refine ⟨key, servers.map (Value.denoted final), search_list_final hfile hsearch, ?_⟩
  rw [List.forall_mem_map]
  intro ref href
  obtain ⟨found, hfound, hserver⟩ := hloads ref href
  have hrefGround := grounded_of_mem_list hground href
  have hdenoted := denoted_of_resolve hfile hrefGround hfound
  refine ⟨_, resolve_denoted hrefGround, ?_⟩
  rw [← hdenoted]
  exact loadsServer_denoted hfile (hrefGround.of_eq hdenoted) hserver

/-- **The rows of the servers** are the same only if each of them is found in one step. -/
theorem serversRows_fewer (hfile : Replaced settings final) (h : LoadsServers settings) :
    Fewer (serversRows settings) (serversRows final) (ServersDirect settings final) := by
  obtain ⟨key, servers, hsearch, hloads⟩ := h
  have hground := grounded_file hfile _ (Tst.mem_values_of_search hsearch)
  unfold serversRows
  rw [hsearch, search_list_final hfile hsearch]
  refine (serverList_fewer hfile (fun ref href => grounded_of_mem_list hground href) hloads).mono ?_
  intro h pair hpair
  obtain rfl := Option.some.inj (hsearch.symm.trans hpair)
  refine ⟨by rintro ⟨⟩, ?_⟩
  rintro _ ⟨⟩
  exact h

/-- A text is the same whatever a wild read gives, if it is found in one step. -/
theorem textDirect_iff (hground : Grounded final found) :
    (∀ misread, asString misread found = asString misread (found.denoted final)) ↔
      found.string = (found.denoted final).string ∧ (found.string = none → found.refs = []) := by
  refine ⟨fun h => ?_, ?_⟩
  · rcases hfound : found.string with _ | data
    · -- a wild read may tell the two values apart
      have hdenoted : (found.denoted final).string = none := by
        rcases found with _ | _ | _ | _ | _ | _ | _ | _
        case cls | list | hash => rfl
        all_goals exact absurd hfound (by simp [Value.string])
      classical
      have hread := h fun val => if val = found then [] else [0]
      rw [asString, asString, hfound, hdenoted, Option.getD_none, Option.getD_none,
        if_pos rfl] at hread
      have heq : found.denoted final = found := by
        by_contra hne
        rw [if_neg hne] at hread
        exact absurd hread (by simp)
      refine ⟨hdenoted.symm, fun _ => ?_⟩
      unfold Grounded at hground
      rwa [heq] at hground
    · refine ⟨?_, by simp⟩
      rcases hdenoted : (found.denoted final).string with _ | data'
      · have hread := h fun _ => data ++ [0]
        rw [asString, asString, hfound, hdenoted] at hread
        exact absurd hread (by simp)
      · have hread := h fun _ => []
        rw [asString, asString, hfound, hdenoted] at hread
        exact congrArg some hread
  · rintro ⟨hstring, hrefs⟩ misread
    rcases hfound : found.string with _ | data
    · rw [Value.denoted, subst_closed (hrefs hfound)]
    · rw [asString, asString, ← hstring, hfound]
      rfl

theorem textRows_fewer (hfile : Replaced settings final) (misread : Value → List Byte)
    {row : List Byte → List Byte → Sql} (hrow : ∀ key a b, row key a = row key b → a = b)
    {pair : Pair Value} (hpair : Grounded final pair.value) :
    Fewer (textRows misread row ⟨pair.key, pair.value.resolve settings⟩)
      (textRows misread row ⟨pair.key, some (pair.value.denoted final)⟩)
      (∀ found, pair.value.resolve settings = some found →
        asString misread found = asString misread (found.denoted final)) := by
  obtain ⟨found, hfound, hdenoted⟩ := resolve_spec hfile hpair
  rw [hfound, ← hdenoted]
  refine ⟨le_rfl, fun heq found' hfound' => ?_⟩
  obtain rfl := Option.some.inj hfound'
  exact hrow _ _ _ (List.cons.inj heq).1

/-- What is stored of a hash is the same only if it is found in one step or empty, and its
values are read as the same texts. -/
theorem varRows_fewer (hfile : Replaced settings final) (misread : Value → List Byte)
    (name : List Byte) {row : List Byte → List Byte → Sql}
    (hrow : ∀ key a b, row key a = row key b → a = b) :
    Fewer (varRows settings misread name row) (varRows final misread name row)
      ((¬ GetDirect settings final settings name .hash →
          ∀ set, get final final name .hash = some (.hash set) → set.traverse = []) ∧
        ∀ set, get settings settings name .hash = some (.hash set) →
          ∀ pair ∈ set.traverse, ∀ found, pair.value.resolve settings = some found →
            asString misread found = asString misread (found.denoted final)) := by
  have hground := grounded_file hfile
  unfold varRows
  rw [get_file hfile]
  by_cases hdirect : GetDirect settings final settings name .hash
  · rcases get_hash_cases hfile hground hdirect with ⟨hR, hR'⟩ | ⟨set, hR, hR', hpairs⟩
    · rw [hR, hR']
      exact .nil fun _ => ⟨fun hnot => absurd hdirect hnot, by simp⟩
    · have hrows := hashRows_fewer hpairs fun pair hpair =>
        textRows_fewer hfile misread hrow (hpairs pair (Tst.mem_traverse_iff.mp hpair))
      rw [hR, hR']
      refine hrows.mono fun h => ⟨fun hnot => absurd hdirect hnot, ?_⟩
      intro set' hset'
      obtain rfl := Value.hash.inj (Option.some.inj hset')
      exact h
  · -- there is a row of each pair without references
    obtain ⟨hR, set, hR', hclosed⟩ := get_hash_of_not_direct hground hdirect
    rw [hR, hR']
    refine .nil fun hnil => ⟨fun _ set' hset' => ?_, by simp⟩
    obtain rfl := Value.hash.inj (Option.some.inj hset')
    refine List.eq_nil_iff_forall_not_mem.mpr fun pair hpair => ?_
    have hrows := List.flatMap_eq_nil_iff.mp hnil pair hpair
    rw [resolve_of_mem_traverse hclosed hpair] at hrows
    exact absurd hrows (by simp [textRows])

theorem resolve_ne_none (hfile : Replaced settings final) (hval : Grounded final val) :
    val.resolve settings ≠ none := by
  obtain ⟨found, hfound, -⟩ := resolve_spec hfile hval
  simp [hfound]

/-- The values of a hash of the file. -/
theorem grounded_of_get (hfile : Replaced settings final) {name : List Byte} {set : Pairs}
    (h : get settings settings name .hash = some (.hash set)) {pair : Pair Value}
    (hpair : pair ∈ set.traverse) : Grounded final pair.value := by
  obtain ⟨⟨pair', hsearch, hresolve⟩, -⟩ := get_eq_some_iff.mp h
  have hground := grounded_file hfile _ (Tst.mem_values_of_search hsearch)
  have hdenoted := denoted_of_resolve hfile hground hresolve
  exact grounded_of_mem_values (hground.of_eq hdenoted) (Tst.mem_traverse_iff.mp hpair)

/-- **The rows of a file** are the same only if every reference that is come to is of one
step, or denotes what nothing is stored of. -/
theorem direct_of_fileRows (hfile : Replaced settings final) (hloads : LoadsServers settings)
    (h : ∀ misread, fileRows settings misread = fileRows final misread) :
    ServersDirect settings final ∧ VarDirect settings final (bytes "settings") ∧
      VarDirect settings final (bytes "mimetypes") := by
  have hrows := fun misread =>
    ((((serversRows_fewer hfile hloads).cons .schema).append
      (varRows_fewer hfile misread (bytes "settings") fun _ _ _ h => (Sql.setting.inj h).2)).append
      ((varRows_fewer hfile misread (bytes "mimetypes") fun _ _ _ h =>
        (Sql.mimetype.inj h).2).cons .mimetypesDefault)).same (h misread)
  have hvar : ∀ name, (∀ misread : Value → List Byte,
        (¬ GetDirect settings final settings name .hash →
          ∀ set, get final final name .hash = some (.hash set) → set.traverse = []) ∧
        ∀ set, get settings settings name .hash = some (.hash set) →
          ∀ pair ∈ set.traverse, ∀ found, pair.value.resolve settings = some found →
            asString misread found = asString misread (found.denoted final)) →
      VarDirect settings final name := by
    intro name h
    refine ⟨(h fun _ => []).1, fun set hset pair hpair found hfound => ?_⟩
    have hground := grounded_of_get hfile hset hpair
    have hdenoted := denoted_of_resolve hfile hground hfound
    exact (textDirect_iff (hground.of_eq hdenoted)).mp fun misread =>
      (h misread).2 set hset pair hpair found hfound
  exact ⟨(hrows fun _ => []).1.1, hvar _ fun misread => (hrows misread).1.2,
    hvar _ fun misread => (hrows misread).2⟩

end

end M2sh

end Mongrel2
