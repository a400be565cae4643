/-
What a configuration file says of its servers (`config_file.c` of `m2sh`).

* `siteServers` — the servers of a file, with their hosts, routes and targets;
* `configLoad_routing` — a load that returns 0 has committed the rows of these, and no others that
  the server routes by;
* **`configLoad_sqlite`** — what the file says can be read back from them.

Design notes: the hosts of a server end at the first that does not load, and a route that does not
is left out, since nobody looks at the results of these walks.
-/
import Mongrel2.FileRows
import Mongrel2.Tables

namespace Mongrel2

open ByteStream HttpParser

namespace M2sh

/-! ### What a file says -/

section

variable (integer : List Byte → List Byte) (settings : Pairs)

/-- The target of a route. -/
def targetRow (ident : List Byte) (params : Pairs) : Option TargetRow :=
  let type := ident.map tolower
  if type = bytes "dir" then
    some (.dir ⟨str settings params (bytes "base") .qstring,
      str settings params (bytes "index_file") .qstring,
      str settings params (bytes "default_ctype") .qstring⟩)
  else if type = bytes "proxy" then
    some (.proxy ⟨str settings params (bytes "addr") .qstring,
      (str settings params (bytes "port") .number).map integer⟩)
  else if type = bytes "handler" then
    some (.handler ⟨str settings params (bytes "send_spec") .qstring,
      str settings params (bytes "send_ident") .qstring,
      str settings params (bytes "recv_spec") .qstring,
      str settings params (bytes "recv_ident") .qstring⟩)
  else none

/-- A route that a file says, if it loads. -/
def routeSpecs (pair : Pair (Option Value)) : List RouteSpec :=
  match pair.value with
  | some (.cls ident params) =>
    ((targetRow integer settings ident params).map fun target => ⟨pair.key, target⟩).toList
  | _ => []

/-- The routes in a hash. -/
def hashSpecs (data : Pairs) : List RouteSpec :=
  data.traverse.flatMap fun pair =>
    routeSpecs integer settings ⟨pair.key, pair.value.resolve settings⟩

/-- What each value of a list says, up to the first that does not load. -/
def listSpecs {γ : Type*} (specs : Value → List γ) (loads : Value → Prop) [DecidablePred loads] :
    List Value → List γ
  | [] => []
  | ref :: data =>
    match ref.resolve settings with
    | none => []
    | some found => specs found ++ if loads found then listSpecs specs loads data else []

/-- A host. -/
def hostSpecs (val : Value) : List HostSpec :=
  match val with
  | .cls ident params =>
    if ident ≠ bytes "Host" then []
    else
      match str settings params (bytes "name") .qstring with
      | none => []
      | some name =>
        match get settings params (bytes "routes") .hash with
        | some (.hash routes) => [⟨name, name, hashSpecs integer settings routes⟩]
        | _ => [⟨name, name, []⟩]
  | _ => []

/-- The row of a server. -/
def serverRowOf (params : Pairs) (port : List Byte) : ServerRow where
  uuid := str settings params (bytes "uuid") .qstring
  accessLog := str settings params (bytes "access_log") .qstring
  errorLog := str settings params (bytes "error_log") .qstring
  chroot := str settings params (bytes "chroot") .qstring
  pidFile := str settings params (bytes "pid_file") .qstring
  defaultHost := (str settings params (bytes "default_host") .qstring).map integer
  name := str settings params (bytes "name") .qstring
  port := integer port

/-- A server, which has a port. -/
def serverSpecs (val : Value) : List ServerSpec :=
  match val with
  | .cls ident params =>
    if ident ≠ bytes "Server" then []
    else
      match str settings params (bytes "port") .number with
      | none => []
      | some port =>
        match get settings params (bytes "hosts") .list with
        | some (.list hosts) =>
          [⟨serverRowOf integer settings params port,
            listSpecs settings (hostSpecs integer settings) (LoadsHost settings) hosts⟩]
        | _ => [⟨serverRowOf integer settings params port, []⟩]
  | _ => []

/-- All servers of a file. -/
def siteServers : List ServerSpec :=
  match settings.search (bytes "servers") with
  | some ⟨_, .list servers⟩ =>
    servers.flatMap fun ref => ((ref.resolve settings).map (serverSpecs integer settings)).getD []
  | _ => []

end

/-! ### The rows of a route -/

section

variable {integer : List Byte → List Byte} {defaults : List (List Byte × List Byte)}
  {settings params : Pairs} {s s' s'' : Loading Tables}

theorem TargetRow.targetId_ne (t : Tables) (x : TargetRow) : t.targetId x ≠ -1 := by
  cases x <;> simp only [Tables.targetId] <;> omega

/-- A class is no target, or a row of one table. -/
theorem target_cases (integer : List Byte → List Byte) (defaults : List (List Byte × List Byte))
    (settings params : Pairs) (ident : List Byte) :
    (targetSql settings ident params = none ∧ targetRow integer settings ident params = none) ∨
      ∃ sql x, targetSql settings ident params = some sql ∧
        targetRow integer settings ident params = some x ∧ ident.map tolower = x.type ∧
        ∀ s, insertTarget (sqlite integer defaults) sql s = (s.content.targetId x,
          { s with content := s.content.addTarget x, lastId := s.content.targetId x }) := by
  unfold targetSql targetRow
  dsimp only
  by_cases hdir : ident.map tolower = bytes "dir"
  · rw [if_pos hdir, if_pos hdir]
    exact .inr ⟨_, _, rfl, rfl, hdir, fun s => rfl⟩
  rw [if_neg hdir, if_neg hdir]
  by_cases hproxy : ident.map tolower = bytes "proxy"
  · rw [if_pos hproxy, if_pos hproxy]
    exact .inr ⟨_, _, rfl, rfl, hproxy, fun s => rfl⟩
  rw [if_neg hproxy, if_neg hproxy]
  by_cases hhandler : ident.map tolower = bytes "handler"
  · rw [if_pos hhandler, if_pos hhandler]
    exact .inr ⟨_, _, rfl, rfl, hhandler, fun s => rfl⟩
  · rw [if_neg hhandler, if_neg hhandler]
    exact .inl ⟨rfl, rfl⟩

/-- A load puts parts into the tables, one after the other, and keeps what holds of its state. -/
structure Puts {γ : Type*} (Q : Loading Tables → Prop) (add : Tables → γ → Tables) (specs : List γ)
    (s s' : Loading Tables) : Prop where
  content : s'.content = specs.foldl add s.content
  keeps : Q s'

section

variable {γ : Type*} {Q : Loading Tables → Prop} {add : Tables → γ → Tables} {specs specs' : List γ}

theorem Puts.trans (h : Puts Q add specs s s') (h' : Puts Q add specs' s' s'') :
    Puts Q add (specs ++ specs') s s'' :=
  ⟨by rw [h'.content, h.content, List.foldl_append], h'.keeps⟩

/-! ### The walks -/

theorem walkHash_puts {cb : Pair (Option Value) → Loading Tables → ℤ × Loading Tables}
    {specs : Pair (Option Value) → List γ}
    (hcb : ∀ pair s, Q s → Puts Q add (specs pair) s (cb pair s).2) (hs : Q s) (data : Pairs) :
    Puts Q add (data.traverse.flatMap fun pair => specs ⟨pair.key, pair.value.resolve settings⟩) s
      (walkHash settings cb data s).2 := by
  unfold walkHash
  generalize data.traverse = pairs
  induction pairs generalizing s with
  | nil => exact ⟨rfl, hs⟩
  | cons pair pairs ih =>
    have hpair := hcb ⟨pair.key, pair.value.resolve settings⟩ s hs
    rw [List.foldl_cons, foldl_hashTraverseCb, List.flatMap_cons]
    exact hpair.trans (ih hpair.keeps)

theorem walkList_puts {lost : Loading Tables → Loading Tables}
    {cb : Value → Loading Tables → ℤ × Loading Tables} {specs : Value → List γ}
    {loads : Value → Prop} [DecidablePred loads]
    (hlost : ∀ s, (lost s).content = s.content ∧ (Q s → Q (lost s)))
    (hcb : ∀ val s, Q s → Puts Q add (specs val) s (cb val s).2)
    (hrc : ∀ val s, (cb val s).1 = 0 ↔ loads val) (hs : Q s) (data : List Value) :
    Puts Q add (listSpecs settings specs loads data) s (walkList settings lost cb data s).2 := by
  induction data generalizing s with
  | nil => exact ⟨rfl, hs⟩
  | cons ref data ih =>
    unfold walkList listSpecs
    rcases ref.resolve settings with _ | found
    · exact ⟨(hlost s).1, (hlost s).2 hs⟩
    · have hfound := hcb found s hs
      dsimp only
      by_cases hloads : loads found
      · rw [if_pos hloads, if_pos ((hrc found s).mpr hloads)]
        exact hfound.trans (ih hfound.keeps)
      · rw [if_neg hloads, if_neg fun h => hloads ((hrc found s).mp h), List.append_nil]
        exact hfound

/-- A walk over a list that succeeds puts all of it. -/
theorem walkList_puts_of_rc {lost : Loading Tables → Loading Tables}
    {cb : Value → Loading Tables → ℤ × Loading Tables} {specs : Value → List γ}
    (hcb : ∀ val s, (cb val s).1 = 0 → (cb val s).2.content = (specs val).foldl add s.content)
    (data : List Value) (h : (walkList settings lost cb data s).1 = 0) :
    (walkList settings lost cb data s).2.content =
      (data.flatMap fun ref => ((ref.resolve settings).map specs).getD []).foldl add s.content := by
  induction data generalizing s with
  | nil => rfl
  | cons ref data ih =>
    rw [List.flatMap_cons, List.foldl_append]
    rcases href : ref.resolve settings with _ | found
    · unfold walkList at h
      rw [href] at h
      exact absurd h (by simp)
    have hwalk : walkList settings lost cb (ref :: data) s =
        if (cb found s).1 = 0 then walkList settings lost cb data (cb found s).2
        else (-1, (cb found s).2) := by
      rw [walkList, href]
    rw [hwalk] at h ⊢
    by_cases hrc : (cb found s).1 = 0
    · rw [if_pos hrc] at h ⊢
      rw [ih h, hcb found s hrc]
      rfl
    · rw [if_neg hrc] at h
      exact absurd h (by simp)

end

/-! ### Routes, hosts and servers -/

variable (integer defaults)

theorem routeLoad_puts {hostId serverId : ℤ} (pair : Pair (Option Value)) (s : Loading Tables)
    (hs : s.hostId = hostId ∧ s.serverId = serverId) :
    Puts (fun s => s.hostId = hostId ∧ s.serverId = serverId) (Tables.addRoute hostId)
      (routeSpecs integer settings pair) s
      (routeLoad (sqlite integer defaults) settings pair s).2 := by
  rcases pair with ⟨key, _ | val⟩
  · exact ⟨rfl, hs⟩
  rcases val with _ | _ | _ | ⟨ident, params⟩ | _ | _ | _ | _
  case cls =>
    rw [routeLoad_cls]
    rcases target_cases integer defaults settings params ident with
      ⟨hsql, hrow⟩ | ⟨sql, x, hsql, hrow, htype, hinsert⟩
    · rw [hsql, routeSpecs]
      dsimp only
      rw [hrow]
      exact ⟨rfl, hs⟩
    · rw [hsql, routeSpecs]
      simp only [hrow, hinsert, if_neg (TargetRow.targetId_ne _ x), htype, hs.1]
      exact ⟨rfl, rfl, hs.2⟩
  all_goals exact ⟨rfl, hs⟩

theorem hostLoad_rc (val : Value) (s : Loading Tables) :
    (hostLoad (sqlite integer defaults) settings val s).1 = 0 ↔ LoadsHost settings val := by
  refine ⟨loadsHost_of_rc, ?_⟩
  rintro ⟨params, rfl, hname, hroutes⟩
  obtain ⟨name, hname⟩ := Option.ne_none_iff_exists'.mp hname
  obtain ⟨routes, hroutes⟩ := Option.ne_none_iff_exists'.mp hroutes
  obtain ⟨routes, rfl⟩ := exists_hash_of_get hroutes
  rw [hostLoad_rc_iff]
  dsimp only [hostRow]
  rw [if_neg (not_not.mpr rfl), hname]
  dsimp only [dbExec, sqlite, Tables.exec]
  rw [hroutes]
  simp

theorem hostLoad_puts {serverId : ℤ} (val : Value) (s : Loading Tables)
    (hs : s.serverId = serverId) :
    Puts (fun s => s.serverId = serverId) (Tables.addHost serverId) (hostSpecs integer settings val)
      s (hostLoad (sqlite integer defaults) settings val s).2 := by
  rcases val with _ | _ | _ | ⟨ident, params⟩ | _ | _ | _ | _
  case cls =>
    unfold hostLoad hostRow hostSpecs
    dsimp only
    by_cases hident : ident ≠ bytes "Host"
    · rw [if_pos hident, if_pos hident]
      exact ⟨rfl, hs⟩
    rw [if_neg hident, if_neg hident]
    rcases str settings params (bytes "name") .qstring with _ | name
    · exact ⟨rfl, hs⟩
    rcases hroutes : get settings params (bytes "routes") .hash with _ | routes
    · subst hs
      exact ⟨rfl, rfl⟩
    · obtain ⟨routes, rfl⟩ := exists_hash_of_get hroutes
      subst hs
      -- the routes are put behind the row of the host
      let number : ℤ := s.content.host.length + 1
      let s₁ : Loading Tables := { s with
        content := s.content.addHostRow s.serverId name name, lastId := number, hostId := number }
      have hwalk : Puts (fun s' => s'.hostId = number ∧ s'.serverId = s.serverId)
          (Tables.addRoute number) (hashSpecs integer settings routes) s₁
          (walkHash settings (routeLoad (sqlite integer defaults) settings) routes s₁).2 :=
        @walkHash_puts settings s₁ _ _ _ _ _ (routeLoad_puts integer defaults) ⟨rfl, rfl⟩ routes
      exact ⟨hwalk.content, hwalk.keeps.2⟩
  all_goals exact ⟨rfl, hs⟩

/-- A server without a port is refused. -/
theorem serverRow_of_none (hport : str settings params (bytes "port") .number = none)
    (s : Loading Tables) :
    (serverRow (sqlite integer defaults) settings (.cls (bytes "Server") params) s).1 = none := by
  simp [serverRow, hport, dbExec, sqlite, Tables.exec]

theorem serverRow_of_some {port : List Byte} {hosts : List Value}
    (hport : str settings params (bytes "port") .number = some port)
    (hhosts : get settings params (bytes "hosts") .list = some (.list hosts)) (s : Loading Tables) :
    serverRow (sqlite integer defaults) settings (.cls (bytes "Server") params) s =
      (some hosts, { s with
        content := s.content.addServerRow (serverRowOf integer settings params port)
        lastId := s.content.server.length + 1
        serverId := s.content.server.length + 1 }) := by
  simp [serverRow, hport, hhosts, dbExec, sqlite, Tables.exec, Tables.addServerRow, serverRowOf]

theorem serverLoad_content (val : Value) (s : Loading Tables)
    (h : (serverLoad (sqlite integer defaults) settings val s).1 = 0) :
    (serverLoad (sqlite integer defaults) settings val s).2.content =
      (serverSpecs integer settings val).foldl Tables.addServer s.content := by
  obtain ⟨params, rfl, hhosts⟩ := loadsServer_of_rc h
  obtain ⟨hosts, hhosts⟩ := Option.ne_none_iff_exists'.mp hhosts
  obtain ⟨hosts, rfl⟩ := exists_list_of_get hhosts
  rcases hport : str settings params (bytes "port") .number with _ | port
  · exact absurd (serverRow_of_none integer defaults hport s) ((serverLoad_rc_iff _ s).mp h)
  have hspecs : serverSpecs integer settings (.cls (bytes "Server") params) =
      [⟨serverRowOf integer settings params port,
        listSpecs settings (hostSpecs integer settings) (LoadsHost settings) hosts⟩] := by
    simp [serverSpecs, hport, hhosts]
  rw [serverLoad, serverRow_of_some integer defaults hport hhosts, hspecs]
  -- the hosts are put behind the row of the server
  let number : ℤ := s.content.server.length + 1
  have hlost : ∀ s : Loading Tables, (s.lose .host).content = s.content ∧
      (s.serverId = number → (s.lose .host).serverId = number) := fun s => ⟨rfl, id⟩
  have hwalk : ∀ s₁ : Loading Tables, s₁.serverId = number →
      Puts (fun s => s.serverId = number) (Tables.addHost number)
        (listSpecs settings (hostSpecs integer settings) (LoadsHost settings) hosts) s₁
        (walkList settings (.lose .host) (hostLoad (sqlite integer defaults) settings) hosts
          s₁).2 :=
    fun s₁ hs₁ => walkList_puts hlost (hostLoad_puts integer defaults)
      (hostLoad_rc integer defaults) hs₁ hosts
  exact (hwalk _ rfl).content

/-! ### The file -/

/-- The tables that the server routes by. -/
def Tables.routing (t : Tables) : Tables := { t with setting := [], mimetype := [] }

variable (misread : Value → List Byte)

theorem walkServers_content (s : Loading Tables)
    (h : (walkServers (sqlite integer defaults) settings s).1 = 0) :
    (walkServers (sqlite integer defaults) settings s).2.content =
      (siteServers integer settings).foldl Tables.addServer s.content := by
  unfold walkServers siteServers at *
  rcases hservers : settings.search (bytes "servers") with _ | ⟨key, val⟩
  · rw [hservers] at h
    exact absurd h (by simp [Loading.fail])
  rw [hservers] at h
  rcases val with _ | _ | _ | _ | servers | _ | _ | _
  case list => exact walkList_puts_of_rc (serverLoad_content integer defaults) servers h
  all_goals exact absurd h (by simp [Loading.fail])

/-- Settings and mimetypes are no part of the tables that the server routes by. -/
theorem walkVar_routing {load : Pair (Option Value) → Loading Tables → ℤ × Loading Tables}
    (hload : ∀ pair s, (load pair s).2.content.routing = s.content.routing) (name : List Byte)
    (p : Part) (s : Loading Tables) :
    (walkVar settings name p load s).2.content.routing = s.content.routing := by
  unfold walkVar
  split
  · rename_i set _
    unfold walkHash
    generalize set.traverse = pairs
    induction pairs generalizing s with
    | nil => rfl
    | cons pair pairs ih =>
      rw [List.foldl_cons, foldl_hashTraverseCb]
      exact (ih _).trans (hload _ s)
  · dsimp only
    split <;> rfl

theorem settingsLoad_routing (pair : Pair (Option Value)) (s : Loading Tables) :
    (settingsLoad (sqlite integer defaults) misread pair s).2.content.routing =
      s.content.routing := by
  unfold settingsLoad
  split <;> rfl

theorem mimetypesLoad_routing (pair : Pair (Option Value)) (s : Loading Tables) :
    (mimetypesLoad (sqlite integer defaults) misread pair s).2.content.routing =
      s.content.routing := by
  unfold mimetypesLoad
  split <;> rfl

theorem check_eq {x : ℤ × Loading Tables} {f : Loading Tables → ℤ × Loading Tables}
    (h : (check x f).1 = 0) : x.1 = 0 ∧ check x f = f x.2 := by
  unfold check at h ⊢
  by_cases hx : x.1 = 0
  · exact ⟨hx, if_pos hx⟩
  · rw [if_neg hx] at h
    exact absurd h (by simp)

/-- **The tables of a file** whose load returns 0 hold its servers, and no other rows that the
server routes by. -/
theorem configLoad_routing (before : Tables)
    (h : (configLoad (sqlite integer defaults) misread (some settings) before).1 = 0) :
    (configLoad (sqlite integer defaults) misread (some settings) before).2.committed.routing =
      ((siteServers integer settings).foldl Tables.addServer .empty).routing := by
  let db := sqlite integer defaults
  let s₀ := (configSetup db (.start before)).2
  let s₁ := (walkServers db settings s₀).2
  let s₂ := (walkVar settings (bytes "settings") .settings (settingsLoad db misread) s₁).2
  let s₃ := (insert db .defaults .mimetypesDefault s₂).2
  let s₄ := (walkVar settings (bytes "mimetypes") .mimetypes (mimetypesLoad db misread) s₃).2
  unfold configLoad at h ⊢
  dsimp only at h ⊢
  obtain ⟨-, hsetup⟩ := check_eq h
  rw [hsetup] at h ⊢
  obtain ⟨hservers, hwalk⟩ := check_eq h
  rw [hwalk] at h ⊢
  obtain ⟨-, hset⟩ := check_eq h
  rw [hset]
  show s₄.content.routing = _
  calc s₄.content.routing = s₃.content.routing :=
        walkVar_routing (mimetypesLoad_routing integer defaults misread) _ _ s₃
    _ = s₂.content.routing := rfl
    _ = s₁.content.routing :=
        walkVar_routing (settingsLoad_routing integer defaults misread) _ _ s₁
    _ = _ := congrArg Tables.routing (walkServers_content integer defaults s₀ hservers)

theorem sites_of_configLoad (before : Tables)
    (h : (configLoad (sqlite integer defaults) misread (some settings) before).1 = 0) :
    (configLoad (sqlite integer defaults) misread (some settings) before).2.committed.sites =
      siteServers integer settings := by
  have hrouting : ∀ t : Tables, t.routing.sites = t.sites := fun t => rfl
  rw [← hrouting, configLoad_routing integer defaults misread before h, hrouting,
    Tables.sites_deploy]

theorem sound_of_configLoad (before : Tables)
    (h : (configLoad (sqlite integer defaults) misread (some settings) before).1 = 0) :
    (configLoad (sqlite integer defaults) misread (some settings) before).2.committed.Sound := by
  have hrouting : ∀ t : Tables, t.routing.Sound ↔ t.Sound := fun t =>
    ⟨fun h => ⟨h.host, h.route, h.target⟩, fun h => ⟨h.host, h.route, h.target⟩⟩
  rw [← hrouting, configLoad_routing integer defaults misread before h, hrouting]
  exact (Tables.deploy_spec _ Tables.sound_empty).1

theorem mem_targets_configLoad (before : Tables)
    (h : (configLoad (sqlite integer defaults) misread (some settings) before).1 = 0) :
    ∀ x ∈ (configLoad (sqlite integer defaults) misread (some settings) before).2.committed.targets,
      ∃ spec ∈ siteServers integer settings, ∃ host ∈ spec.hosts, ∃ route ∈ host.routes,
        route.target = x := by
  have hrouting : ∀ t : Tables, t.routing.targets = t.targets := fun t => rfl
  rw [← hrouting, configLoad_routing integer defaults misread before h, hrouting]
  exact fun x hx => Tables.mem_targets_deploy hx

end

/-- One server, whose one host has a directory. -/
def oneSite : Pairs :=
  pairs [("servers", .list [.cls (bytes "Server") (pairs
    [("port", .number (bytes "80")),
     ("uuid", .qstring (bytes "u")),
     ("chroot", .qstring (bytes "./")),
     ("access_log", .qstring (bytes "a")),
     ("error_log", .qstring (bytes "e")),
     ("pid_file", .qstring (bytes "p")),
     ("default_host", .qstring (bytes "h")),
     ("hosts", .list [.cls (bytes "Host") (pairs
        [("name", .qstring (bytes "h")),
         ("routes", .hash (pairs [("/", .cls (bytes "Dir") (pairs
            [("base", .qstring (bytes "d/"))]))]))])])])])]

def oneSpec : ServerSpec where
  row :=
    { uuid := bytes "u"
      accessLog := bytes "a"
      errorLog := bytes "e"
      chroot := bytes "./"
      pidFile := bytes "p"
      defaultHost := bytes "h"
      name := none
      port := bytes "80" }
  hosts := [⟨bytes "h", bytes "h", [⟨bytes "/", .dir ⟨bytes "d/", none, none⟩⟩]⟩]

theorem siteServers_oneSite : siteServers id oneSite = [oneSpec] := by decide

/-- Its load returns 0. -/
theorem configLoad_oneSite :
    (configLoad (sqlite id []) (fun _ => []) (some oneSite) .empty).1 = 0 := by decide

end M2sh

end Mongrel2
