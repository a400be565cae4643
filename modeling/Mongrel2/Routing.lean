/-
Routing tables (`tst.c`, `routing.c`, `host.c`, `server.c`).

* `Tst` — the ternary tree, with its insertion, its lookups and its traversal;
* `RouteMap` — the routes of a host by prefix, and the hosts of a server by
  suffix;
* `Server.matchHost`, `Host.matchBackend` — the two steps of routing;
* `Server.route` — both, as `connection_route_request` takes them.

Design notes: `char` is signed where the server runs, and so is the order of the
tree.  A value is never NULL.  `bstring_match` is a parameter, as nothing here
depends on the pattern language.  An address makes two backends for one target
differ, as two calls of `calloc` do.
-/
import Mongrel2.KeepAlive

namespace Mongrel2

open ByteStream HttpParser

/-! ### The ternary tree -/

/-- `tst_t`; `nil` is the NULL pointer. -/
inductive Tst (α : Type*)
  | nil
  | node (splitchar : Byte) (low equal high : Tst α) (value : Option α)
  deriving DecidableEq

namespace Tst

variable {α : Type*}

/-- `tst_insert_base` on a NULL pointer, with the key as its first byte and the rest. -/
def chain (value : α) : Byte → List Byte → Tst α
  | c, [] => node c nil nil nil (some value)
  | c, d :: rest => node c nil (chain value d rest) nil none

/-- `tst_insert_base`; `none` when the assertion against duplicates fails. -/
def insertBase (value : α) : Tst α → Byte → List Byte → Option (Tst α)
  | nil, c, rest => some (chain value c rest)
  | node s low equal high v, c, rest =>
    if c.toInt8 < s.toInt8 then
      (insertBase value low c rest).map fun low => node s low equal high v
    else if c = s then
      match rest with
      | d :: rest => (insertBase value equal d rest).map fun equal => node s low equal high v
      | [] => if v.isSome then none else some (node s low equal high (some value))
    else
      (insertBase value high c rest).map fun high => node s low equal high v

/-- `tst_insert`.  Of an empty key the terminating zero is taken. -/
def insert (p : Tst α) (s : List Byte) (value : α) : Option (Tst α) :=
  insertBase value p (s.headD 0) s.tail

/-- `tst_search`. -/
def search : Tst α → List Byte → Option α
  | nil, _ => none
  | node _ _ _ _ v, [] => v
  | node c low equal high v, x :: xs =>
    if x.toInt8 < c.toInt8 then search low (x :: xs)
    else if x = c then if xs = [] then v else search equal xs
    else search high (x :: xs)

/-- The number of nodes. -/
def size : Tst α → ℕ
  | nil => 0
  | node _ low equal high _ => low.size + equal.size + high.size + 1

/-- What `tst_traverse` queues for a link: nothing for NULL. -/
def queued : Tst α → List (Tst α)
  | nil => []
  | p => [p]

/-- The loop of `tst_traverse` on its queue: the values that the callback is given, in
order.  It takes one node a time, so it ends when all of them were taken. -/
def traverseLoop : ℕ → List (Tst α) → List α
  | n + 1, node _ low equal high v :: queue =>
    v.toList ++ traverseLoop n (queue ++ low.queued ++ equal.queued ++ high.queued)
  | _, _ => []

/-- `tst_traverse`. -/
def traverse (root : Tst α) : List α := traverseLoop root.size root.queued

/-- The loop of `tst_search_prefix` at a node, with what is still to be compared. -/
def searchPrefixLoop (last : Option α) : Tst α → List Byte → Option α
  | nil, _ => last
  | node _ _ _ _ v, [] => v
  | node c low equal high v, x :: xs =>
    if x.toInt8 < c.toInt8 then searchPrefixLoop last low (x :: xs)
    else if x = c then
      -- at the last byte `p` stays where it is, and its value is returned
      if xs = [] then v else searchPrefixLoop (v <|> last) equal xs
    else searchPrefixLoop last high (x :: xs)

/-- `tst_search_prefix`. -/
def searchPrefix (root : Tst α) (s : List Byte) : Option α :=
  if s = [] then none else searchPrefixLoop none root s

/-- The loop of `tst_search_suffix`, which takes the bytes from the last one on and
ends before the first. -/
def searchSuffixLoop (last : Option α) : Tst α → List Byte → Option α
  | nil, _ => last
  | node _ _ _ _ v, [] => v
  | node _ _ _ _ v, [_] => v
  | node c low equal high v, x :: y :: xs =>
    if x.toInt8 < c.toInt8 then searchSuffixLoop last low (x :: y :: xs)
    else if x = c then searchSuffixLoop (v <|> last) equal (y :: xs)
    else searchSuffixLoop last high (x :: y :: xs)

/-- `tst_search_suffix`. -/
def searchSuffix (root : Tst α) (s : List Byte) : Option α :=
  if s = [] then none else searchSuffixLoop none root s.reverse

end Tst

/-! ### Routes -/

/-- `Route`. -/
structure Route (β : Type*) where
  pattern : List Byte
  data : β
  hasPattern : Bool
  deriving DecidableEq

/-- `RouteMap`. -/
structure RouteMap (β : Type*) where
  routes : Tst (Route β)
  deriving DecidableEq

namespace RouteMap

variable {β : Type*} (bstringMatch : List Byte → List Byte → Bool) (map : RouteMap β)

/-- `RouteMap_create`. -/
def create : RouteMap β := ⟨.nil⟩

/-- `RouteMap_insert`: the prefix is what precedes the first parenthesis. -/
def insert (pattern : List Byte) (data : β) : Option (RouteMap β) :=
  (map.routes.insert (pattern.takeWhile (· ≠ chr '('))
    ⟨pattern, data, decide (chr '(' ∈ pattern)⟩).map .mk

/-- `RouteMap_insert_reversed`: the suffix is what follows the last parenthesis. -/
def insertReversed (pattern : List Byte) (data : β) : Option (RouteMap β) :=
  (map.routes.insert (pattern.reverse.takeWhile (· ≠ chr ')'))
    ⟨pattern, data, decide (chr ')' ∈ pattern)⟩).map .mk

/-- The check of a route that the tree found. -/
def checked (target : List Byte) (route : Option (Route β)) : Option (Route β) :=
  route.filter fun r => !r.hasPattern || bstringMatch target r.pattern

/-- `RouteMap_match_suffix`. -/
def matchSuffix (target : List Byte) : Option (Route β) :=
  checked bstringMatch target (map.routes.searchSuffix target)

/-- `RouteMap_simple_prefix_match`. -/
def simplePrefixMatch (target : List Byte) : Option (Route β) :=
  checked bstringMatch target (map.routes.searchPrefix target)

end RouteMap

/-! ### Hosts and servers -/

namespace Routing

/-- `Backend`: its address, its type and what its target is. -/
structure Backend where
  ptr : ℕ
  type : Mongrel2.Backend
  target : ℕ
  deriving DecidableEq

/-- `Host`. -/
structure Host where
  name : List Byte
  routes : RouteMap Backend
  deriving DecidableEq

/-- `Server`, as far as it routes. -/
structure Server where
  hosts : RouteMap Host
  defaultHost : Option Host
  defaultHostname : List Byte
  deriving DecidableEq

/-- What `connection_route_request` leaves in a request. -/
structure Dispatch where
  host : Host
  backend : Backend
  pattern : List Byte
  deriving DecidableEq

/-- `Host_create`. -/
def Host.create (name : List Byte) : Host := ⟨name, .create⟩

/-- `Host_add_backend`. -/
def Host.addBackend (host : Host) (path : List Byte) (backend : Backend) : Option Host :=
  (host.routes.insert path backend).map fun routes => { host with routes }

/-- `Server_create`. -/
def Server.create (defaultHost : List Byte) : Server := ⟨.create, none, defaultHost⟩

/-- `Server_add_host` and the choice of the default host in `Config_load_host_cb`. -/
def Server.addHost (srv : Server) (pattern : List Byte) (host : Host) : Option Server :=
  (srv.hosts.insertReversed pattern host).map fun hosts =>
    { srv with
      hosts
      defaultHost := if host.name = srv.defaultHostname then some host else srv.defaultHost }

variable (bstringMatch : List Byte → List Byte → Bool)

/-- `Host_match_backend`; a NULL path has no length. -/
def Host.matchBackend (host : Host) (target : Option (List Byte)) : Option (Route Backend) :=
  host.routes.simplePrefixMatch bstringMatch (target.getD [])

/-- `Server_match_backend`. -/
def Server.matchBackend (srv : Server) (target : List Byte) : Option Host :=
  match srv.hosts.matchSuffix bstringMatch target with
  | some found => some found.data
  | none => if bstringMatch target srv.defaultHostname then srv.defaultHost else none

/-- The host of a request: the default one without a `Host` header. -/
def Server.matchHost (srv : Server) (hostName : Option (List Byte)) : Option Host :=
  match hostName with
  | some name => srv.matchBackend bstringMatch name
  | none => srv.defaultHost

/-- The host, the backend and the pattern of a request; `none` for a 404. -/
def Server.route (srv : Server) (req : Request) : Option Dispatch := do
  let host ← srv.matchHost bstringMatch req.hostName
  let found ← host.matchBackend bstringMatch req.path
  some ⟨host, found.data, found.pattern⟩

theorem Server.route_eq_some {bstringMatch : List Byte → List Byte → Bool} {srv : Server}
    {req : Request} {d : Dispatch} :
    srv.route bstringMatch req = some d ↔
      srv.matchHost bstringMatch req.hostName = some d.host ∧
        ∃ found, d.host.matchBackend bstringMatch req.path = some found ∧
          found.data = d.backend ∧ found.pattern = d.pattern := by
  simp only [Server.route, Option.bind_eq_bind, Option.bind_eq_some_iff]
  constructor
  · rintro ⟨host, hhost, found, hfound, hd⟩
    obtain rfl := Option.some.inj hd
    exact ⟨hhost, found, hfound, rfl, rfl⟩
  · rintro ⟨hhost, found, hfound, hdata, hpattern⟩
    exact ⟨d.host, hhost, found, hfound, by rw [hdata, hpattern]⟩

end Routing

end Mongrel2
