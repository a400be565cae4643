/-
The default host of a server (`server.c`, `routing.c`, `pattern.c`).

* `Answers` — a host whose key a name ends in, and whose pattern matches the name;
* `matchSuffix_eq_some_iff` — which hosts are found where none answers;
* **`matchBackend_eq_default_iff`** — the name of the default host finds it, where no other
  host answers, exactly if no host is found by mistake and the name, read as a pattern, stands
  for a string that the name begins with;
* `matchBackend_eq_default_of_notMem` — so it does if there is no `-` behind its first byte.

Design notes: the search by suffix ends before the first byte, so that a key of the same
length which differs there is taken for the name.
-/
import Mongrel2.PrefixPattern

namespace Mongrel2.Routing

open ByteStream HttpParser RouteMap Pattern

/-- A byte of a host name. -/
def isHostname (c : Byte) : Bool := isAlnum c || c == chr '.' || c == chr '-'

/-- `bstring_match`, as a check. -/
def isMatch (target pattern : List Byte) : Bool := (bstringMatch target pattern).isSome

/-- The pattern of a host, if it has one, matches a name. -/
def Passes (name : List Byte) (c : List Byte × Host) : Prop :=
  (routeOf true c).hasPattern = true → isMatch name c.1 = true

/-- A host matches a suffix of a name. -/
def Answers (name : List Byte) (c : List Byte × Host) : Prop :=
  routeKey true c.1 <:+ name ∧ Passes name c

/-- A host is found in place of a name: its key ends the first one that goes on in front of
the name's bytes but the first. -/
def Mistaken (calls : List (List Byte × Host)) (name : List Byte) (c : List Byte × Host) : Prop :=
  c ∈ calls ∧ (∃ k, Tst.crossed (keysOf true calls) name = some k ∧
    routeKey true c.1 = k.drop (k.length - name.length)) ∧ Passes name c

/-- A name, read as a pattern, stands for a string that it begins with. -/
def ReadsItself (name : List Byte) : Prop := ∃ w, w <+: name ∧ Reads name w

section

variable {calls : List (List Byte × Host)} {name : List Byte} {srv : Server}

theorem isLiteral_of_isHostname {c : Byte} (h : isHostname c = true) : isLiteral c = true := by
  simp only [isHostname, Bool.or_eq_true] at h
  simp only [isLiteral, Bool.or_eq_true]
  tauto

/-- A name matches as a pattern what it begins with. -/
theorem isMatch_self_iff (hname : ∀ c ∈ name, isHostname c = true) :
    isMatch name name = true ↔ ReadsItself name := by
  have hliteral : ∀ c ∈ name, isLiteral c = true := fun c hc =>
    isLiteral_of_isHostname (hname c hc)
  have hparse : Parses name (prefixPieces name) := by
    have happend := parses_append hliteral rfl Parses.nil
    rwa [List.append_nil, List.append_nil] at happend
  have hrun : ∀ s : Subject, run (prefixPieces name) s = run (prefixPieces name ++ []) s := by
    intro s
    rw [List.append_nil]
  rw [isMatch, bstringMatch,
    matchFrom_of_parses hparse (cstr_of_notMem (zero_notMem_of_isLiteral hliteral)), hrun,
    isSome_run_append]
  constructor
  · rintro ⟨w, rest, hsplit, hw, -⟩
    exact ⟨w, ⟨rest, hsplit.symm⟩, hw⟩
  · rintro ⟨w, ⟨rest, hsplit⟩, hw⟩
    exact ⟨w, rest, hsplit.symm, hw, rfl⟩

/-- What the search by suffix finds where no host answers. -/
theorem matchSuffix_eq_some_iff (hhosts : insertAll true calls = some srv.hosts)
    (hnone : ∀ c ∈ calls, ¬ Answers name c) (r : Route Host) :
    srv.hosts.matchSuffix isMatch name = some r ↔
      ∃ c, Mistaken calls name c ∧ routeOf true c = r := by
  obtain ⟨t, hall, hsearch, -⟩ := insertAll_spec (nodup_of_insertAll hhosts)
  have hmap : srv.hosts = ⟨t⟩ := Option.some.inj (hhosts.symm.trans hall)
  have hlookup : srv.hosts.matchSuffix isMatch name = some r ↔
      t.searchBy true name = some r ∧ (r.hasPattern = true → isMatch name r.pattern = true) := by
    rw [hmap]
    exact @lookupRoute_eq_some_iff Host isMatch true t name r
  rw [hlookup]
  by_cases hname : name = []
  · subst hname
    refine iff_of_false (fun h => absurd h.1 (by simp [Tst.searchBy, Tst.searchSuffix])) ?_
    rintro ⟨c, ⟨-, ⟨k, -, hkey⟩, -⟩, -⟩
    rw [List.length_nil, Nat.sub_zero, List.drop_length] at hkey
    exact routeKey_ne_nil c.1 hkey
  rw [hsearch name hname]
  constructor
  · rintro ⟨⟨c, hc, hfound, rfl⟩, hpass⟩
    rcases hfound with ⟨k, hk, hkey, -⟩ | ⟨-, hlongest⟩
    · exact ⟨c, ⟨hc, ⟨k, hk, hkey⟩, hpass⟩, rfl⟩
    · exact absurd ⟨hlongest.meets, hpass⟩ (hnone c hc)
  · rintro ⟨c, ⟨hc, ⟨k, hk, hkey⟩, hpass⟩, rfl⟩
    exact ⟨⟨c, hc, .inl ⟨k, hk, hkey, List.mem_map_of_mem hc⟩, rfl⟩, hpass⟩

/-- **The name of the default host finds it.** -/
theorem matchBackend_eq_default_iff (hhosts : insertAll true calls = some srv.hosts)
    (hname : ∀ c ∈ srv.defaultHostname, isHostname c = true)
    (hnone : ∀ c ∈ calls, ¬ Answers srv.defaultHostname c) :
    srv.matchBackend isMatch srv.defaultHostname = srv.defaultHost ↔
      (∀ c, Mistaken calls srv.defaultHostname c → srv.defaultHost = some c.2) ∧
        (srv.defaultHost = none ∨ (∃ c, Mistaken calls srv.defaultHostname c) ∨
          ReadsItself srv.defaultHostname) := by
  have hfind := matchSuffix_eq_some_iff hhosts hnone
  rw [Server.matchBackend]
  rcases hroute : srv.hosts.matchSuffix isMatch srv.defaultHostname with _ | found
  · -- no host is found, and the name is run as a pattern
    have hmistaken : ∀ c, ¬ Mistaken calls srv.defaultHostname c := by
      intro c hc
      have hsome := (hfind _).mpr ⟨c, hc, rfl⟩
      rw [hroute] at hsome
      exact absurd hsome (by simp)
    rw [and_iff_right fun c hc => absurd hc (hmistaken c),
      or_iff_right (fun ⟨c, hc⟩ => hmistaken c hc :
        ¬ ∃ c, Mistaken calls srv.defaultHostname c), ← isMatch_self_iff hname]
    show (if isMatch srv.defaultHostname srv.defaultHostname = true then srv.defaultHost
      else none) = _ ↔ _
    by_cases hself : isMatch srv.defaultHostname srv.defaultHostname = true
    · rw [if_pos hself]
      exact iff_of_true rfl (.inr hself)
    · rw [if_neg hself, or_iff_left hself]
      exact eq_comm
  · obtain ⟨c, hc, hcroute⟩ := (hfind found).mp hroute
    have hdata : found.data = c.2 := by rw [← hcroute]; rfl
    show some found.data = _ ↔ _
    rw [hdata]
    constructor
    · intro hdefault
      refine ⟨fun c' hc' => ?_, .inr (.inl ⟨c, hc⟩)⟩
      have hsame := (hfind _).mpr ⟨c', hc', rfl⟩
      rw [hroute, Option.some.injEq] at hsame
      have hdata' : found.data = c'.2 := by rw [hsame]; rfl
      rw [← hdefault, ← hdata, hdata']
    · rintro ⟨hall, -⟩
      exact (hall c hc).symm

/-- A name without a `-` behind its first byte reads itself. -/
theorem readsItself_of_notMem (hname : ∀ c ∈ name, isHostname c = true)
    (hminus : chr '-' ∉ name.tail) : ReadsItself name :=
  ⟨name, List.prefix_refl name,
    reads_self (fun c hc => isLiteral_of_isHostname (hname c hc)) hminus⟩

end

/-- A server with no other hosts, and a default host. -/
def onlyDefault (name : List Byte) : Server := ⟨.create, some (Host.create name), name⟩

theorem matchBackend_eq_default_iff_plain :
    (onlyDefault (bytes "mongrel2.org")).matchBackend isMatch (bytes "mongrel2.org") =
        some (Host.create (bytes "mongrel2.org")) ↔
      (∀ c, Mistaken [] (bytes "mongrel2.org") c →
        some (Host.create (bytes "mongrel2.org")) = some c.2) ∧
        (some (Host.create (bytes "mongrel2.org")) = none ∨
          (∃ c, Mistaken [] (bytes "mongrel2.org") c) ∨ ReadsItself (bytes "mongrel2.org")) :=
  @matchBackend_eq_default_iff [] (onlyDefault (bytes "mongrel2.org")) rfl
    (List.all_eq_true.mp (by decide +kernel))
    fun _ hc => absurd hc List.not_mem_nil

/-- A `-` in the name: the server does not find its default host. -/
theorem not_matchBackend_default_minus :
    ¬ ∀ (srv : Server) (calls : List (List Byte × Host)),
      insertAll true calls = some srv.hosts →
      (∀ c ∈ srv.defaultHostname, isHostname c = true) →
      (∀ c ∈ calls, ¬ Answers srv.defaultHostname c) →
        srv.matchBackend isMatch srv.defaultHostname = srv.defaultHost := by
  intro h
  have hdefault := h (onlyDefault (bytes "my-site.com")) [] rfl
    (List.all_eq_true.mp (by decide +kernel)) fun c hc => absurd hc List.not_mem_nil
  exact absurd hdefault (by decide +kernel)

end Mongrel2.Routing
