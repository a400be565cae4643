/-
Reading from an encrypted connection (`ssl_recv` of `connection.c`).

A record that is longer than what the caller asks for is stashed, for the calls that
come: `ssl_buff` is where the rest of it is, `ssl_buff_len` how much of it.

* `Ssl.Exact` — call by call, what has been returned, the stash and what is to come
  are the data of the records, and a call returns 0 only at the end of the data;
* **`exact_iff_fits`** — with calls and records of given sizes this always holds exactly
  if no call but the last one reads a record that is longer than it asks for.

Design notes: the caller's memory is one `Buffer`, and before each call the caller may do
to it what it likes. The stash is a place in that memory, behind the caller's buffer.
-/
import Mongrel2.HttpParser

namespace Mongrel2

open ByteStream

/-- What `ssl_recv` works on. -/
structure Ssl where
  /-- The records `ssl_read` returns, `[]` for `SSL_OK`; behind them the connection is
  lost. -/
  reads : List (List Byte)
  sslBuff : Option ℕ
  sslBuffLen : ℕ
  mem : Buffer

/-- A call of `ssl_recv`, and what the caller does to its memory before it. -/
structure RecvCall where
  before : Buffer → Buffer
  buffer : ℕ
  len : ℕ

def sslErrorConnLost : ℤ := -256

/-- `ssl_read`, until it is not `SSL_OK`. -/
def sslRead : List (List Byte) → Option (List Byte) × List (List Byte)
  | [] => (none, [])
  | [] :: reads => sslRead reads
  | (x :: r) :: reads => (some (x :: r), reads)

/-- `ssl_recv(conn, buffer, len)`. -/
def sslRecv (s : Ssl) (buffer len : ℕ) : ℤ × Ssl :=
  match s.sslBuff with
  | some ptr =>
    -- some of what was received last time is left
    if s.sslBuffLen < len then
      (s.sslBuffLen, { s with
        sslBuff := none
        sslBuffLen := 0
        mem := s.mem.write buffer (s.mem.slice ptr s.sslBuffLen) })
    else
      (len, { s with
        sslBuff := some (ptr + len)
        sslBuffLen := s.sslBuffLen - len
        mem := s.mem.write buffer (s.mem.slice ptr len) })
  | none =>
    match sslRead s.reads with
    | (none, reads) => (sslErrorConnLost, { s with reads := reads })
    | (some r, reads) =>
      if len < r.length then
        -- the stash starts where the caller's buffer ends
        (len, { s with
          reads := reads
          sslBuff := some (buffer + len)
          sslBuffLen := r.length - len
          mem := s.mem.write buffer (r.take len) })
      else (r.length, { s with reads := reads, mem := s.mem.write buffer r })

namespace Ssl

/-- A call, and what it returns. -/
def call (s : Ssl) (r : RecvCall) : ℤ × Ssl :=
  sslRecv { s with mem := r.before s.mem } r.buffer r.len

/-- The bytes a call returns. -/
def got (s : Ssl) (r : RecvCall) : List Byte := (s.call r).2.mem.slice r.buffer (s.call r).1.toNat

/-- The connection after some calls. -/
def after : Ssl → List RecvCall → Ssl
  | s, [] => s
  | s, r :: calls => after (s.call r).2 calls

/-- The bytes some calls return. -/
def received : Ssl → List RecvCall → List Byte
  | _, [] => []
  | s, r :: calls => s.got r ++ received (s.call r).2 calls

/-- After each call the records are what has been returned, the stash and what is to
come; and a call returns 0 only when nothing is stashed or to come. -/
def Exact (s : Ssl) (calls : List RecvCall) : Prop :=
  ∀ pre r, pre ++ [r] <+: calls →
    (∃ rest, rest.length = (s.after (pre ++ [r])).sslBuffLen ∧
      s.reads.flatten = s.received (pre ++ [r]) ++ rest ++ (s.after (pre ++ [r])).reads.flatten) ∧
    (((s.after pre).call r).1 = 0 →
      (s.after (pre ++ [r])).sslBuffLen = 0 ∧ (s.after (pre ++ [r])).reads.flatten = [])

/-- The connection before the first call. -/
def fresh (reads : List (List Byte)) (mem : Buffer) : Ssl := ⟨reads, none, 0, mem⟩

end Ssl

/-- No call but the last one reads a record that is longer than it asks for. -/
def RecordsFit (lens sizes : List ℕ) : Prop :=
  ∀ p ∈ (sizes.filter (0 < ·)).zip lens.dropLast, p.1 ≤ p.2

instance (lens sizes : List ℕ) : Decidable (RecordsFit lens sizes) := inferInstanceAs (Decidable (∀ _ ∈ _, _))

/-! ### The records -/

/-- What `ssl_read` returns is the first record that is not empty. -/
theorem sslRead_spec (reads : List (List Byte)) :
    (sslRead reads = (none, []) ∧ reads.flatten = [] ∧
      (reads.map List.length).filter (0 < ·) = []) ∨
    ∃ r rest, sslRead reads = (some r, rest) ∧ 0 < r.length ∧ reads.flatten = r ++ rest.flatten ∧
      (reads.map List.length).filter (0 < ·) =
        r.length :: (rest.map List.length).filter (0 < ·) := by
  induction reads with
  | nil => exact .inl ⟨rfl, rfl, rfl⟩
  | cons r reads ih =>
    rcases r with _ | ⟨x, r⟩
    · simpa [sslRead] using ih
    · exact .inr ⟨x :: r, reads, rfl, by simp, rfl, by simp⟩

namespace Ssl

variable {s : Ssl} {r : RecvCall} {calls : List RecvCall}

/-- Nothing is left. -/
theorem call_none (hs : s.sslBuff = none) {rest : List (List Byte)}
    (hread : sslRead s.reads = (none, rest)) :
    s.call r = (sslErrorConnLost, { s with reads := rest, mem := r.before s.mem }) := by
  simp only [call, sslRecv, hs, hread]

/-- A record that is not longer than what the call asks for. -/
theorem call_fits (hs : s.sslBuff = none) {x : List Byte} {rest : List (List Byte)}
    (hread : sslRead s.reads = (some x, rest)) (hle : x.length ≤ r.len) :
    s.call r = ((x.length : ℤ), { s with
      reads := rest, mem := (r.before s.mem).write r.buffer x }) := by
  simp only [call, sslRecv, hs, hread, if_neg (Nat.not_lt.mpr hle)]

/-- A record that is longer. -/
theorem call_stash (hs : s.sslBuff = none) {x : List Byte} {rest : List (List Byte)}
    (hread : sslRead s.reads = (some x, rest)) (hlt : r.len < x.length) :
    s.call r = ((r.len : ℤ), { s with
      reads := rest
      sslBuff := some (r.buffer + r.len)
      sslBuffLen := x.length - r.len
      mem := (r.before s.mem).write r.buffer (x.take r.len) }) := by
  simp only [call, sslRecv, hs, hread, if_pos hlt]

/-- What was stored by a call is what it returns. -/
theorem got_of_call {b : Buffer} {xs : List Byte} {n : ℕ} (hn : xs.length = n)
    (hret : (s.call r).1 = n) (hmem : (s.call r).2.mem = b.write r.buffer xs) : s.got r = xs := by
  rw [got, hret, hmem, Int.toNat_natCast, ← hn, Buffer.slice_write]

/-- A call that finds a stash returns the bytes that are where it points to. -/
theorem got_stash {ptr : ℕ} (hs : s.sslBuff = some ptr) :
    s.got r = (r.before s.mem).slice ptr (min s.sslBuffLen r.len) := by
  by_cases hlt : s.sslBuffLen < r.len
  · have hcall : s.call r = ((s.sslBuffLen : ℤ), { s with
        sslBuff := none
        sslBuffLen := 0
        mem := (r.before s.mem).write r.buffer ((r.before s.mem).slice ptr s.sslBuffLen) }) := by
      simp only [call, sslRecv, hs, if_pos hlt]
    rw [Nat.min_eq_left hlt.le]
    exact got_of_call (Buffer.length_slice ..) (congrArg Prod.fst hcall)
      (congrArg (fun p => p.2.mem) hcall)
  · have hcall : s.call r = ((r.len : ℤ), { s with
        sslBuff := some (ptr + r.len)
        sslBuffLen := s.sslBuffLen - r.len
        mem := (r.before s.mem).write r.buffer ((r.before s.mem).slice ptr r.len) }) := by
      simp only [call, sslRecv, hs, if_neg hlt]
    rw [Nat.min_eq_right (Nat.not_lt.mp hlt)]
    exact got_of_call (Buffer.length_slice ..) (congrArg Prod.fst hcall)
      (congrArg (fun p => p.2.mem) hcall)

/-! ### The calls -/

/-- A call that leaves no stash is exact, and the calls behind it are as with the records
that are left. -/
theorem exact_cons {reads : List (List Byte)} {mem : Buffer}
    (hcall : (s.call r).2 = fresh reads mem) (hgot : s.reads.flatten = s.got r ++ reads.flatten)
    (hret : (s.call r).1 ≠ 0) : s.Exact (r :: calls) ↔ (fresh reads mem).Exact calls := by
  have hreads : (fresh reads mem).reads = reads := rfl
  constructor
  · intro h pre r' hpre
    obtain ⟨⟨rest, hlen, hsplit⟩, hzero⟩ := h (r :: pre) r' (List.cons_prefix_cons.mpr ⟨rfl, hpre⟩)
    simp only [List.cons_append, after, received, hcall] at hlen hsplit hzero
    refine ⟨⟨rest, hlen, ?_⟩, hzero⟩
    rw [hgot, List.append_assoc, List.append_assoc] at hsplit
    rw [hreads, List.append_assoc]
    exact List.append_cancel_left hsplit
  · rintro h (_ | ⟨r₀, pre⟩) r' hpre
    · obtain rfl : r' = r := (List.cons_prefix_cons.mp hpre).1
      simp only [List.nil_append, after, received, hcall, List.append_nil]
      exact ⟨⟨[], rfl, by rw [List.append_nil]; exact hgot⟩, fun hz => absurd hz hret⟩
    · obtain ⟨rfl, htail⟩ := List.cons_prefix_cons.mp hpre
      obtain ⟨⟨rest, hlen, hsplit⟩, hzero⟩ := h pre r' htail
      simp only [List.cons_append, after, received, hcall]
      refine ⟨⟨rest, hlen, ?_⟩, hzero⟩
      rw [hreads, List.append_assoc] at hsplit
      rw [hgot, hsplit]
      simp only [List.append_assoc]

/-- When everything has been read. -/
theorem exact_cons_none {reads rest : List (List Byte)} {mem : Buffer}
    (hread : sslRead reads = (none, rest)) (hflat : reads.flatten = []) (hrest : rest = []) :
    (fresh reads mem).Exact (r :: calls) ↔ (fresh [] (r.before mem)).Exact calls := by
  subst hrest
  have hcall := @call_none (fresh reads mem) r rfl _ hread
  refine exact_cons (congrArg Prod.snd hcall) ?_ ?_
  · rw [got, hcall]
    exact hflat
  · rw [hcall]
    exact (by decide : sslErrorConnLost ≠ 0)

/-- When the record that is read fits. -/
theorem exact_cons_fits {reads rest : List (List Byte)} {mem : Buffer} {x : List Byte}
    (hread : sslRead reads = (some x, rest)) (hx : 0 < x.length)
    (hflat : reads.flatten = x ++ rest.flatten) (hle : x.length ≤ r.len) :
    (fresh reads mem).Exact (r :: calls) ↔
      (fresh rest ((r.before mem).write r.buffer x)).Exact calls := by
  have hcall := @call_fits (fresh reads mem) r rfl _ _ hread hle
  refine exact_cons (congrArg Prod.snd hcall) ?_ ?_
  · rw [got_of_call rfl (congrArg Prod.fst hcall) (congrArg (fun p => p.2.mem) hcall)]
    exact hflat
  · rw [hcall]
    dsimp only
    omega

/-- The last call is exact, whatever it reads. -/
theorem exact_singleton (reads : List (List Byte)) (mem : Buffer) (hlen : 0 < r.len) :
    (fresh reads mem).Exact [r] := by
  have hnil (s : Ssl) : s.Exact [] := fun pre r hpre =>
    absurd (List.prefix_nil.mp hpre) (by simp)
  rcases sslRead_spec reads with ⟨hread, hflat, -⟩ | ⟨x, rest, hread, hx, hflat, -⟩
  · exact (exact_cons_none hread hflat rfl).mpr (hnil _)
  by_cases hle : x.length ≤ r.len
  · exact (exact_cons_fits hread hx hflat hle).mpr (hnil _)
  -- the end of the record is stashed
  have hcall := @call_stash (fresh reads mem) r rfl _ _ hread (Nat.not_le.mp hle)
  have htake : (x.take r.len).length = r.len := by
    rw [List.length_take]
    omega
  have hgot := got_of_call htake (congrArg Prod.fst hcall) (congrArg (fun p => p.2.mem) hcall)
  intro pre r' hpre
  obtain rfl : pre = [] := by
    have hlength := hpre.length_le
    rw [List.length_append] at hlength
    exact List.length_eq_zero_iff.mp (by simpa using hlength)
  obtain rfl : r' = r := (List.cons_prefix_cons.mp hpre).1
  simp only [List.nil_append, after, received, List.append_nil, hgot]
  rw [hcall]
  refine ⟨⟨x.drop r'.len, List.length_drop .., ?_⟩, fun hzero => ?_⟩
  · rw [List.take_append_drop]
    exact hflat
  · exact absurd hzero (by dsimp only; omega)

/-- With calls that ask for something and records that fit, every call is exact. -/
theorem exact_of_fits {reads : List (List Byte)} {mem : Buffer}
    (hlens : ∀ r ∈ calls, 0 < r.len)
    (hfits : RecordsFit (calls.map RecvCall.len) (reads.map List.length)) :
    (fresh reads mem).Exact calls := by
  induction calls generalizing reads mem with
  | nil => exact fun pre r hpre => absurd (List.prefix_nil.mp hpre) (by simp)
  | cons r calls ih =>
    have hlens' := fun r' hr' => hlens r' (List.mem_cons_of_mem r hr')
    rcases sslRead_spec reads with ⟨hread, hflat, -⟩ | ⟨x, rest, hread, hx, hflat, hsizes⟩
    · exact (exact_cons_none hread hflat rfl).mpr (ih hlens' (by simp [RecordsFit]))
    rcases calls with _ | ⟨r', calls⟩
    · exact exact_singleton reads mem (hlens r List.mem_cons_self)
    rw [RecordsFit, hsizes, List.map_cons, List.map_cons, List.dropLast_cons_cons, List.zip_cons_cons,
      List.forall_mem_cons] at hfits
    exact (exact_cons_fits hread hx hflat hfits.1).mpr (ih hlens' hfits.2)

/-! ### Records that do not fit -/

/-- A call that asks for `len` bytes, before which the caller clears its memory. -/
def clearing (len : ℕ) : RecvCall := ⟨fun _ => .zeroed 0, 0, len⟩

/-- A record of ones that does not fit, and another call: it returns a zero. -/
theorem not_exact_stash {reads rest : List (List Byte)} {mem : Buffer} {x : List Byte} {len len' : ℕ}
    {calls : List RecvCall} (hread : sslRead reads = (some x, rest)) (hlt : len < x.length)
    (hlen' : 0 < len') (hones : ∀ b ∈ reads.flatten, b = 1) :
    ¬ (fresh reads mem).Exact (clearing len :: clearing len' :: calls) := by
  intro h
  obtain ⟨⟨more, -, hsplit⟩, -⟩ := h [clearing len] (clearing len') ⟨calls, rfl⟩
  have hcall := @call_stash (fresh reads mem) (clearing len) rfl _ _ hread hlt
  have hbuff : ((fresh reads mem).call (clearing len)).2.sslBuff = some (0 + len) :=
    congrArg (fun p => p.2.sslBuff) hcall
  have hleft : ((fresh reads mem).call (clearing len)).2.sslBuffLen = x.length - len :=
    congrArg (fun p => p.2.sslBuffLen) hcall
  -- the second call returns what the caller has put behind its first buffer
  have hgot := @got_stash _ (clearing len') _ hbuff
  have hmem : (0 : Byte) ∈ ((fresh reads mem).call (clearing len)).2.got (clearing len') := by
    rw [hgot, hleft]
    refine List.mem_map.mpr ⟨0, List.mem_range.mpr ?_, rfl⟩
    exact Nat.lt_min.mpr ⟨Nat.sub_pos_of_lt hlt, hlen'⟩
  have hzero : (0 : Byte) ∈ reads.flatten := by
    rw [show reads.flatten = _ from hsplit]
    simp only [List.singleton_append, received, List.append_nil, List.mem_append]
    exact .inl (.inl (.inr hmem))
  exact absurd (hones 0 hzero) (by decide)

/-- If this is exact with records of ones, they fit. -/
theorem fits_of_exact {lens : List ℕ} {reads : List (List Byte)} {mem : Buffer}
    (hlens : ∀ len ∈ lens, 0 < len) (hones : ∀ b ∈ reads.flatten, b = 1)
    (h : (fresh reads mem).Exact (lens.map clearing)) : RecordsFit lens (reads.map List.length) := by
  induction lens generalizing reads mem with
  | nil => simp [RecordsFit]
  | cons len lens ih =>
    rw [List.map_cons] at h
    have hlens' := fun l hl => hlens l (List.mem_cons_of_mem len hl)
    rcases sslRead_spec reads with ⟨hread, hflat, hsizes⟩ | ⟨x, rest, hread, hx, hflat, hsizes⟩
    · simp [RecordsFit, hsizes]
    rcases lens with _ | ⟨len', lens⟩
    · simp [RecordsFit]
    by_cases hle : x.length ≤ len
    · have hrest := ih hlens' (fun b hb => hones b (hflat ▸ List.mem_append_right x hb))
        ((exact_cons_fits hread hx hflat hle).mp h)
      rw [RecordsFit, hsizes, List.dropLast_cons_cons, List.zip_cons_cons, List.forall_mem_cons]
      exact ⟨hle, hrest⟩
    · have hlt := Nat.not_le.mp hle
      exact absurd h (not_exact_stash hread hlt (hlens' len' List.mem_cons_self) hones)

end Ssl

/-- **What the calls return are the records**, for calls and records of these sizes, whatever
the records say and wherever the caller wants them, exactly if no call but the last one
reads a record that is longer than it asks for. -/
theorem exact_iff_fits {lens sizes : List ℕ} (hlens : ∀ len ∈ lens, 0 < len) :
    (∀ reads calls mem, reads.map List.length = sizes → calls.map RecvCall.len = lens →
      (Ssl.fresh reads mem).Exact calls) ↔ RecordsFit lens sizes := by
  constructor
  · intro h
    have hsizes : (sizes.map (List.replicate · (1 : Byte))).map List.length = sizes := by
      simp [Function.comp_def]
    have hcalls : (lens.map Ssl.clearing).map RecvCall.len = lens := by
      simp [Function.comp_def, Ssl.clearing]
    have hfits := Ssl.fits_of_exact hlens (fun b hb => ?_) (h _ _ (.zeroed 0) hsizes hcalls)
    · rwa [hsizes] at hfits
    · obtain ⟨_, hr, hb⟩ := List.mem_flatten.mp hb
      obtain ⟨n, -, rfl⟩ := List.mem_map.mp hr
      exact List.eq_of_mem_replicate hb
  · rintro hfits reads calls mem rfl rfl
    exact Ssl.exact_of_fits (fun r hr => hlens _ (List.mem_map_of_mem hr)) hfits

/-- Records of three and two bytes, and calls for four. -/
theorem exact_iff_fits_short :
    (Ssl.fresh [bytes "abc", [], bytes "de"] (.zeroed 8)).Exact
      [⟨id, 0, 4⟩, ⟨id, 3, 4⟩, ⟨id, 5, 1⟩] :=
  (@exact_iff_fits [4, 4, 1] [3, 0, 2] (by decide)).mpr (by decide) _ _ _ rfl rfl

/-- A record of three bytes is read in two calls, each of them behind the one before. -/
theorem not_exact_long :
    ¬ ∀ reads calls mem, (∀ r ∈ reads, r ≠ []) → (∀ r ∈ calls, 0 < r.len) →
      (Ssl.fresh reads mem).Exact calls := by
  intro h
  have hexact := h [bytes "abc"] [⟨id, 0, 2⟩, ⟨id, 2, 2⟩] (.zeroed 8) (by decide) (by decide)
  obtain ⟨⟨rest, -, hsplit⟩, -⟩ := hexact [⟨id, 0, 2⟩] ⟨id, 2, 2⟩ ⟨[], rfl⟩
  have hreceived : (Ssl.fresh [bytes "abc"] (.zeroed 8)).received ([⟨id, 0, 2⟩] ++ [⟨id, 2, 2⟩]) =
      bytes "ab" ++ [0] := by decide
  have hlen : (bytes "ab" ++ [0]).length = 3 := rfl
  have hthree := congrArg (List.take 3) hsplit
  rw [hreceived, List.append_assoc, List.take_left' hlen] at hthree
  exact absurd hthree (by decide)

end Mongrel2
