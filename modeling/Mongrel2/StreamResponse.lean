/-
`Proxy_stream_response` (`proxy.c`) between a backend and a client that may go away.

* `StreamConn` — the connection of `Proxy`, with a client whose connection may break;
* `streamResponse` — the function, and `streamResponse_of_stays` — it is the one of
  `Proxy` as long as the client stays;
* `Streams` — the call returns, and it reports success only for the first `total` bytes;
* `streams_iff` — so it does exactly where no more than `total` bytes had been read and
  the backend does not close before it has sent the others.

Design notes: a result of `fdrecv` is a piece of the backend's, cut where the call asks
for less, and behind the last piece every call returns 0, or -1.  `conn->send` returns
what it is given, or -1 when the connection breaks.
-/
import Mongrel2.Proxy

namespace Mongrel2

open ByteStream

/-- A connection, and how many bytes the client takes before its end breaks, if it does. -/
structure StreamConn where
  conn : ProxyConn
  takes : Option ℕ

/-! ### The function -/

namespace StreamConn

variable (bufferSize fuel : ℕ) (s : StreamConn)

/-- `conn->send` of the first `n` bytes of the buffer. -/
def send (n : ℕ) : ℤ × StreamConn :=
  match s.takes with
  | none => (n, { s with conn := (s.conn.send n).2 })
  | some k =>
    if n ≤ k then (n, ⟨(s.conn.send n).2, some (k - n)⟩) else (-1, ⟨(s.conn.send k).2, some 0⟩)

/-- The `for` of `Proxy_stream_response`, with `remaining` behind it; `none` for the
jump to `error`. -/
def streamLoop : ℕ → ℤ → StreamConn → Run (Option ℤ × StreamConn)
  | 0, remaining, s => if remaining ≤ 0 then .ok (some remaining, s) else .error .fuel
  | n + 1, remaining, s =>
    if remaining ≤ 0 then .ok (some remaining, s)
    else
      match s.conn.fdrecv 0 (min remaining.toNat bufferSize) with
      | (none, c) => .ok (none, { s with conn := c })
      | (some nread, c) =>
        let (rc, s) := send { s with conn := c } nread
        if rc = -1 then .ok (none, s) else streamLoop n (remaining - nread) s

/-- `Proxy_stream_response`. -/
def streamResponse (total : ℤ) (nread : ℕ) : Run (ℤ × StreamConn) :=
  let (rc, s) := s.send nread
  if rc ≠ nread then .ok (-1, s)
  -- `remaining -= nread` of an `int`
  else if total - nread < -2 ^ 31 then .error .undefined
  else
    (streamLoop bufferSize fuel (total - nread) s).bind fun
      | (none, s) => .ok (-1, s)
      | (some remaining, s) => if remaining = 0 then .ok (total, s) else .error .assertion

/-! ### A client that stays -/

/-- The connection in the place of the one of `Proxy`. -/
def staying (c : ProxyConn) : StreamConn := ⟨c, none⟩

theorem send_staying (c : ProxyConn) (n : ℕ) :
    (staying c).send n = ((n : ℤ), staying (c.send n).2) := rfl

theorem streamLoop_of_stays (n : ℕ) (remaining : ℤ) (c : ProxyConn) :
    streamLoop bufferSize n remaining (staying c) =
      (ProxyConn.streamLoop bufferSize n remaining c).map fun (r, c) => (r, staying c) := by
  induction n generalizing remaining c with
  | zero =>
    rw [streamLoop, ProxyConn.streamLoop]
    split_ifs <;> rfl
  | succ n ih =>
    rw [streamLoop, ProxyConn.streamLoop]
    by_cases hdone : remaining ≤ 0
    · rw [if_pos hdone, if_pos hdone]
      rfl
    · rw [if_neg hdone, if_neg hdone]
      show (match c.fdrecv 0 (min remaining.toNat bufferSize) with
        | (none, c) => _
        | (some nread, c) => _) = _
      rcases c.fdrecv 0 (min remaining.toNat bufferSize) with ⟨_ | nread, c'⟩
      · rfl
      · have hrc : ¬ (nread : ℤ) = -1 := by omega
        show (if (nread : ℤ) = -1 then _ else _) = _
        rw [if_neg hrc]
        exact ih (remaining - nread) (c'.send nread).2

/-- **The function is the one of `Proxy`** as long as the client stays. -/
theorem streamResponse_of_stays (c : ProxyConn) (total : ℤ) (nread : ℕ)
    (hint : -2 ^ 31 ≤ total - nread) :
    (staying c).streamResponse bufferSize fuel total nread =
      (c.streamResponse bufferSize fuel total nread).map fun (rc, c) => (rc, staying c) := by
  have hrc : (c.send nread).1 = nread := max_eq_left (Int.natCast_nonneg nread)
  rw [streamResponse, ProxyConn.streamResponse, send_staying]
  dsimp only
  rw [if_neg (not_not.mpr rfl), if_neg (not_lt.mpr hint), if_neg (not_not.mpr hrc),
    streamLoop_of_stays]
  rcases ProxyConn.streamLoop bufferSize fuel (total - nread) (c.send nread).2 with
    e | ⟨_ | remaining, c'⟩
  · rfl
  · rfl
  · show (if remaining = 0 then _ else _) = Except.map _ (if remaining = 0 then _ else _)
    split_ifs <;> rfl

/-! ### What a call is to do -/

/-- The response, of which `nread` bytes have been read. -/
def response (nread : ℕ) : List Byte :=
  s.conn.proxyBuf.slice 0 nread ++ s.conn.backend.stream

/-- The client's end breaks within the next `n` bytes. -/
def Lost (n : ℕ) : Prop := ∃ k ∈ s.takes, k < n

/-- The call returns: with an error, or with `total` when the client got the first `total`
bytes and no others, and with an error if the backend closed early. -/
def Streams (total : ℤ) (nread : ℕ) : Prop :=
  ∃ fuel rc s', s.streamResponse bufferSize fuel total nread = .ok (rc, s') ∧
    (rc = -1 ∨ rc = total ∧
      s'.conn.sent = s.conn.sent ++ (s.response nread).take total.toNat) ∧
    ((s.response nread).length < total → rc = -1)

/-! ### The loop -/

variable {bufferSize s}

/-- A send either breaks or sends all it is given. -/
theorem send_cases (n : ℕ) :
    (s.Lost n ∧ (s.send n).1 = -1) ∨
      ¬ s.Lost n ∧ ∃ s', s.send n = ((n : ℤ), s') ∧ s'.conn = (s.conn.send n).2 ∧
        ∀ k, s'.Lost k ↔ s.Lost (n + k) := by
  rw [send]
  rcases htakes : s.takes with _ | k
  · refine .inr ⟨fun ⟨j, hj, _⟩ => ?_, _, rfl, rfl, fun j => ?_⟩
    · rw [htakes] at hj
      exact absurd hj (by simp)
    · rw [Lost, Lost, htakes]
      simp
  · dsimp only
    by_cases hk : n ≤ k
    · refine .inr ⟨fun ⟨j, hj, hlt⟩ => ?_, ?_⟩
      · rw [htakes, Option.mem_some_iff] at hj
        omega
      · rw [if_pos hk]
        refine ⟨_, rfl, rfl, fun j => ?_⟩
        simp only [Lost, htakes, Option.mem_some_iff, exists_eq_left']
        omega
    · rw [if_neg hk]
      exact .inl ⟨⟨k, htakes, by omega⟩, rfl⟩

theorem fails_recv (b : Upstream) (len : ℕ) : (b.recv len).2.fails = b.fails := by
  rw [Upstream.recv]
  split
  · rfl
  · split_ifs <;> rfl

theorem pieces_eq_nil {b : Upstream} (hfed : b.Fed bufferSize) (h : b.stream = []) :
    b.pieces = [] := by
  refine List.eq_nil_iff_forall_not_mem.mpr fun p hp => (hfed p hp).1 ?_
  exact List.flatten_eq_nil_iff.mp h p hp

/-- What a read of the loop does: it fails, or it takes bytes, none if all are taken, and
leaves the others. -/
theorem fdrecv_cases {c : ProxyConn} (hfed : c.backend.Fed bufferSize) {len : ℕ} (hlen : 0 < len) :
    (c.backend.stream = [] ∧ c.backend.fails = true ∧ (c.fdrecv 0 len).1 = none) ∨
      ∃ got c', c.fdrecv 0 len = (some got.length, c') ∧ got.length ≤ len ∧
        (got = [] → c.backend.stream = [] ∧ c.backend.fails = false) ∧
        got ++ c'.backend.stream = c.backend.stream ∧ c'.backend.fails = c.backend.fails ∧
        c'.backend.Fed bufferSize ∧ (c'.send got.length).2.sent = c.sent ++ got := by
  -- the backend has nothing more, or a piece to give
  by_cases hstream : c.backend.stream = []
  · have hrecv : c.backend.recv len = (if c.backend.fails then none else some [], c.backend) := by
      rw [Upstream.recv, pieces_eq_nil hfed hstream]
    cases hfails : c.backend.fails with
    | true =>
      rw [hfails] at hrecv
      refine .inl ⟨hstream, rfl, ?_⟩
      rw [ProxyConn.fdrecv, hrecv]
      rfl
    | false =>
      rw [hfails] at hrecv
      refine .inr ⟨[], { c with proxyBuf := c.proxyBuf.write 0 [] }, ?_, Nat.zero_le _,
        fun _ => ⟨hstream, rfl⟩, rfl, hfails, hfed, rfl⟩
      rw [ProxyConn.fdrecv, hrecv]
      rfl
  · obtain ⟨got, b', hrecv, hgot, hle, happend, hfed', -, -⟩ := recv_spec hfed hlen hstream
    refine .inr ⟨got, { c with backend := b', proxyBuf := c.proxyBuf.write 0 got }, ?_, hle,
      fun h => absurd h hgot, happend, ?_, hfed', ?_⟩
    · rw [ProxyConn.fdrecv, hrecv]
    · have hfails := fails_recv c.backend len
      rw [hrecv] at hfails
      exact hfails
    · show c.sent ++ (c.proxyBuf.write 0 got).slice 0 (got.length : ℤ).toNat = c.sent ++ got
      rw [Int.toNat_natCast, Buffer.slice_write]

/-- The loop ends if the backend delivers what it wants, or if one of the two ends fails;
what it has sent then is what was to come. -/
theorem streamLoop_ends (hpos : 0 < bufferSize) (n m : ℕ) (s : StreamConn) (hn : m ≤ n)
    (hfed : s.conn.backend.Fed bufferSize)
    (h : m ≤ s.conn.backend.stream.length ∨ s.conn.backend.fails = true ∨
      s.Lost s.conn.backend.stream.length) :
    ∃ r s', streamLoop bufferSize n m s = .ok (r, s') ∧
      (r = none ∨ r = some 0 ∧ m ≤ s.conn.backend.stream.length ∧
        s'.conn.sent = s.conn.sent ++ s.conn.backend.stream.take m) := by
  induction n generalizing m s with
  | zero =>
    obtain rfl : m = 0 := by omega
    exact ⟨some 0, s, rfl, .inr ⟨rfl, Nat.zero_le _, by simp⟩⟩
  | succ n ih =>
    rw [streamLoop]
    by_cases hzero : m = 0
    · subst hzero
      exact ⟨some 0, s, if_pos le_rfl, .inr ⟨rfl, Nat.zero_le _, by simp⟩⟩
    have hloop : ¬ (m : ℤ) ≤ 0 := by omega
    rw [if_neg hloop, Int.toNat_natCast]
    obtain ⟨-, -, hnone⟩ | ⟨got, c', hrecv, hle, hnil, happend, hfails, hfed', hsent⟩ :=
      fdrecv_cases hfed (show 0 < min m bufferSize by omega)
    · -- `fdrecv` answers -1
      rcases hfd : s.conn.fdrecv 0 (min m bufferSize) with ⟨r, c'⟩
      obtain rfl : r = none := by rw [hfd] at hnone; exact hnone
      exact ⟨none, _, rfl, .inl rfl⟩
    have hlen : s.conn.backend.stream.length = got.length + c'.backend.stream.length := by
      rw [← happend, List.length_append]
    rw [hrecv]
    obtain ⟨-, hbroken⟩ | ⟨hlost, s₁, hsend, hconn, hafter⟩ :=
      send_cases (s := { s with conn := c' }) got.length
    · exact ⟨none, _, if_pos hbroken, .inl rfl⟩
    have hrc : ¬ (got.length : ℤ) = -1 := by omega
    have hback : s₁.conn.backend = c'.backend := by rw [hconn]; rfl
    have hwanted : (m : ℤ) - got.length = ((m - got.length : ℕ) : ℤ) := by omega
    have hgot : 0 < got.length := by
      -- were nothing read, the backend would have closed with its client still there
      refine List.length_pos_iff.mpr fun hgot => ?_
      obtain ⟨hstream, hopen⟩ := hnil hgot
      rw [hstream, hopen] at h
      rcases h with h | h | ⟨k, -, hk⟩
      · exact hzero (Nat.le_zero.mp h)
      · exact absurd h (by simp)
      · exact Nat.not_lt_zero k hk
    have hrest : m - got.length ≤ s₁.conn.backend.stream.length ∨
        s₁.conn.backend.fails = true ∨ s₁.Lost s₁.conn.backend.stream.length := by
      rw [hback, hafter, hfails]
      refine h.imp (fun h => by omega) (Or.imp_right fun h => ?_)
      rw [hlen] at h
      exact h
    -- the rest of the loop, with fewer bytes to come
    obtain ⟨r, s', hrun, hr⟩ := ih (m - got.length) s₁ (by omega) (by rw [hback]; exact hfed') hrest
    refine ⟨r, s', ?_, hr.imp_right ?_⟩
    · dsimp only
      rw [hsend]
      dsimp only
      rw [if_neg hrc, hwanted]
      exact hrun
    · rintro ⟨rfl, hm, hsent'⟩
      rw [hback] at hm hsent'
      refine ⟨rfl, by omega, ?_⟩
      have hall : got.take m = got := List.take_of_length_le (by omega)
      rw [hsent', hconn]
      show (c'.send got.length).2.sent ++ _ = _
      rw [hsent, List.append_assoc, ← happend, List.take_append, hall]

/-- **The loop never ends** where the backend closes before it has sent enough and the
client stays. -/
theorem streamLoop_never (n m : ℕ) (s : StreamConn) (hpos : 0 < bufferSize)
    (hfed : s.conn.backend.Fed bufferSize) (hclose : s.conn.backend.stream.length < m)
    (hopen : s.conn.backend.fails = false) (hstay : ¬ s.Lost s.conn.backend.stream.length) :
    streamLoop bufferSize n m s = .error .fuel := by
  induction n generalizing m s with
  | zero =>
    have hloop : ¬ (m : ℤ) ≤ 0 := by omega
    rw [streamLoop, if_neg hloop]
  | succ n ih =>
    have hloop : ¬ (m : ℤ) ≤ 0 := by omega
    rw [streamLoop, if_neg hloop, Int.toNat_natCast]
    obtain ⟨-, hfails, -⟩ | ⟨got, c', hrecv, hle, -, happend, hfails, hfed', -⟩ :=
      fdrecv_cases hfed (show 0 < min m bufferSize by omega)
    · rw [hopen] at hfails
      exact absurd hfails (by simp)
    have hlen : s.conn.backend.stream.length = got.length + c'.backend.stream.length := by
      rw [← happend, List.length_append]
    rw [hrecv]
    -- what is read now does not bring the missing bytes, and is sent
    rw [hlen] at hstay hclose
    obtain ⟨⟨k, hk, hlt⟩, -⟩ | ⟨-, s₁, hsend, hconn, hafter⟩ :=
      send_cases (s := { s with conn := c' }) got.length
    · exact absurd ⟨k, hk, by omega⟩ hstay
    have hrc : ¬ (got.length : ℤ) = -1 := by omega
    have hback : s₁.conn.backend = c'.backend := by rw [hconn]; rfl
    have hwanted : (m : ℤ) - got.length = ((m - got.length : ℕ) : ℤ) := by omega
    dsimp only
    rw [hsend]
    dsimp only
    rw [if_neg hrc, hwanted]
    refine ih (m - got.length) s₁ ?_ ?_ ?_ ?_
    · rw [hback]
      exact hfed'
    · rw [hback]
      omega
    · rw [hback, hfails, hopen]
    · rw [hback, hafter]
      exact hstay

/-! ### The call -/

variable {total : ℤ} {nread : ℕ}

/-- What is behind the first send. -/
theorem streamResponse_of_sent {s' : StreamConn} (hsend : s.send nread = ((nread : ℤ), s'))
    (fuel : ℕ) : s.streamResponse bufferSize fuel total nread =
      if total - nread < -2 ^ 31 then .error .undefined
      else
        (streamLoop bufferSize fuel (total - nread) s').bind fun
          | (none, s) => .ok (-1, s)
          | (some remaining, s) => if remaining = 0 then .ok (total, s) else .error .assertion := by
  rw [streamResponse, hsend]
  dsimp only
  rw [if_neg (not_not.mpr rfl)]

/-- More than `total` bytes had been read: the counter is negative behind the first send. -/
theorem not_streams_of_lt {s' : StreamConn} (hsend : s.send nread = ((nread : ℤ), s'))
    (hlt : total < nread) : ¬ Streams bufferSize s total nread := by
  rintro ⟨fuel, rc, s'', hrun, -⟩
  rw [streamResponse_of_sent hsend] at hrun
  split_ifs at hrun
  have hdone : total - nread ≤ 0 := by omega
  have hne : ¬ total - nread = 0 := by omega
  have hloop : streamLoop bufferSize fuel (total - nread) s' = .ok (some (total - nread), s') := by
    cases fuel <;> rw [streamLoop, if_pos hdone]
  rw [hloop, bind_ok] at hrun
  dsimp only at hrun
  rw [if_neg hne] at hrun
  cases hrun

/-- **A call of `Proxy_stream_response`** does what it is to do if and only if the client's
end breaks in the first send, or no more than `total` bytes had been read and the backend
delivers the others, or fails, or outlives the client's end. -/
theorem streams_iff (hpos : 0 < bufferSize) (hfed : s.conn.backend.Fed bufferSize) :
    Streams bufferSize s total nread ↔ s.Lost nread ∨
      nread ≤ total ∧ (total ≤ (s.response nread).length ∨ s.conn.backend.fails = true ∨
        s.Lost (s.response nread).length) := by
  have hresponse : (s.response nread).length = nread + s.conn.backend.stream.length := by
    rw [response, List.length_append, Buffer.length_slice]
  rw [hresponse]
  obtain ⟨hlost, hbroken⟩ | ⟨hstays, s', hsend, hconn, hafter⟩ := send_cases (s := s) nread
  · -- the first send breaks
    refine iff_of_true ⟨0, -1, (s.send nread).2, ?_, .inl rfl, fun _ => rfl⟩ (.inl hlost)
    have hrc : (s.send nread).1 ≠ nread := by
      rw [hbroken]
      omega
    rw [streamResponse]
    exact if_pos hrc
  have hback : s'.conn.backend = s.conn.backend := by rw [hconn]; rfl
  constructor
  · intro h
    refine .inr ⟨not_lt.mp fun hlt => not_streams_of_lt hsend hlt h, ?_⟩
    by_contra hnot
    push Not at hnot
    obtain ⟨hlong, hopen, hstay⟩ := hnot
    obtain ⟨fuel, rc, s'', hrun, -⟩ := h
    obtain ⟨m, hm⟩ := Int.eq_ofNat_of_zero_le (show 0 ≤ total - nread by omega)
    have hint : ¬ total - nread < -2 ^ 31 := by omega
    rw [streamResponse_of_sent hsend, if_neg hint, hm, streamLoop_never fuel m s' hpos] at hrun
    · cases hrun
    · rw [hback]
      exact hfed
    · rw [hback]
      omega
    · rw [hback]
      exact Bool.eq_false_iff.mpr hopen
    · rw [hback, hafter]
      exact hstay
  · rintro (hlost | ⟨hle, h⟩)
    · exact absurd hlost hstays
    obtain ⟨m, hm⟩ := Int.eq_ofNat_of_zero_le (show 0 ≤ total - nread by omega)
    have hint : ¬ total - nread < -2 ^ 31 := by omega
    have hrest : m ≤ s'.conn.backend.stream.length ∨ s'.conn.backend.fails = true ∨
        s'.Lost s'.conn.backend.stream.length := by
      rw [hback, hafter]
      exact h.imp_left fun h => by omega
    obtain ⟨r, s'', hrun, hr⟩ := streamLoop_ends hpos m m s' le_rfl (by rw [hback]; exact hfed) hrest
    rcases hr with rfl | ⟨rfl, henough, hsent⟩
    · refine ⟨m, -1, s'', ?_, .inl rfl, fun _ => rfl⟩
      rw [streamResponse_of_sent hsend, if_neg hint, hm, hrun]
      rfl
    · rw [hback] at henough hsent
      refine ⟨m, total, s'', ?_, .inr ⟨rfl, ?_⟩, fun hshort => ?_⟩
      · rw [streamResponse_of_sent hsend, if_neg hint, hm, hrun]
        rfl
      · have htotal : total.toNat = (s.conn.proxyBuf.slice 0 nread).length + m := by
          rw [Buffer.length_slice]
          omega
        rw [hsent, hconn, response, htotal, List.take_length_add_append, ← List.append_assoc]
        rfl
      · rw [hresponse] at hshort
        omega

/-- A backend with bytes to come, and a client that stays. -/
def sample (pieces : List (List Byte)) : StreamConn :=
  staying ⟨.zeroed 65, ⟨pieces, false⟩, ⟨.error, 0, 0, 0, false, false, 0, 0, 0, 0⟩, []⟩

theorem streams_iff_two_pieces :
    Streams 64 (sample [[1, 2], [3]]) 4 1 ↔ (sample [[1, 2], [3]]).Lost 1 ∨
      (1 : ℕ) ≤ (4 : ℤ) ∧ ((4 : ℤ) ≤ ((sample [[1, 2], [3]]).response 1).length ∨
        (sample [[1, 2], [3]]).conn.backend.fails = true ∨
        (sample [[1, 2], [3]]).Lost ((sample [[1, 2], [3]]).response 1).length) := by
  refine streams_iff (by decide) fun p hp => ?_
  rcases List.mem_cons.mp hp with rfl | hp
  · decide
  · rw [List.mem_singleton.mp hp]
    decide

/-- A backend that closes with one byte of two sent, and one that sends a byte more than it
announced. -/
theorem not_streams_closed_or_longer :
    ¬ Streams 64 (sample []) 2 1 ∧ ¬ Streams 64 (sample []) 0 1 := by
  have hsend : (sample []).send 1 = (((1 : ℕ) : ℤ), staying ((sample []).conn.send (1 : ℕ)).2) :=
    send_staying _ 1
  constructor
  · rintro ⟨fuel, rc, s', hrun, -⟩
    rw [streamResponse_of_sent hsend, if_neg (by decide),
      show (2 : ℤ) - (1 : ℕ) = (1 : ℕ) from rfl, streamLoop_never fuel 1 _ (by decide)] at hrun
    · cases hrun
    · exact fun p hp => absurd hp (by simp [sample, staying, ProxyConn.send])
    · decide
    · rfl
    · rintro ⟨k, hk, -⟩
      exact absurd hk (by simp [staying])
  · exact not_streams_of_lt hsend (by decide)

end StreamConn

end Mongrel2
