/-
Requests on their way to a proxy, and what is read behind them (`connection.c`).

* `Delivered` — `connection_proxy_deliver` has sent the request and nothing else, and
  what has come behind it is in the buffer;
* **`delivered_iff_stops`** — so it is, unless the request is still coming and the piece
  that brings its last byte brings more;
* `HeaderExact` — wherever `Connection_read_header` calls the parser, the buffer holds
  what was left in it and what has come since;
* **`headerExact_iff`** — whatever comes, this holds exactly if nothing was left.

Design notes: `send` takes at least one byte, so `fdsend` sends all or fails.
-/
import Mongrel2.KeepAlive

namespace Mongrel2

open ByteStream

/-! ### The request is sent -/

/-- The number of bytes of the request. -/
def Conn.requestLen (c : Conn) : ℤ := c.req.parser.bodyStart + c.req.parser.contentLen

/-- The number of its bytes that are not in the buffer. -/
def Conn.missing (c : Conn) : ℕ := (c.requestLen - c.nread).toNat

/-- If the answer is `REQ_SENT`, of what was in the buffer and what was received the
request was sent, and the rest is in the buffer. -/
def Delivered (lim : Limits) (o : Outside) (s : Session) : Prop :=
  (proxyDeliver lim o s).1 = .reqSent →
    ∃ got, s.conn.sock.stream = got ++ (proxyDeliver lim o s).2.conn.sock.stream ∧
      (proxyDeliver lim o s).2.proxySent =
        s.proxySent ++ (s.conn.buf.slice 0 s.conn.nread ++ got).take s.conn.requestLen.toNat ∧
      (proxyDeliver lim o s).2.conn.buf.slice 0 (proxyDeliver lim o s).2.conn.nread =
        (s.conn.buf.slice 0 s.conn.nread ++ got).drop s.conn.requestLen.toNat ∧
      s.conn.requestLen.toNat ≤ s.conn.nread + got.length

/-- What is received, piece by piece, until `need` bytes have come; `none` when the
client stops before. -/
def pieces (size : ℕ) : ℕ → ℕ → Socket → Option (List (List Byte))
  | _, 0, _ => some []
  | 0, _ + 1, _ => none
  | n + 1, need + 1, s =>
    let (got, s) := s.recv size
    if got = [] then none else (pieces size n (need + 1 - got.length) s).map (got :: ·)

/-- If more of the request is to come and all of it is received and sent, the last piece
ends where it does. -/
def Stops (lim : Limits) (o : Outside) (s : Session) : Prop :=
  0 < s.conn.missing → s.conn.requestLen < 2 ^ 31 →
    ∀ ps, pieces lim.bufferSize s.conn.missing s.conn.missing s.conn.sock = some ps →
      (∀ j ≤ ps.length, o.fdsend j = true) → ps.flatten.length = s.conn.missing

section

variable {lim : Limits} {o : Outside}

theorem pieces_zero (size n : ℕ) (s : Socket) : pieces size n 0 s = some [] := by
  cases n <;> rfl

/-- The loop sends what is in the buffer, and each piece as it comes. -/
theorem proxyLoop_spec {m n i need : ℕ} {len : ℤ} {s : Session} (hn : need < n) (hm : need ≤ m)
    (hneed : need = (len - s.conn.nread).toNat) :
    ((proxyLoop lim o n i len s).1 = true ↔
      ∃ ps, pieces lim.bufferSize m need s.conn.sock = some ps ∧
        ∀ j ≤ ps.length, o.fdsend (i + j) = true) ∧
    ∀ ps, pieces lim.bufferSize m need s.conn.sock = some ps →
      (proxyLoop lim o n i len s).1 = true →
        s.conn.sock.stream = ps.flatten ++ (proxyLoop lim o n i len s).2.conn.sock.stream ∧
          (proxyLoop lim o n i len s).2.proxySent =
            s.proxySent ++ (s.conn.buf.slice 0 s.conn.nread ++ ps.flatten) ∧
          (proxyLoop lim o n i len s).2.conn.nread = 0 ∧ need ≤ ps.flatten.length := by
  induction n generalizing m i need len s with
  | zero => omega
  | succ n ih =>
    rw [proxyLoop]
    by_cases hsend : o.fdsend i = true
    swap
    · -- the first `fdsend` fails
      rw [if_pos (by simpa using hsend)]
      refine ⟨iff_of_false (by simp) ?_, fun _ _ h => absurd h (by simp)⟩
      rintro ⟨ps, -, hall⟩
      exact hsend (hall 0 (by omega))
    rw [if_neg (by simpa using hsend)]
    dsimp only
    by_cases hmore : 0 < len - s.conn.nread
    swap
    · -- everything is in the buffer
      obtain rfl : need = 0 := by omega
      rw [if_neg hmore, pieces_zero]
      refine ⟨iff_of_true rfl ⟨[], rfl, fun j hj => ?_⟩, ?_⟩
      · obtain rfl : j = 0 := by simpa using hj
        exact hsend
      · rintro ps hps -
        obtain rfl := Option.some.inj hps
        simp
    rw [if_pos hmore]
    obtain ⟨k, rfl⟩ : ∃ k, need = k + 1 := ⟨need - 1, by omega⟩
    obtain ⟨m, rfl⟩ : ∃ m', m = m' + 1 := ⟨m - 1, by omega⟩
    have hsplit := s.conn.sock.recv_append lim.bufferSize
    rcases hrecv : s.conn.recv 0 lim.bufferSize with ⟨got, c⟩
    have hgot : (s.conn.sock.recv lim.bufferSize).1 = got := congrArg Prod.fst hrecv
    have hsock : (s.conn.sock.recv lim.bufferSize).2 = c.sock :=
      congrArg (fun p => p.2.sock) hrecv
    have hbuf : c.buf = s.conn.buf.write 0 got := by
      rw [← hgot]
      exact (congrArg (fun p => p.2.buf) hrecv).symm
    rw [hgot, hsock] at hsplit
    rw [pieces]
    dsimp only
    rw [hgot, hsock]
    by_cases hnil : got = []
    · -- the client has stopped
      rw [if_pos hnil, if_pos hnil]
      refine ⟨iff_of_false (by simp) ?_, fun _ h => absurd h (by simp)⟩
      rintro ⟨ps, hps, -⟩
      exact absurd hps (by simp)
    rw [if_neg hnil, if_neg hnil]
    have hpos : 0 < got.length := List.length_pos_iff.mpr hnil
    have hslice : c.buf.slice 0 got.length = got := by rw [hbuf, Buffer.slice_write]
    obtain ⟨hiff, hval⟩ := @ih m (i + 1) (k + 1 - got.length) (len - s.conn.nread)
      { conn := { c with nread := got.length }
        proxySent := s.proxySent ++ s.conn.buf.slice 0 s.conn.nread } (by omega) (by omega)
      (by dsimp only; omega)
    refine ⟨hiff.trans ⟨?_, ?_⟩, ?_⟩
    · rintro ⟨ps, hps, hall⟩
      refine ⟨got :: ps, by rw [hps]; rfl, fun j hj => ?_⟩
      rw [List.length_cons] at hj
      rcases j with _ | j
      · exact hsend
      · have hj := hall j (by omega)
        rwa [Nat.add_assoc, Nat.add_comm 1 j] at hj
    · rintro ⟨_, hmap, hall⟩
      obtain ⟨ps, hps, rfl⟩ := Option.map_eq_some_iff.mp hmap
      refine ⟨ps, hps, fun j hj => ?_⟩
      have hj := hall (j + 1) (by rw [List.length_cons]; omega)
      rwa [Nat.add_assoc, Nat.add_comm 1 j]
    · rintro _ hmap hdone
      obtain ⟨ps, hps, rfl⟩ := Option.map_eq_some_iff.mp hmap
      obtain ⟨hstream, hsent, hnread, hle⟩ := hval ps hps hdone
      dsimp only at hstream hsent hle
      rw [hslice] at hsent
      refine ⟨?_, ?_, hnread, ?_⟩
      · rw [← hsplit, hstream, List.flatten_cons, List.append_assoc]
      · rw [hsent, List.flatten_cons, List.append_assoc]
      · rw [List.flatten_cons, List.length_append]
        omega

theorem totalLen_eq {c : Conn} (hlen : c.requestLen < 2 ^ 31) (hpos : 0 ≤ c.requestLen) :
    c.totalLen = c.requestLen := by
  rw [Conn.requestLen] at hlen hpos
  exact Int.bmod_eq_of_le (by omega) (by omega)

/-- An `int` that cannot hold the length of the request is negative. -/
theorem totalLen_neg {c : Conn} (hlen : 2 ^ 31 ≤ c.requestLen) (hlt : c.requestLen < 2 ^ 32) :
    c.totalLen < 0 := by
  rw [Conn.requestLen] at hlen hlt
  rw [Conn.totalLen, Int.bmod_def]
  split <;> omega

/-- A request that is in the buffer is sent, and what is behind it is moved to the
front. -/
theorem delivered_of_buffered {s : Session} (htotal : s.conn.totalLen = s.conn.requestLen)
    (hpos : 0 ≤ s.conn.requestLen) (hle : s.conn.requestLen ≤ s.conn.nread) :
    Delivered lim o s := by
  intro hanswer
  refine ⟨[], ?_⟩
  have hlen : s.conn.requestLen.toNat ≤ s.conn.nread := by omega
  have hsent : (s.conn.buf.slice 0 s.conn.nread).take s.conn.requestLen.toNat =
      s.conn.buf.slice 0 s.conn.requestLen.toNat := s.conn.buf.take_slice _ _ hlen
  have hrest : (s.conn.buf.slice 0 s.conn.nread).drop s.conn.requestLen.toNat =
      s.conn.buf.slice s.conn.requestLen.toNat (s.conn.nread - s.conn.requestLen.toNat) := by
    rw [s.conn.buf.drop_slice _ _ hlen, Nat.zero_add]
  rw [List.append_nil, hsent, hrest, List.nil_append, List.length_nil, Nat.add_zero]
  by_cases hlt : s.conn.requestLen < s.conn.nread
  · by_cases hsend : s.conn.requestLen ≤ 0 ∨ (!o.fdsend 0) = true
    · have hclose : (proxyDeliver lim o s).1 = .remoteClose := by
        unfold proxyDeliver
        dsimp only
        rw [htotal, if_pos hlt, if_pos hsend]
      rw [hclose] at hanswer
      exact absurd hanswer (by simp)
    · unfold proxyDeliver
      dsimp only
      rw [htotal, if_pos hlt, if_neg hsend]
      refine ⟨rfl, rfl, ?_, hlen⟩
      have hslice := s.conn.buf.slice_write 0
        (s.conn.buf.slice s.conn.requestLen.toNat (s.conn.nread - s.conn.requestLen.toNat))
      rwa [Buffer.length_slice] at hslice
  · have heq : s.conn.requestLen.toNat = s.conn.nread := by omega
    by_cases hsend : (!o.fdsend 0) = true
    · have hclose : (proxyDeliver lim o s).1 = .remoteClose := by
        unfold proxyDeliver
        dsimp only
        rw [htotal, if_neg hlt, if_neg (by omega), if_pos hsend]
      rw [hclose] at hanswer
      exact absurd hanswer (by simp)
    · unfold proxyDeliver
      dsimp only
      rw [htotal, if_neg hlt, if_neg (by omega), if_neg hsend, heq, Nat.sub_self]
      exact ⟨rfl, rfl, rfl, le_rfl⟩

/-- A request that is still coming goes through the loop. -/
theorem proxyDeliver_of_missing {s : Session} (htotal : s.conn.totalLen = s.conn.requestLen)
    (hlt : (s.conn.nread : ℤ) < s.conn.requestLen) :
    ((proxyDeliver lim o s).1 = .reqSent ↔
      (proxyLoop lim o (s.conn.requestLen.toNat + 1) 0 s.conn.requestLen s).1 = true) ∧
    (proxyDeliver lim o s).2 =
      (proxyLoop lim o (s.conn.requestLen.toNat + 1) 0 s.conn.requestLen s).2 := by
  unfold proxyDeliver
  dsimp only
  rw [htotal, if_neg (by omega), if_pos hlt]
  rcases proxyLoop lim o (s.conn.requestLen.toNat + 1) 0 s.conn.requestLen s with ⟨ok, s'⟩
  cases ok <;> simp

/-- **A request is delivered to a proxy as it came** unless it is still coming, and the
piece that brings its last byte brings more, and everything is sent. -/
theorem delivered_iff_stops (lim : Limits) (o : Outside) {s : Session}
    (hheader : s.conn.req.parser.bodyStart < 2 ^ 31) (hpos : 0 ≤ s.conn.req.parser.contentLen)
    (hcontent : s.conn.req.parser.contentLen < 2 ^ 31) : Delivered lim o s ↔ Stops lim o s := by
  have hlen : s.conn.requestLen = s.conn.req.parser.bodyStart + s.conn.req.parser.contentLen := rfl
  by_cases hfits : s.conn.requestLen < 2 ^ 31
  swap
  · -- nothing is sent
    have hneg := totalLen_neg (c := s.conn) (by omega) (by omega)
    have hanswer : (proxyDeliver lim o s).1 = .remoteClose := by
      unfold proxyDeliver
      dsimp only
      rw [if_pos (by omega), if_pos (.inl (by omega))]
    refine iff_of_true (fun h => ?_) fun _ h => absurd h hfits
    rw [hanswer] at h
    exact absurd h (by simp)
  have htotal := totalLen_eq hfits (by omega)
  by_cases hmissing : 0 < s.conn.missing
  swap
  · -- the whole request is in the buffer
    have hle : s.conn.requestLen ≤ s.conn.nread := by
      rw [Conn.missing] at hmissing
      omega
    refine iff_of_true (delivered_of_buffered htotal (by omega) hle) fun h => absurd h hmissing
  have hlt : (s.conn.nread : ℤ) < s.conn.requestLen := by
    rw [Conn.missing] at hmissing
    omega
  have hneed : s.conn.missing = (s.conn.requestLen - s.conn.nread).toNat := rfl
  obtain ⟨hanswer, hstate⟩ := @proxyDeliver_of_missing lim o s htotal hlt
  obtain ⟨hiff, hval⟩ := @proxyLoop_spec lim o s.conn.missing (s.conn.requestLen.toNat + 1) 0
    s.conn.missing s.conn.requestLen s (by omega) le_rfl hneed
  simp only [Nat.zero_add] at hiff
  constructor
  · intro hdelivered _ _ ps hps hall
    have hloop := hiff.mpr ⟨ps, hps, hall⟩
    obtain ⟨hstream, hsent, -, hle⟩ := hval ps hps hloop
    obtain ⟨got, hgot, hsent', -, -⟩ := hdelivered (hanswer.mpr hloop)
    rw [hstate] at hgot hsent'
    obtain rfl : ps.flatten = got := List.append_cancel_right (hstream.symm.trans hgot)
    have htake := congrArg List.length (List.append_cancel_left (hsent.symm.trans hsent'))
    rw [List.length_take, List.length_append, Buffer.length_slice] at htake
    omega
  · intro hstops hreq
    have hloop := hanswer.mp hreq
    obtain ⟨ps, hps, hall⟩ := hiff.mp hloop
    obtain ⟨hstream, hsent, hnread, -⟩ := hval ps hps hloop
    have hflat := hstops hmissing hfits ps hps hall
    have hend : (s.conn.buf.slice 0 s.conn.nread ++ ps.flatten).length =
        s.conn.requestLen.toNat := by
      rw [List.length_append, Buffer.length_slice]
      omega
    refine ⟨ps.flatten, ?_, ?_, ?_, by omega⟩
    · rw [hstate]
      exact hstream
    · rw [hstate, hsent, List.take_of_length_le hend.le]
    · rw [hstate, hnread, List.drop_eq_nil_of_le hend.le]
      rfl

end

/-- A request for a proxy and the one behind it; the first `recv` brings the header. -/
def pipelined (cuts : List ℕ) : Conn :=
  .create defaultLimits (bytes "127.0.0.1")
    ⟨bytes "POST /p HTTP/1.1\r\nContent-Length: 4\r\n\r\nabcdGET /p HTTP/1.1\r\n\r\n", 38 :: cuts⟩

/-- Everything is sent. -/
def sendsAll : Outside := ⟨none, some .proxy, true, goodEnv, true, fun _ => true, true⟩

/-- The body comes in a piece of its own. -/
theorem delivered_iff_stops_piece :
    ∃ c, (pipelined [3]).parse defaultLimits = some c ∧ Delivered defaultLimits sendsAll ⟨c, []⟩ := by
  have hrun : ((pipelined [3]).parse defaultLimits).map (fun c =>
      (c.req.parser.bodyStart, c.req.parser.contentLen, c.missing,
        (pieces defaultLimits.bufferSize c.missing c.missing c.sock).map List.flatten)) =
      some (39, 4, 4, some (bytes "abcd")) := by decide
  obtain ⟨c, hc, heq⟩ := Option.map_eq_some_iff.mp hrun
  simp only [Prod.mk.injEq] at heq
  obtain ⟨hstart, hlen, hmissing, hpieces⟩ := heq
  refine ⟨c, hc, (delivered_iff_stops defaultLimits sendsAll ?_ ?_ ?_).mpr ?_⟩
  · rw [hstart]
    decide
  · rw [hlen]
    decide
  · rw [hlen]
    decide
  · intro _ _ ps hps _
    rw [hps, Option.map_some, Option.some_inj] at hpieces
    rw [hpieces, hmissing]
    rfl

/-- The next request comes with the body, and is sent with it. -/
theorem not_delivered_pipelined :
    ¬ ∀ c, (pipelined []).parse defaultLimits = some c →
      Delivered defaultLimits sendsAll ⟨c, []⟩ := by
  intro h
  have hrun : ((pipelined []).parse defaultLimits).map (fun c =>
      ((proxyDeliver defaultLimits sendsAll ⟨c, []⟩).1,
        (proxyDeliver defaultLimits sendsAll ⟨c, []⟩).2.proxySent.length, c.requestLen)) =
      some (.reqSent, 62, 43) := by decide
  obtain ⟨c, hc, heq⟩ := Option.map_eq_some_iff.mp hrun
  simp only [Prod.mk.injEq] at heq
  obtain ⟨hanswer, hsent, hlen⟩ := heq
  obtain ⟨got, -, hbytes, -⟩ := h c hc hanswer
  have hlength := congrArg List.length hbytes
  rw [hsent, hlen, List.nil_append, List.length_take] at hlength
  omega

/-! ### The next header is read -/

namespace Conn

variable (lim : Limits)

/-- The connection whenever the loop of `Connection_read_header` calls `Request_parse`. -/
def parses : ℕ → ℤ → ℕ → ℤ → Conn → List Conn
  | 0, _, _, _, _ => []
  | n + 1, finished, curBuf, remaining, c =>
    if finished = 1 ∨ remaining < 0 then []
    else
      let (got, c) := c.recv curBuf remaining.toNat
      if got = [] then []
      else
        let c := { c with nread := c.nread + got.length }
        if c.buf.mem lim.bufferSize ≠ 0 then []
        else
          c :: parses n c.requestParse.req.finish c.nread (lim.bufferSize - 1 - c.nread)
            c.requestParse

end Conn

/-- Whenever the parser is called, the buffer starts with what was left in it and what has
been received since, `nread` counts these bytes, and they fit. -/
def HeaderExact (lim : Limits) (c : Conn) : Prop :=
  ∀ c' ∈ Conn.parses lim lim.bufferSize 0 0 (lim.bufferSize - 1) (c.cleared lim),
    ∃ got, c.sock.stream = got ++ c'.sock.stream ∧
      c'.buf.slice 0 c'.nread = c.buf.slice 0 c.nread ++ got ∧
      c'.nread = c.nread + got.length ∧ c'.nread ≤ lim.bufferSize - 1

/-- What the loop reads goes behind what it has read, as long as it writes where `nread`
says. -/
theorem parses_exact {lim : Limits} {n m : ℕ} {f : ℤ} {c : Conn} {pre : List Byte}
    (hnread : c.nread = m) (hm : m ≤ lim.bufferSize - 1) (hpre : c.buf.slice 0 m = pre)
    {c' : Conn} (hc' : c' ∈ Conn.parses lim n f m (lim.bufferSize - 1 - m) c) :
    ∃ got, c.sock.stream = got ++ c'.sock.stream ∧ c'.buf.slice 0 c'.nread = pre ++ got ∧
      c'.nread = m + got.length ∧ c'.nread ≤ lim.bufferSize - 1 := by
  induction n generalizing f m c pre with
  | zero => exact absurd hc' List.not_mem_nil
  | succ n ih =>
    rw [Conn.parses] at hc'
    split at hc'
    case isTrue => exact absurd hc' List.not_mem_nil
    case isFalse hgo =>
      have hroom : ((lim.bufferSize : ℤ) - 1 - m).toNat = lim.bufferSize - 1 - m := by omega
      have hlen := c.sock.length_recv_le (lim.bufferSize - 1 - m)
      have hsplit := c.sock.recv_append (lim.bufferSize - 1 - m)
      have hslice := c.buf.slice_write_append m (c.sock.recv (lim.bufferSize - 1 - m)).1
      rw [hroom] at hc'
      rcases hrecv : c.recv m (lim.bufferSize - 1 - m) with ⟨got, c₁⟩
      obtain ⟨rfl, rfl⟩ := Prod.mk.inj hrecv
      rw [hrecv] at hc'
      generalize (c.sock.recv (lim.bufferSize - 1 - m)).1 = got at *
      dsimp only at hc'
      split at hc'
      case isTrue => exact absurd hc' List.not_mem_nil
      case isFalse =>
        split at hc'
        case isTrue => exact absurd hc' List.not_mem_nil
        case isFalse =>
          rw [hpre] at hslice
          rw [hnread] at hc'
          rcases List.mem_cons.mp hc' with rfl | htail
          · exact ⟨got, hsplit.symm, hslice, rfl, by dsimp only; omega⟩
          · obtain ⟨more, hstream, hbytes, hcount, hle⟩ :=
              @ih (m + got.length) _ _ _ rfl (by omega) hslice htail
            refine ⟨got ++ more, ?_, ?_, ?_, hle⟩
            · rw [List.append_assoc, ← hsplit]
              exact congrArg (got ++ ·) hstream
            · rw [hbytes, List.append_assoc]
            · rw [hcount, List.length_append, Nat.add_assoc]

/-- The parser is called when something has been received. -/
theorem mem_parses {lim : Limits} {n curBuf : ℕ} {f remaining : ℤ} {c c' : Conn}
    {got : List Byte} (hgo : ¬ (f = 1 ∨ remaining < 0))
    (hrecv : c.recv curBuf remaining.toNat = (got, c')) (hgot : got ≠ [])
    (hcap : c'.buf.mem lim.bufferSize = 0) :
    { c' with nread := c'.nread + got.length } ∈ Conn.parses lim (n + 1) f curBuf remaining c := by
  rw [Conn.parses, if_neg hgo, hrecv]
  dsimp only
  rw [if_neg hgot, if_neg (not_not.mpr hcap)]
  exact List.mem_cons_self

theorem recv_byte (c : Conn) (x : Byte) (pos : ℕ) {len : ℕ} (hlen : 0 < len) :
    Conn.recv { c with sock := ⟨[x], []⟩ } pos len =
      ([x], { c with buf := c.buf.write pos [x], sock := ⟨[], []⟩ }) := by
  obtain ⟨n, rfl⟩ : ∃ n, len = n + 1 := ⟨len - 1, by omega⟩
  simp [Conn.recv, Socket.recv]

theorem head_slice (b : Buffer) (pos n : ℕ) : (b.slice pos (n + 1)).head? = some (b.mem pos) := by
  rw [Nat.add_comm n, Buffer.slice_add]
  rfl

/-- One byte comes that is not the first one left, and nothing more. -/
theorem not_headerExact {lim : Limits} {c : Conn} {x : Byte} (hleft : c.nread ≠ 0)
    (hsize : 1 < lim.bufferSize) (hx : x ≠ c.buf.mem 0) :
    ¬ HeaderExact lim { c with sock := ⟨[x], []⟩ } := by
  intro hexact
  obtain ⟨b, hb⟩ : ∃ b, lim.bufferSize = b + 1 := ⟨lim.bufferSize - 1, by omega⟩
  obtain ⟨k, hk⟩ : ∃ k, c.nread = k + 1 := ⟨c.nread - 1, by omega⟩
  have hrecv := recv_byte (c.cleared lim) x 0 (show 0 < ((lim.bufferSize : ℤ) - 1).toNat by omega)
  have hcap : ((c.buf.write lim.bufferSize [0]).write 0 [x]).mem lim.bufferSize = 0 := by
    simp [Buffer.write, hb]
  -- the parser is called with this byte in place of the first one left
  have hmem := @mem_parses lim b 0 0 (lim.bufferSize - 1) _ _ _ (by omega) hrecv (by simp) hcap
  rw [← hb] at hmem
  obtain ⟨got, -, hbytes, -, -⟩ := hexact _ hmem
  have hhead : (((c.buf.write lim.bufferSize [0]).write 0 [x]).slice 0 (c.nread + 1)).head? =
      (c.buf.slice 0 c.nread ++ got).head? := congrArg List.head? hbytes
  have hfirst : ((c.buf.write lim.bufferSize [0]).write 0 [x]).mem 0 = x := by simp [Buffer.write]
  rw [head_slice, hfirst, hk, List.head?_append, head_slice] at hhead
  exact hx (Option.some.inj hhead)

/-- **A header is parsed from what was left in the buffer on**, whatever comes, exactly if
nothing was left: the first `recv` writes to the front. -/
theorem headerExact_iff (lim : Limits) (c : Conn) :
    (∀ sock, HeaderExact lim { c with sock := sock }) ↔ c.nread = 0 ∨ lim.bufferSize ≤ 1 := by
  constructor
  · intro hall
    by_contra hcond
    rw [not_or, Nat.not_le] at hcond
    obtain ⟨hleft, hsize⟩ := hcond
    have hx : c.buf.mem 0 + 1 ≠ c.buf.mem 0 := by simp
    exact not_headerExact hleft hsize hx (hall _)
  · rintro (hleft | hsize) sock c' hc'
    · have hstart : (Conn.cleared lim { c with sock := sock }).nread = 0 := hleft
      rw [show ((lim.bufferSize : ℤ) - 1) = lim.bufferSize - 1 - (0 : ℕ) by simp] at hc'
      obtain ⟨got, hstream, hslice, hnread, hle⟩ := parses_exact hstart (Nat.zero_le _) rfl hc'
      refine ⟨got, hstream, ?_, ?_, hle⟩
      · dsimp only
        rw [hslice, hleft]
        rfl
      · dsimp only
        rw [hnread, hleft]
    · -- `recv` is asked for nothing
      obtain ⟨b, hb⟩ | hb : (∃ b, lim.bufferSize = b + 1) ∨ lim.bufferSize = 0 := by
        rcases lim.bufferSize with _ | b
        exacts [.inr rfl, .inl ⟨b, rfl⟩]
      · have hroom : ((lim.bufferSize : ℤ) - 1).toNat = 0 := by omega
        have hnone : ((Conn.cleared lim { c with sock := sock }).recv 0 0).1 = [] :=
          List.length_eq_zero_iff.mp (Nat.le_zero.mp (sock.length_recv_le 0))
        rw [show Conn.parses lim lim.bufferSize = Conn.parses lim (b + 1) by rw [hb], Conn.parses,
          if_neg (by omega), hroom] at hc'
        generalize (Conn.cleared lim { c with sock := sock }).recv 0 0 = p at hc' hnone
        obtain ⟨got, c₁⟩ := p
        dsimp only at hc' hnone
        rw [if_pos hnone] at hc'
        exact absurd hc' List.not_mem_nil
      · rw [hb] at hc'
        exact absurd hc' List.not_mem_nil

/-- Two requests for a proxy; the first `recv` brings the first one and the beginning of
the second. -/
def split : Conn :=
  .create defaultLimits (bytes "127.0.0.1")
    ⟨bytes "GET /p HTTP/1.1\r\n\r\nGET /p HTTP/1.1\r\n\r\n", [20]⟩

/-- What has come of the second request is kept, and the rest of it is written over it. -/
theorem not_headerExact_split :
    ¬ ∀ c, split.parse defaultLimits = some c →
      HeaderExact defaultLimits (proxyDeliver defaultLimits sendsAll ⟨c, []⟩).2.conn := by
  intro h
  have hrun : (split.parse defaultLimits).map (fun c =>
      let c := (proxyDeliver defaultLimits sendsAll ⟨c, []⟩).2.conn
      (c.nread, c.buf.slice 0 c.nread,
        ((Conn.parses defaultLimits defaultLimits.bufferSize 0 0
          (defaultLimits.bufferSize - 1) (c.cleared defaultLimits)).head?).map fun c' =>
            c'.buf.slice 0 2)) =
      some (2, bytes "GE", some (bytes "T ")) := by decide
  obtain ⟨c, hc, heq⟩ := Option.map_eq_some_iff.mp hrun
  simp only [Prod.mk.injEq, Option.map_eq_some_iff] at heq
  obtain ⟨hleft, hslice, c', hhead, hbytes⟩ := heq
  obtain ⟨got, -, hread, hnread, -⟩ := h c hc c' (List.mem_of_mem_head? hhead)
  rw [hslice, hnread, hleft] at hread
  have htwo := congrArg (List.take 2) hread
  have hlen : (bytes "GE").length = 2 := rfl
  rw [Buffer.take_slice _ _ _ (Nat.le_add_right ..), hbytes, List.take_left' hlen] at htwo
  exact absurd htwo (by decide)

end Mongrel2
