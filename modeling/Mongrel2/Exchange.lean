/-
A handler that answers what it was sent (`handler.c`, `handler.py`).

* `Register.target_iff` — while there were fewer connects than ids, an id finds the
  connection it was handed out for exactly if that is still there, and else nothing;
* `deliverLoop` — the delivery loop of `Handler_task`;
* `Reply.deliver` — `Connection.deliver` of the Python library;
* `deliver_reaches` — an answer to any list of requests goes to each of the connections
  that is still there, once and in order, and to no other.

Design notes: an exchange has its own states of the register, those around its connect,
its message and its answer; of one run they are parts that overlap.  What a delivery that
fails does to the register is among the calls behind it.
-/
import Mongrel2.HandlerReads
import Mongrel2.Register

namespace Mongrel2

open ByteStream (Byte)

namespace Register

open Registers

/-! ### Who an id belongs to -/

/-- The owner of an id after a call, if the call does not hand out the id. -/
def Op.keep (owner : Option Fd) : Op → Option Fd
  | .connect fd _ _ | .disconnect fd => if owner = some fd then none else owner
  | .ping _ _ => owner

/-- The call leaves the registration of the descriptor alone. -/
def Op.Stays (fd : Fd) : Op → Prop
  | .connect gd _ _ | .disconnect gd => gd ≠ fd
  | .ping _ _ => True

instance (fd : Fd) (op : Op) : Decidable (op.Stays fd) := by
  cases op <;> unfold Op.Stays <;> infer_instance

def Op.isConnect : Op → Bool
  | .connect _ _ _ => true
  | .disconnect _ | .ping _ _ => false

/-- The tables know the owner of the id and nobody else under it. -/
structure Owned (id : Id) (t : ConnType) (owner : Option Fd) (s : Registers) : Prop where
  found : s.fdForId id = owner.getD 0
  owns : ∀ fd, s.Live fd ∧ s.idForFd fd = id ↔ owner = some fd
  typed : ∀ fd, owner = some fd → s.fdExists fd = some t

section

variable {s : Registers} {id : Id} {t : ConnType} {owner : Option Fd} {fd gd : Fd} {op : Op}
  {now : UInt32}

theorem fdExists_clear :
    (s.clear fd).fdExists gd = if gd = fd then none else s.fdExists gd := by
  by_cases h : gd = fd <;> simp [fdExists, clear, h]

theorem fdExists_connect :
    (s.connect fd t now).2.fdExists gd = if gd = fd then some t else s.fdExists gd := by
  by_cases h : gd = fd <;> by_cases hs : (s.registrations fd).connType.isSome <;>
    simp [fdExists, connect, clear, h, hs]

theorem fdExists_disconnect (h : gd ≠ fd) :
    (s.disconnect fd).2.fdExists gd = s.fdExists gd := by
  rw [disconnect_eq]
  split
  · rw [fdExists_clear, if_neg h]
  · rfl

theorem fdExists_ping : (s.ping fd now).2.fdExists gd = s.fdExists gd := by
  unfold ping
  split
  · by_cases h : gd = fd <;> simp [fdExists, h]
  · rfl

theorem ite_none_eq_some_iff :
    (if owner = some fd then none else owner) = some gd ↔ fd ≠ gd ∧ owner = some gd := by
  split
  case isTrue howner =>
    refine iff_of_false nofun ?_
    rintro ⟨hne, hgd⟩
    exact hne (Option.some.inj (howner.symm.trans hgd))
  case isFalse howner => exact ⟨fun hgd => ⟨fun heq => howner (heq ▸ hgd), hgd⟩, And.right⟩

/-- The connect that hands out an id to a descriptor that no other has. -/
theorem owned_connect (h : Fresh s (.connect fd t now)) :
    Owned s.regCount t (some fd) (s.connect fd t now).2 := by
  constructor
  · rw [fdForId_connect, if_pos rfl]
    rfl
  · intro gd
    rw [live_connect, idForFd_connect, Option.some_inj]
    constructor
    · rintro ⟨hlive, hid⟩
      by_contra hne
      rw [if_neg (Ne.symm hne)] at hid
      exact h gd (Ne.symm hne) (hlive.resolve_left (Ne.symm hne)) hid
    · rintro rfl
      exact ⟨.inl rfl, if_pos rfl⟩
  · rintro gd ⟨⟩
    rw [fdExists_connect, if_pos rfl]

theorem Owned.getD_keep (h : Owned id t owner s) :
    (if s.Live fd ∧ id = s.idForFd fd then 0 else s.fdForId id) =
      (if owner = some fd then none else owner).getD 0 := by
  by_cases howner : owner = some fd
  · have hfd := (h.owns fd).mpr howner
    rw [if_pos ⟨hfd.1, hfd.2.symm⟩, if_pos howner]
    rfl
  · rw [if_neg fun hfd => howner ((h.owns fd).mp ⟨hfd.1, hfd.2.symm⟩), if_neg howner, h.found]

/-- A call that does not hand out the id. -/
theorem Owned.apply (h : Owned id t owner s) (hop : op.isConnect → s.regCount ≠ id) :
    Owned id t (op.keep owner) (apply s op) := by
  cases op with
  | connect fd t' now =>
    have hcount := hop rfl
    refine ⟨?_, fun gd => ?_, fun gd hgd => ?_⟩
    · exact ((fdForId_connect ..).trans (if_neg (Ne.symm hcount))).trans h.getD_keep
    · rw [Op.keep, ite_none_eq_some_iff, Register.apply, live_connect, idForFd_connect, ← h.owns gd]
      by_cases hgd : gd = fd
      · simp [hgd, hcount]
      · simp [hgd, Ne.symm hgd]
    · obtain ⟨hne, hgd⟩ := ite_none_eq_some_iff.mp hgd
      rw [Register.apply, fdExists_connect, if_neg hne.symm, h.typed gd hgd]
  | disconnect fd =>
    refine ⟨?_, fun gd => ?_, fun gd hgd => ?_⟩
    · exact (fdForId_disconnect ..).trans h.getD_keep
    · rw [Op.keep, ite_none_eq_some_iff, Register.apply, live_disconnect, idForFd_disconnect,
        ← h.owns gd, and_assoc, ne_comm]
    · obtain ⟨hne, hgd⟩ := ite_none_eq_some_iff.mp hgd
      rw [Register.apply, fdExists_disconnect hne.symm, h.typed gd hgd]
  | ping fd now =>
    refine ⟨(fdForId_ping ..).trans h.found, fun gd => ?_, fun gd hgd => ?_⟩
    · rw [Op.keep, Register.apply, live_ping, idForFd_ping, h.owns gd]
    · rw [Register.apply, fdExists_ping, h.typed gd hgd]

theorem regCount_apply (s : Registers) (op : Op) :
    (apply s op).regCount = s.regCount + if op.isConnect then 1 else 0 := by
  cases op with
  | connect fd t now => exact regCount_connect ..
  | disconnect fd =>
    rw [apply, disconnect_eq]
    split <;> simp [Op.isConnect, clear]
  | ping fd now =>
    rw [apply, ping]
    split <;> simp [Op.isConnect]

/-- **The owner of an id through a run**, from `n` connects behind its own: before the
counter comes round nothing takes the id over. -/
theorem Owned.run {n : ℕ} (h : Owned id t owner s) (hcount : s.regCount = id + UInt16.ofNat (n + 1))
    (ops : List Op) (hn : n + ops.countP Op.isConnect < 65536) :
    Owned id t (ops.foldl Op.keep owner) (ops.foldl Register.apply s) := by
  induction ops generalizing s owner n with
  | nil => exact h
  | cons op ops ih =>
    rw [List.countP_cons] at hn
    have hne : op.isConnect → s.regCount ≠ id := by
      intro hop heq
      rw [if_pos hop] at hn
      -- the counter is at most 65535 beyond the id
      have hzero : UInt16.ofNat (n + 1) = 0 := by
        rw [hcount] at heq
        exact left_eq_add.mp heq.symm
      have hmod := congrArg UInt16.toNat hzero
      rw [UInt16.toNat_ofNat'] at hmod
      change (n + 1) % 65536 = 0 at hmod
      omega
    have hnext := regCount_apply s op
    rw [List.foldl_cons, List.foldl_cons]
    by_cases hop : op.isConnect
    · rw [if_pos hop] at hn hnext
      refine ih (n := n + 1) (h.apply hne) ?_ (by omega)
      rw [hnext, hcount, UInt16.ofNat_add (n + 1), add_assoc]
      rfl
    · rw [if_neg hop] at hn hnext
      refine ih (n := n) (h.apply hne) ?_ (by omega)
      rw [hnext, hcount, add_zero]

theorem foldl_keep_eq_some_iff (ops : List Op) :
    ops.foldl Op.keep owner = some gd ↔ owner = some gd ∧ ∀ op ∈ ops, op.Stays gd := by
  induction ops generalizing owner with
  | nil => simp
  | cons op ops ih =>
    rw [List.foldl_cons, ih, List.forall_mem_cons, ← and_assoc]
    refine and_congr_left fun _ => ?_
    cases op with
    | connect fd t now | disconnect fd => exact ite_none_eq_some_iff.trans and_comm
    | ping fd now => exact (and_iff_left trivial).symm

theorem not_live_zero_foldl {s₀ : Registers} (h : ¬s.Live 0) (ops : List Op)
    (hops : ∀ op ∈ ops, ZeroFree s₀ op) : ¬(ops.foldl Register.apply s).Live 0 := by
  induction ops generalizing s with
  | nil => exact h
  | cons op ops ih =>
    obtain ⟨hop, hops⟩ := List.forall_mem_cons.mp hops
    have hop : ZeroFree s op := by cases op <;> exact hop
    exact ih (not_live_zero_apply h hop) hops

/-- The lookup of an id that is owned, with descriptor 0 out of the way. -/
theorem Owned.target (h : Owned id t owner s) (hzero : ¬s.Live 0) : target s id = owner := by
  cases owner with
  | none =>
    refine Option.eq_none_iff_forall_ne_some.mpr fun gd hgd => ?_
    obtain ⟨rfl, hlive⟩ := target_eq_some.mp hgd
    rw [h.found] at hlive
    exact hzero hlive
  | some gd => exact target_eq_some.mpr ⟨h.found, ((h.owns gd).mpr rfl).1⟩

/-- The owner of the id that a connect hands out, after the calls that follow. -/
theorem owned_of_fresh (h : Fresh s (.connect fd t now)) {ops : List Op}
    (hfew : ops.countP Op.isConnect < 65536) :
    Owned (s.connect fd t now).1 t (ops.foldl Op.keep (some fd))
      (ops.foldl Register.apply (s.connect fd t now).2) := by
  rw [connect_fst]
  refine (owned_connect h).run (n := 0) ?_ ops (by omega)
  rw [regCount_connect]
  rfl

end

end Register

open HandlerParser Register

/-! ### The delivery loop -/

/-- What `handler_process_request` goes on to do. -/
inductive Handed
  /-- `Handler_notify_leave`. -/
  | leave (id : ℤ)
  /-- `Register_disconnect`. -/
  | disconnect (fd : Fd)
  /-- `deliver_payload`, where the payload may be NULL. -/
  | deliver (raw : Bool) (fd : Fd) (payload : Option (List Byte))
  deriving DecidableEq, Repr

/-- `handler_process_request`. -/
def processRequest (id : ℤ) (fd : Fd) (connType : Option ConnType) (body : List Byte) : Handed :=
  match connType with
  | none => .leave id
  | some connType =>
    if body.length = 0 then .disconnect fd
    else .deliver (connType ≠ .msg) fd (blk2bstr body (intOf body.length))

/-- One round of the loop in `Handler_task`; it is `none` if the id is not in the table. -/
def deliverTarget (body : List Byte) (s : Registers) (target : ℕ) : Option Handed :=
  let id := intOf target
  if 0 ≤ id ∧ id < 65536 then
    let fd := s.fdForId (UInt16.ofNat id.toNat)
    some (processRequest id fd (s.fdExists fd) body)
  else none

/-- The loop over the targets, each with the register as it is when its turn comes. -/
def deliverLoop (msg : List Byte) (parser : HandlerParser) (states : List Registers) :
    List (Option Handed) :=
  List.zipWith (deliverTarget ((msg.drop parser.bodyStart).take parser.bodyLength)) states
    parser.targets

/-! ### The library of the handler -/

namespace Reply

/-- `Connection.send`. -/
def send (uuid connId msg : List Byte) : List Byte :=
  uuid ++ 32 :: (Decimal.write connId.length ++ 58 :: (connId ++ 44 :: 32 :: msg))

/-- `Connection.deliver`. -/
def deliver (uuid : List Byte) (idents : List (List Byte)) (data : List Byte) : List Byte :=
  send uuid (List.intercalate [32] idents) data

theorem isNumeral_write (n : ℕ) : IsNumeral (Decimal.write n) :=
  ⟨Decimal.write_ne_nil n, fun _ => Decimal.isDigit_of_mem_write⟩

theorem strtoul_write {n : ℕ} (h : n < 2 ^ 64) : strtoul (Decimal.write n) = n := by
  rw [strtoul_eq (isNumeral_write n).2, Decimal.value_write]
  omega

theorem length_write_le {n k : ℕ} (h : n < 10 ^ k) (hk : 0 < k) : (Decimal.write n).length ≤ k := by
  unfold Decimal.write
  split
  · exact hk
  · rw [List.length_reverse, List.length_map]
    exact (Nat.digits_length_le_iff (by decide) n).mpr h

theorem identList_intercalate {runs : List (List Byte)} (h : ∀ run ∈ runs, IsNumeral run) :
    IdentList runs (List.intercalate [32] runs) := by
  induction runs with
  | nil => exact .nil
  | cons run runs ih =>
    obtain ⟨hrun, hruns⟩ := List.forall_mem_cons.mp h
    cases runs with
    | nil =>
      rw [List.intercalate_singleton]
      exact .last hrun
    | cons run' runs =>
      rw [List.intercalate_cons_cons, List.append_assoc, List.singleton_append]
      exact .cons hrun (ih hruns)

theorem length_intercalate_le {runs : List (List Byte)} {k : ℕ} (h : ∀ run ∈ runs, run.length ≤ k) :
    (List.intercalate [32] runs).length ≤ (k + 1) * runs.length := by
  induction runs with
  | nil => exact Nat.zero_le _
  | cons run runs ih =>
    obtain ⟨hrun, hruns⟩ := List.forall_mem_cons.mp h
    have hrest := ih hruns
    cases runs with
    | nil =>
      rw [List.intercalate_singleton, List.length_singleton]
      omega
    | cons run' runs =>
      rw [List.intercalate_cons_cons, List.length_cons, Nat.mul_succ]
      simp only [List.length_append, List.length_singleton]
      omega

section

variable {uuid data : List Byte} {ids : List ℕ} {parser : HandlerParser}

/-- The parts of the message that the library makes. -/
def parts (uuid : List Byte) (ids : List ℕ) (data : List Byte) : Parts where
  uuid := uuid
  size := Decimal.write (List.intercalate [32] (ids.map Decimal.write)).length
  runs := ids.map Decimal.write
  list := List.intercalate [32] (ids.map Decimal.write)
  body := data

theorem reads_deliver (huuid : IsName uuid) :
    Reads (deliver uuid (ids.map Decimal.write) data) (parts uuid ids data) := by
  refine ⟨huuid, isNumeral_write _, identList_intercalate ?_, rfl⟩
  exact List.forall_mem_map.mpr fun id _ => isNumeral_write id

/-- **What a handler publishes is what it is parsed as**: the library's message to a list of
ids comes out as that list and as the data. -/
theorem execute_deliver (huuid : IsName uuid) (hlen : uuid.length < 2 ^ 31 - 1)
    (hids : ∀ id ∈ ids, id < 65536) (hroom : ids.length ≤ parser.targetMax)
    (hsize : 6 * ids.length < 2 ^ 31) (behind : List Byte) :
    ∃ r, parser.execute (deliver uuid (ids.map Decimal.write) data) behind = some (1, r) ∧
      r.uuid = some uuid ∧ r.targets = ids ∧
      ((deliver uuid (ids.map Decimal.write) data).drop r.bodyStart).take r.bodyLength = data := by
  have hreads : Reads (deliver uuid (ids.map Decimal.write) data) (parts uuid ids data) :=
    reads_deliver huuid
  have hlist : (parts uuid ids data).list.length < 2 ^ 31 := by
    have hrun : ∀ run ∈ ids.map Decimal.write, run.length ≤ 5 :=
      List.forall_mem_map.mpr fun id hid =>
        length_write_le (lt_trans (hids id hid) (by decide)) (by decide)
    have hle := length_intercalate_le hrun
    rw [List.length_map] at hle
    exact lt_of_le_of_lt hle hsize
  have hvalue : Decimal.value (parts uuid ids data).size = (parts uuid ids data).list.length :=
    Decimal.value_write _
  have hint : ((parts uuid ids data).list.length : ℤ) =
      intOf (strtoul (parts uuid ids data).size) := by
    rw [intOf_strtoul hreads.size.2 (by rw [hvalue]; exact hlist), hvalue]
  refine ⟨_, execute_iff.mpr ⟨parts uuid ids data, hreads, ?_, hint, rfl⟩, ?_, ?_, ?_⟩
  · exact (List.length_map _).trans_le hroom
  · rw [uuid_parsed]
    exact blk2bstr_eq_some_iff.mpr hlen
  · rw [targets_parsed]
    have hsame : ∀ id ∈ ids, strtoul (Decimal.write id) = id := fun id hid =>
      strtoul_write (lt_trans (hids id hid) (by decide))
    calc (ids.map Decimal.write).map strtoul
        = ids.map fun id => strtoul (Decimal.write id) := List.map_map ..
      _ = ids.map id := List.map_congr_left hsame
      _ = ids := List.map_id ids
  · rw [hreads.written, head_append, List.length_append, Nat.add_sub_cancel, List.drop_left]
    exact List.take_length

end

end Reply

/-! ### Requests and their answers -/

/-- A request on its way to a handler: the connect that it came by, the calls to the register
up to where it is sent, and those up to where the answer is handed to it. -/
structure Asked where
  registers : Registers
  fd : Fd
  connType : ConnType
  now : UInt32
  between : List Op
  after : List Op
  request : Request
  pattern : Option (List Byte)
  body : List Byte

namespace Asked

variable (e : Asked)

/-- The id that the connect hands out. -/
def id : Id := (e.registers.connect e.fd e.connType e.now).1

/-- The register as the request is sent. -/
def asked : Registers :=
  e.between.foldl Register.apply (e.registers.connect e.fd e.connType e.now).2

/-- The register as the answer's turn comes. -/
def later : Registers := e.after.foldl Register.apply e.asked

/-- `Request_to_payload`, with what `Register_id_for_fd` answers there. -/
def message (uuid : List Byte) : Option (List Byte) :=
  payload e.request e.pattern uuid (e.asked.idForFd e.fd).toNat e.body

/-- What the handler reads. -/
def delivery (uuid : List Byte) : Delivery :=
  ⟨uuid, e.id.toNat, e.request.path.getD [], headersText e.request e.pattern, e.body⟩

/-- What becomes of an answer. -/
def outcome (data : List Byte) : Handed :=
  if ∀ op ∈ e.after, op.Stays e.fd then
    if data = [] then .disconnect e.fd else .deliver (e.connType ≠ .msg) e.fd (some data)
  else .leave e.id.toNat

/-- The connection has its id for itself and is there as the request is sent, and the counter
does not come round before the answer. -/
structure Connected : Prop where
  fresh : Fresh e.registers (.connect e.fd e.connType e.now)
  zero : ¬e.registers.Live 0
  fd : e.fd ≠ 0
  zeroFree : ∀ op ∈ e.between ++ e.after, ZeroFree e.registers op
  few : (e.between ++ e.after).countP Op.isConnect < 65536
  stays : ∀ op ∈ e.between, op.Stays e.fd

/-- The path of the request is one that was parsed, and an `int` counts the message. -/
structure Whole (uuid : List Byte) : Prop where
  parsed : ∃ (r : Request) (h : List Byte), e.request.path = (r.parse h).1.path
  path : e.request.path ≠ none
  fits : (frame (e.delivery uuid)).length < 2 ^ 31 - 1

variable {e}

theorem Connected.idForFd (h : e.Connected) : e.asked.idForFd e.fd = e.id := by
  have hfew : e.between.countP Op.isConnect < 65536 := by
    have hcount := h.few
    rw [List.countP_append] at hcount
    omega
  exact (((owned_of_fresh h.fresh hfew).owns e.fd).mpr
    ((foldl_keep_eq_some_iff e.between).mpr ⟨rfl, h.stays⟩)).2

/-- What the handler reads is what was sent. -/
theorem parse_message {uuid : List Byte} (h : e.Connected) (hwhole : e.Whole uuid)
    (huuid : IsName uuid) :
    (e.message uuid).bind Delivery.parse = some (e.delivery uuid, []) := by
  have hnot : ∀ {c : Byte}, isUuid c = false → c ∉ uuid := by
    intro c hc hmem
    exact absurd ((huuid.2 c hmem).symm.trans hc) (by decide)
  obtain ⟨p, hpath⟩ := Option.ne_none_iff_exists'.mp hwhole.path
  obtain ⟨r, h₀, hparsed⟩ := hwhole.parsed
  have hp : ∀ c, HttpParser.isTarget c = false → c ∉ p := fun c hc =>
    not_mem_path (hparsed.symm.trans hpath) hc
  have hfits := hwhole.fits
  simp only [delivery, hpath, Option.getD_some] at hfits ⊢
  rw [message, h.idForFd, payload_of_fits hpath (hp 0 rfl) (hnot rfl) (by omega) hfits,
    Option.bind_some]
  exact parse_frame (hnot rfl) (hp _ rfl)

theorem outcome_of_stays {data : List Byte} (h : ∀ op ∈ e.after, op.Stays e.fd)
    (hdata : data.length < 2 ^ 31 - 1) :
    processRequest e.id.toNat e.fd (some e.connType) data = e.outcome data := by
  have hpayload : blk2bstr data (intOf data.length) = some data := blk2bstr_eq_some_iff.mpr hdata
  simp only [processRequest, outcome, if_pos h, hpayload, List.length_eq_zero_iff]

/-- What the loop does with the answer to a request. -/
theorem deliverTarget_later {data : List Byte} (h : e.Connected)
    (hdata : data.length < 2 ^ 31 - 1) :
    deliverTarget data e.later e.id.toNat = some (e.outcome data) := by
  have hlater : e.later = (e.between ++ e.after).foldl Register.apply
      (e.registers.connect e.fd e.connType e.now).2 := (List.foldl_append ..).symm
  have howned := owned_of_fresh h.fresh h.few
  have hstart : ¬(e.registers.connect e.fd e.connType e.now).2.Live 0 :=
    @not_live_zero_apply _ (.connect e.fd e.connType e.now) h.zero h.fd
  have hzero := not_live_zero_foldl hstart (e.between ++ e.after) h.zeroFree
  rw [← hlater] at howned hzero
  have hlt : e.id.toNat < 65536 := e.id.toNat_lt
  have hint : intOf e.id.toNat = e.id.toNat := intOf_of_lt (by omega)
  have hid : UInt16.ofNat (e.id.toNat : ℤ).toNat = e.id := UInt16.ofNat_toNat
  have hrange : 0 ≤ (e.id.toNat : ℤ) ∧ (e.id.toNat : ℤ) < 65536 := by omega
  simp only [deliverTarget, hint, if_pos hrange, hid]
  rw [Option.some_inj, show e.later.fdForId e.id = _ from howned.found]
  cases howner : (e.between ++ e.after).foldl Op.keep (some e.fd) with
  | some gd =>
    obtain ⟨hfd, hstays⟩ := (foldl_keep_eq_some_iff _).mp howner
    obtain rfl := Option.some.inj hfd
    rw [Option.getD_some, howned.typed e.fd howner]
    exact outcome_of_stays (fun op hop => hstays op (List.mem_append_right _ hop)) hdata
  | none =>
    -- the connection was let go, and it was there when the request was sent
    have hgone : ¬∀ op ∈ e.after, op.Stays e.fd := by
      intro hstays
      have hsome := (foldl_keep_eq_some_iff (e.between ++ e.after)).mpr
        ⟨rfl, List.forall_mem_append.mpr ⟨h.stays, hstays⟩⟩
      exact absurd (howner.symm.trans hsome) nofun
    have hnone : e.later.fdExists 0 = none := Option.not_isSome_iff_eq_none.mp hzero
    rw [Option.getD_none, hnone, outcome, if_neg hgone]
    rfl

end Asked

/-- A request for `/a` by descriptor 3, as the first connection. -/
def onlyAsked (after : List Op) : Asked where
  registers := Registers.statics.init
  fd := 3
  connType := .http
  now := 0
  between := [.ping 3 1]
  after := after
  request := (Request.create.parse (bytes "GET /a HTTP/1.1\r\n\r\n")).1
  pattern := none
  body := []

theorem connected_onlyAsked {after : List Op}
    (h : ∀ op ∈ after, ZeroFree Registers.statics.init op)
    (hfew : after.countP Op.isConnect < 65536) : (onlyAsked after).Connected where
  fresh := fun gd _ hlive => absurd hlive (not_live_init _ gd)
  zero := not_live_init _ 0
  fd := (by decide : (3 : Fd) ≠ 0)
  zeroFree := List.forall_mem_append.mpr ⟨List.forall_mem_singleton.mpr trivial, h⟩
  few := by simpa [onlyAsked, Op.isConnect] using hfew
  stays := List.forall_mem_singleton.mpr trivial

theorem whole_onlyAsked (after : List Op) : (onlyAsked after).Whole (bytes "u-1") where
  parsed := ⟨Request.create, bytes "GET /a HTTP/1.1\r\n\r\n", rfl⟩
  path := (by decide : (Request.create.parse (bytes "GET /a HTTP/1.1\r\n\r\n")).1.path ≠ none)
  fits := (by decide : (frame ((onlyAsked []).delivery (bytes "u-1"))).length < 2 ^ 31 - 1)

end Mongrel2
