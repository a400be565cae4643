/-
The connection register (`register.c`).

Two tables of 64·1024 entries: `REGISTRATIONS`, by descriptor, and
`REG_ID_TO_FD`, by id; ids are handed out by a 16-bit counter.

* `connect`, `disconnect`, `ping` and the three lookups, as the code computes
  them;
* `sound_iff_fresh` — the tables stay inverse to each other throughout a run
  exactly if no connect hands out an id that another live descriptor still has;
* `back_always` — an entry of the reverse table is 0 or points at the owner of
  its id, in every state, also after the counter has wrapped;
* `lookupSound_of_zeroFree` — the lookup of `Handler_task` ends at the owner of
  the id as long as descriptor 0 is not registered.

Design notes: descriptors and ids are `UInt16`, the type of the entries of
`REG_ID_TO_FD` and of the counter; the assertion `fd < MAX_REGISTERED_FDS` and
the check `fd >= 0` hold of it by construction.  The entries that `memset`
clears are `none` and 0.
-/
import Mongrel2.Runs
import Mathlib.Data.UInt
import Mathlib.Logic.Function.Basic
import Mathlib.Tactic.Common

namespace Mongrel2

namespace Register

/-- A descriptor below `MAX_REGISTERED_FDS`. -/
abbrev Fd := UInt16

/-- An id, an index of `REG_ID_TO_FD`. -/
abbrev Id := UInt16

/-- `CONN_TYPE_HTTP`, `CONN_TYPE_MSG`, `CONN_TYPE_SOCKET`. -/
inductive ConnType
  | http | msg | socket
  deriving DecidableEq, Repr

/-- `Registration`; a `conn_type` of 0 is `none`. -/
structure Registration where
  connType : Option ConnType
  id : Id
  lastPing : UInt32
  deriving DecidableEq, Repr

/-- The static variables of `register.c`. -/
structure Registers where
  registrations : Fd → Registration
  regCount : UInt16
  regIdToFd : Id → Fd

namespace Registers

/-- The static variables as the program starts. -/
def statics : Registers := ⟨fun _ => ⟨none, 0, 0⟩, 0, fun _ => 0⟩

variable (s : Registers)

/-- `Register_init` clears the tables and leaves the counter alone. -/
def init : Registers :=
  { s with registrations := fun _ => ⟨none, 0, 0⟩, regIdToFd := fun _ => 0 }

/-- `Register_clear`. -/
def clear (fd : Fd) : Registers :=
  { s with
    registrations := Function.update s.registrations fd
      { s.registrations fd with connType := none, lastPing := 0 }
    regIdToFd := Function.update s.regIdToFd (s.registrations fd).id 0 }

/-- `Register_connect`, which returns the id it hands out. -/
def connect (fd : Fd) (connType : ConnType) (now : UInt32) : Id × Registers :=
  -- a stale registration is cleared first
  let s := if (s.registrations fd).connType.isSome then s.clear fd else s
  (s.regCount,
    { registrations := Function.update s.registrations fd ⟨some connType, s.regCount, now⟩
      regCount := s.regCount + 1
      regIdToFd := Function.update s.regIdToFd s.regCount fd })

/-- `Register_disconnect`, `none` for -1.  Either way it also closes `fd`. -/
def disconnect (fd : Fd) : Option Id × Registers :=
  if (s.registrations fd).connType.isSome then
    (some (s.registrations fd).id, s.clear fd)
  else (none, s)

/-- `Register_ping`, `none` for -1. -/
def ping (fd : Fd) (now : UInt32) : Option UInt32 × Registers :=
  if (s.registrations fd).connType.isSome then
    (some now, { s with
      registrations := Function.update s.registrations fd
        { s.registrations fd with lastPing := now } })
  else (none, s)

/-- `Register_fd_exists`. -/
def fdExists (fd : Fd) : Option ConnType := (s.registrations fd).connType

/-- `Register_fd_for_id`. -/
def fdForId (id : Id) : Fd := s.regIdToFd id

/-- `Register_id_for_fd`. -/
def idForFd (fd : Fd) : Id := (s.registrations fd).id

/-- The descriptor has a registration. -/
def Live (fd : Fd) : Prop := (s.fdExists fd).isSome

instance (fd : Fd) : Decidable (s.Live fd) := inferInstanceAs (Decidable (_ = true))

end Registers

open Registers

/-- The calls that change the register. -/
inductive Op
  | connect (fd : Fd) (connType : ConnType) (now : UInt32)
  | disconnect (fd : Fd)
  | ping (fd : Fd) (now : UInt32)
  deriving DecidableEq, Repr

/-- The effect of a call on the tables. -/
def apply (s : Registers) : Op → Registers
  | .connect fd t now => (s.connect fd t now).2
  | .disconnect fd => (s.disconnect fd).2
  | .ping fd now => (s.ping fd now).2

/-- Every call is enabled in every state. -/
def step (s : Registers) (op : Op) : Option Registers := some (apply s op)

/-! ### What each call does to the lookups -/

section lookups

variable (s : Registers) (fd gd : Fd) (id : Id) (t : ConnType) (now : UInt32)

@[simp] theorem not_live_init : ¬ s.init.Live fd := by
  simp [Live, fdExists, init]

@[simp] theorem fdForId_init : s.init.fdForId id = 0 := rfl

theorem live_clear : (s.clear fd).Live gd ↔ gd ≠ fd ∧ s.Live gd := by
  by_cases h : gd = fd <;> simp [Live, fdExists, clear, h]

@[simp] theorem idForFd_clear : (s.clear fd).idForFd gd = s.idForFd gd := by
  by_cases h : gd = fd <;> simp [idForFd, clear, h]

theorem fdForId_clear :
    (s.clear fd).fdForId id = if id = s.idForFd fd then 0 else s.fdForId id := by
  by_cases h : id = (s.registrations fd).id <;> simp [fdForId, idForFd, clear, h]

theorem live_connect : (s.connect fd t now).2.Live gd ↔ gd = fd ∨ s.Live gd := by
  by_cases h : gd = fd
  · simp [Live, fdExists, connect, h]
  · by_cases hs : (s.registrations fd).connType.isSome <;>
      simp [Live, fdExists, connect, clear, h, hs]

theorem idForFd_connect :
    (s.connect fd t now).2.idForFd gd = if gd = fd then s.regCount else s.idForFd gd := by
  by_cases h : gd = fd
  · by_cases hs : (s.registrations fd).connType.isSome <;> simp [idForFd, connect, clear, h, hs]
  · by_cases hs : (s.registrations fd).connType.isSome <;>
      simp [idForFd, connect, clear, h, hs]

theorem fdForId_connect :
    (s.connect fd t now).2.fdForId id =
      if id = s.regCount then fd
      else if s.Live fd ∧ id = s.idForFd fd then 0 else s.fdForId id := by
  by_cases hc : id = s.regCount
  · by_cases hs : (s.registrations fd).connType.isSome <;>
      simp [fdForId, connect, clear, hs, hc]
  · by_cases hs : (s.registrations fd).connType.isSome
    · by_cases hi : id = (s.registrations fd).id
      · have hne : (s.registrations fd).id ≠ s.regCount := hi ▸ hc
        simp [fdForId, idForFd, Live, fdExists, connect, clear, hs, hi, hne]
      · simp [fdForId, idForFd, Live, fdExists, connect, clear, hs, hc, hi]
    · simp [fdForId, Live, fdExists, connect, hs, hc]

theorem regCount_connect : (s.connect fd t now).2.regCount = s.regCount + 1 := by
  by_cases hs : (s.registrations fd).connType.isSome <;> simp [connect, clear, hs]

theorem disconnect_eq : (s.disconnect fd).2 = if s.Live fd then s.clear fd else s := by
  by_cases hs : (s.registrations fd).connType.isSome <;>
    simp [disconnect, Live, fdExists, hs]

theorem connect_fst : (s.connect fd t now).1 = s.regCount := by
  by_cases hs : (s.registrations fd).connType.isSome <;> simp [connect, clear, hs]

theorem live_disconnect : (s.disconnect fd).2.Live gd ↔ gd ≠ fd ∧ s.Live gd := by
  rw [disconnect_eq]
  split
  case isTrue => exact live_clear ..
  case isFalse hf => exact ⟨fun hl => ⟨fun heq => hf (heq ▸ hl), hl⟩, And.right⟩

@[simp] theorem idForFd_disconnect : (s.disconnect fd).2.idForFd gd = s.idForFd gd := by
  rw [disconnect_eq]
  split
  · exact idForFd_clear ..
  · rfl

theorem fdForId_disconnect :
    (s.disconnect fd).2.fdForId id =
      if s.Live fd ∧ id = s.idForFd fd then 0 else s.fdForId id := by
  rw [disconnect_eq]
  by_cases hf : s.Live fd
  · rw [if_pos hf, fdForId_clear]
    simp only [hf, true_and]
  · rw [if_neg hf, if_neg fun h => hf h.1]

theorem disconnect_isSome : (s.disconnect fd).1.isSome ↔ s.Live fd := by
  by_cases hs : (s.registrations fd).connType.isSome <;>
    simp [disconnect, Live, fdExists, hs]

@[simp] theorem live_ping : (s.ping fd now).2.Live gd ↔ s.Live gd := by
  unfold ping
  split
  · by_cases h : gd = fd <;> simp [Live, fdExists, h]
  · rfl

@[simp] theorem idForFd_ping : (s.ping fd now).2.idForFd gd = s.idForFd gd := by
  unfold ping
  split
  · by_cases h : gd = fd <;> simp [idForFd, h]
  · rfl

@[simp] theorem fdForId_ping : (s.ping fd now).2.fdForId id = s.fdForId id := by
  unfold ping
  split <;> rfl

end lookups

/-! ### The tables as inverse to each other -/

/-- Every live descriptor is found back through its id, and no two share one. -/
structure Sound (s : Registers) : Prop where
  found : ∀ fd, s.Live fd → s.fdForId (s.idForFd fd) = fd
  distinct : ∀ fd gd, s.Live fd → s.Live gd → s.idForFd fd = s.idForFd gd → fd = gd

theorem sound_of_found {s : Registers}
    (h : ∀ fd, s.Live fd → s.fdForId (s.idForFd fd) = fd) : Sound s :=
  ⟨h, fun fd gd hf hg heq => by rw [← h fd hf, heq, h gd hg]⟩

/-- The id a connect is about to hand out is not the id of another live
descriptor. -/
def Fresh (s : Registers) : Op → Prop
  | .connect fd _ _ => ∀ gd, gd ≠ fd → s.Live gd → s.idForFd gd ≠ s.regCount
  | .disconnect _ => True
  | .ping _ _ => True

theorem sound_connect_iff {s : Registers} (h : Sound s) (fd : Fd) (t : ConnType) (now : UInt32) :
    Sound (s.connect fd t now).2 ↔ Fresh s (.connect fd t now) := by
  constructor
  · intro hs gd hne hl heq
    have hgd := hs.found gd ((live_connect ..).mpr (.inr hl))
    rw [idForFd_connect, if_neg hne, fdForId_connect, if_pos heq] at hgd
    exact hne hgd.symm
  · intro hfresh
    refine sound_of_found fun gd hl => ?_
    rw [idForFd_connect, fdForId_connect]
    by_cases hgd : gd = fd
    · rw [if_pos hgd, if_pos rfl, hgd]
    · have hl : s.Live gd := ((live_connect ..).mp hl).resolve_left hgd
      rw [if_neg hgd, if_neg (hfresh gd hgd hl), if_neg, h.found gd hl]
      rintro ⟨hf, heq⟩
      exact hgd (h.distinct gd fd hl hf heq)

theorem sound_disconnect {s : Registers} (h : Sound s) (fd : Fd) : Sound (s.disconnect fd).2 := by
  refine sound_of_found fun gd hl => ?_
  obtain ⟨hne, hl⟩ := (live_disconnect ..).mp hl
  rw [idForFd_disconnect, fdForId_disconnect, if_neg, h.found gd hl]
  rintro ⟨hf, heq⟩
  exact hne (h.distinct gd fd hl hf heq)

theorem sound_ping {s : Registers} (h : Sound s) (fd : Fd) (now : UInt32) :
    Sound (s.ping fd now).2 :=
  sound_of_found fun gd hl => by
    rw [idForFd_ping, fdForId_ping, h.found gd ((live_ping ..).mp hl)]

theorem sound_apply_iff {s : Registers} (h : Sound s) (op : Op) :
    Sound (apply s op) ↔ Fresh s op := by
  cases op with
  | connect fd t now => exact sound_connect_iff h fd t now
  | disconnect fd => exact iff_of_true (sound_disconnect h fd) trivial
  | ping fd now => exact iff_of_true (sound_ping h fd now) trivial

theorem sound_init (s : Registers) : Sound s.init :=
  sound_of_found fun fd hl => absurd hl (not_live_init s fd)

/-- **The tables are inverse to each other in every state of a run** exactly if
no connect of the run hands out an id that another live descriptor has. -/
theorem sound_iff_fresh (s : Registers) (ops : List Op) :
    Runs.Always step Sound s.init ops ↔ Runs.Along step Fresh s.init ops := by
  refine Runs.always_iff_along (fun s op _ _ => ⟨_, rfl⟩) ?_ (sound_init s) ops
  rintro s op s' hs hstep
  obtain rfl := Option.some.inj hstep
  exact sound_apply_iff hs op

/-- Reconnecting descriptor `fd` over and over leaves every other registration
alone and runs the counter on. -/
theorem exec_reconnect (s : Registers) (fd : Fd) (t : ConnType) (now : UInt32) (n : ℕ) :
    ∃ s', Runs.exec step s (List.replicate n (.connect fd t now)) = some s' ∧
      s'.regCount = s.regCount + UInt16.ofNat n ∧
      ∀ gd, gd ≠ fd → s'.idForFd gd = s.idForFd gd ∧ (s'.Live gd ↔ s.Live gd) := by
  induction n generalizing s with
  | zero => exact ⟨s, rfl, by simp, fun gd _ => ⟨rfl, Iff.rfl⟩⟩
  | succ n ih =>
    obtain ⟨s', hexec, hcount, hrest⟩ := ih (s.connect fd t now).2
    refine ⟨s', hexec, ?_, fun gd hne => ?_⟩
    · rw [hcount, regCount_connect, UInt16.ofNat_add, add_assoc, add_comm 1]
      rfl
    · obtain ⟨hid, hlive⟩ := hrest gd hne
      rw [hid, hlive, idForFd_connect, if_neg hne, live_connect]
      exact ⟨rfl, or_iff_right hne⟩

/-- When the counter comes round to the id of a descriptor that stayed, the next
connect breaks the tables. -/
theorem not_sound_of_reissued {s : Registers} {fd gd : Fd} (t : ConnType) (now : UInt32)
    (hne : gd ≠ fd) (hl : s.Live gd) (n : ℕ) (hn : s.regCount + UInt16.ofNat n = s.idForFd gd) :
    ¬ Runs.Always step Sound s
      (List.replicate n (.connect fd t now) ++ [.connect fd t now]) := by
  intro h
  obtain ⟨s', hexec, hcount, hrest⟩ := exec_reconnect s fd t now n
  obtain ⟨hid, hlive⟩ := hrest gd hne
  have hsound : Sound (s'.connect fd t now).2 := by
    refine h.last ?_
    rw [Runs.exec_append, hexec]
    rfl
  refine hne (hsound.distinct gd fd ?_ ?_ ?_)
  · exact (live_connect ..).mpr (.inr (hlive.mpr hl))
  · exact (live_connect ..).mpr (.inl rfl)
  · rw [idForFd_connect, idForFd_connect, if_neg hne, if_pos rfl, hid, hcount, hn]

/-- The counter wraps: descriptor 1 connects once and stays, and the last of the
65536 connects on descriptor 2 that follow hands out its id again. -/
theorem not_sound_after_wrap :
    ¬ Runs.Always step Sound statics.init
      (.connect 1 .msg 0 ::
        (List.replicate 65535 (.connect 2 .http 0) ++ [.connect 2 .http 0])) := by
  intro h
  have hn : (1 : UInt16) + UInt16.ofNat 65535 = 0 := by decide
  generalize 65535 = n at h hn
  have hne : (1 : Fd) ≠ 2 := by decide
  have hlive : (apply statics.init (.connect 1 .msg 0)).Live 1 := (live_connect ..).mpr (.inl rfl)
  exact not_sound_of_reissued .http 0 hne hlive n hn (h.2 _ rfl)

/-! ### The lookup of a message's target -/

/-- What the delivery loop of `Handler_task` takes an id to mean: the descriptor
it goes on with, when the lookups find one. -/
def target (s : Registers) (id : Id) : Option Fd :=
  if (s.fdExists (s.fdForId id)).isSome then some (s.fdForId id) else none

/-- The descriptor found for `id`, if any, is registered under `id`. -/
def LookupSound (s : Registers) (id : Id) : Prop :=
  ∀ fd, target s id = some fd → s.Live fd ∧ s.idForFd fd = id

/-- Every entry of the reverse table but 0 points at the registration of its
id. -/
def Back (s : Registers) : Prop :=
  ∀ id, s.fdForId id ≠ 0 → s.Live (s.fdForId id) ∧ s.idForFd (s.fdForId id) = id

theorem back_init (s : Registers) : Back s.init := fun id hne => absurd (fdForId_init s id) hne

theorem back_connect {s : Registers} (h : Back s) (fd : Fd) (t : ConnType) (now : UInt32) :
    Back (s.connect fd t now).2 := by
  intro id hne
  by_cases hc : id = s.regCount
  · rw [fdForId_connect, if_pos hc, live_connect, idForFd_connect, if_pos rfl]
    exact ⟨.inl rfl, hc.symm⟩
  · by_cases hcl : s.Live fd ∧ id = s.idForFd fd
    · rw [fdForId_connect, if_neg hc, if_pos hcl] at hne
      exact absurd rfl hne
    · rw [fdForId_connect, if_neg hc, if_neg hcl] at hne ⊢
      obtain ⟨hl, hid⟩ := h id hne
      -- an entry that pointed at `fd` was the one the stale registration cleared
      have hfd : s.fdForId id ≠ fd := fun heq => hcl ⟨heq ▸ hl, heq ▸ hid.symm⟩
      rw [live_connect, idForFd_connect, if_neg hfd]
      exact ⟨.inr hl, hid⟩

theorem back_disconnect {s : Registers} (h : Back s) (fd : Fd) : Back (s.disconnect fd).2 := by
  intro id hne
  by_cases hcl : s.Live fd ∧ id = s.idForFd fd
  · rw [fdForId_disconnect, if_pos hcl] at hne
    exact absurd rfl hne
  · rw [fdForId_disconnect, if_neg hcl] at hne ⊢
    obtain ⟨hl, hid⟩ := h id hne
    rw [live_disconnect, idForFd_disconnect]
    exact ⟨⟨fun heq => hcl ⟨heq ▸ hl, heq ▸ hid.symm⟩, hl⟩, hid⟩

theorem back_ping {s : Registers} (h : Back s) (fd : Fd) (now : UInt32) :
    Back (s.ping fd now).2 := by
  intro id hne
  rw [fdForId_ping] at hne ⊢
  rw [live_ping, idForFd_ping]
  exact h id hne

theorem back_apply {s : Registers} (h : Back s) (op : Op) : Back (apply s op) := by
  cases op with
  | connect fd t now => exact back_connect h fd t now
  | disconnect fd => exact back_disconnect h fd
  | ping fd now => exact back_ping h fd now

/-- Unlike `Sound`, this survives the wrap of the counter: a connect overwrites
the reverse entry of the id it reissues. -/
theorem back_always (s : Registers) (ops : List Op) : Runs.Always step Back s.init ops := by
  refine Runs.always_of_step ?_ (back_init s) ops
  rintro s op s' h hstep
  obtain rfl := Option.some.inj hstep
  exact back_apply h op

/-- Descriptor 0 is out of the way of `id`: it is not registered, or is
registered under `id`, or `id` has a descriptor other than 0. -/
def ZeroAside (s : Registers) (id : Id) : Prop :=
  s.Live 0 → s.idForFd 0 = id ∨ s.fdForId id ≠ 0

theorem target_eq_some {s : Registers} {id : Id} {fd : Fd} :
    target s id = some fd ↔ s.fdForId id = fd ∧ s.Live fd := by
  unfold target
  split
  case isTrue h =>
    rw [Option.some_inj]
    exact ⟨fun heq => ⟨heq, heq ▸ h⟩, And.left⟩
  case isFalse h =>
    refine iff_of_false (by simp) ?_
    rintro ⟨rfl, hl⟩
    exact h hl

theorem lookupSound_iff_zeroAside {s : Registers} (h : Back s) (id : Id) :
    LookupSound s id ↔ ZeroAside s id := by
  constructor
  · intro hs hlive
    by_cases hz : s.fdForId id = 0
    · exact .inl (hs 0 (target_eq_some.mpr ⟨hz, hlive⟩)).2
    · exact .inr hz
  · intro hz fd ht
    obtain ⟨rfl, hl⟩ := target_eq_some.mp ht
    refine ⟨hl, ?_⟩
    by_cases h0 : s.fdForId id = 0
    · rw [h0] at hl ⊢
      exact (hz hl).resolve_right (absurd h0)
    · exact (h id h0).2

/-- The call does not register descriptor 0. -/
def ZeroFree (_ : Registers) : Op → Prop
  | .connect fd _ _ => fd ≠ 0
  | .disconnect _ => True
  | .ping _ _ => True

theorem not_live_zero_apply {s : Registers} {op : Op} (h : ¬ s.Live 0) (hop : ZeroFree s op) :
    ¬ (apply s op).Live 0 := by
  cases op with
  | connect fd t now =>
    rw [apply, live_connect]
    rintro (heq | hl)
    · exact hop heq.symm
    · exact h hl
  | disconnect fd =>
    rw [apply, live_disconnect]
    exact fun hl => h hl.2
  | ping fd now =>
    rw [apply, live_ping]
    exact h

/-- **No message is handed to a connection other than the owner of its id**, in
any state of a run that never registers descriptor 0; and in any state of any
run the lookup of an id is right exactly if descriptor 0 is aside. -/
theorem lookupSound_of_zeroFree (s : Registers) (ops : List Op) :
    (Runs.Along step ZeroFree s.init ops →
      Runs.Always step (fun s => ∀ id, LookupSound s id) s.init ops) ∧
    Runs.Always step (fun s => ∀ id, LookupSound s id ↔ ZeroAside s id) s.init ops := by
  refine ⟨fun h => ?_, (back_always s ops).mono fun _ h id => lookupSound_iff_zeroAside h id⟩
  have hrun : Runs.Always step (fun s => Back s ∧ ¬ s.Live 0) s.init ops := by
    refine Runs.always_of_along ?_ ⟨back_init s, not_live_init s 0⟩ h
    rintro s op s' ⟨hb, h0⟩ hop hstep
    obtain rfl := Option.some.inj hstep
    exact ⟨back_apply hb op, not_live_zero_apply h0 hop⟩
  exact hrun.mono fun s ⟨hb, h0⟩ id => (lookupSound_iff_zeroAside hb id).mpr fun h => absurd h h0

/-- Two connects and a disconnect that keep off descriptor 0. -/
theorem lookupSound_of_zeroFree_reconnected :
    Runs.Always step (fun s => ∀ id, LookupSound s id) statics.init
      [.connect 3 .http 0, .connect 4 .msg 0, .disconnect 3] :=
  (lookupSound_of_zeroFree statics _).1
    ⟨(by decide : (3 : Fd) ≠ 0), fun _ _ =>
      ⟨(by decide : (4 : Fd) ≠ 0), fun _ _ => ⟨trivial, fun _ _ => trivial⟩⟩⟩

/-- Descriptor 0 connects, and a message to id 5, never issued, is for it. -/
theorem not_lookupSound_zero :
    ¬ Runs.Always step (fun s => ∀ id, LookupSound s id) statics.init [.connect 0 .http 0] := by
  intro h
  have hlast : LookupSound (statics.init.connect 0 .http 0).2 5 := h.last rfl 5
  have hid := (hlast 0 (target_eq_some.mpr ⟨by decide, by decide⟩)).2
  exact absurd hid (by decide)

end Register

end Mongrel2
