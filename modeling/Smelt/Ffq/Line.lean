/-
# One direction of a FastForward queue pair, as a line

The calls of the queue-pair interface as the accesses of `Queue.lean`: `smlt_ffq_queuepair_send` and
`smlt_ffq_queuepair_recv` return `SMLT_ERR_QUEUE_FULL` and `SMLT_ERR_QUEUE_EMPTY`, on which the
loops of the interface turn.  `smlt_ffq_queuepair_notify` and `smlt_ffq_queuepair_recv_notify`
return the same values, and NOTHING turns on them (`unready_returns`).  So the line is a FIFO for
the sessions in which no notification finds the ring full and no `recv0` finds it empty (`Ready`).

A notification is the item of no words, in a slot whose first word is `SMLT_FFQ_SLOT_NOTIFY`: the
items of the line are beginnings of the messages of `FInv`.
-/
import Smelt.Session
import Smelt.Ffq.Refine
import Mathlib.Data.List.Forall2

namespace Smelt.Ffq

/-! ## 1. The accesses of a call -/

/-- The next access of a transmitting call that begins with `first`. -/
def SendPc.next (first : Act) : SendPc → Act
  | .idle => first
  | .store _ num i => if i < (clamp num).toNat then .store else .publish
  | .notify => .publish

/-- The next access of a receiving call that begins with `first`. -/
def RecvPc.next (first : Act) : RecvPc → Act
  | .idle => first
  | .copy num got => if got.length < recvWords num then .load else .clear

/-- `smlt_ffq_queuepair_send`, `smlt_ffq_queuepair_notify`, `smlt_ffq_queuepair_recv` and
`smlt_ffq_queuepair_recv_notify`. -/
def Micro.next (s : Micro) : Call → Act
  | .trySend msg => s.spc.next (.check msg.data msg.words.toUInt16)
  | .notify => s.spc.next .checkNotify
  | .tryRecv words => s.rpc.next (.observe (some words.toUInt16))
  | .recvNotify => s.rpc.next (.observe none)

/-- The result of a call, when the access was its last. -/
def MEvent.returns (c : Call) : MEvent → Option Ret
  | .quiet => none
  | .sending _ => none
  | .receiving _ => none
  | .full => some (.err [.queueFull])
  | .empty => some (.err [.queueEmpty])
  | .sent _ => some (.err success)
  | .rcvd _ ys =>
    match c with
    | .tryRecv _ => some (.msg ys)
    | _ => some (.err success)

/-- A direction of a FastForward queue pair. -/
def line : Line where
  State := Micro
  access s c := (s.act (s.next c)).map fun r => (r.1, r.2.returns c)
  canRecv s := queueCanRecv s.rx s.shm
  receiving s :=
    match s.rpc with
    | .idle => false
    | .copy _ _ => true

/-- A notification has room, and a `recv0` has a message. -/
def Ready (s : Micro) : Call → Prop
  | .notify => s.spc = .idle → queueCanSend s.tx s.shm = true
  | .recvNotify => s.rpc = .idle → queueCanRecv s.rx s.shm = true
  | _ => True

instance : DecidablePred (· = SendPc.idle)
  | .idle => .isTrue rfl
  | .store _ _ _ => .isFalse nofun
  | .notify => .isFalse nofun

instance : DecidablePred (· = RecvPc.idle)
  | .idle => .isTrue rfl
  | .copy _ _ => .isFalse nofun

instance decidableReady (s : Micro) : (c : Call) → Decidable (Ready s c)
  | .notify => inferInstanceAs (Decidable (_ → _))
  | .recvNotify => inferInstanceAs (Decidable (_ → _))
  | .trySend _ | .tryRecv _ => .isTrue trivial

/-- The half of the direction that makes the call is outside all calls, or in this one. -/
def Stands (s : Micro) : Call → Prop
  | .trySend msg =>
    s.spc = .idle ∨ ∃ i, s.spc = .store msg.data msg.words.toUInt16 i
  | .notify => s.spc = .idle ∨ s.spc = .notify
  | .tryRecv words => s.rpc = .idle ∨ ∃ got, s.rpc = .copy (some words.toUInt16) got
  | .recvNotify => s.rpc = .idle ∨ ∃ got, s.rpc = .copy none got

/-- The items `q`, each the beginning of a message. -/
def Carries (s : Micro) (q : List (List Word)) : Prop :=
  ∃ n S R ms, FInv n S R ms s ∧ List.Forall₂ (· <+: ·) q ms

/-- Messages of one to eight words that do not start with the reserved word. -/
def Fits : Call → Prop
  | .trySend msg => 1 ≤ msg.words.toNat ∧ msg.words.toNat ≤ 8 ∧ msg.data 0 ≠ slotEmpty
  | .tryRecv words => words.toNat ≤ 8
  | _ => True

/-! ## 2. A FIFO, when it is ready -/

section Accesses

variable {s s' : Micro} {c : Call} {r : Option Ret} {e : MEvent} {q ms : List (List Word)}
  {n S R : ℕ}

theorem access_eq_some : line.access s c = some (s', r) ↔
    ∃ e, s.act (s.next c) = some (s', e) ∧ e.returns c = r := by
  simp [line]

/-- An end can always make its next access. -/
theorem access_isSome (s : Micro) (c : Call) : ∃ s' r, line.access s c = some (s', r) := by
  have hsend : ∀ first, (∀ s : Micro, s.spc = .idle → ∃ s' e, s.act first = some (s', e)) →
      ∃ s' e, s.act (s.spc.next first) = some (s', e) := by
    intro first hfirst
    cases hspc : s.spc with
    | idle => exact hfirst s hspc
    | store val num i =>
      by_cases hlt : i < (clamp num).toNat <;> simp [SendPc.next, Micro.act, hspc, hlt]
    | notify => simp [SendPc.next, Micro.act, hspc]
  have hrecv : ∀ num, ∃ s' e, s.act (s.rpc.next (.observe num)) = some (s', e) := by
    intro num
    cases hrpc : s.rpc with
    | idle =>
      by_cases hempty : s.shm s.rx.pos.toNat 0 = slotEmpty <;>
        simp [RecvPc.next, Micro.act, hrpc, hempty]
    | copy num got =>
      by_cases hlt : got.length < recvWords num <;> simp [RecvPc.next, Micro.act, hrpc, hlt]
  have hact : ∃ s' e, s.act (s.next c) = some (s', e) := by
    cases c with
    | trySend msg =>
      refine hsend _ fun s hidle => ?_
      cases hcan : queueCanSend s.tx s.shm <;> simp [Micro.act, hidle, hcan]
    | notify =>
      refine hsend _ fun s hidle => ?_
      cases hcan : queueCanSend s.tx s.shm <;> simp [Micro.act, hidle, hcan]
    | tryRecv words => exact hrecv _
    | recvNotify => exact hrecv _
  obtain ⟨s', e, ha⟩ := hact
  exact ⟨s', e.returns c, access_eq_some.mpr ⟨e, ha, rfl⟩⟩

theorem stands_of_spc (h : s.spc = .idle) (hc : c.transmits = true) : Stands s c := by
  cases c with
  | trySend msg => exact .inl h
  | notify => exact .inl h
  | tryRecv words => cases hc
  | recvNotify => cases hc

theorem stands_of_rpc (h : s.rpc = .idle) (hc : c.transmits = false) : Stands s c := by
  cases c with
  | trySend msg => cases hc
  | notify => cases hc
  | tryRecv words => exact .inl h
  | recvNotify => exact .inl h

/-- The calls of the other end stand where they stood. -/
theorem stands_frame_rpc (h : s'.rpc = s.rpc) (c : Call) (hc : c.transmits ≠ true)
    (hs : Stands s c) : Stands s' c := by
  cases c with
  | trySend msg => exact absurd rfl hc
  | notify => exact absurd rfl hc
  | tryRecv words => simpa only [Stands, h] using hs
  | recvNotify => simpa only [Stands, h] using hs

theorem stands_frame_spc (h : s'.spc = s.spc) (c : Call) (hc : c.transmits ≠ false)
    (hs : Stands s c) : Stands s' c := by
  cases c with
  | trySend msg => simpa only [Stands, h] using hs
  | notify => simpa only [Stands, h] using hs
  | tryRecv words => exact absurd rfl hc
  | recvNotify => exact absurd rfl hc

/-- One item more. -/
theorem Carries.concat {xs ys : List Word} (h : FInv n S R (ms ++ [ys]) s)
    (hq : List.Forall₂ (· <+: ·) q ms) (hxs : xs <+: ys) : Carries s (q ++ [xs]) :=
  ⟨n, S, R, _, h, List.rel_append hq (.cons hxs .nil)⟩

/-- A send, which is done when it publishes. -/
theorem access_trySend {msg : Msg} (h : FInv n S R ms s) (hq : List.Forall₂ (· <+: ·) q ms)
    (hs : Stands s (.trySend msg)) (hfits : Fits (.trySend msg))
    (ha : s.act (s.next (.trySend msg)) = some (s', e)) :
    s'.rpc = s.rpc ∧
      ((e.returns (.trySend msg) = none ∧ Carries s' q ∧ Stands s' (.trySend msg)) ∨
        (e = .full ∧ Carries s' q ∧ s'.spc = .idle) ∨
        (∃ xs, e = .sent xs ∧ Carries s' (q ++ [msg.payload]) ∧ s'.spc = .idle)) := by
  obtain ⟨hpos, hle, hval⟩ := hfits
  have hnum := toUInt16_words hle
  rcases hs with hidle | ⟨i, hspc⟩
  · rw [Micro.next, hidle, SendPc.next] at ha
    obtain ⟨-, h'⟩ := finv_check h (hnum ▸ hpos) (hnum ▸ hle) hval ha
    have hq' : Carries s' q := ⟨n, S, R, ms, h', hq⟩
    simp only [Micro.act, hidle] at ha
    split at ha
    · obtain ⟨rfl, rfl⟩ := Prod.mk.inj (Option.some.inj ha)
      exact ⟨rfl, .inl ⟨rfl, hq', .inr ⟨1, rfl⟩⟩⟩
    · obtain ⟨rfl, rfl⟩ := Prod.mk.inj (Option.some.inj ha)
      exact ⟨rfl, .inr (.inl ⟨rfl, hq', hidle⟩)⟩
  · rw [Micro.next, hspc, SendPc.next] at ha
    by_cases hlt : i < (clamp msg.words.toUInt16).toNat
    · rw [if_pos hlt] at ha
      obtain ⟨-, h'⟩ := finv_store h ha
      simp only [Micro.act, hspc, hlt, if_true, Option.some.injEq, Prod.mk.injEq] at ha
      obtain ⟨rfl, rfl⟩ := ha
      exact ⟨rfl, .inl ⟨rfl, ⟨n, S, R, ms, h', hq⟩, .inr ⟨i + 1, rfl⟩⟩⟩
    · rw [if_neg hlt] at ha
      obtain ⟨xs, hsee, -, h'⟩ := finv_publish h ha
      simp only [Micro.act, hspc, hlt, if_false, Option.some.injEq, Prod.mk.injEq] at ha
      obtain ⟨rfl, rfl⟩ := ha
      obtain rfl := Fifo.Ev.send.inj (Option.some.inj hsee)
      refine ⟨rfl, .inr (.inr ⟨_, rfl, .concat h' hq ?_, rfl⟩)⟩
      rw [hnum]
      exact List.prefix_rfl

/-- **A notification that is ready** waits for nothing, and does not fail. -/
theorem access_notify (h : FInv n S R ms s) (hq : List.Forall₂ (· <+: ·) q ms)
    (hs : Stands s .notify) (hready : Ready s .notify)
    (ha : s.act (s.next .notify) = some (s', e)) :
    s'.rpc = s.rpc ∧
      ((e.returns .notify = none ∧ Carries s' q ∧ Stands s' .notify) ∨
        (∃ xs, e = .sent xs ∧ Carries s' (q ++ [[]]) ∧ s'.spc = .idle)) := by
  rcases hs with hidle | hspc
  · rw [Micro.next, hidle, SendPc.next] at ha
    obtain ⟨-, h'⟩ := finv_checkNotify h ha
    have hcan := hready hidle
    simp only [Micro.act, hidle, hcan, if_true, Option.some.injEq, Prod.mk.injEq] at ha
    obtain ⟨rfl, rfl⟩ := ha
    exact ⟨rfl, .inl ⟨rfl, ⟨n, S, R, ms, h', hq⟩, .inr rfl⟩⟩
  · rw [Micro.next, hspc, SendPc.next] at ha
    obtain ⟨xs, hsee, -, h'⟩ := finv_publish h ha
    simp only [Micro.act, hspc, Option.some.injEq, Prod.mk.injEq] at ha
    obtain ⟨rfl, rfl⟩ := ha
    exact ⟨rfl, .inr ⟨_, rfl, .concat h' hq List.nil_prefix, rfl⟩⟩

/-- A receive of `num` words. -/
theorem access_receive {num : Option UInt16} (h : FInv n S R ms s)
    (hq : List.Forall₂ (· <+: ·) q ms)
    (hs : s.rpc = .idle ∨ ∃ got, s.rpc = .copy num got) (c : Call)
    (ha : s.act (s.rpc.next (.observe num)) = some (s', e)) :
    s'.spc = s.spc ∧
      ((e.returns c = none ∧ Carries s' q ∧ ∃ got, s'.rpc = .copy num got) ∨
        (e = .empty ∧ s.rpc = .idle ∧ queueCanRecv s.rx s.shm = false ∧ s' = s) ∨
        (∃ xs rest ys, e = .rcvd num ys ∧ q = xs :: rest ∧ Gets xs (asked num, ys) ∧
          Carries s' rest ∧ s'.rpc = .idle)) := by
  rcases hs with hidle | ⟨got, hrpc⟩
  · rw [hidle, RecvPc.next] at ha
    obtain ⟨-, h'⟩ := finv_observe h ha
    simp only [Micro.act, hidle] at ha
    split at ha
    · rename_i hempty
      obtain ⟨rfl, rfl⟩ := Prod.mk.inj (Option.some.inj ha)
      exact ⟨rfl, .inr (.inl ⟨rfl, hidle, by simp [queueCanRecv, hempty], rfl⟩)⟩
    · obtain ⟨rfl, rfl⟩ := Prod.mk.inj (Option.some.inj ha)
      exact ⟨rfl, .inl ⟨rfl, ⟨n, S, R, ms, h', hq⟩, [], rfl⟩⟩
  · rw [hrpc, RecvPc.next] at ha
    by_cases hlt : got.length < recvWords num
    · rw [if_pos hlt] at ha
      obtain ⟨-, h'⟩ := finv_load h ha
      simp only [Micro.act, hrpc, hlt, if_true, Option.some.injEq, Prod.mk.injEq] at ha
      obtain ⟨rfl, rfl⟩ := ha
      exact ⟨rfl, .inl ⟨rfl, ⟨n, S, R, ms, h', hq⟩, _, rfl⟩⟩
    · rw [if_neg hlt] at ha
      obtain ⟨xs, rest, y, hsee, rfl, ⟨hlen, hag⟩, h'⟩ := finv_clear h ha
      simp only [Micro.act, hrpc, hlt, if_false, Option.some.injEq, Prod.mk.injEq] at ha
      obtain ⟨rfl, rfl⟩ := ha
      obtain rfl := Fifo.Ev.recv.inj (Option.some.inj hsee)
      cases hq with
      | cons hxs hrest =>
        exact ⟨rfl, .inr (.inr ⟨_, _, got, rfl, rfl, ⟨hlen, hag.of_prefix hxs⟩,
          ⟨n, S, _, rest, h', hrest⟩, rfl⟩)⟩

/-! ## 3. The line -/

/-- **A direction of a FastForward queue pair is a FIFO**, when its notifications are ready. -/
theorem line_isFifo : line.IsFifo Fits Ready Carries Stands where
  access := by
    rintro s q c s' r ⟨n, S, R, ms, h, hq⟩ hs hfits hready hl
    obtain ⟨e, ha, rfl⟩ := access_eq_some.mp hl
    cases c with
    | trySend msg =>
      obtain ⟨hrpc, hcases⟩ := access_trySend h hq hs hfits ha
      have hframe := stands_frame_rpc hrpc
      rcases hcases with ⟨hquiet, hq', hs'⟩ | ⟨rfl, hq', hidle⟩ | ⟨xs, rfl, hq', hidle⟩
      · rw [hquiet]
        exact ⟨q, hq', rfl, fun c' _ hc' => by rwa [hc' rfl], hframe⟩
      · exact ⟨q, hq', .inr (.inr ⟨rfl, rfl⟩), fun c' hc' _ => stands_of_spc hidle hc', hframe⟩
      · exact ⟨_, hq', .inl ⟨_, rfl, rfl⟩, fun c' hc' _ => stands_of_spc hidle hc', hframe⟩
    | notify =>
      obtain ⟨hrpc, hcases⟩ := access_notify h hq hs hready ha
      have hframe := stands_frame_rpc hrpc
      rcases hcases with ⟨hquiet, hq', hs'⟩ | ⟨xs, rfl, hq', hidle⟩
      · rw [hquiet]
        exact ⟨q, hq', rfl, fun c' _ hc' => by rwa [hc' rfl], hframe⟩
      · exact ⟨_, hq', .inl ⟨_, rfl, rfl⟩, fun c' hc' _ => stands_of_spc hidle hc', hframe⟩
    | tryRecv words =>
      obtain ⟨hspc, hcases⟩ := access_receive h hq hs (.tryRecv words) ha
      have hframe := stands_frame_spc hspc
      rcases hcases with
        ⟨hquiet, hq', hs'⟩ | ⟨rfl, hidle, -, rfl⟩ |
        ⟨xs, rest, ys, rfl, rfl, ⟨hlen, hag⟩, hq', hidle⟩
      · rw [hquiet]
        exact ⟨q, hq', rfl, fun c' _ hc' => by rw [hc' rfl]; exact .inr hs', hframe⟩
      · exact ⟨q, ⟨n, S, R, ms, h, hq⟩, .inr (.inr ⟨rfl, rfl⟩),
          fun c' hc' _ => stands_of_rpc hidle hc', hframe⟩
      · have hfit : asked (some words.toUInt16) = words.toNat := by
          rw [asked, toUInt16_words hfits]
          exact Nat.min_eq_left hfits
        exact ⟨rest, hq', .inr (.inl ⟨xs, ys, rfl, hlen.trans hfit, hag, rfl⟩),
          fun c' hc' _ => stands_of_rpc hidle hc', hframe⟩
    | recvNotify =>
      obtain ⟨hspc, hcases⟩ := access_receive h hq hs .recvNotify ha
      have hframe := stands_frame_spc hspc
      rcases hcases with
        ⟨hquiet, hq', hs'⟩ | ⟨rfl, hidle, hcan, rfl⟩ | ⟨xs, rest, ys, rfl, rfl, -, hq', hidle⟩
      · rw [hquiet]
        exact ⟨q, hq', rfl, fun c' _ hc' => by rw [hc' rfl]; exact .inr hs', hframe⟩
      · rw [hready hidle] at hcan
        cases hcan
      · exact ⟨rest, hq', .inr (.inl ⟨xs, [], rfl, rfl, List.take_nil, rfl⟩),
          fun c' hc' _ => stands_of_rpc hidle hc', hframe⟩
  poll := by
    rintro s q ⟨n, S, R, ms, h, hq⟩ -
    show queueCanRecv s.rx s.shm = true ↔ q ≠ []
    rw [h.canRecv, ← List.length_pos_iff, ← List.length_pos_iff, hq.length_eq]

/-- **Without that they fail at once**: a notification that finds the ring full, and a `recv0` that
finds it empty, return an error after their first access and have done nothing. -/
theorem unready_returns (h : FInv n S R ms s) (hready : ¬ Ready s c) :
    ∃ e, e ≠ success ∧ c.blocks (.err e) = false ∧ line.access s c = some (s, some (.err e)) := by
  cases c with
  | trySend msg => exact absurd trivial hready
  | tryRecv words => exact absurd trivial hready
  | notify =>
    obtain ⟨hidle, hcan⟩ := Classical.not_imp.mp hready
    refine ⟨[.queueFull], by decide, rfl, access_eq_some.mpr ⟨.full, ?_, rfl⟩⟩
    simp [Micro.next, SendPc.next, Micro.act, hidle, hcan]
  | recvNotify =>
    obtain ⟨hidle, hcan⟩ := Classical.not_imp.mp hready
    have hempty : s.shm s.rx.pos.toNat 0 = slotEmpty := by
      simpa [queueCanRecv, h.dirRx] using hcan
    refine ⟨[.queueEmpty], by decide, rfl, access_eq_some.mpr ⟨.empty, ?_, rfl⟩⟩
    simp [Micro.next, RecvPc.next, Micro.act, hidle, hempty]

end Accesses

/-- A direction of a new queue pair. -/
theorem line_init {alloc : Side → Option Shm} {numSlots : UInt16} {w : World}
    (hslots : 1 ≤ numSlots.toNat) (h : queuepairInit alloc numSlots = .ok w) :
    (∀ d, Carries (Micro.init w d) []) ∧ ∀ d c, Stands (Micro.init w d) c := by
  refine ⟨fun d => ?_, fun d c => ?_⟩
  · obtain ⟨S, R, hinv⟩ := frel_init hslots h d
    exact ⟨_, S, R, [], hinv, .nil⟩
  · cases htr : c.transmits with
    | true => exact stands_of_spc rfl htr
    | false => exact stands_of_rpc rfl htr

end Smelt.Ffq
