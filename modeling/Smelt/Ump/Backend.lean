/-
# UMP behind the queue-pair interface

The layers above a queue pair know it only through its function table.  Here the table that
`smlt_queuepair_create` fills in for UMP is shown to be a FIFO in each direction
(`backend_isFifo`), for every ring size, with the one liveness fact those layers need: although
UMP acknowledges lazily, so that a sender may be refused while part of the ring is already
consumed, it is never refused on a DRAINED direction.
-/
import Smelt.Ump.Refine

namespace Smelt.Ump

/-! ## 1. The table -/

/-- The functions `smlt_queuepair_create` puts into the table for `SMLT_QP_TYPE_UMP`. -/
def backend : Backend where
  State := World
  call := World.call
  canRecv w d := queuepairCanRecv (w.qp d) (w.mem (w.qp d).rx.buf)

/-- The contents of both directions, with rings of `n` messages. -/
def HoldsIn (n : ℕ) (w : World) (q : Side → List (List Word)) : Prop := ∀ d, Rel n d w (q d)

/-- The contents of both directions, for some ring size. -/
def Holds (w : World) (q : Side → List (List Word)) : Prop := ∃ n, ∀ d, Rel n d w (q d)

theorem holds_init {alloc : Side → Option Nat} {numSlots : UInt16} {w : World}
    (h : queuepairInit alloc numSlots = .ok w) : Holds w fun _ => [] :=
  ⟨_, rel_init h⟩

/-! ## 2. Calls that have to turn again -/

/-- A transmitting call that sent nothing found no room. -/
theorem exec_blocks_of_put? {c : Call} {qp : Queuepair} {shm : Shm} (hc : c.transmits = true)
    (hput : c.put? (exec c qp shm).2.2 = none) : c.blocks (exec c qp shm).2.2 = true := by
  cases c with
  | trySend msg =>
    simp only [exec, queuepairTrySend, prepareSend] at hput ⊢
    rcases hcs : canSendRaw qp shm with ⟨b, qp'⟩
    cases b
    · simp [Call.blocks]
    · simp [hcs, Call.put?, success] at hput
  | notify =>
    simp only [exec, queuepairNotify] at hput ⊢
    rcases hcs : canSendRaw qp shm with ⟨b, qp'⟩
    cases b
    · simp [Call.blocks]
    · simp [hcs, Call.put?, success] at hput
  | tryRecv words => cases hc
  | recvNotify => cases hc

/-- A receiving call on an empty direction has to turn again. -/
theorem exec_blocks_of_nil {n S R C : ℕ} {snd rcv : Queuepair} {shm : Shm} {c : Call}
    (h : Inv n S R C [] (.of snd rcv shm)) (hc : c.transmits = false) :
    c.blocks (exec c rcv shm).2.2 = true := by
  have hcan := canRecvRaw_nil h
  have hempty : recvRaw rcv shm = .error [.queueEmpty] := by simp [recvRaw, hcan]
  cases c with
  | trySend msg => cases hc
  | notify => cases hc
  | tryRecv words => simp [exec, queuepairTryRecv, hempty, Call.blocks]
  | recvNotify => simp [exec, queuepairRecvNotify, hcan, Call.blocks]

/-! ## 3. The laws -/

/-- One call, against the contents of both directions. -/
theorem holdsIn_call {n : ℕ} {w : World} {q : Side → List (List Word)} {d : Side} {c : Call}
    (h : HoldsIn n w q) (hw : c.words ≤ 7) :
    ∃ q', HoldsIn n (w.call d c).1 q' ∧
      ∀ s, Run.Follows (Fifo.Step Gets) (q s) (Event.see s ⟨d, c, (w.call d c).2⟩) (q' s) := by
  have hstep : ∀ s, ∃ q', Rel n s (w.call d c).1 q' ∧
      Run.Follows (Fifo.Bounded n Gets) (q s) (Event.see s ⟨d, c, (w.call d c).2⟩) q' :=
    fun s => rel_step (h s) (show Step w ⟨d, c, (w.call d c).2⟩ (w.call d c).1 from rfl) hw
  choose q' hq' hfollow using hstep
  refine ⟨q', hq', fun s => ?_⟩
  have := hfollow s
  cases hsee : Event.see s ⟨d, c, (w.call d c).2⟩ with
  | none => rwa [hsee] at this
  | some e =>
    rw [hsee] at this
    exact this.1

theorem holds_call {w : World} {q : Side → List (List Word)} {d : Side} {c : Call}
    (h : Holds w q) (hw : c.words ≤ 7) :
    ∃ q', Holds (w.call d c).1 q' ∧
      ∀ s, Run.Follows (Fifo.Step Gets) (q s) (Event.see s ⟨d, c, (w.call d c).2⟩) (q' s) := by
  obtain ⟨n, h⟩ := h
  obtain ⟨q', hq', hfollow⟩ := holdsIn_call (d := d) h hw
  exact ⟨q', ⟨n, hq'⟩, hfollow⟩

theorem Rel.size_pos {n : ℕ} {d : Side} {w : World} {q : List (List Word)} (h : Rel n d w q) :
    0 < n := by
  obtain ⟨-, S, R, C, hinv⟩ := h
  exact hinv.pos

/-- **A send that is refused finds half of the ring unreceived**, rounded up. -/
theorem refuse_spec {n : ℕ} {d : Side} {w : World} {q : List (List Word)} {c : Call}
    (h : Rel n d w q) (hw : c.words ≤ 7) (hc : c.transmits = true)
    (hput : c.put? (w.call d c).2 = none) :
    c.blocks (w.call d c).2 = true ∧ n ≤ q.length + n / 2 := by
  obtain ⟨hwired, S, R, C, hinv⟩ := h
  have hreg : region c (w.qp d) = d := by simp [region, hc, (hwired d).1]
  have hret : (w.call d c).2 = (exec c (w.qp d) (w.mem d)).2.2 := by simp [World.call, hreg]
  rw [hret] at hput ⊢
  have hspec := exec_transmits_spec hinv hc hw
  rw [hput] at hspec
  refine ⟨exec_blocks_of_put? hc hput, ?_⟩
  have hcount := hinv.count
  have hhalf := le_ackOf_add hinv.pos R
  omega

/-- **UMP is a FIFO in each direction**, and a drained direction refuses nothing: at most half a
lap is received and not acknowledged. -/
theorem backend_isFifo_in (n : ℕ) : backend.IsFifo (HoldsIn n) where
  put := by
    intro w q d c xs h hw hput
    have hc := transmits_of_put? hput
    obtain ⟨q', hq', hf⟩ := holdsIn_call (d := d) h hw
    have heq : q' = Function.update q d (q d ++ [xs]) := by
      funext s
      have := hf s
      by_cases hs : s = d
      · subst hs
        simp only [Event.see, if_true, show c.put? (w.call s c).2 = some xs from hput,
          Option.map_some] at this
        rw [Fifo.step_send.mp this, Function.update_self]
      · simp only [Event.see, if_neg (Ne.symm hs), got?_of_transmits hc, Option.map_none] at this
        have this : q' s = q s := this
        simp [hs, this]
    exact heq ▸ hq'
  refuse := by
    intro w q d c h hw hc hput
    obtain ⟨q', hq', hf⟩ := holdsIn_call (d := d) h hw
    have heq : q' = q := by
      funext s
      have := hf s
      by_cases hs : s = d
      · subst hs
        simp only [Event.see, if_true, show c.put? (w.call s c).2 = none from hput,
          Option.map_none] at this
        exact this
      · simp only [Event.see, if_neg (Ne.symm hs), got?_of_transmits hc, Option.map_none] at this
        exact this
    obtain ⟨hblocks, hhalf⟩ := refuse_spec (h d) hw hc hput
    refine ⟨hblocks, fun hnil => ?_, heq ▸ hq'⟩
    have hpos := (h d).size_pos
    rw [hnil, List.length_nil] at hhalf
    omega
  got := by
    intro w q d c ys h hw hgot
    have hc := receives_of_got? hgot
    obtain ⟨q', hq', hf⟩ := holdsIn_call (d := d) h hw
    have hne : d.other ≠ d := d.other_ne
    have hother := hf d.other
    simp only [Event.see, if_neg (Ne.symm hne), show c.got? (w.call d c).2 = some ys from hgot,
      Option.map_some] at hother
    obtain ⟨xs, hx, hlen, hag⟩ := Fifo.step_recv.mp hother
    have heq : q' = Function.update q d.other (q' d.other) := by
      funext s
      by_cases hs : s = d
      · subst hs
        have := hf s
        simp only [Event.see, if_true, put?_of_receives hc, Option.map_none] at this
        have this : q' s = q s := this
        simp [this, Ne.symm hne]
      · rw [Side.eq_other hs, Function.update_self]
    exact ⟨hlen, xs, q' d.other, hx, hag, heq ▸ hq'⟩
  empty := by
    intro w q d c h hw hc hgot
    obtain ⟨q', hq', hf⟩ := holdsIn_call (d := d) h hw
    have heq : q' = q := by
      funext s
      have := hf s
      by_cases hs : s = d
      · subst hs
        simp only [Event.see, if_true, put?_of_receives hc, Option.map_none] at this
        exact this
      · simp only [Event.see, if_neg (Ne.symm hs), show c.got? (w.call d c).2 = none from hgot,
          Option.map_none] at this
        exact this
    obtain ⟨hwired, S, R, C, hinv⟩ := h d.other
    simp only [World.view, Side.other_other] at hinv
    have hreg : region c (w.qp d) = d.other := by simp [region, hc, (hwired d).2]
    have hret : (w.call d c).2 = (exec c (w.qp d) (w.mem d.other)).2.2 := by
      simp [World.call, hreg]
    have hgot' : c.got? (exec c (w.qp d) (w.mem d.other)).2.2 = none := by
      rw [← hret]
      exact hgot
    have hspec := exec_receives_spec hinv hc hw
    rw [hgot'] at hspec
    obtain ⟨hnil, -⟩ := hspec
    refine ⟨?_, hnil, heq ▸ hq'⟩
    rw [show (backend.call w d c).2 = _ from hret]
    rw [hnil] at hinv
    exact exec_blocks_of_nil hinv hc
  poll := by
    intro w q d h
    obtain ⟨hwired, S, R, C, hinv⟩ := h d.other
    have hcan := queueCanRecv_spec hinv
    have hcount := hinv.count
    have hlen : R < S ↔ q d.other ≠ [] := by
      rw [← List.length_pos_iff]
      omega
    simp only [World.view, Dir.of, Side.other_other] at hcan
    show queuepairCanRecv (w.qp d) (w.mem (w.qp d).rx.buf) = true ↔ _
    rw [queuepairCanRecv, canRecvRaw, (hwired d).2, hcan, decide_eq_true_iff, hlen]

theorem backend_isFifo : backend.IsFifo Holds := Backend.IsFifo.ofExists backend_isFifo_in

end Smelt.Ump
