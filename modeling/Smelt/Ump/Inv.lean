/-
# What one direction of a UMP queue pair always looks like

Three counters wrap at once: the position wraps at the ring size `n`, the epoch is one bit, and
sequence numbers are sixteen bits.  `Inv` ties all of them to two unbounded numbers, the
messages SENT (`S`) and RECEIVED (`R`) in this direction, and to the queued payloads `q`.

The receiver acknowledges only at two places of a lap, so the shared acknowledgement word is
`ackOf n R`, a function of the messages received alone; the sender's cached copy `C` may be
older still.  The chain `C ≤ ackOf n R ≤ R ≤ S ≤ C + n` is what every other fact hangs on: its
two ends bound the ring's occupancy, and its length stays below `2 ^ 16`, so the sixteen-bit
difference in `canSendRaw` is the true one.
-/
import Smelt.Lib.Ring
import Smelt.Ump.Queue

namespace Smelt.Ump

open Ring

/-! ## 1. One direction, and its invariant -/

/-- One direction of a queue pair: the transmitting state of one end, the receiving queue of
the other, and the memory between them. -/
structure Dir where
  tx : Queue
  seqId : UInt16
  lastAck : UInt16
  rx : Queue
  shm : Shm

/-- The direction from `snd` to `rcv`. -/
def Dir.of (snd rcv : Queuepair) (shm : Shm) : Dir :=
  { tx := snd.tx, seqId := snd.seqId, lastAck := snd.lastAck, rx := rcv.rx, shm := shm }

/-- The acknowledgement after `R` receives: everything up to the end of the last lap, and up to
the middle of this one once the middle has been received. -/
def ackOf (n R : ℕ) : ℕ := R / n * n + if n / 2 < R % n then n / 2 + 1 else 0

/-- The state of a direction after `S` messages were sent, `R` received, with payloads `q`
queued and the sender's copy of the acknowledgement at `C`. -/
structure Inv (n S R C : ℕ) (q : List (List Word)) (d : Dir) : Prop where
  pos : 0 < n
  small : n < 65535
  numTx : d.tx.numMsg.toNat = n
  numRx : d.rx.numMsg.toNat = n
  posTx : d.tx.pos.toNat = S % n
  posRx : d.rx.pos.toNat = R % n
  epochTx : d.tx.epoch = phase n S
  epochRx : d.rx.epoch = phase n R
  seqId : d.seqId.toNat = (S + 1) % 65536
  ack : d.shm.lastAck.toNat = ackOf n R % 65536
  cache : d.lastAck.toNat = C % 65536
  cache_le : C ≤ ackOf n R
  room : S ≤ C + n
  count : S = R + q.length
  /-- the control words of the last `n` messages -/
  ctrl : ∀ i, i < S → S ≤ i + n →
    (d.shm.buf (i % n)).ctrl.epoch = epochWord (phase n i) ∧
    (d.shm.buf (i % n)).ctrl.lastAck.toNat = (i + 1) % 65536
  /-- slots the first lap has not reached -/
  fresh : ∀ i, S ≤ i → i < n → (d.shm.buf i).ctrl.epoch = 0
  /-- the payloads of the queued messages -/
  data : ∀ (k : ℕ) (xs : List Word), q[k]? = some xs → ∀ (j : ℕ) (x : Word), xs[j]? = some x →
    (d.shm.buf ((R + k) % n)).data j = x

/-! ## 2. The acknowledgement -/

theorem ackOf_le {n : ℕ} (R : ℕ) : ackOf n R ≤ R := by
  have h := Nat.div_add_mod R n
  rw [Nat.mul_comm] at h
  unfold ackOf
  split <;> omega

/-- At most half a lap is received and not acknowledged. -/
theorem le_ackOf_add {n : ℕ} (hn : 0 < n) (R : ℕ) : R ≤ ackOf n R + n / 2 := by
  have h := Nat.div_add_mod R n
  have hlt := Nat.mod_lt R hn
  rw [Nat.mul_comm] at h
  unfold ackOf
  split <;> omega

/-- Receiving the message in the middle of a lap, or the last one, acknowledges it. -/
theorem ackOf_succ_of_ack {n R : ℕ} (hn : 0 < n) (h : R % n = n / 2 ∨ R % n + 1 = n) :
    ackOf n (R + 1) = R + 1 := by
  have hd := Nat.div_add_mod R n
  have hlt := Nat.mod_lt R hn
  rw [Nat.mul_comm] at hd
  by_cases hl : R % n + 1 = n
  · obtain ⟨h0, h1⟩ := succ_of_last hl
    rw [ackOf, h0, h1, if_neg (by omega), Nat.add_mul, Nat.one_mul]
    omega
  · obtain ⟨h0, h1⟩ := succ_of_not_last hn hl
    rw [ackOf, h0, h1, if_pos (by omega)]
    omega

/-- Receiving any other message acknowledges nothing. -/
theorem ackOf_succ_of_not_ack {n R : ℕ} (hn : 0 < n) (h : R % n ≠ n / 2) (hl : R % n + 1 ≠ n) :
    ackOf n (R + 1) = ackOf n R := by
  obtain ⟨h0, h1⟩ := succ_of_not_last hn hl
  rw [ackOf, ackOf, h0, h1]
  congr 1
  split <;> split <;> omega

theorem ackOf_mono_succ {n : ℕ} (hn : 0 < n) (R : ℕ) : ackOf n R ≤ ackOf n (R + 1) := by
  by_cases h : R % n = n / 2 ∨ R % n + 1 = n
  · rw [ackOf_succ_of_ack hn h]
    exact Nat.le_succ_of_le (ackOf_le R)
  · push Not at h
    rw [ackOf_succ_of_not_ack hn h.1 h.2]

/-- At most `n` messages are queued. -/
theorem Inv.length_le {n S R C : ℕ} {q : List (List Word)} {d : Dir} (h : Inv n S R C q d) :
    q.length ≤ n := by
  have hCR : C ≤ R := Nat.le_trans h.cache_le (ackOf_le R)
  have hroom := h.room
  have hcount := h.count
  omega

/-! ## 3. Advancing a position -/

/-- `advance` takes the queue state of message `i` to that of message `i + 1`. -/
theorem advance_spec {q : Queue} {n i : ℕ} (hn : 0 < n) (hsmall : n < 65535)
    (hnum : q.numMsg.toNat = n) (hpos : q.pos.toNat = i % n) (hep : q.epoch = phase n i) :
    q.advance.numMsg = q.numMsg ∧ q.advance.buf = q.buf ∧
      q.advance.pos.toNat = (i + 1) % n ∧ q.advance.epoch = phase n (i + 1) := by
  have hlt := Nat.mod_lt i hn
  have hnext : (q.pos + 1).toNat = i % n + 1 := by
    rw [UInt16.toNat_add, UInt16.toNat_one, hpos]
    omega
  have hiff : q.pos + 1 = q.numMsg ↔ i % n + 1 = n := by
    rw [← UInt16.toNat_inj, hnext, hnum]
  unfold Queue.advance
  by_cases hl : i % n + 1 = n
  · rw [if_pos (hiff.mpr hl)]
    exact ⟨rfl, rfl, by simp [(succ_of_last hl).1], by simp [phase_succ_of_last hl, hep]⟩
  · rw [if_neg (fun h => hl (hiff.mp h))]
    exact ⟨rfl, rfl, by simp [hnext, (succ_of_not_last hn hl).1],
      by simp [phase_succ_of_not_last hn hl, hep]⟩

theorem epochWord_inj {a b : Bool} : epochWord a = epochWord b ↔ a = b := by
  cases a <;> cases b <;> decide

/-! ## 4. The sender's check -/

/-- The cached copy changes and nothing else does. -/
theorem canSendRaw_frame (qp : Queuepair) (shm : Shm) :
    ∃ a, (canSendRaw qp shm).2 = { qp with lastAck := a } := by
  unfold canSendRaw
  split
  · exact ⟨qp.lastAck, rfl⟩
  · exact ⟨_, rfl⟩

/-- The sixteen-bit difference is the true one: sequence number and acknowledgement are never
more than `n + 1` apart. -/
theorem seq_sub_le_iff {seq ack num : UInt16} {n S C : ℕ} (hsmall : n < 65535)
    (hnum : num.toNat = n) (hseq : seq.toNat = (S + 1) % 65536) (hack : ack.toNat = C % 65536)
    (hCS : C ≤ S) (hroom : S ≤ C + n) : seq - ack ≤ num ↔ S < C + n := by
  rw [UInt16.le_iff_toNat_le, UInt16.toNat_sub, hnum, hseq, hack]
  omega

/-- **The check is exact.**  It answers whether fewer than `n` messages are unacknowledged by
the word in shared memory, although it does not always look at that word; after a positive
answer the cached copy alone shows the room, and it changed only if it did not before. -/
theorem canSendRaw_spec {n S R C : ℕ} {q : List (List Word)} {snd rcv : Queuepair} {shm : Shm}
    (h : Inv n S R C q (.of snd rcv shm)) :
    (canSendRaw snd shm).1 = decide (S < ackOf n R + n) ∧
      ∃ C', Inv n S R C' q (.of (canSendRaw snd shm).2 rcv shm) ∧
        ((canSendRaw snd shm).1 = true → S < C' + n) ∧
        (snd.seqId - snd.lastAck ≤ snd.tx.numMsg → C' = C) := by
  have hRS : R ≤ S := by have := h.count; omega
  have hackR := ackOf_le (n := n) R
  have hcl := h.cache_le
  have hroom := h.room
  have hold : snd.seqId - snd.lastAck ≤ snd.tx.numMsg ↔ S < C + n :=
    seq_sub_le_iff h.small h.numTx h.seqId h.cache (by omega) h.room
  have hnew : snd.seqId - shm.lastAck ≤ snd.tx.numMsg ↔ S < ackOf n R + n :=
    seq_sub_le_iff h.small h.numTx h.seqId h.ack (by omega) (by omega)
  unfold canSendRaw
  by_cases hc : S < C + n
  · rw [if_pos (hold.mpr hc)]
    refine ⟨?_, C, h, fun _ => hc, fun _ => rfl⟩
    simp only [true_eq_decide_iff]
    omega
  · rw [if_neg (fun hh => hc (hold.mp hh))]
    refine ⟨by simp only [queueLastAck]; exact decide_eq_decide.mpr hnew, ackOf n R, ?_, ?_, ?_⟩
    · exact { h with cache := h.ack, cache_le := Nat.le_refl _, room := by omega }
    · intro ht
      exact hnew.mp (of_decide_eq_true ht)
    · intro hcache
      exact absurd (hold.mp hcache) hc

/-! ## 5. Sending -/

/-- One store inside the slot's own payload writes that payload word and nothing else. -/
theorem storeData_spec (shm : Shm) (slot : ℕ) {i : ℕ} (v : Word) (hi : i < 7) :
    (shm.storeData slot i v).lastAck = shm.lastAck ∧
      (∀ s, ((shm.storeData slot i v).buf s).ctrl = (shm.buf s).ctrl) ∧
      ∀ s j, ((shm.storeData slot i v).buf s).data j =
        if s = slot ∧ j = i then v else (shm.buf s).data j := by
  have hdiv : (i + 1) / 8 = 0 := by omega
  have hmod : (i + 1) % 8 = i + 1 := by omega
  simp only [Shm.storeData, hdiv, hmod, Nat.add_zero, Message.setWord, true_and]
  refine ⟨fun s => ?_, fun s j => ?_⟩
  · split <;> rfl
  · by_cases hs : s = slot <;> simp [hs]

/-- The first `k` stores of the payload loop, for a payload that fits its slot. -/
theorem storeRange_spec (shm : Shm) (slot : ℕ) (v : ℕ → Word) (k : ℕ) (hk : k ≤ 7) :
    let shm' := (List.range k).foldl (fun shm i => shm.storeData slot i (v i)) shm
    shm'.lastAck = shm.lastAck ∧ (∀ s, (shm'.buf s).ctrl = (shm.buf s).ctrl) ∧
      ∀ s j, (shm'.buf s).data j = if s = slot ∧ j < k then v j else (shm.buf s).data j := by
  induction k with
  | zero => simp
  | succ k ih =>
    obtain ⟨hack, hctrl, hdata⟩ := ih (by omega)
    obtain ⟨hack', hctrl', hdata'⟩ := storeData_spec
      ((List.range k).foldl (fun shm i => shm.storeData slot i (v i)) shm) slot (v k)
      (by omega : k < 7)
    simp only [List.range_succ, List.foldl_append, List.foldl_cons, List.foldl_nil]
    refine ⟨hack'.trans hack, fun s => (hctrl' s).trans (hctrl s), fun s j => ?_⟩
    rw [hdata', hdata]
    by_cases hs : s = slot
    · by_cases hj : j = k
      · simp [hs, hj]
      · have hlt : j < k ↔ j < k + 1 := by omega
        simp [hs, hj, hlt]
    · simp [hs]

theorem storePayload_spec (shm : Shm) (slot : ℕ) (msg : Msg) (hw : msg.words.toNat ≤ 7) :
    (storePayload shm slot msg).lastAck = shm.lastAck ∧
      (∀ s, ((storePayload shm slot msg).buf s).ctrl = (shm.buf s).ctrl) ∧
      ∀ s j, ((storePayload shm slot msg).buf s).data j =
        if s = slot ∧ j < msg.words.toNat then msg.data j else (shm.buf s).data j :=
  storeRange_spec shm slot msg.data msg.words.toNat hw

/-- With room, what stands in the payload of the next slot does not matter. -/
theorem Inv.scribble {n S R C : ℕ} {q : List (List Word)} {snd rcv : Queuepair} {shm shm' : Shm}
    (h : Inv n S R C q (.of snd rcv shm)) (hroom : S < C + n)
    (hack : shm'.lastAck = shm.lastAck)
    (hctrl : ∀ s, (shm'.buf s).ctrl = (shm.buf s).ctrl)
    (hother : ∀ s, s ≠ S % n → (shm'.buf s).data = (shm.buf s).data) :
    Inv n S R C q (.of snd rcv shm') := by
  have hCR : C ≤ R := Nat.le_trans h.cache_le (ackOf_le R)
  have hcount := h.count
  refine
    { h with
      ack := by simpa [Dir.of, hack] using h.ack
      ctrl := fun i hi hin => by simpa [Dir.of, hctrl] using h.ctrl i hi hin
      fresh := fun i hi hin => by simpa [Dir.of, hctrl] using h.fresh i hi hin
      data := ?_ }
  intro k xs hk j x hx
  have hlen := (List.getElem?_eq_some_iff.mp hk).1
  have hslot : (R + k) % n ≠ S % n := mod_ne_mod (by omega) (by omega)
  simp only [Dir.of]
  rw [hother _ hslot]
  exact h.data k xs hk j x hx

/-- **Writing the control word sends one message**, the payload that stands in the slot. -/
theorem Inv.send {n S R C : ℕ} {q : List (List Word)} {snd rcv : Queuepair} {shm : Shm}
    (h : Inv n S R C q (.of snd rcv shm)) (xs : List Word) (hroom : S < C + n)
    (hxs : ∀ (j : ℕ) (x : Word), xs[j]? = some x → (shm.buf (S % n)).data j = x) :
    Inv n (S + 1) R C (q ++ [xs])
      (.of { snd with tx := snd.tx.advance, seqId := snd.seqId + 1 } rcv
        (shm.storeCtrl (S % n) { epoch := epochWord snd.tx.epoch, lastAck := snd.seqId })) := by
  obtain ⟨hnum, -, hpos, hep⟩ := advance_spec h.pos h.small h.numTx h.posTx h.epochTx
  have hRS := h.count
  have hCR : C ≤ R := Nat.le_trans h.cache_le (ackOf_le R)
  have hseq := h.seqId
  have hepoch := h.epochTx
  simp only [Dir.of] at hseq hepoch
  -- a message less than a lap away is in another slot
  have hne : ∀ i, i < S → S < i + n → i % n ≠ S % n := fun i h1 h2 => mod_ne_mod h1 h2
  refine
    { h with
      numTx := hnum ▸ h.numTx
      posTx := hpos
      epochTx := hep
      seqId := ?_
      ack := by simpa [Shm.storeCtrl, Dir.of] using h.ack
      room := hroom
      count := by simp only [List.length_append, List.length_singleton]; omega
      ctrl := ?_
      fresh := ?_
      data := ?_ }
  · simp only [Dir.of]
    rw [UInt16.toNat_add, UInt16.toNat_one, hseq]
    omega
  · intro i hi hin
    simp only [Dir.of, Shm.storeCtrl]
    by_cases his : i = S
    · subst his
      rw [if_pos rfl]
      exact ⟨by rw [hepoch], hseq⟩
    · rw [if_neg (hne i (by omega) (by omega))]
      exact h.ctrl i (by omega) (by omega)
  · intro i hi hin
    simp only [Dir.of, Shm.storeCtrl]
    have hmod : i ≠ S % n := by
      intro he
      have hle := Nat.mod_le S n
      omega
    rw [if_neg hmod]
    exact h.fresh i (by omega) hin
  · intro k ys hk j y hy
    simp only [Dir.of, Shm.storeCtrl]
    by_cases hkq : k < q.length
    · have hslot : (R + k) % n ≠ S % n := hne (R + k) (by omega) (by omega)
      rw [List.getElem?_append_left hkq] at hk
      rw [if_neg hslot]
      exact h.data k ys hk j y hy
    · have hkeq : k = q.length := by
        have := (List.getElem?_eq_some_iff.mp hk).1
        simp only [List.length_append, List.length_singleton] at this
        omega
      subst hkeq
      have hys : xs = ys := by simpa using hk
      have hS : R + q.length = S := hRS.symm
      rw [hS, if_pos rfl]
      exact hxs j y (hys ▸ hy)

/-! ## 6. Receiving -/

/-- The slots ahead of the receiver carry the epoch it will expect there just as far as messages
are queued. -/
theorem Inv.ready {n S R C : ℕ} {q : List (List Word)} {d : Dir} (h : Inv n S R C q d) {k : ℕ}
    (hk : k < n) : (d.shm.buf ((R + k) % n)).ctrl.epoch = epochWord (phase n (R + k)) ↔
      R + k < S := by
  have hCR : C ≤ R := Nat.le_trans h.cache_le (ackOf_le R)
  have hroom := h.room
  have hRS : R ≤ S := by have := h.count; omega
  constructor
  · intro hepoch
    by_contra hge
    -- nothing queued: the slot still has the epoch of one lap ago, or of no lap at all
    by_cases hfirst : R + k < n
    · rw [Nat.mod_eq_of_lt hfirst, h.fresh (R + k) (by omega) hfirst, phase_of_lt hfirst] at hepoch
      revert hepoch
      decide
    · obtain ⟨i, hi⟩ : ∃ i, R + k = i + n := ⟨R + k - n, by omega⟩
      have hlast := (h.ctrl i (by omega) (by omega)).1
      rw [hi, Nat.add_mod_right, hlast, phase_add h.pos, epochWord_inj] at hepoch
      simp at hepoch
  · intro hlt
    exact (h.ctrl (R + k) hlt (by omega)).1

/-- **Polling is exact**: the slot at the receiver's position carries the receiver's epoch
just when a message is queued. -/
theorem queueCanRecv_spec {n S R C : ℕ} {q : List (List Word)} {d : Dir} (h : Inv n S R C q d) :
    queueCanRecv d.rx d.shm = decide (R < S) := by
  have hready := h.ready h.pos
  rw [Nat.add_zero] at hready
  rw [queueCanRecv, h.posRx, h.epochRx, Bool.eq_iff_iff, beq_iff_eq, decide_eq_true_iff]
  exact hready

/-- The acknowledgement store of `smlt_ump_queue_recv_raw`: in the middle of a lap and at its
end. -/
def ackStore (q : Queue) (shm : Shm) (ctrl : Ctrl) : Shm :=
  if q.pos = q.numMsg >>> 1 ∨ q.pos + 1 = q.numMsg then { shm with lastAck := ctrl.lastAck }
  else shm

/-- The two conditional stores are one. -/
theorem queueRecvRaw_eq (q : Queue) (shm : Shm) :
    queueRecvRaw q shm =
      if (shm.buf q.pos.toNat).ctrl.epoch ≠ epochWord q.epoch then .error [.queueEmpty]
      else .ok (q.advance, ackStore q shm (shm.buf q.pos.toNat).ctrl, q.pos.toNat) := by
  simp only [queueRecvRaw, ackStore]
  by_cases hm : q.pos = q.numMsg >>> 1 <;> by_cases hl : q.pos + 1 = q.numMsg <;> simp [hm, hl]

/-- The acknowledgement store moves the shared word from the acknowledgement of `R` receives
to that of `R + 1`, and touches nothing else. -/
theorem ackStore_spec {n S R C : ℕ} {q : List (List Word)} {snd rcv : Queuepair} {shm : Shm}
    (h : Inv n S R C q (.of snd rcv shm)) (hRS : R < S) :
    (ackStore rcv.rx shm (shm.buf (R % n)).ctrl).buf = shm.buf ∧
      (ackStore rcv.rx shm (shm.buf (R % n)).ctrl).lastAck.toNat = ackOf n (R + 1) % 65536 := by
  have hCR : C ≤ R := Nat.le_trans h.cache_le (ackOf_le R)
  have hroom := h.room
  have hsmall := h.small
  have hposR : rcv.rx.pos.toNat = R % n := h.posRx
  have hnumR : rcv.rx.numMsg.toNat = n := h.numRx
  have hseq : (shm.buf (R % n)).ctrl.lastAck.toNat = (R + 1) % 65536 :=
    (h.ctrl R hRS (by omega)).2
  have hlt := Nat.mod_lt R h.pos
  have hmid : rcv.rx.pos = rcv.rx.numMsg >>> 1 ↔ R % n = n / 2 := by
    rw [← UInt16.toNat_inj, hposR, UInt16.toNat_shiftRight, hnumR]
    simp [Nat.shiftRight_eq_div_pow]
  have hlast : rcv.rx.pos + 1 = rcv.rx.numMsg ↔ R % n + 1 = n := by
    rw [← UInt16.toNat_inj, UInt16.toNat_add, UInt16.toNat_one, hposR, hnumR]
    omega
  unfold ackStore
  by_cases hack : R % n = n / 2 ∨ R % n + 1 = n
  · rw [if_pos (by rwa [hmid, hlast]), ackOf_succ_of_ack h.pos hack]
    exact ⟨rfl, hseq⟩
  · rw [if_neg (by rwa [hmid, hlast])]
    push Not at hack
    rw [ackOf_succ_of_not_ack h.pos hack.1 hack.2]
    exact ⟨rfl, h.ack⟩

/-- **Taking the oldest message.**  The memory changes in the acknowledgement word only. -/
theorem Inv.recv {n S R C : ℕ} {xs : List Word} {q : List (List Word)}
    {snd rcv : Queuepair} {shm shm' : Shm} (h : Inv n S R C (xs :: q) (.of snd rcv shm))
    (hbuf : shm'.buf = shm.buf) (hack : shm'.lastAck.toNat = ackOf n (R + 1) % 65536) :
    Inv n S (R + 1) C q (.of snd { rcv with rx := rcv.rx.advance } shm') := by
  obtain ⟨hnum, -, hpos, hep⟩ := advance_spec h.pos h.small h.numRx h.posRx h.epochRx
  have hcount := h.count
  simp only [List.length_cons] at hcount
  refine
    { h with
      numRx := hnum ▸ h.numRx
      posRx := hpos
      epochRx := hep
      ack := hack
      cache_le := Nat.le_trans h.cache_le (ackOf_mono_succ h.pos R)
      count := by omega
      ctrl := by simpa [Dir.of, hbuf] using h.ctrl
      fresh := by simpa [Dir.of, hbuf] using h.fresh
      data := ?_ }
  intro k ys hk j y hy
  have := h.data (k + 1) ys (by simpa using hk) j y hy
  simp only [Dir.of] at this ⊢
  rwa [hbuf, Nat.add_right_comm, Nat.add_assoc]

/-- The control word of the oldest message, and its payload. -/
theorem Inv.head {n S R C : ℕ} {xs : List Word} {q : List (List Word)} {d : Dir}
    (h : Inv n S R C (xs :: q) d) :
    R < S ∧ (d.shm.buf (R % n)).ctrl.epoch = epochWord (phase n R) ∧
      ∀ (j : ℕ) (x : Word), xs[j]? = some x → (d.shm.buf (R % n)).data j = x := by
  have hCR : C ≤ R := Nat.le_trans h.cache_le (ackOf_le R)
  have hroom := h.room
  have hcount := h.count
  simp only [List.length_cons] at hcount
  exact ⟨by omega, (h.ctrl R (by omega) (by omega)).1, fun j x hx => h.data 0 xs (by simp) j x hx⟩

/-- `smlt_ump_queue_recv_raw` takes the oldest message. -/
theorem queueRecvRaw_spec {n S R C : ℕ} {xs : List Word} {q : List (List Word)}
    {snd rcv : Queuepair} {shm : Shm} (h : Inv n S R C (xs :: q) (.of snd rcv shm)) :
    ∃ shm', queueRecvRaw rcv.rx shm = .ok (rcv.rx.advance, shm', R % n) ∧
      Inv n S (R + 1) C q (.of snd { rcv with rx := rcv.rx.advance } shm') ∧
      ∀ (j : ℕ) (x : Word), xs[j]? = some x → (shm'.buf (R % n)).data j = x := by
  obtain ⟨hRS, hepoch, hdata⟩ := h.head
  obtain ⟨hbuf, hack⟩ := ackStore_spec h hRS
  have hposR : rcv.rx.pos.toNat = R % n := h.posRx
  have hepR : rcv.rx.epoch = phase n R := h.epochRx
  simp only [Dir.of] at hepoch hdata
  refine ⟨_, ?_, h.recv hbuf hack, by rw [hbuf]; exact hdata⟩
  rw [queueRecvRaw_eq, hposR, hepR, if_neg (by simp [hepoch])]

end Smelt.Ump
