/-
# The FastForward queue pair behind the queue-pair interface

The table that `smlt_queuepair_create` fills in for `SMLT_QP_TYPE_FFQ`.  No call of it waits: a
notification on a full ring returns `SMLT_ERR_QUEUE_FULL`, and a receive on an empty one, with or
without a buffer, returns `SMLT_ERR_QUEUE_EMPTY`.

`struct smlt_msg` counts its words in 32 bits and `smlt_ffq_queuepair_send_raw` takes a
`smlt_ffq_idx_t`, so the count loses its upper half on the way (`queuepairSend`).  A call as a whole
keeps the invariant of `Refine.lean` whatever that leaves of it; only a FIRST word that is the
reserved one breaks it.
-/
import Smelt.Ffq.Refine

namespace Smelt.Ffq

open Ring

/-! ## 1. The table -/

/-- `smlt_ffq_queuepair_send`. -/
def queuepairSend (qp : Queuepair) (shm : Shm) (msg : Msg) : Queuepair × Shm × Errval :=
  let r := queueSendRaw qp.tx shm msg.data msg.words.toUInt16
  ({ qp with tx := r.1 }, r.2.1, r.2.2)

/-- `smlt_ffq_queuepair_notify`. -/
def queuepairNotify (qp : Queuepair) (shm : Shm) : Queuepair × Shm × Errval :=
  let r := queueNotify qp.tx shm
  ({ qp with tx := r.1 }, r.2.1, r.2.2)

/-- `smlt_ffq_queuepair_recv`, into a message of `words` words, and
`smlt_ffq_queuepair_recv_notify`, which passes `NULL`. -/
def queuepairRecv (qp : Queuepair) (shm : Shm) (words : Option UInt32) :
    Queuepair × Shm × Except Errval (List Word) :=
  let r := queueRecvRaw qp.rx shm (words.map UInt32.toUInt16)
  ({ qp with rx := r.1 }, r.2.1, r.2.2)

/-- The effect of a call on the end that makes it and on the memory it goes through. -/
def exec (c : Call) (qp : Queuepair) (shm : Shm) : Queuepair × Shm × Ret :=
  match c with
  | .trySend msg =>
    let r := queuepairSend qp shm msg
    (r.1, r.2.1, .err r.2.2)
  | .notify =>
    let r := queuepairNotify qp shm
    (r.1, r.2.1, .err r.2.2)
  | .tryRecv words =>
    let r := queuepairRecv qp shm (some words)
    (r.1, r.2.1, match r.2.2 with
      | .error e => .err e
      | .ok ws => .msg ws)
  | .recvNotify =>
    let r := queuepairRecv qp shm none
    (r.1, r.2.1, match r.2.2 with
      | .error e => .err e
      | .ok _ => .err success)

/-- Which of the two allocations a call goes through. -/
def region (c : Call) (qp : Queuepair) : Side :=
  if c.transmits then qp.tx.slots else qp.rx.slots

/-- A call by the end `d`. -/
def World.call (w : World) (d : Side) (c : Call) : World × Ret :=
  let r := exec c (w.qp d) (w.mem (region c (w.qp d)))
  ({ qp := Function.update w.qp d r.1
     mem := Function.update w.mem (region c (w.qp d)) r.2.1 }, r.2.2)

/-- The functions `smlt_queuepair_create` puts into the table for `SMLT_QP_TYPE_FFQ`. -/
def backend : Backend where
  State := World
  call := World.call
  canRecv w d := queueCanRecv (w.qp d).rx (w.mem (w.qp d).rx.slots)

/-! ## 2. Whole calls keep the invariant -/

section Calls

variable {n S R : ℕ} {q : List (List Word)} {s : Micro}

/-- The payload loop stores behind the first word of one slot. -/
theorem storeRest_of_ne (shm : Shm) {slot : ℕ} (val : Nat → Word) (num : ℕ) {t : ℕ}
    (ht : t ≠ slot) : storeRest shm slot val num t = shm t := by
  unfold storeRest
  generalize num - 1 = k
  induction k with
  | zero => rfl
  | succ k ih =>
    rw [List.range'_concat, List.foldl_append]
    refine Eq.trans ?_ ih
    funext j
    exact Slots.store_of_ne fun h => absurd h ht

theorem storeRest_word (shm : Shm) (slot : ℕ) (val : Nat → Word) (num j : ℕ) :
    storeRest shm slot val num slot j = if 1 ≤ j ∧ j < num then val j else shm slot j := by
  unfold storeRest
  have key : ∀ k, (List.range' 1 k).foldl (fun shm i => shm.store slot i (val i)) shm slot j =
      if 1 ≤ j ∧ j < 1 + k then val j else shm slot j := by
    intro k
    induction k with
    | zero => simp; omega
    | succ k ih =>
      rw [List.range'_concat, List.foldl_append, List.foldl_cons, List.foldl_nil, Nat.one_mul]
      by_cases hj : j = 1 + k
      · subst hj
        rw [Slots.store_self, if_pos (by omega)]
      · rw [Slots.store_of_ne fun _ => hj, ih]
        have hiff : 1 ≤ j ∧ j < 1 + k ↔ 1 ≤ j ∧ j < 1 + (k + 1) := by omega
        simp only [hiff]
  rw [key]
  have hiff : 1 ≤ j ∧ j < 1 + (num - 1) ↔ 1 ≤ j ∧ j < num := by omega
  simp only [hiff]

/-- The stores of the payload loop touch no queued message. -/
theorem FInv.storeRest (h : FInv n S R q s) (hidle : s.spc = .idle) (hroom : q.length < n)
    (val : Nat → Word) (num : ℕ) :
    FInv n S R q { s with shm := Ffq.storeRest s.shm (S % n) val num } := by
  unfold Ffq.storeRest
  generalize num - 1 = k
  induction k with
  | zero => exact h
  | succ k ih =>
    rw [List.range'_concat, List.foldl_append]
    have hsend : SendOk n S q ((List.foldl (fun shm i => shm.store (S % n) i (val i)) s.shm
        (List.range' 1 k)).store (S % n) (1 + 1 * k) (val (1 + 1 * k))) s.spc := by
      rw [hidle]
      trivial
    exact ih.store hroom (by omega : 1 ≤ 1 + 1 * k) hsend

/-- **A send queues what is left of its payload**, if the ring has room and the payload does not
start with the reserved word. -/
theorem FInv.sendRaw (h : FInv n S R q s) (hidle : s.spc = .idle) {val : Nat → Word}
    (num : UInt16) (hval : val 0 ≠ slotEmpty) (hroom : q.length < n) :
    FInv n (S + 1) R (q ++ [(List.range (clamp num).toNat).map val])
      { s with
        tx := (queueSendRaw s.tx s.shm val num).1
        shm := (queueSendRaw s.tx s.shm val num).2.1 } := by
  have hcan := h.canSend.mpr hroom
  have hword : ∀ (j : ℕ) (x : Word), ((List.range (clamp num).toNat).map val)[j]? = some x →
      (Ffq.storeRest s.shm (S % n) val (clamp num).toNat).store (S % n) 0 (val 0)
        (S % n) j = x := by
    intro j x hx
    obtain ⟨hj, rfl⟩ := List.getElem?_eq_some_iff.mp hx
    simp only [List.length_map, List.length_range] at hj
    simp only [List.getElem_map, List.getElem_range]
    by_cases hzero : j = 0
    · rw [hzero]
      exact Slots.store_self _ _ _ _
    · rw [Slots.store_of_ne fun _ => hzero, storeRest_word, if_pos (by omega)]
  have hsent := (h.storeRest hidle hroom val (clamp num).toNat).publish hroom hval hword
  simp only [queueSendRaw, hcan, Bool.not_true, Bool.false_eq_true, if_false, h.posTx]
  rw [← hidle] at hsent
  exact hsent

theorem FInv.notifyRaw (h : FInv n S R q s) (hidle : s.spc = .idle) (hroom : q.length < n) :
    FInv n (S + 1) R (q ++ [[slotNotify]])
      { s with tx := (queueNotify s.tx s.shm).1, shm := (queueNotify s.tx s.shm).2.1 } := by
  have hcan := h.canSend.mpr hroom
  have hword : ∀ (j : ℕ) (x : Word), [slotNotify][j]? = some x →
      s.shm.store (S % n) 0 slotNotify (S % n) j = x := by
    intro j x hx
    obtain ⟨hj, rfl⟩ := List.getElem?_eq_some_iff.mp hx
    obtain rfl : j = 0 := by simpa using hj
    exact Slots.store_self _ _ _ _
  have hsent := h.publish hroom (by decide : slotNotify ≠ slotEmpty) hword
  simp only [queueNotify, hcan, Bool.not_true, Bool.false_eq_true, if_false, h.posTx]
  rw [← hidle] at hsent
  exact hsent

theorem FInv.recvRaw {xs : List Word} (h : FInv n S R (xs :: q) s) (hidle : s.rpc = .idle)
    (num : Option UInt16) :
    FInv n S (R + 1) q
      { s with
        rx := (queueRecvRaw s.rx s.shm num).1,
        shm := (queueRecvRaw s.rx s.shm num).2.1 } := by
  have htaken : s.shm (R % n) 0 ≠ slotEmpty := by
    rw [← h.posRx]
    exact fun he => List.cons_ne_nil _ _ (h.head.mp he)
  have hclear := h.clear
  simp only [queueRecvRaw, h.posRx, htaken, if_false]
  rw [← hidle] at hclear
  exact hclear

/-- A send that finds no room, and a receive that finds no message, change nothing. -/
theorem queueSendRaw_full {tx : Queue} {shm : Shm} (hcan : queueCanSend tx shm = false)
    (val : Nat → Word) (num : UInt16) : queueSendRaw tx shm val num = (tx, shm, [.queueFull]) := by
  simp [queueSendRaw, hcan]

theorem queueNotify_full {tx : Queue} {shm : Shm} (hcan : queueCanSend tx shm = false) :
    queueNotify tx shm = (tx, shm, [.queueFull]) := by
  simp [queueNotify, hcan]

theorem FInv.recvRaw_nil (h : FInv n S R [] s) (num : Option UInt16) :
    queueRecvRaw s.rx s.shm num = (s.rx, s.shm, .error [.queueEmpty]) := by
  simp only [queueRecvRaw, h.head.mpr rfl, if_true]

end Calls

/-! ## 3. The two ends together -/

/-- The pointers `smlt_ffq_queuepair_init` sets up. -/
def Wired (w : World) : Prop := ∀ d, (w.qp d).tx.slots = d ∧ (w.qp d).rx.slots = d.other

@[simp] theorem advance_slots (q : Queue) : q.advance.slots = q.slots := by
  unfold Queue.advance
  split <;> rfl

/-- Transmitting touches the transmitting queue only, and receiving the receiving one. -/
theorem exec_frame (c : Call) (qp : Queuepair) (shm : Shm) :
    (exec c qp shm).1.tx.slots = qp.tx.slots ∧ (exec c qp shm).1.rx.slots = qp.rx.slots ∧
      if c.transmits then (exec c qp shm).1.rx = qp.rx else (exec c qp shm).1.tx = qp.tx := by
  cases c with
  | trySend msg =>
    refine ⟨?_, rfl, rfl⟩
    simp only [exec, queuepairSend, queueSendRaw]
    split
    · rfl
    · exact advance_slots _
  | notify =>
    refine ⟨?_, rfl, rfl⟩
    simp only [exec, queuepairNotify, queueNotify]
    split
    · rfl
    · exact advance_slots _
  | tryRecv words =>
    refine ⟨rfl, ?_, rfl⟩
    simp only [exec, queuepairRecv, queueRecvRaw]
    split
    · rfl
    · exact advance_slots _
  | recvNotify =>
    refine ⟨rfl, ?_, rfl⟩
    simp only [exec, queuepairRecv, queueRecvRaw]
    split
    · rfl
    · exact advance_slots _

theorem wired_call {w : World} (h : Wired w) (d : Side) (c : Call) : Wired (w.call d c).1 := by
  intro s
  by_cases hs : s = d
  · subst hs
    obtain ⟨htx, hrx, -⟩ := exec_frame c (w.qp s) (w.mem (region c (w.qp s)))
    simp only [World.call, Function.update_self]
    exact ⟨htx.trans (h s).1, hrx.trans (h s).2⟩
  · simpa [World.call, hs] using h s

/-- The direction a transmitting call works on. -/
theorem init_call_tx {w : World} (h : Wired w) {d : Side} {c : Call} (hc : c.transmits = true) :
    Micro.init (w.call d c).1 d = { Micro.init w d with
      tx := (exec c (w.qp d) (w.mem d)).1.tx
      shm := (exec c (w.qp d) (w.mem d)).2.1 } := by
  have hreg : region c (w.qp d) = d := by simp [region, hc, (h d).1]
  simp [Micro.init, World.call, hreg]

/-- The direction a receiving call works on. -/
theorem init_call_rx {w : World} (h : Wired w) {d : Side} {c : Call} (hc : c.transmits = false) :
    Micro.init (w.call d c).1 d.other = { Micro.init w d.other with
      rx := (exec c (w.qp d) (w.mem d.other)).1.rx
      shm := (exec c (w.qp d) (w.mem d.other)).2.1 } := by
  have hreg : region c (w.qp d) = d.other := by simp [region, hc, (h d).2]
  simp [Micro.init, World.call, hreg]

/-- The other calls do not touch it. -/
theorem init_call_other {w : World} (h : Wired w) {d s : Side} {c : Call}
    (hs : c.transmits = !decide (s = d)) : Micro.init (w.call d c).1 s = Micro.init w s := by
  obtain ⟨-, -, hframe⟩ := exec_frame c (w.qp d) (w.mem (region c (w.qp d)))
  by_cases hsd : s = d
  · subst hsd
    have hc : c.transmits = false := by simpa using hs
    have hreg : region c (w.qp s) = s.other := by simp [region, hc, (h s).2]
    have hne : s ≠ s.other := fun e => s.other_ne e.symm
    rw [hc, hreg] at hframe
    simp only [Bool.false_eq_true, if_false] at hframe
    simp [Micro.init, World.call, hreg, hne, hframe]
  · obtain rfl := Side.eq_other hsd
    have hc : c.transmits = true := by simpa using hs
    have hreg : region c (w.qp d) = d := by simp [region, hc, (h d).1]
    rw [hc, hreg] at hframe
    simp only [if_true] at hframe
    simp [Micro.init, World.call, hreg, hframe]

/-- The first word of a message is not the reserved one. -/
def Legal : Call → Prop
  | .trySend msg => msg.data 0 ≠ slotEmpty
  | _ => True

/-- **Every legal call keeps the invariant of the direction it works on.** -/
theorem finv_call {w : World} {n S R : ℕ} {q : List (List Word)} {d s : Side} {c : Call}
    (hwired : Wired w) (h : FInv n S R q (Micro.init w s)) (hc : Legal c) :
    ∃ S' R' q', FInv n S' R' q' (Micro.init (w.call d c).1 s) := by
  by_cases hs : c.transmits = !decide (s = d)
  · rw [init_call_other hwired hs]
    exact ⟨S, R, q, h⟩
  · cases htx : c.transmits with
    | true =>
      obtain rfl : s = d := by simpa [htx] using hs
      rw [init_call_tx hwired htx]
      cases hcan : queueCanSend (w.qp s).tx (w.mem s) with
      | true =>
        have hroom := h.canSend.mp hcan
        cases c with
        | trySend msg => exact ⟨S + 1, R, _, h.sendRaw rfl msg.words.toUInt16 hc hroom⟩
        | notify => exact ⟨S + 1, R, _, h.notifyRaw rfl hroom⟩
        | tryRecv words => cases htx
        | recvNotify => cases htx
      | false =>
        refine ⟨S, R, q, ?_⟩
        cases c with
        | trySend msg =>
          simp only [exec, queuepairSend, queueSendRaw_full hcan]
          exact h
        | notify =>
          simp only [exec, queuepairNotify, queueNotify_full hcan]
          exact h
        | tryRecv words => cases htx
        | recvNotify => cases htx
    | false =>
      have hne : s ≠ d := by simpa [htx] using hs
      obtain rfl := Side.eq_other hne
      rw [init_call_rx hwired htx]
      have hrecv : ∀ num, ∃ S' R' q', FInv n S' R' q' { Micro.init w d.other with
          rx := (queueRecvRaw (w.qp d).rx (w.mem d.other) num).1
          shm := (queueRecvRaw (w.qp d).rx (w.mem d.other) num).2.1 } := by
        intro num
        have hrx : (Micro.init w d.other).rx = (w.qp d).rx := by simp [Micro.init]
        cases q with
        | nil =>
          have hnil := h.recvRaw_nil num
          rw [hrx] at hnil
          refine ⟨S, R, [], ?_⟩
          rw [show queueRecvRaw (w.qp d).rx (w.mem d.other) num = _ from hnil, ← hrx]
          exact h
        | cons xs rest =>
          have hrest := h.recvRaw rfl num
          rw [hrx] at hrest
          exact ⟨S, R + 1, rest, hrest⟩
      cases c with
      | trySend msg => cases htx
      | notify => cases htx
      | tryRecv words => exact hrecv _
      | recvNotify => exact hrecv _

/-- The contents of both directions, outside all calls, for some ring size. -/
def Held (w : World) : Prop := Wired w ∧ ∃ n, ∀ d, ∃ S R q, FInv n S R q (Micro.init w d)

theorem held_init {alloc : Side → Option Shm} {numSlots : UInt16} {w : World}
    (hslots : 1 ≤ numSlots.toNat) (h : queuepairInit alloc numSlots = .ok w) : Held w := by
  refine ⟨?_, numSlots.toNat, fun d => ?_⟩
  · unfold queuepairInit at h
    split at h
    · cases h
    · simp only [queueInitTx, queueInitRx] at h
      split at h
      · cases h
      · obtain rfl := Except.ok.inj h
        intro d
        cases d <;> exact ⟨rfl, rfl⟩
  · obtain ⟨S, R, hinv⟩ := frel_init hslots h d
    exact ⟨S, R, [], hinv⟩

theorem held_call {w : World} {d : Side} {c : Call} (h : Held w) (hc : Legal c) :
    Held (w.call d c).1 := by
  obtain ⟨hwired, n, hinv⟩ := h
  refine ⟨wired_call hwired d c, n, fun s => ?_⟩
  obtain ⟨S, R, q, hs⟩ := hinv s
  exact finv_call hwired hs hc

end Smelt.Ffq
