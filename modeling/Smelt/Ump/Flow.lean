/-
# UMP flow control is exact, and never refuses a drained ring

`smlt_ump_queuepair_can_send_raw` compares a cached acknowledgement with its sequence number, in
sixteen bits, and looks at the shared word only when the cached one says no.  The receiver writes
that word at two places of a lap.  Neither the cache nor the wrap of the counters nor the lazy
acknowledgement changes the answer:

* it is the answer of comparing the true number of messages sent with the acknowledgement that
  stands in shared memory (`Acked` says which number that is: sixteen bits are enough to tell,
  because the two are never a whole wrap apart);
* and when it is no, at least half of the ring, rounded up, has not been received.

The calls here are those of the RAW interface: a sender prepares a slot, stores what it likes
into the seven payload words of it, and sends it.  So nothing has to be assumed about messages,
and the calls of the queue-pair interface are raw ones (`exec_raw`).
-/
import Smelt.Ump.Refine

namespace Smelt.Ump

open Ring

/-! ## 1. Raw calls -/

/-- A whole call of the raw interface.  `stores` are the stores of a sender into
`msg->data[0 .. 6]` of the slot it was given, in order. -/
inductive RawCall
  | canSend
  | send (stores : List (Fin 7 × Word))
  | notify
  | recv

/-- The raw calls that go through `tx`. -/
def RawCall.transmits : RawCall → Bool
  | .canSend => true
  | .send _ => true
  | .notify => true
  | .recv => false

/-- The raw calls that put a message into the ring. -/
def RawCall.sends : RawCall → Bool
  | .send _ => true
  | .notify => true
  | _ => false

/-- The stores of a sender into its slot. -/
def fillSlot (shm : Shm) (slot : Nat) (stores : List (Fin 7 × Word)) : Shm :=
  stores.foldl (fun shm iv => shm.storeData slot iv.1 iv.2) shm

/-- The effect of a raw call, and whether it said yes: there is room, the message is sent, a
message is received. -/
def rawExec (c : RawCall) (qp : Queuepair) (shm : Shm) : Queuepair × Shm × Bool :=
  match c with
  | .canSend =>
    let r := canSendRaw qp shm
    (r.2, shm, r.1)
  | .send stores =>
    match prepareSend qp shm with
    | (qp, .error _) => (qp, shm, false)
    | (qp, .ok slot) =>
      let r := sendRaw qp (fillSlot shm slot stores) slot
      (r.1, r.2, true)
  | .notify =>
    match canSendRaw qp shm with
    | (false, qp) => (qp, shm, false)
    | (true, qp) =>
      let r := notifyRaw qp shm
      (r.1, r.2, true)
  | .recv =>
    match recvRaw qp shm with
    | .error _ => (qp, shm, false)
    | .ok (qp, shm, _) => (qp, shm, true)

/-- A payload of at most seven words is a list of stores into the slot. -/
theorem storePayload_eq_fillSlot (msg : Msg) (hw : msg.words.toNat ≤ 7) (shm : Shm) (slot : ℕ) :
    storePayload shm slot msg = fillSlot shm slot
      ((List.finRange msg.words.toNat).map fun i => (Fin.castLE hw i, msg.data i)) := by
  have hrange : List.range msg.words.toNat = (List.finRange msg.words.toNat).map Fin.val := by
    simp
  rw [fillSlot, storePayload, hrange, List.foldl_map, List.foldl_map]
  rfl

/-- **The calls of the queue-pair interface are raw calls**, of the same effect. -/
theorem exec_raw (c : Call) (hw : c.words ≤ 7) (qp : Queuepair) (shm : Shm) :
    ∃ r : RawCall, r.transmits = c.transmits ∧ (rawExec r qp shm).1 = (exec c qp shm).1 ∧
      (rawExec r qp shm).2.1 = (exec c qp shm).2.1 := by
  cases c with
  | trySend msg =>
    refine ⟨.send ((List.finRange msg.words.toNat).map fun i => (Fin.castLE hw i, msg.data i)),
      rfl, ?_⟩
    simp only [rawExec, exec, queuepairTrySend, prepareSend]
    rcases hcs : canSendRaw qp shm with ⟨_ | _, qp'⟩
    · exact ⟨rfl, rfl⟩
    · simp only [storePayload_eq_fillSlot msg hw]
      exact ⟨rfl, rfl⟩
  | notify =>
    refine ⟨.notify, rfl, ?_⟩
    simp only [rawExec, exec, queuepairNotify]
    rcases hcs : canSendRaw qp shm with ⟨_ | _, qp'⟩ <;> exact ⟨rfl, rfl⟩
  | tryRecv words =>
    refine ⟨.recv, rfl, ?_⟩
    simp only [rawExec, exec, queuepairTryRecv]
    rcases hr : recvRaw qp shm with e | ⟨qp', shm', slot⟩ <;> exact ⟨rfl, rfl⟩
  | recvNotify =>
    refine ⟨.recv, rfl, ?_⟩
    simp only [rawExec, exec, queuepairRecvNotify]
    by_cases hcan : canRecvRaw qp shm = true
    · rcases hr : recvRaw qp shm with e | ⟨qp', shm', slot⟩ <;> simp [hcan]
    · simp [recvRaw, hcan]

/-! ## 2. One call, against the invariant of its direction -/

/-- The stores of a sender stay in its slot. -/
theorem fillSlot_spec (slot : ℕ) (stores : List (Fin 7 × Word)) (shm : Shm) :
    (fillSlot shm slot stores).lastAck = shm.lastAck ∧
      (∀ s, ((fillSlot shm slot stores).buf s).ctrl = (shm.buf s).ctrl) ∧
      ∀ s, s ≠ slot → ((fillSlot shm slot stores).buf s).data = (shm.buf s).data := by
  induction stores generalizing shm with
  | nil => exact ⟨rfl, fun _ => rfl, fun _ _ => rfl⟩
  | cons iv stores ih =>
    obtain ⟨hack, hctrl, hdata⟩ := ih (shm.storeData slot iv.1 iv.2)
    obtain ⟨hack', hctrl', hdata'⟩ := storeData_spec shm slot iv.2 iv.1.isLt
    refine ⟨hack.trans hack', fun s => (hctrl s).trans (hctrl' s), fun s hs => ?_⟩
    refine (hdata s hs).trans (funext fun j => ?_)
    rw [hdata', if_neg fun h => hs h.1]

/-- Sending a prepared slot, whatever is stored in it. -/
theorem Inv.sendSlot {n S R C : ℕ} {q : List (List Word)} {snd rcv : Queuepair} {shm : Shm}
    (h : Inv n S R C q (.of snd rcv shm)) (stores : List (Fin 7 × Word)) (hroom : S < C + n) :
    Inv n (S + 1) R C (q ++ [[]])
      (.of { snd with tx := snd.tx.advance, seqId := snd.seqId + 1 } rcv
        ((fillSlot shm (S % n) stores).storeCtrl (S % n)
          { epoch := epochWord snd.tx.epoch, lastAck := snd.seqId })) := by
  obtain ⟨hack, hctrl, hdata⟩ := fillSlot_spec (S % n) stores shm
  have hfilled := h.scribble hroom hack hctrl hdata
  exact hfilled.send [] hroom fun j x hx => by simp at hx

/-- **A transmitting raw call** sends a message when it is a send that says yes. -/
theorem rawExec_transmits_spec {n S R C : ℕ} {q : List (List Word)} {snd rcv : Queuepair}
    {shm : Shm} {c : RawCall} (h : Inv n S R C q (.of snd rcv shm)) (hc : c.transmits = true) :
    ∃ C' q', Inv n (S + (c.sends && (rawExec c snd shm).2.2).toNat) R C' q'
      (.of (rawExec c snd shm).1 rcv (rawExec c snd shm).2.1) := by
  obtain ⟨-, C', hinv, hroom, -⟩ := canSendRaw_spec h
  rcases hcs : canSendRaw snd shm with ⟨b, snd'⟩
  rw [hcs] at hinv hroom
  have hposTx : snd'.tx.pos.toNat = S % n := hinv.posTx
  cases c with
  | canSend => exact ⟨C', q, by simpa [rawExec, RawCall.sends, hcs] using hinv⟩
  | send stores =>
    cases b with
    | false => exact ⟨C', q, by simpa [rawExec, RawCall.sends, prepareSend, hcs] using hinv⟩
    | true =>
      have hsent := hinv.sendSlot stores (hroom rfl)
      refine ⟨C', q ++ [[]], ?_⟩
      simpa only [RawCall.sends, Bool.and_self, Bool.toNat_true, rawExec, prepareSend, hcs,
        queueGetNext, sendRaw, queueSend, hposTx] using hsent
  | notify =>
    cases b with
    | false => exact ⟨C', q, by simpa [rawExec, RawCall.sends, hcs] using hinv⟩
    | true =>
      have hsent := hinv.send [] (hroom rfl) fun j x hx => by simp at hx
      refine ⟨C', q ++ [[]], ?_⟩
      simpa only [RawCall.sends, Bool.and_self, Bool.toNat_true, rawExec, hcs, notifyRaw,
        queueNotify, hposTx] using hsent
  | recv => cases hc

/-- **A receive** takes a message when one is there. -/
theorem rawExec_receives_spec {n S R C : ℕ} {q : List (List Word)} {snd rcv : Queuepair}
    {shm : Shm} {c : RawCall} (h : Inv n S R C q (.of snd rcv shm)) (hc : c.transmits = false) :
    ∃ q', Inv n S (R + (rawExec c rcv shm).2.2.toNat) C q'
      (.of snd (rawExec c rcv shm).1 (rawExec c rcv shm).2.1) := by
  cases c with
  | recv =>
    cases q with
    | nil =>
      have hempty : recvRaw rcv shm = .error [.queueEmpty] := by simp [recvRaw, canRecvRaw_nil h]
      exact ⟨[], by simpa [rawExec, hempty] using h⟩
    | cons xs q =>
      obtain ⟨-, rcv', shm', hr, hinv, -⟩ := recvRaw_spec h
      exact ⟨q, by simpa [rawExec, hr] using hinv⟩
  | canSend => cases hc
  | send stores => cases hc
  | notify => cases hc

/-! ## 3. Runs of raw calls -/

/-- Which of the two allocations a raw call goes through. -/
def rawRegion (c : RawCall) (qp : Queuepair) : Side :=
  if c.transmits then qp.tx.buf else qp.rx.buf

/-- A raw call by the end `d`. -/
def World.raw (w : World) (d : Side) (c : RawCall) : World × Bool :=
  let r := rawExec c (w.qp d) (w.mem (rawRegion c (w.qp d)))
  ({ qp := Function.update w.qp d r.1
     mem := Function.update w.mem (rawRegion c (w.qp d)) r.2.1 }, r.2.2)

/-- One raw call of one end, with its answer. -/
structure RawEvent where
  side : Side
  call : RawCall
  done : Bool

/-- The raw calls of the two ends, each as one step. -/
def RawStep (w : World) (e : RawEvent) (w' : World) : Prop := w.raw e.side e.call = (w', e.done)

/-- A raw call, as the step it is. -/
def World.rawAct (w : World) (a : Side × RawCall) : Option (World × RawEvent) :=
  some ((w.raw a.1 a.2).1, ⟨a.1, a.2, (w.raw a.1 a.2).2⟩)

theorem rawStep_of_rawAct (w : World) (a : Side × RawCall) (w' : World) (e : RawEvent)
    (h : w.rawAct a = some (w', e)) : RawStep w e w' := by
  simp only [World.rawAct, Option.some.injEq, Prod.mk.injEq] at h
  obtain ⟨rfl, rfl⟩ := h
  rfl

/-- The call put a message into the direction in which `d` transmits. -/
def RawEvent.sends (d : Side) (e : RawEvent) : Bool := e.side = d && (e.call.sends && e.done)

/-- The call took a message out of the direction in which `d` transmits. -/
def RawEvent.recvs (d : Side) (e : RawEvent) : Bool :=
  e.side = d.other && (!e.call.transmits && e.done)

/-- The messages `d` has sent. -/
def rawSent (d : Side) (tr : List RawEvent) : ℕ := tr.countP (RawEvent.sends d)

/-- The messages of `d` that have been received. -/
def rawRcvd (d : Side) (tr : List RawEvent) : ℕ := tr.countP (RawEvent.recvs d)

/-! ## 4. What a call leaves alone -/

/-- Transmitting does not touch the receiving queue. -/
theorem rawExec_transmits_frame {c : RawCall} (hc : c.transmits = true) (qp : Queuepair)
    (shm : Shm) : (rawExec c qp shm).1.rx = qp.rx ∧ (rawExec c qp shm).1.tx.buf = qp.tx.buf := by
  obtain ⟨a, ha⟩ := canSendRaw_frame qp shm
  rcases hcs : canSendRaw qp shm with ⟨b, qp'⟩
  obtain rfl : qp' = { qp with lastAck := a } := by rw [hcs] at ha; exact ha
  cases c with
  | canSend => simp [rawExec, hcs]
  | send stores => cases b <;> simp [rawExec, prepareSend, hcs, sendRaw, queueSend, advance_buf]
  | notify => cases b <;> simp [rawExec, hcs, notifyRaw, queueNotify, advance_buf]
  | recv => cases hc

/-- Receiving does not touch the transmitting state. -/
theorem rawExec_receives_frame {c : RawCall} (hc : c.transmits = false) (qp : Queuepair)
    (shm : Shm) : ∃ rx, (rawExec c qp shm).1 = { qp with rx := rx } ∧ rx.buf = qp.rx.buf := by
  cases c with
  | recv =>
    rcases hr : recvRaw qp shm with e | ⟨qp', shm', slot⟩
    · exact ⟨qp.rx, by simp [rawExec, hr], rfl⟩
    · exact ⟨qp.rx.advance, by simp [rawExec, hr, recvRaw_frame hr], advance_buf _⟩
  | canSend => cases hc
  | send stores => cases hc
  | notify => cases hc

theorem wired_raw {w : World} (h : Wired w) (d : Side) (c : RawCall) : Wired (w.raw d c).1 := by
  intro s
  by_cases hs : s = d
  · subst hs
    simp only [World.raw, Function.update_self]
    cases hc : c.transmits with
    | true =>
      obtain ⟨h1, h2⟩ := rawExec_transmits_frame hc (w.qp s) (w.mem (rawRegion c (w.qp s)))
      rw [h1, h2]
      exact h s
    | false =>
      obtain ⟨rx, h1, h2⟩ := rawExec_receives_frame hc (w.qp s) (w.mem (rawRegion c (w.qp s)))
      rw [h1]
      exact ⟨(h s).1, h2.trans (h s).2⟩
  · simpa [World.raw, hs] using h s

/-- **The direction of `d` after a raw call** of either end: its transmitting calls and the
other end's receiving calls work on it, and the rest leave it alone. -/
theorem view_raw {w : World} (h : Wired w) (d s : Side) (c : RawCall) :
    (w.raw s c).1.view d =
      if s = d ∧ c.transmits = true then
        .of (rawExec c (w.qp d) (w.mem d)).1 (w.qp d.other) (rawExec c (w.qp d) (w.mem d)).2.1
      else if s = d.other ∧ c.transmits = false then
        .of (w.qp d) (rawExec c (w.qp d.other) (w.mem d)).1
          (rawExec c (w.qp d.other) (w.mem d)).2.1
      else w.view d := by
  have hne := d.other_ne
  by_cases hsd : s = d
  · subst hsd
    cases hc : c.transmits with
    | true =>
      have hreg : rawRegion c (w.qp s) = s := by simp [rawRegion, hc, (h s).1]
      simp [World.view, World.raw, hreg]
    | false =>
      have hreg : rawRegion c (w.qp s) = s.other := by simp [rawRegion, hc, (h s).2]
      obtain ⟨rx, h1, -⟩ := rawExec_receives_frame hc (w.qp s) (w.mem s.other)
      simp [World.view, World.raw, hreg, Ne.symm hne, h1, Dir.of]
  · obtain rfl := Side.eq_other hsd
    cases hc : c.transmits with
    | true =>
      have hreg : rawRegion c (w.qp d.other) = d.other := by simp [rawRegion, hc, (h d.other).1]
      obtain ⟨h1, -⟩ := rawExec_transmits_frame hc (w.qp d.other) (w.mem d.other)
      simp [World.view, World.raw, hreg, Ne.symm hne, h1, Dir.of]
    | false =>
      have hreg : rawRegion c (w.qp d.other) = d := by simp [rawRegion, hc, (h d.other).2]
      simp [World.view, World.raw, hreg, Ne.symm hne]

/-! ## 5. Every reachable state -/

/-- The pointers are as they were set up, and each direction is in the state that its numbers of
messages sent and received say. -/
def Counted (n : ℕ) (tr : List RawEvent) (w : World) : Prop :=
  Wired w ∧ ∀ d, ∃ C q, Inv n (rawSent d tr) (rawRcvd d tr) C q (w.view d)

theorem rawSent_snoc (d : Side) (tr : List RawEvent) (e : RawEvent) :
    rawSent d (tr ++ [e]) = rawSent d tr + (e.sends d).toNat := by
  rw [rawSent, List.countP_append, List.countP_singleton]
  cases e.sends d <;> rfl

theorem rawRcvd_snoc (d : Side) (tr : List RawEvent) (e : RawEvent) :
    rawRcvd d (tr ++ [e]) = rawRcvd d tr + (e.recvs d).toNat := by
  rw [rawRcvd, List.countP_append, List.countP_singleton]
  cases e.recvs d <;> rfl

/-- One raw call keeps the count. -/
theorem counted_step {n : ℕ} {tr : List RawEvent} {w w' : World} {e : RawEvent}
    (h : Counted n tr w) (hstep : RawStep w e w') : Counted n (tr ++ [e]) w' := by
  obtain ⟨hwired, hdirs⟩ := h
  obtain ⟨s, c, b⟩ := e
  simp only [RawStep] at hstep
  obtain rfl : w' = (w.raw s c).1 := by rw [hstep]
  obtain rfl : b = (rawExec c (w.qp s) (w.mem (rawRegion c (w.qp s)))).2.2 :=
    (congrArg Prod.snd hstep).symm
  refine ⟨wired_raw hwired s c, fun d => ?_⟩
  obtain ⟨C, q, hinv⟩ := hdirs d
  have hinv : Inv n (rawSent d tr) (rawRcvd d tr) C q
    (.of (w.qp d) (w.qp d.other) (w.mem d)) := hinv
  rw [view_raw hwired, rawSent_snoc, rawRcvd_snoc]
  cases hc : c.transmits with
  | true =>
    simp only [RawEvent.sends, RawEvent.recvs, hc, Bool.not_true, Bool.false_and, Bool.and_false,
      Bool.toNat_false, Nat.add_zero, and_true]
    by_cases hsd : s = d
    · subst hsd
      have hreg : rawRegion c (w.qp s) = s := by simp [rawRegion, hc, (hwired s).1]
      simpa [hreg] using rawExec_transmits_spec hinv hc
    · simpa [hsd] using ⟨C, q, hinv⟩
  | false =>
    have hsends : c.sends = false := by
      cases c <;> first | rfl | cases hc
    simp only [RawEvent.sends, RawEvent.recvs, hc, hsends, Bool.not_false, Bool.true_and,
      Bool.false_and, Bool.and_false, Bool.toNat_false, Nat.add_zero, and_true]
    by_cases hsd : s = d.other
    · subst hsd
      have hreg : rawRegion c (w.qp d.other) = d := by simp [rawRegion, hc, (hwired d.other).2]
      obtain ⟨q', hinv'⟩ := rawExec_receives_spec hinv hc
      exact ⟨C, q', by simpa [hreg] using hinv'⟩
    · simpa [hsd] using ⟨C, q, hinv⟩

/-- **Every reachable state is counted.** -/
theorem counted_of_run {alloc : Side → Option Nat} {numSlots : UInt16} {w₀ w : World}
    {tr : List RawEvent} (hinit : queuepairInit alloc numSlots = .ok w₀)
    (hrun : Run RawStep w₀ tr w) : Counted (numSlots.toNat - 1) tr w :=
  Run.induct (Counted (numSlots.toNat - 1))
    ⟨wired_init hinit, fun d => ⟨0, [], inv_init hinit d⟩⟩ (fun _ _ _ _ => counted_step) hrun

/-! ## 6. The answer of the check -/

/-- The number that a sixteen-bit acknowledgement stands for when `sent` messages were sent: the
last one of its class. -/
def Acked (sent : ℕ) (word : UInt16) (acked : ℕ) : Prop :=
  acked ≤ sent ∧ sent < acked + 65536 ∧ word.toNat = acked % 65536

/-- There is no second one. -/
theorem Acked.unique {sent : ℕ} {word : UInt16} {a b : ℕ} (ha : Acked sent word a)
    (hb : Acked sent word b) : a = b := by
  obtain ⟨h1, h2, h3⟩ := ha
  obtain ⟨h4, h5, h6⟩ := hb
  omega

/-- **UMP flow control is exact and never starves.**  In every state that raw calls of the two
ends lead to, in any order: `smlt_ump_queuepair_can_send_raw` answers what comparing the number
of messages sent with the acknowledgement word in shared memory would (fewer than
`n = num_slots - 1` are unacknowledged), and when the answer is no, at least half of the ring,
rounded up, has not been received. -/
theorem flow_control_exact {alloc : Side → Option Nat} {numSlots : UInt16} {w₀ w : World}
    {tr : List RawEvent} (hinit : queuepairInit alloc numSlots = .ok w₀)
    (hrun : Run RawStep w₀ tr w) (d : Side) :
    ∃ acked, Acked (rawSent d tr) (w.mem d).lastAck acked ∧
      acked ≤ rawRcvd d tr ∧ rawRcvd d tr ≤ rawSent d tr ∧
      ((canSendRaw (w.qp d) (w.mem d)).1 = true ↔
        rawSent d tr - acked < numSlots.toNat - 1) ∧
      ((canSendRaw (w.qp d) (w.mem d)).1 = false →
        (numSlots.toNat - 1 + 1) / 2 ≤ rawSent d tr - rawRcvd d tr) := by
  obtain ⟨-, hdirs⟩ := counted_of_run hinit hrun
  obtain ⟨C, q, hinv⟩ := hdirs d
  have hle := ackOf_le (n := numSlots.toNat - 1) (rawRcvd d tr)
  have hhalf := le_ackOf_add hinv.pos (rawRcvd d tr)
  have hcount := hinv.count
  have hcache := hinv.cache_le
  have hroom := hinv.room
  have hsmall := hinv.small
  have hans := (canSendRaw_spec hinv).1
  refine ⟨ackOf (numSlots.toNat - 1) (rawRcvd d tr), ⟨by omega, by omega, hinv.ack⟩, hle,
    by omega, ?_, ?_⟩
  · rw [hans, decide_eq_true_iff]
    omega
  · rw [hans, decide_eq_false_iff_not]
    omega

/-- A ring of two messages, filled without the interface: the third send is refused, and after
two receives there is room again. -/
def flowCalls : List (Side × RawCall) :=
  [(.src, .send [(0, 7), (6, 9)]), (.src, .notify), (.src, .send []), (.dst, .recv), (.dst, .recv),
    (.src, .canSend)]

theorem flow_control_exact_two :
    ∃ w₀ tr w acked, queuepairInit (fun _ => some 4096) 3 = .ok w₀ ∧
      Run.drive World.rawAct w₀ flowCalls = some (tr, w) ∧
      rawSent .src tr = 2 ∧ rawRcvd .src tr = 2 ∧
      Acked (rawSent .src tr) (w.mem .src).lastAck acked ∧ acked ≤ rawRcvd .src tr := by
  obtain ⟨w₀, tr, w, hinit, hdrive, hsent, hrcvd⟩ : ∃ w₀ tr w,
      queuepairInit (fun _ => some 4096) 3 = .ok w₀ ∧
      Run.drive World.rawAct w₀ flowCalls = some (tr, w) ∧
      rawSent .src tr = 2 ∧ rawRcvd .src tr = 2 := ⟨_, _, _, rfl, rfl, rfl, rfl⟩
  obtain ⟨acked, hacked, hle, -⟩ :=
    flow_control_exact hinit (Run.of_drive rawStep_of_rawAct hdrive) .src
  exact ⟨w₀, tr, w, acked, hinit, hdrive, hsent, hrcvd, hacked, hle⟩

end Smelt.Ump
