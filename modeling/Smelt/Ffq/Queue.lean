/-
# The FastForward queue pair

`inc/backends/ffq/smlt_ffq_queue.h`, `smlt_ffq_queuepair.h` and the two `.c` files beside them.
A queue pair is two rings of slots of eight words, one for each direction.  There is no shared
index and no control word: a slot is free when its FIRST payload word is `SMLT_FFQ_SLOT_EMPTY`, so
sending a message writes that word last, and receiving one puts `SMLT_FFQ_SLOT_EMPTY` back when the
words have been copied.

The functions of section 2 are the calls, each as a whole.  `Micro.act` of section 4 takes them
apart into their single reads and writes of slot words, which the two ends may interleave; a call
that is left alone is its accesses in order (`run_sendRaw`, `run_notify`, `run_recvRaw`).

The number of words of a call is a `smlt_ffq_idx_t`, sixteen bits, and is cut down to eight.
-/
import Smelt.Queuepair
import Smelt.Lib.Slots

namespace Smelt.Ffq

/-! ## 1. The memory -/

/-- `SMLT_FFQ_SLOT_EMPTY`. -/
def slotEmpty : Word := -1

/-- `SMLT_FFQ_SLOT_NOTIFY`. -/
def slotNotify : Word := 0

/-- `SMLT_FFQ_MSG_WORDS`. -/
def msgWords : UInt16 := 8

/-- The slots of one direction, word by word: `slots[slot].data[i]`. -/
abbrev Shm := Slots Word

/-- `smlt_ffq_direction_t`. -/
inductive Direction
  | send
  | recv
  deriving DecidableEq, Repr

/-- `struct smlt_ffq_queue`; `slots` says which of the two allocations the pointer points into,
named by the end that transmits into it. -/
structure Queue where
  slots : Side
  size : UInt16
  pos : UInt16
  direction : Direction
  deriving DecidableEq, Repr

/-- `if (++q->pos == q->size) { q->pos = 0; }`. -/
def Queue.advance (q : Queue) : Queue :=
  if q.pos + 1 = q.size then { q with pos := 0 } else { q with pos := q.pos + 1 }

/-! ## 2. The calls -/

/-- `if (num > SMLT_FFQ_MSG_WORDS) { num = SMLT_FFQ_MSG_WORDS; }`. -/
def clamp (num : UInt16) : UInt16 := if num > msgWords then msgWords else num

/-- A count of at most eight words is not cut. -/
theorem toUInt16_words {words : UInt32} (hw : words.toNat ≤ 8) :
    words.toUInt16.toNat = words.toNat := by
  rw [UInt32.toNat_toUInt16]
  exact Nat.mod_eq_of_lt (by omega)

theorem clamp_words {words : UInt32} (hw : words.toNat ≤ 8) :
    (clamp words.toUInt16).toNat = words.toNat := by
  have hcast := toUInt16_words hw
  have hle : ¬ words.toUInt16 > msgWords := by
    rw [gt_iff_lt, UInt16.lt_iff_toNat_lt, hcast]
    exact Nat.not_lt.mpr hw
  rw [clamp, if_neg hle, hcast]

/-- `smlt_ffq_queue_can_send`. -/
def queueCanSend (q : Queue) (shm : Shm) : Bool :=
  q.direction == .send && shm q.pos.toNat 0 == slotEmpty

/-- The payload loop of `smlt_ffq_queue_send_raw`, which starts at word one. -/
def storeRest (shm : Shm) (slot : Nat) (val : Nat → Word) (num : Nat) : Shm :=
  (List.range' 1 (num - 1)).foldl (fun shm i => shm.store slot i (val i)) shm

/-- `smlt_ffq_queue_send_raw`. -/
def queueSendRaw (q : Queue) (shm : Shm) (val : Nat → Word) (num : UInt16) :
    Queue × Shm × Errval :=
  if !queueCanSend q shm then (q, shm, [.queueFull])
  else
    let slot := q.pos.toNat
    (q.advance, (storeRest shm slot val (clamp num).toNat).store slot 0 (val 0), success)

/-- `smlt_ffq_queue_notify`. -/
def queueNotify (q : Queue) (shm : Shm) : Queue × Shm × Errval :=
  if !queueCanSend q shm then (q, shm, [.queueFull])
  else (q.advance, shm.store q.pos.toNat 0 slotNotify, success)

/-- `smlt_ffq_queue_can_recv`. -/
def queueCanRecv (q : Queue) (shm : Shm) : Bool :=
  q.direction == .recv && shm q.pos.toNat 0 != slotEmpty

/-- How many words a receive copies; `none` is a `NULL` buffer. -/
def recvWords : Option UInt16 → Nat
  | none => 0
  | some num => (clamp num).toNat

/-- `smlt_ffq_queue_recv_raw`: the words copied out, when there was a message. -/
def queueRecvRaw (q : Queue) (shm : Shm) (num : Option UInt16) :
    Queue × Shm × Except Errval (List Word) :=
  let slot := q.pos.toNat
  if shm slot 0 = slotEmpty then (q, shm, .error [.queueEmpty])
  else
    (q.advance, shm.store slot 0 slotEmpty, .ok ((List.range (recvWords num)).map (shm slot)))

/-! ## 3. The queue pair -/

/-- `struct smlt_ffq_queuepair`, one end. -/
structure Queuepair where
  tx : Queue
  rx : Queue
  deriving DecidableEq, Repr

/-- A queue pair with the memory its two ends share. -/
structure World where
  qp : Side → Queuepair
  mem : Side → Shm

/-- The loop of `smlt_ffq_queue_init_tx`. -/
def clearSlots (shm : Shm) (slots : Nat) : Shm :=
  (List.range slots).foldl (fun shm i => shm.store i 0 slotEmpty) shm

/-- `smlt_ffq_queue_init_tx`. -/
def queueInitTx (region : Side) (shm : Shm) (slots : UInt16) : Queue × Shm :=
  ({ slots := region, size := slots, pos := 0, direction := .send }, clearSlots shm slots.toNat)

/-- `smlt_ffq_queue_init_rx`. -/
def queueInitRx (region : Side) (slots : UInt16) : Queue :=
  { slots := region, size := slots, pos := 0, direction := .recv }

/-- `smlt_ffq_queuepair_init`.  `alloc d` is the zeroed memory in which `d` transmits, unless the
allocation fails. -/
def queuepairInit (alloc : Side → Option Shm) (numSlots : UInt16) : Except Errval World :=
  match alloc .dst with
  | none => .error [.mallocFail]
  | some shmSrc =>
    let srcRx := queueInitRx .dst numSlots
    let (dstTx, shmSrc) := queueInitTx .dst shmSrc numSlots
    match alloc .src with
    | none => .error [.queueInit]
    | some shmDst =>
      let dstRx := queueInitRx .src numSlots
      let (srcTx, shmDst) := queueInitTx .src shmDst numSlots
      .ok {
        qp := fun
          | .src => { tx := srcTx, rx := srcRx }
          | .dst => { tx := dstTx, rx := dstRx }
        mem := fun
          | .src => shmDst
          | .dst => shmSrc }

/-! ## 4. The accesses -/

/-- Where the transmitting end stands: between two stores of the send it was called for, with the
`val` and `num` of the caller, or before the store of a notification. -/
inductive SendPc
  | idle
  | store (val : Nat → Word) (num : UInt16) (i : Nat)
  | notify

/-- Where the receiving end stands: it was called for `num` words, and has `got` some. -/
inductive RecvPc
  | idle
  | copy (num : Option UInt16) (got : List Word)

/-- One direction, between two accesses. -/
structure Micro where
  tx : Queue
  rx : Queue
  shm : Shm
  spc : SendPc
  rpc : RecvPc

/-- An access.  `check`, `store`, `publish` are those of a send, `checkNotify` and `publish` those
of a notification, `observe`, `load` and `clear` those of a receive. -/
inductive Act
  | check (val : Nat → Word) (num : UInt16)
  | checkNotify
  | store
  | publish
  | observe (num : Option UInt16)
  | load
  | clear

/-- What an access shows.  A call that goes ahead shows what the caller passed: the words of the
message, or the `num` of a receive.  A send is done when it publishes, a receive when it clears. -/
inductive MEvent
  | quiet
  | full
  | empty
  | sending (xs : List Word)
  | sent (xs : List Word)
  | receiving (num : Option UInt16)
  | rcvd (num : Option UInt16) (ys : List Word)

/-- One access to the memory. -/
def Micro.act (s : Micro) : Act → Option (Micro × MEvent)
  | .check val num =>
    match s.spc with
    | .idle =>
      if queueCanSend s.tx s.shm then
        some ({ s with spc := .store val num 1 }, .sending ((List.range num.toNat).map val))
      else some (s, .full)
    | _ => none
  | .checkNotify =>
    match s.spc with
    | .idle =>
      if queueCanSend s.tx s.shm then some ({ s with spc := .notify }, .sending [slotNotify])
      else some (s, .full)
    | _ => none
  | .store =>
    match s.spc with
    | .store val num i =>
      if i < (clamp num).toNat then
        some ({ s with shm := s.shm.store s.tx.pos.toNat i (val i), spc := .store val num (i + 1) },
          .quiet)
      else none
    | _ => none
  | .publish =>
    match s.spc with
    | .idle => none
    | .store val num i =>
      if i < (clamp num).toNat then none
      else some ({ s with
          tx := s.tx.advance, shm := s.shm.store s.tx.pos.toNat 0 (val 0), spc := .idle },
        .sent ((List.range num.toNat).map val))
    | .notify =>
      some ({ s with
          tx := s.tx.advance, shm := s.shm.store s.tx.pos.toNat 0 slotNotify, spc := .idle },
        .sent [slotNotify])
  | .observe num =>
    match s.rpc with
    | .idle =>
      if s.shm s.rx.pos.toNat 0 = slotEmpty then some (s, .empty)
      else some ({ s with rpc := .copy num [] }, .receiving num)
    | _ => none
  | .load =>
    match s.rpc with
    | .copy num got =>
      if got.length < recvWords num then
        some ({ s with rpc := .copy num (got ++ [s.shm s.rx.pos.toNat got.length]) }, .quiet)
      else none
    | _ => none
  | .clear =>
    match s.rpc with
    | .copy num got =>
      if got.length < recvWords num then none
      else some ({ s with
          rx := s.rx.advance, shm := s.shm.store s.rx.pos.toNat 0 slotEmpty, rpc := .idle },
        .rcvd num got)
    | _ => none

/-- The accesses of the two ends, in any order. -/
def MStep (s : Micro) (e : MEvent) (s' : Micro) : Prop := ∃ a, s.act a = some (s', e)

/-- The direction in which `d` transmits, outside all calls. -/
def Micro.init (w : World) (d : Side) : Micro :=
  { tx := (w.qp d).tx, rx := (w.qp d.other).rx, shm := w.mem d, spc := .idle, rpc := .idle }

/-! ## 5. A call is its accesses -/

/-- The first `k` stores of the payload loop, one by one. -/
theorem run_store (s : Micro) (val : Nat → Word) (num : UInt16) (k : Nat)
    (hk : k ≤ (clamp num).toNat - 1) :
    Run MStep { s with spc := .store val num 1 } (List.replicate k .quiet)
      { s with
        shm := (List.range' 1 k).foldl (fun shm i => shm.store s.tx.pos.toNat i (val i)) s.shm
        spc := .store val num (1 + k) } := by
  induction k with
  | zero => exact .nil
  | succ k ih =>
    rw [List.replicate_succ']
    refine .snoc (ih (by omega)) ⟨.store, ?_⟩
    have hlt : 1 + k < (clamp num).toNat := by omega
    simp [Micro.act, hlt, List.range'_concat, Nat.add_assoc]

/-- **Left alone, the accesses of a send are `smlt_ffq_queue_send_raw`.** -/
theorem run_sendRaw {s : Micro} (hidle : s.spc = .idle) (val : Nat → Word) (num : UInt16)
    (hroom : queueCanSend s.tx s.shm = true) :
    ∃ tr, Run MStep s (tr ++ [.sent ((List.range num.toNat).map val)])
      { s with
        tx := (queueSendRaw s.tx s.shm val num).1
        shm := (queueSendRaw s.tx s.shm val num).2.1 } := by
  have hcheck : MStep s (.sending ((List.range num.toNat).map val))
      { s with spc := .store val num 1 } :=
    ⟨.check val num, by simp [Micro.act, hidle, hroom]⟩
  have hstores := run_store s val num ((clamp num).toNat - 1) (Nat.le_refl _)
  refine ⟨_, (Run.append (.snoc .nil hcheck) hstores).snoc ⟨.publish, ?_⟩⟩
  have hdone : ¬ 1 + ((clamp num).toNat - 1) < (clamp num).toNat := by omega
  simp [Micro.act, hdone, queueSendRaw, hroom, storeRest, hidle]

/-- **Left alone, the accesses of a notification are `smlt_ffq_queue_notify`.** -/
theorem run_notify {s : Micro} (hidle : s.spc = .idle) (hroom : queueCanSend s.tx s.shm = true) :
    Run MStep s [.sending [slotNotify], .sent [slotNotify]]
      { s with tx := (queueNotify s.tx s.shm).1, shm := (queueNotify s.tx s.shm).2.1 } := by
  have hcheck : MStep s (.sending [slotNotify]) { s with spc := .notify } :=
    ⟨.checkNotify, by simp [Micro.act, hidle, hroom]⟩
  have hchecked : Run MStep s [.sending [slotNotify]] { s with spc := .notify } := .snoc .nil hcheck
  refine hchecked.snoc ⟨.publish, ?_⟩
  simp [Micro.act, queueNotify, hroom, hidle]

/-- The first `k` loads of the copying loop, one by one. -/
theorem run_load (s : Micro) (num : Option UInt16) (k : Nat) (hk : k ≤ recvWords num) :
    Run MStep { s with rpc := .copy num [] } (List.replicate k .quiet)
      { s with rpc := .copy num ((List.range k).map (s.shm s.rx.pos.toNat)) } := by
  induction k with
  | zero => exact .nil
  | succ k ih =>
    rw [List.replicate_succ']
    refine .snoc (ih (by omega)) ⟨.load, ?_⟩
    have hlt : k < recvWords num := by omega
    simp [Micro.act, hlt, List.range_succ]

/-- **Left alone, the accesses of a receive are `smlt_ffq_queue_recv_raw`.** -/
theorem run_recvRaw {s : Micro} (hidle : s.rpc = .idle) {num : Option UInt16} {ys : List Word}
    (hok : (queueRecvRaw s.rx s.shm num).2.2 = .ok ys) :
    ∃ tr, Run MStep s (tr ++ [.rcvd num ys])
      { s with
        rx := (queueRecvRaw s.rx s.shm num).1
        shm := (queueRecvRaw s.rx s.shm num).2.1 } := by
  by_cases hempty : s.shm s.rx.pos.toNat 0 = slotEmpty
  · simp [queueRecvRaw, hempty] at hok
  · simp only [queueRecvRaw, hempty, if_false, Except.ok.injEq] at hok ⊢
    subst hok
    have hobs : MStep s (.receiving num) { s with rpc := .copy num [] } :=
      ⟨.observe num, by simp [Micro.act, hidle, hempty]⟩
    have hloads := run_load s num (recvWords num) (Nat.le_refl _)
    refine ⟨_, (Run.append (.snoc .nil hobs) hloads).snoc ⟨.clear, ?_⟩⟩
    simp [Micro.act, hidle]

end Smelt.Ffq
