/-
# The UMP queue pair

`inc/backends/ump/smlt_ump_queue.h`, `smlt_ump_queuepair.h` and the two `.c` files beside them.
A queue pair is two rings in shared memory, one for each direction.  The first cache line of a
ring's memory holds the acknowledgement word that the receiver writes; the lines after it are
the messages, each a control word (epoch and sequence number) and seven payload words.

The two ends share nothing but that memory.  An end keeps its own position and epoch in each
ring, the sequence number of the next message it sends, and the last acknowledgement it READ,
which it refreshes only when it appears to have run out of room (`canSendRaw`).

Memory is modelled by the cache line (`Message`), with the store of a payload word going
through the address it has in C (`Shm.storeData`): `m->data[i]` with `i ≥ 7` lands in a later
line, and where it lands on a control word it replaces it.  Nothing in `queuepairTrySend`
stops that.
-/
import Smelt.Queuepair

namespace Smelt.Ump

/-! ## 1. The memory -/

/-- `union smlt_ump_ctrl`, by its fields. -/
structure Ctrl where
  epoch : UInt16
  lastAck : UInt16
  deriving DecidableEq, Repr

/-- The control word as it is stored: `ctrl.raw`. -/
def Ctrl.raw (ctrl : Ctrl) : Word := ctrl.epoch.toUInt64 ||| (ctrl.lastAck.toUInt64 <<< 16)

/-- `SMLT_UMP_PAYLOAD_WORDS`. -/
def payloadWords : Nat := 7

/-- `struct smlt_ump_message`: the control word, the four bytes the compiler pads it with, and
`data[0 .. 6]`. -/
structure Message where
  ctrl : Ctrl
  pad : UInt32
  data : Nat → Word

/-- The message line as eight words: word `0` is the control word and its padding. -/
def Message.word (m : Message) : Nat → Word
  | 0 => m.ctrl.raw ||| (m.pad.toUInt64 <<< 32)
  | j + 1 => m.data j

/-- Store a word over one of the eight words of the line. -/
def Message.setWord (m : Message) (off : Nat) (v : Word) : Message :=
  match off with
  | 0 => { m with
      ctrl := { epoch := v.toUInt16, lastAck := (v >>> 16).toUInt16 }
      pad := (v >>> 32).toUInt32 }
  | j + 1 => { m with data := fun k => if k = j then v else m.data k }

/-- The memory of one direction: the acknowledgement word and the lines after it. -/
structure Shm where
  lastAck : UInt16
  buf : Nat → Message

/-- `memset(buf, 0, ...)`. -/
def Shm.zero : Shm := { lastAck := 0, buf := fun _ => ⟨⟨0, 0⟩, 0, fun _ => 0⟩ }

/-- `msg->ctrl.raw = ctrl.raw`: a store of the four control bytes. -/
def Shm.storeCtrl (shm : Shm) (slot : Nat) (ctrl : Ctrl) : Shm :=
  { shm with buf := fun s => if s = slot then { shm.buf s with ctrl := ctrl } else shm.buf s }

/-- `buf[slot].data[i] = v`, at the address it has: `8 * slot + 1 + i` words into the ring. -/
def Shm.storeData (shm : Shm) (slot i : Nat) (v : Word) : Shm :=
  { shm with buf := fun s =>
      if s = slot + (i + 1) / 8 then (shm.buf s).setWord ((i + 1) % 8) v else shm.buf s }

/-- `buf[slot].data[i]`, from the address it has. -/
def Shm.loadData (shm : Shm) (slot i : Nat) : Word :=
  (shm.buf (slot + (i + 1) / 8)).word ((i + 1) % 8)

/-! ## 2. The queue -/

/-- `smlt_ump_direction_t`. -/
inductive Direction
  | recv
  | send
  deriving DecidableEq, Repr

/-- `struct smlt_ump_queue`.  `buf` says which of the two allocations the `buf` and `last_ack`
pointers point into, named by the end that transmits into it. -/
structure Queue where
  buf : Side
  pos : UInt16
  numMsg : UInt16
  epoch : Bool
  direction : Direction
  deriving DecidableEq, Repr

/-- The `bool` epoch as it is stored in the control word. -/
def epochWord (b : Bool) : UInt16 := if b then 1 else 0

/-- `if (++c->pos == c->num_msg) { c->pos = 0; c->epoch = !c->epoch; }`. -/
def Queue.advance (q : Queue) : Queue :=
  if q.pos + 1 = q.numMsg then { q with pos := 0, epoch := !q.epoch }
  else { q with pos := q.pos + 1 }

/-- `smlt_ump_queue_last_ack`. -/
def queueLastAck (shm : Shm) : UInt16 := shm.lastAck

/-- `smlt_ump_queue_get_next`: the slot the next message goes to. -/
def queueGetNext (q : Queue) : Nat := q.pos.toNat

/-- `smlt_ump_queue_send`: writing the control word sends the message. -/
def queueSend (q : Queue) (shm : Shm) (slot : Nat) (ctrl : Ctrl) : Queue × Shm :=
  (q.advance, shm.storeCtrl slot { ctrl with epoch := epochWord q.epoch })

/-- `smlt_ump_queue_notify`. -/
def queueNotify (q : Queue) (shm : Shm) (ctrl : Ctrl) : Queue × Shm :=
  (q.advance, shm.storeCtrl q.pos.toNat { ctrl with epoch := epochWord q.epoch })

/-- `smlt_ump_queue_can_recv`. -/
def queueCanRecv (q : Queue) (shm : Shm) : Bool :=
  (shm.buf q.pos.toNat).ctrl.epoch == epochWord q.epoch

/-- `smlt_ump_queue_recv_raw`: the new queue state, the memory after the acknowledgement, and
the slot of the message.  The acknowledgement is written in the middle of a lap and at its
end. -/
def queueRecvRaw (q : Queue) (shm : Shm) : Except Errval (Queue × Shm × Nat) :=
  let ctrl := (shm.buf q.pos.toNat).ctrl
  if ctrl.epoch ≠ epochWord q.epoch then .error [.queueEmpty]
  else
    let shm := if q.pos = q.numMsg >>> 1 then { shm with lastAck := ctrl.lastAck } else shm
    let shm := if q.pos + 1 = q.numMsg then { shm with lastAck := ctrl.lastAck } else shm
    .ok (q.advance, shm, q.pos.toNat)

/-! ## 3. The queue pair -/

/-- `struct smlt_ump_queuepair`, one end. -/
structure Queuepair where
  tx : Queue
  rx : Queue
  seqId : UInt16
  lastAck : UInt16
  deriving DecidableEq, Repr

/-- `smlt_ump_queuepair_can_send_raw`.  Only a negative answer makes it read the shared
acknowledgement word, which it then keeps. -/
def canSendRaw (qp : Queuepair) (shm : Shm) : Bool × Queuepair :=
  if qp.seqId - qp.lastAck ≤ qp.tx.numMsg then (true, qp)
  else
    let qp := { qp with lastAck := queueLastAck shm }
    (decide (qp.seqId - qp.lastAck ≤ qp.tx.numMsg), qp)

/-- `smlt_ump_queuepair_prepare_send`. -/
def prepareSend (qp : Queuepair) (shm : Shm) : Queuepair × Except Errval Nat :=
  match canSendRaw qp shm with
  | (false, qp) => (qp, .error [.chanWouldBlock])
  | (true, qp) => (qp, .ok (queueGetNext qp.tx))

/-- `smlt_ump_queuepair_notify_raw`. -/
def notifyRaw (qp : Queuepair) (shm : Shm) : Queuepair × Shm :=
  let r := queueNotify qp.tx shm { epoch := 0, lastAck := qp.seqId }
  ({ qp with tx := r.1, seqId := qp.seqId + 1 }, r.2)

/-- `smlt_ump_queuepair_send_raw`. -/
def sendRaw (qp : Queuepair) (shm : Shm) (slot : Nat) : Queuepair × Shm :=
  let r := queueSend qp.tx shm slot { epoch := 0, lastAck := qp.seqId }
  ({ qp with tx := r.1, seqId := qp.seqId + 1 }, r.2)

/-- The payload loop of `smlt_ump_queuepair_try_send`. -/
def storePayload (shm : Shm) (slot : Nat) (msg : Msg) : Shm :=
  (List.range msg.words.toNat).foldl (fun shm i => shm.storeData slot i (msg.data i)) shm

/-- `smlt_ump_queuepair_try_send`. -/
def queuepairTrySend (qp : Queuepair) (shm : Shm) (msg : Msg) : Queuepair × Shm × Errval :=
  match prepareSend qp shm with
  | (qp, .error _) => (qp, shm, [.queueFull])
  | (qp, .ok slot) =>
    let r := sendRaw qp (storePayload shm slot msg) slot
    (r.1, r.2, success)

/-- `smlt_ump_queuepair_notify`: one turn of its waiting loop, and the notification when the
turn finds room.  `none` is a call that has not returned. -/
def queuepairNotify (qp : Queuepair) (shm : Shm) : Queuepair × Shm × Option Errval :=
  match canSendRaw qp shm with
  | (false, qp) => (qp, shm, none)
  | (true, qp) =>
    let r := notifyRaw qp shm
    (r.1, r.2, some success)

/-- `smlt_ump_queuepair_can_send`. -/
def queuepairCanSend (qp : Queuepair) (shm : Shm) : Bool × Queuepair := canSendRaw qp shm

/-- `smlt_ump_queuepair_can_recv_raw`. -/
def canRecvRaw (qp : Queuepair) (shm : Shm) : Bool := queueCanRecv qp.rx shm

/-- `smlt_ump_queuepair_recv_raw`. -/
def recvRaw (qp : Queuepair) (shm : Shm) : Except Errval (Queuepair × Shm × Nat) :=
  if !canRecvRaw qp shm then .error [.queueEmpty]
  else
    match queueRecvRaw qp.rx shm with
    | .error e => .error e
    | .ok (rx, shm, slot) => .ok ({ qp with rx := rx }, shm, slot)

/-- `smlt_ump_queuepair_try_recv` into a message of `words` words: the words copied out, when
there was a message. -/
def queuepairTryRecv (qp : Queuepair) (shm : Shm) (words : UInt32) :
    Queuepair × Shm × Except Errval (List Word) :=
  match recvRaw qp shm with
  | .error e => (qp, shm, .error e)
  | .ok (qp, shm, slot) => (qp, shm, .ok ((List.range words.toNat).map (shm.loadData slot)))

/-- `smlt_ump_queuepair_recv_notify`: one turn of its waiting loop.  `none` is a call that has
not returned. -/
def queuepairRecvNotify (qp : Queuepair) (shm : Shm) : Queuepair × Shm × Option Errval :=
  if !canRecvRaw qp shm then (qp, shm, none)
  else
    match recvRaw qp shm with
    | .error e => (qp, shm, some e)
    | .ok (qp, shm, _) => (qp, shm, some success)

/-- `smlt_ump_queuepair_can_recv`. -/
def queuepairCanRecv (qp : Queuepair) (shm : Shm) : Bool := canRecvRaw qp shm

/-! ## 4. Creation -/

/-- `check_alignment`, of a buffer at an address (`none` is `NULL`). -/
def checkAlignment (buf : Option Nat) (size : Nat) : Errval :=
  if size = 0 ∨ 65535 < size then [.badAlignment]
  else
    match buf with
    | none => [.badAlignment]
    | some addr => if addr % 64 ≠ 0 then [.badAlignment] else success

/-- `smlt_ump_queue_init_common`, into the queue that the caller's direction completes. -/
def queueInitCommon (region : Side) (buf : Option Nat) (slots : UInt16) (dir : Direction) :
    Except Errval Queue :=
  let err := checkAlignment buf slots.toNat
  if errIsFail err then .error err
  else .ok { buf := region, pos := 0, numMsg := slots - 1, epoch := true, direction := dir }

/-- `smlt_ump_queue_init_tx`: the transmitting end also clears the memory. -/
def queueInitTx (region : Side) (buf : Option Nat) (slots : UInt16) : Except Errval (Queue × Shm) :=
  match queueInitCommon region buf slots .send with
  | .error e => .error e
  | .ok q => .ok (q, Shm.zero)

/-- `smlt_ump_queue_init_rx`. -/
def queueInitRx (region : Side) (buf : Option Nat) (slots : UInt16) : Except Errval Queue :=
  queueInitCommon region buf slots .recv

/-- A queue pair with the memory its two ends share. -/
structure World where
  qp : Side → Queuepair
  mem : Side → Shm

/-- `smlt_ump_queuepair_init`.  `alloc d` is the address `smlt_platform_alloc_on_node` returns
for the direction in which `d` transmits. -/
def queuepairInit (alloc : Side → Option Nat) (numSlots : UInt16) : Except Errval World := do
  if numSlots < 2 then throw [.inval]
  if (alloc .src).isNone then throw [.mallocFail]
  let (srcTx, shmSrc) ← pushErr .queueInit (queueInitTx .src (alloc .src) numSlots)
  let dstRx ← pushErr .queueInit (queueInitRx .src (alloc .src) numSlots)
  if (alloc .dst).isNone then throw [.mallocFail]
  let srcRx ← pushErr .queueInit (queueInitRx .dst (alloc .dst) numSlots)
  let (dstTx, shmDst) ← pushErr .queueInit (queueInitTx .dst (alloc .dst) numSlots)
  return {
    qp := fun
      | .src => { tx := srcTx, rx := srcRx, seqId := 1, lastAck := 0 }
      | .dst => { tx := dstTx, rx := dstRx, seqId := 1, lastAck := 0 }
    mem := fun
      | .src => shmSrc
      | .dst => shmDst }

/-! ## 5. Calls by the two ends -/

/-- The effect of a call on the end that makes it and on the memory it goes through. -/
def exec (c : Call) (qp : Queuepair) (shm : Shm) : Queuepair × Shm × Ret :=
  match c with
  | .trySend msg =>
    let r := queuepairTrySend qp shm msg
    (r.1, r.2.1, .err r.2.2)
  | .notify =>
    let r := queuepairNotify qp shm
    (r.1, r.2.1, match r.2.2 with
      | none => .spin
      | some e => .err e)
  | .tryRecv words =>
    let r := queuepairTryRecv qp shm words
    (r.1, r.2.1, match r.2.2 with
      | .error e => .err e
      | .ok ws => .msg ws)
  | .recvNotify =>
    let r := queuepairRecvNotify qp shm
    (r.1, r.2.1, match r.2.2 with
      | none => .spin
      | some e => .err e)

/-- Which of the two allocations a call goes through. -/
def region (c : Call) (qp : Queuepair) : Side :=
  if c.transmits then qp.tx.buf else qp.rx.buf

/-- A call by the end `d`. -/
def World.call (w : World) (d : Side) (c : Call) : World × Ret :=
  let r := exec c (w.qp d) (w.mem (region c (w.qp d)))
  ({ qp := Function.update w.qp d r.1
     mem := Function.update w.mem (region c (w.qp d)) r.2.1 }, r.2.2)

end Smelt.Ump
