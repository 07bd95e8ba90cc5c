/-
# The buffers of messages

`src/message.c`, and what the sends and receives of the four transports do to the buffer of a
message.  A message counts the WORDS to transfer and its buffer is so many BYTES;
`smlt_message_alloc` rounds the one up and leaves the other.  UMP goes through `words` words, FFQ
through `words` cut down to eight and through word zero in any case, and the two shared-memory
queues through seven, whatever `words` is.

So a transfer stays within the words of the message, and these within the buffer, exactly when
its transport's condition holds (`Transfer.Fits`), or it finds no room or no message and
touches nothing.
-/
import Smelt.Lib.Buffer
import Smelt.Ump.Queue
import Smelt.Ffq.Backend
import Smelt.Shm.Queue
import Smelt.Shm.Calls

namespace Smelt

open Buffer

/-! ## 1. Messages -/

/-- The fields of `struct smlt_msg` that say how long it is. -/
structure MsgSize where
  words : UInt32
  bufsize : UInt32
  deriving DecidableEq, Repr

/-- `SMELT_MESSAGE_MIN_SIZE`. -/
def messageMinSize : UInt32 := 56

/-- `smlt_message_alloc`; the buffer has `bufsize` bytes. -/
def messageAlloc (size : UInt32) : MsgSize :=
  let size := if size < messageMinSize then messageMinSize else size
  { words := if size % 8 ≠ 0 then size / 8 + 1 else size / 8
    bufsize := size }

/-- `smlt_message_set_data`. -/
def messageSetData (words size : UInt32) : MsgSize := { words := words, bufsize := size }

/-- A message and the bytes of its buffer: one that was allocated, or one that was given a buffer of
as many words. -/
inductive Obtained : MsgSize → ℕ → Prop
  | alloc (size : UInt32) : Obtained (messageAlloc size) (messageAlloc size).bufsize.toNat
  | setData (words size : UInt32) : Obtained (messageSetData words size) (words.toNat * 8)

/-- The size of an allocated message, as a number. -/
theorem messageAlloc_spec (size : UInt32) :
    56 ≤ (messageAlloc size).bufsize.toNat ∧
      (messageAlloc size).words.toNat = ((messageAlloc size).bufsize.toNat + 7) / 8 := by
  simp only [messageAlloc]
  generalize hs : (if size < messageMinSize then messageMinSize else size) = s
  have hmin : 56 ≤ s.toNat := by
    rw [← hs]
    split
    · exact Nat.le_refl 56
    · rename_i h
      exact Nat.not_lt.mp fun hlt => h (UInt32.lt_iff_toNat_lt.mpr hlt)
  refine ⟨hmin, ?_⟩
  have hlt := s.toNat_lt
  have height : (8 : UInt32).toNat = 8 := rfl
  have hdiv : (s / 8).toNat = s.toNat / 8 := UInt32.toNat_div s 8
  have hmod : (s % 8).toNat = s.toNat % 8 := UInt32.toNat_mod s 8
  split
  · rename_i hne
    have hne : s.toNat % 8 ≠ 0 := fun h => hne (UInt32.toNat_inj.mp (hmod.trans h))
    have hone : (1 : UInt32).toNat = 1 := rfl
    rw [UInt32.toNat_add, hdiv, hone]
    omega
  · rename_i heq
    have heq : s.toNat % 8 = 0 := hmod.symm.trans (congrArg UInt32.toNat (not_not.mp heq))
    rw [hdiv]
    omega

/-- **A message of up to seven words has its buffer.**  Only more than seven words may be rounded
up. -/
theorem Obtained.seven {msg : MsgSize} {bytes : ℕ} (h : Obtained msg bytes)
    (hw : msg.words.toNat ≤ 7) : msg.words.toNat * 8 ≤ bytes := by
  cases h with
  | alloc size =>
    obtain ⟨hmin, hwords⟩ := messageAlloc_spec size
    omega
  | setData words size => exact Nat.le_refl _

/-! ## 2. The transfers -/

/-- `smlt_ump_queuepair_try_send`. -/
def umpTrySend (qp : Ump.Queuepair) (shm : Ump.Shm) (words : UInt32) :
    Code Word (Ump.Queuepair × Ump.Shm × Errval) :=
  match Ump.prepareSend qp shm with
  | (qp, .error _) => .ret (qp, shm, [.queueFull])
  | (qp, .ok slot) =>
    loadEach (fun shm i v => shm.storeData slot i v)
      (fun shm =>
        let r := Ump.sendRaw qp shm slot
        .ret (r.1, r.2, success))
      (List.range words.toNat) shm

/-- `smlt_ump_queuepair_try_recv`. -/
def umpTryRecv (qp : Ump.Queuepair) (shm : Ump.Shm) (words : UInt32) :
    Code Word (Ump.Queuepair × Ump.Shm × Errval) :=
  match Ump.recvRaw qp shm with
  | .error e => .ret (qp, shm, e)
  | .ok (qp, shm, slot) =>
    storeFrom (.ret (qp, shm, success)) 0 ((List.range words.toNat).map (shm.loadData slot))

/-- `smlt_ffq_queue_send_raw`. -/
def ffqSendRaw (q : Ffq.Queue) (shm : Ffq.Shm) (num : UInt16) :
    Code Word (Ffq.Queue × Ffq.Shm × Errval) :=
  if !Ffq.queueCanSend q shm then .ret (q, shm, [.queueFull])
  else
    let slot := q.pos.toNat
    loadEach (fun shm i v => shm.store slot i v)
      (fun shm => .call (.load 0) fun (v : Word) => .ret (q.advance, shm.store slot 0 v, success))
      (List.range' 1 ((Ffq.clamp num).toNat - 1)) shm

/-- `smlt_ffq_queue_recv_raw` with a buffer. -/
def ffqRecvRaw (q : Ffq.Queue) (shm : Ffq.Shm) (num : UInt16) :
    Code Word (Ffq.Queue × Ffq.Shm × Errval) :=
  let slot := q.pos.toNat
  if shm slot 0 = Ffq.slotEmpty then .ret (q, shm, [.queueEmpty])
  else
    storeFrom (.ret (q.advance, shm.store slot 0 Ffq.slotEmpty, success)) 0
      ((List.range (Ffq.clamp num).toNat).map (shm slot))

/-- `data[0], data[1], ...` to `data[6]`, as the arguments of a call. -/
def loadSeven {β : Type} (k : (ℕ → Word) → Code Word β) : Code Word β :=
  loadEach (fun p i v => Function.update p i v) k (List.range 7) fun _ => 0

/-- `smlt_shm_send`: the words are loaded before `shm_q_send` waits.  `none` is a writer that still
waits. -/
def shmSend (c : ShmQp.Context) (mem : ShmQp.Memory) (words : UInt32) :
    Code Word (Option (ShmQp.Context × ShmQp.Memory × Errval)) :=
  if words ≤ 7 then
    loadSeven fun p => .ret ((ShmQp.qSend c mem (some p)).map fun r => (r.1, r.2, success))
  else .ret (some (c, mem, success))

/-- `smlt_shm_recv`, one turn of the loop of `shm_q_recv`. -/
def shmRecv (c : ShmQp.Context) (mem : ShmQp.Memory) :
    Code Word (ShmQp.Context × ShmQp.Memory × Errval) :=
  match ShmQp.receiveNonBlocking c mem with
  | none => .spin
  | some (c, mem, ys) => storeFrom (.ret (c, mem, success)) 0 ys

/-- `smlt_swmr_send`. -/
def swmrSend (w : Swmr.World) (words : UInt32) : Code Word (Option (Swmr.World × Errval)) :=
  if words ≤ 7 then loadSeven fun p => .ret ((w.sendRaw (some p)).map fun w => (w, success))
  else .ret (some (w, success))

/-- `smlt_swmr_recv`, one turn of the loop of `swmr_receive_raw`. -/
def swmrRecv (c : Swmr.Context) (shm : Swmr.Shm) (words : UInt32) :
    Code Word (Swmr.Context × Swmr.Shm × Errval) :=
  if words ≤ 7 then
    match Swmr.receiveNonBlocking c shm true with
    | some (c, shm, some ys) => storeFrom (.ret (c, shm, success)) 0 ys
    | _ => .spin
  else .ret (c, shm, success)

/-- A send or a receive, in a state of its queue. -/
inductive Transfer
  | umpSend (qp : Ump.Queuepair) (shm : Ump.Shm)
  | umpRecv (qp : Ump.Queuepair) (shm : Ump.Shm)
  | ffqSend (q : Ffq.Queue) (shm : Ffq.Shm)
  | ffqRecv (q : Ffq.Queue) (shm : Ffq.Shm)
  | shmSend (c : ShmQp.Context) (mem : ShmQp.Memory)
  | shmRecv (c : ShmQp.Context) (mem : ShmQp.Memory)
  | swmrSend (w : Swmr.World)
  | swmrRecv (c : Swmr.Context) (shm : Swmr.Shm)

def Transfer.receives : Transfer → Bool
  | .umpSend _ _ => false
  | .umpRecv _ _ => true
  | .ffqSend _ _ => false
  | .ffqRecv _ _ => true
  | .shmSend _ _ => false
  | .shmRecv _ _ => true
  | .swmrSend _ => false
  | .swmrRecv _ _ => true

/-- What it leaves its caller with. -/
abbrev Transfer.Result : Transfer → Type
  | .umpSend _ _ => Ump.Queuepair × Ump.Shm × Errval
  | .umpRecv _ _ => Ump.Queuepair × Ump.Shm × Errval
  | .ffqSend _ _ => Ffq.Queue × Ffq.Shm × Errval
  | .ffqRecv _ _ => Ffq.Queue × Ffq.Shm × Errval
  | .shmSend _ _ => Option (ShmQp.Context × ShmQp.Memory × Errval)
  | .shmRecv _ _ => ShmQp.Context × ShmQp.Memory × Errval
  | .swmrSend _ => Option (Swmr.World × Errval)
  | .swmrRecv _ _ => Swmr.Context × Swmr.Shm × Errval

/-- The transfer of a message of `words` words; the queue of FFQ counts them in sixteen bits. -/
def Transfer.prog (words : UInt32) : (x : Transfer) → Code Word x.Result
  | .umpSend qp shm => umpTrySend qp shm words
  | .umpRecv qp shm => umpTryRecv qp shm words
  | .ffqSend q shm => ffqSendRaw q shm words.toUInt16
  | .ffqRecv q shm => ffqRecvRaw q shm words.toUInt16
  | .shmSend c mem => Smelt.shmSend c mem words
  | .shmRecv c mem => Smelt.shmRecv c mem
  | .swmrSend w => Smelt.swmrSend w words
  | .swmrRecv c shm => Smelt.swmrRecv c shm words

/-- **The condition of each transport**: UMP has none, FFQ needs a first word to send and the bytes
of the last one, and the shared-memory queues need seven words. -/
def Transfer.Fits (words bytes : ℕ) : Transfer → Prop
  | .umpSend _ _ => True
  | .umpRecv _ _ => True
  | .ffqSend _ _ => 1 ≤ words ∧ words * 8 ≤ bytes
  | .ffqRecv _ _ => words * 8 ≤ bytes
  | .shmSend _ _ => words = 7
  | .shmRecv _ _ => words = 7
  | .swmrSend _ => words = 7
  | .swmrRecv _ _ => words = 7

section Confined

variable {x : Transfer} {words : UInt32} {bytes : ℕ}

variable (hcap : words.toNat ≤ 7) (hbytes : words.toNat * 8 ≤ bytes)
include hbytes

include hcap

end Confined

section Ffq

variable {words : UInt32} {bytes : ℕ} (hcap : words.toNat ≤ 8)
include hcap

end Ffq

section Calls

variable (words : UInt32) (m : ℕ → Word)

/-- What a receive leaves in the buffer, and returns. -/
def landed (m : ℕ → Word) : Except Errval (List Word) → (ℕ → Word) × Errval
  | .error e => (m, e)
  | .ok ws => (copyInto m 0 ws, success)

theorem run_umpTrySend (qp : Ump.Queuepair) (shm : Ump.Shm) :
    (umpTrySend qp shm words).run handle m =
      some (m, Ump.queuepairTrySend qp shm { words := words, data := m }) := by
  rw [umpTrySend, Ump.queuepairTrySend]
  rcases Ump.prepareSend qp shm with ⟨qp', e | slot⟩
  · rfl
  · exact run_loadEach _ _ _ _ m

theorem run_umpTryRecv (qp : Ump.Queuepair) (shm : Ump.Shm) :
    (umpTryRecv qp shm words).run handle m =
      let r := Ump.queuepairTryRecv qp shm words
      some ((landed m r.2.2).1, r.1, r.2.1, (landed m r.2.2).2) := by
  rw [umpTryRecv, Ump.queuepairTryRecv]
  rcases Ump.recvRaw qp shm with e | ⟨qp', shm', slot⟩
  · rfl
  · exact run_storeFrom _ _ _ m

theorem run_ffqSendRaw (q : Ffq.Queue) (shm : Ffq.Shm) (num : UInt16) :
    (ffqSendRaw q shm num).run handle m = some (m, Ffq.queueSendRaw q shm m num) := by
  rw [ffqSendRaw, Ffq.queueSendRaw]
  split
  · rfl
  · exact run_loadEach _ _ _ _ m

theorem run_ffqRecvRaw (q : Ffq.Queue) (shm : Ffq.Shm) (num : UInt16) :
    (ffqRecvRaw q shm num).run handle m =
      let r := Ffq.queueRecvRaw q shm (some num)
      some ((landed m r.2.2).1, r.1, r.2.1, (landed m r.2.2).2) := by
  simp only [ffqRecvRaw, Ffq.queueRecvRaw]
  split
  · rfl
  · exact run_storeFrom _ _ _ m

theorem foldl_update_range (p : ℕ → Word) (k i : ℕ) :
    (List.range k).foldl (fun p i => Function.update p i (m i)) p i =
      if i < k then m i else p i := by
  induction k with
  | zero => rfl
  | succ k ih =>
    rw [List.range_succ, List.foldl_append, List.foldl_cons, List.foldl_nil, Function.update_apply,
      ih]
    by_cases hik : i = k
    · subst hik
      rw [if_pos rfl, if_pos (Nat.lt_succ_self i)]
    · have hiff : i < k + 1 ↔ i < k := by omega
      simp only [hik, if_false, hiff]

/-- The arguments of a call are the first seven words. -/
theorem run_loadSeven {β : Type} (k : (ℕ → Word) → Code Word β) :
    ∃ p : ℕ → Word, (∀ i < 7, p i = m i) ∧ (loadSeven k).run handle m = (k p).run handle m := by
  refine ⟨_, fun i hi => ?_, run_loadEach _ _ _ _ m⟩
  rw [foldl_update_range, if_pos hi]

theorem storePayload_congr {p p' : ℕ → Word} (h : ∀ i < 7, p i = p' i) (slots : Slots Word)
    (slot : ℕ) :
    Swmr.storePayload slots slot (some p) = Swmr.storePayload slots slot (some p') := by
  simp only [Swmr.storePayload, Swmr.storeFirst]
  refine List.foldl_ext _ _ _ fun slots i hi => ?_
  rw [h i (List.mem_range.mp hi)]

theorem run_shmSend (c : ShmQp.Context) (mem : ShmQp.Memory) :
    (shmSend c mem words).run handle m =
      some (m, ShmQp.smltShmSend c mem { words := words, data := m }) := by
  rw [shmSend, ShmQp.smltShmSend]
  split
  · obtain ⟨p, hp, hrun⟩ := run_loadSeven m fun p =>
      .ret ((ShmQp.qSend c mem (some p)).map fun r => (r.1, r.2, success))
    rw [hrun]
    simp only [ShmQp.qSend, ShmQp.sendSlots, storePayload_congr hp]
    rfl
  · rfl

theorem run_shmRecv (c : ShmQp.Context) (mem : ShmQp.Memory) :
    (shmRecv c mem).run handle m =
      (ShmQp.receiveNonBlocking c mem).map fun r => (copyInto m 0 r.2.2, r.1, r.2.1, success) := by
  rw [shmRecv]
  rcases ShmQp.receiveNonBlocking c mem with _ | ⟨c', mem', ys⟩
  · rfl
  · exact run_storeFrom _ _ _ m

theorem run_swmrSend (w : Swmr.World) :
    (swmrSend w words).run handle m = some (m, w.send { words := words, data := m }) := by
  rw [swmrSend, Swmr.World.send]
  split
  · obtain ⟨p, hp, hrun⟩ := run_loadSeven m fun p =>
      .ret ((w.sendRaw (some p)).map fun w => (w, success))
    rw [hrun]
    simp only [Swmr.World.sendRaw, Swmr.sendRaw, Swmr.sendSlots, storePayload_congr hp]
    rfl
  · rfl

theorem run_swmrRecv (hw : words ≤ 7) (c : Swmr.Context) (shm : Swmr.Shm) :
    (swmrRecv c shm words).run handle m =
      (Swmr.receiveNonBlocking c shm true).map fun r =>
        (copyInto m 0 (r.2.2.getD []), r.1, r.2.1, success) := by
  rw [swmrRecv, if_pos hw, Swmr.receiveNonBlocking]
  by_cases hnum : c.nextSeq = shm.slots c.lPos.toNat 0
  · simp only [hnum, if_true]
    exact run_storeFrom _ _ _ m
  · simp only [hnum, if_false]
    rfl

end Calls

end Smelt
