/-
# The shared-memory queue pair

`src/backends/shm/shm_qp.c`, with its wrappers in `src/qp_func_wrapper.c`: the single-reader sibling
of the queue in `Swmr.lean`.  A slot is announced by its sequence number in its first word; the
writer looks at the reader's published position only when `next_seq` has reached `next_sync`, and
resets its local position at the start of the next send.  Here the reader publishes after EVERY
receive, and the writer reads the position once.

The number of slots is fixed, so the sequence numbers do go round: `Inv` ties them to unbounded
counts through `UInt64.ofNat`, and the writer and the reader are never far enough apart for two
numbers to be confused.  No bound on the number of messages is needed.

A wrapper that is given more than seven words does nothing, and returns `SMLT_SUCCESS`
(`smltShmSend`).
-/
import Smelt.Queuepair
import Smelt.Shm.Ring

namespace Smelt.ShmQp

open Ring

/-! ## 1. The queue -/

/-- `struct shm_context`, less its pointers. -/
structure Context where
  numSlots : UInt64
  lPos : UInt16
  nextSync : UInt64
  nextSeq : UInt64
  deriving DecidableEq, Repr

/-- `SHMQ_SIZE`. -/
def shmqSize : UInt64 := 64

/-- `shm_init_context`. -/
def initContext : Context :=
  { numSlots := shmqSize - 1, lPos := 0, nextSync := shmqSize - 1 - 1, nextSeq := 1 }

/-- The memory of one direction: `reader_pos->pos`, and the slots. -/
structure Memory where
  readerPos : UInt64
  slots : Slots Word

/-- `get_next_sync`. -/
def getNextSync (c : Context) (mem : Memory) : UInt64 := mem.readerPos + (c.numSlots - 1)

/-- `if (l_pos == num_slots) { l_pos = 0; }`. -/
def Context.wrap (c : Context) : Context :=
  if c.lPos.toUInt64 = c.numSlots then { c with lPos := 0 } else c

/-- `next_seq++; l_pos++;`. -/
def Context.advance (c : Context) : Context :=
  { c with lPos := c.lPos + 1, nextSeq := c.nextSeq + 1 }

/-- The stores of a send: `slot_start[1]` to `slot_start[7]` and then the number. -/
def sendSlots (c : Context) (slots : Slots Word) (payload : Option (Nat → Word)) : Slots Word :=
  (Swmr.storePayload slots c.lPos.toNat payload).store c.lPos.toNat 0 c.nextSeq

/-- `shm_q_send` with a payload and `shm_q_send0` without: one turn of the waiting loop.  `none` is
a writer that still waits. -/
def qSend (c : Context) (mem : Memory) (payload : Option (Nat → Word)) :
    Option (Context × Memory) :=
  let c := c.wrap
  let next := getNextSync c mem
  if c.nextSeq = c.nextSync ∧ c.nextSeq = next then none
  else
    let c := if c.nextSeq = c.nextSync then { c with nextSync := next } else c
    some (c.advance, { mem with slots := sendSlots c mem.slots payload })

/-- `shm_q_can_recv`. -/
def qCanRecv (c : Context) (mem : Memory) : Bool := c.nextSeq == mem.slots c.lPos.toNat 0

/-- `shm_q_can_send`. -/
def qCanSend (c : Context) : Bool := !(c.nextSeq == c.nextSync)

/-- `shm_receive_non_blocking` and `shm_receive_non_blocking0`: the seven words of the slot. -/
def receiveNonBlocking (c : Context) (mem : Memory) : Option (Context × Memory × List Word) :=
  if c.nextSeq = mem.slots c.lPos.toNat 0 then
    let ys := Swmr.words fun i => mem.slots c.lPos.toNat (i + 1)
    let c := c.advance.wrap
    some (c, { mem with readerPos := c.nextSeq - 1 }, ys)
  else none

/-! ## 2. The queue pair -/

/-- A queue pair: an end transmits with `queue_tx.shm.src` and receives with `queue_rx.shm.dst`;
`mem d` is the memory in which `d` transmits. -/
structure World where
  tx : Side → Context
  rx : Side → Context
  mem : Side → Memory

/-- The `SMLT_QP_TYPE_SHM` branch of `smlt_queuepair_create`, over the zeroed memory that
`numa_alloc_onnode` returns. -/
def queuepairCreate : World where
  tx _ := initContext
  rx _ := initContext
  mem _ := { readerPos := 0, slots := fun _ _ => 0 }

/-- `smlt_shm_send`: a message of more than seven words is not sent, with the same result. -/
def smltShmSend (c : Context) (mem : Memory) (msg : Msg) : Option (Context × Memory × Errval) :=
  if msg.words ≤ 7 then (qSend c mem (some msg.data)).map fun r => (r.1, r.2, success)
  else some (c, mem, success)

/-- The first words of a payload of seven. -/
theorem payload_prefix_words {msg : Msg} (hw : msg.words.toNat ≤ 7) :
    msg.payload <+: Swmr.words msg.data := by
  have htake : msg.payload = (Swmr.words msg.data).take msg.words.toNat := by
    rw [Msg.payload, Swmr.words, ← List.map_take, List.take_range, Nat.min_eq_left hw]
  rw [htake]
  exact List.take_prefix _ _

/-- `smlt_shm_send0`. -/
def smltShmSend0 (c : Context) (mem : Memory) : Option (Context × Memory × Errval) :=
  (qSend c mem none).map fun r => (r.1, r.2, success)

/-- The writer's half of a call. -/
def World.transmit (w : World) (d : Side) : Option (Context × Memory × Errval) → World × Ret
  | none => (w, .spin)
  | some (c, mem, e) =>
    ({ w with tx := Function.update w.tx d c, mem := Function.update w.mem d mem }, .err e)

/-- The reader's half of a call. -/
def World.receive (w : World) (d : Side) (ret : List Word → Ret) : World × Ret :=
  match receiveNonBlocking (w.rx d) (w.mem d.other) with
  | none => (w, .spin)
  | some (c, mem, ys) =>
    ({ w with rx := Function.update w.rx d c, mem := Function.update w.mem d.other mem }, ret ys)

/-- A call by the end `d`: one turn of its loop, `shm_q_recv` and `shm_q_recv0` having one as well.
`smlt_shm_recv` copies seven words; the message the caller asked for is the first `words` of
them. -/
def World.call (w : World) (d : Side) : Call → World × Ret
  | .trySend msg => w.transmit d (smltShmSend (w.tx d) (w.mem d) msg)
  | .notify => w.transmit d (smltShmSend0 (w.tx d) (w.mem d))
  | .tryRecv words => w.receive d fun ys => .msg (ys.take words.toNat)
  | .recvNotify => w.receive d fun _ => .err success

/-- The functions `smlt_queuepair_create` puts into the table for `SMLT_QP_TYPE_SHM`. -/
def backend : Backend where
  State := World
  call := World.call
  canRecv w d := qCanRecv (w.rx d) (w.mem d.other)

/-! ## 3. The invariant of a direction -/

/-- Numbers less than `2 ^ 64` apart are not confused. -/
theorem ofNat_inj {a b : ℕ} (hab : a ≤ b) (hlt : b < a + 2 ^ 64) :
    UInt64.ofNat a = UInt64.ofNat b ↔ a = b := by
  constructor
  · intro h
    have h := congrArg UInt64.toNat h
    simp only [UInt64.toNat_ofNat'] at h
    omega
  · rintro rfl
    rfl

/-- A direction after `S` sends and `r` receives, its writer synced when `m` were received. -/
structure Inv (S r m : ℕ) (tx rx : Context) (mem : Memory) : Prop where
  slotsTx : tx.numSlots = 63
  slotsRx : rx.numSlots = 63
  seqTx : tx.nextSeq = UInt64.ofNat (S + 1)
  seqRx : rx.nextSeq = UInt64.ofNat (r + 1)
  sync : tx.nextSync = UInt64.ofNat (m + 62)
  /-- the writer's position is reset late -/
  posTx : tx.lPos.toNat = S % 63 ∨ tx.lPos.toNat = 63 ∧ S % 63 = 0
  posRx : rx.lPos.toNat = r % 63
  shared : mem.readerPos = UInt64.ofNat r
  synced : m ≤ r
  le_sent : r ≤ S
  room : S + 1 ≤ m + 62
  /-- the numbers of the last messages -/
  number : ∀ i, i < S → S ≤ i + 63 → mem.slots (i % 63) 0 = UInt64.ofNat (i + 1)
  /-- slots the first lap has not reached -/
  fresh : ∀ i, S ≤ i → i < 63 → mem.slots i 0 = 0

theorem inv_init : Inv 0 0 0 initContext initContext { readerPos := 0, slots := fun _ _ => 0 } where
  slotsTx := rfl
  slotsRx := rfl
  seqTx := rfl
  seqRx := rfl
  sync := rfl
  posTx := .inl rfl
  posRx := rfl
  shared := rfl
  synced := Nat.le_refl 0
  le_sent := Nat.le_refl 0
  room := by decide
  number := fun i hi => absurd hi (Nat.not_lt_zero i)
  fresh := fun _ _ _ => rfl

section Calls

variable {S r m : ℕ} {tx rx tx' rx' : Context} {mem mem' : Memory} {payload : Option (Nat → Word)}

/-- A position is reset when it reaches the number of slots. -/
theorem wrap_eq {c : Context} (hslots : c.numSlots = 63) :
    c.wrap = { c with lPos := if c.lPos.toNat = 63 then 0 else c.lPos } := by
  have hiff : c.lPos.toUInt64 = c.numSlots ↔ c.lPos.toNat = 63 := by
    rw [← UInt64.toNat_inj, UInt16.toNat_toUInt64, hslots]
    rfl
  unfold Context.wrap
  by_cases hlast : c.lPos.toNat = 63
  · rw [if_pos (hiff.mpr hlast), if_pos hlast]
  · rw [if_neg fun h => hlast (hiff.mp h), if_neg hlast]

/-- At the start of a send the position is that of the next message. -/
theorem Inv.wrap (h : Inv S r m tx rx mem) :
    Inv S r m tx.wrap rx mem ∧ tx.wrap.lPos.toNat = S % 63 := by
  have hlt := Nat.mod_lt S (by decide : 0 < 63)
  have hpos : tx.wrap.lPos.toNat = S % 63 := by
    rw [wrap_eq h.slotsTx]
    rcases h.posTx with hS | ⟨hN, hS⟩
    · rw [if_neg (by omega), hS]
    · rw [if_pos hN, hS]
      rfl
  have heq := wrap_eq h.slotsTx
  refine ⟨{ h with
    slotsTx := by rw [heq]; exact h.slotsTx
    seqTx := by rw [heq]; exact h.seqTx
    sync := by rw [heq]; exact h.sync
    posTx := .inl hpos }, hpos⟩

/-- The next position, before it is reset. -/
theorem lPos_succ {c : Context} {i : ℕ} (hpos : c.lPos.toNat = i % 63) :
    (c.lPos + 1).toNat = i % 63 + 1 := by
  have hlt := Nat.mod_lt i (by decide : 0 < 63)
  rw [UInt16.toNat_add, hpos]
  exact Nat.mod_eq_of_lt (by change i % 63 + 1 < 65536; omega)

/-- The stores of a send announce the next message. -/
theorem Inv.publish (h : Inv S r m tx rx mem) (hpos : tx.lPos.toNat = S % 63)
    (hroom : S + 1 < m + 62) :
    Inv (S + 1) r m tx.advance rx { mem with slots := sendSlots tx mem.slots payload } where
  slotsTx := h.slotsTx
  slotsRx := h.slotsRx
  seqTx := by
    rw [Context.advance, h.seqTx]
    exact (UInt64.ofNat_add (S + 1) 1).symm
  seqRx := h.seqRx
  sync := h.sync
  posTx := by
    rw [Context.advance, lPos_succ hpos]
    by_cases hlast : S % 63 + 1 = 63
    · exact .inr ⟨hlast, (succ_of_last hlast).1⟩
    · exact .inl (succ_of_not_last (by decide) hlast).1.symm
  posRx := h.posRx
  shared := h.shared
  synced := h.synced
  le_sent := Nat.le_succ_of_le h.le_sent
  room := hroom
  number := by
    intro i hi hin
    simp only [sendSlots, hpos]
    by_cases his : i = S
    · rw [his, Slots.store_self, h.seqTx]
    · have hne : i % 63 ≠ S % 63 := mod_ne_mod (by omega) (by omega)
      rw [Slots.store_of_ne fun hs => absurd hs hne,
        Swmr.storePayload_of_ne payload fun hs => absurd hs hne]
      exact h.number i (by omega) (by omega)
  fresh := by
    intro i hi hlt
    have hne : i ≠ S % 63 := by
      have := Nat.mod_le S 63
      omega
    simp only [sendSlots, hpos]
    rw [Slots.store_of_ne fun hs => absurd hs hne,
      Swmr.storePayload_of_ne payload fun hs => absurd hs hne]
    exact h.fresh i (by omega) hlt

/-- The sync point is 61 messages after the position the writer synced with. -/
theorem Inv.full (h : Inv S r m tx rx mem) : tx.nextSeq = tx.nextSync ↔ S + 1 = m + 62 := by
  have hsync := h.synced
  have hle := h.le_sent
  have hroom := h.room
  rw [h.seqTx, h.sync]
  exact ofNat_inj hroom (by omega)

/-- The sync point a writer finds. -/
theorem Inv.next (h : Inv S r m tx rx mem) : getNextSync tx mem = UInt64.ofNat (r + 62) := by
  rw [getNextSync, h.shared, h.slotsTx]
  exact (UInt64.ofNat_add r 62).symm

/-- It waits for as long as the reader has received nothing more. -/
theorem Inv.waits (h : Inv S r m tx rx mem) :
    tx.nextSeq = getNextSync tx mem ↔ S + 1 = r + 62 := by
  have hsync := h.synced
  have hle := h.le_sent
  have hroom := h.room
  rw [h.seqTx, h.next]
  exact ofNat_inj (by omega) (by omega)

/-- **The new sync point is ahead again.** -/
theorem Inv.resync (h : Inv S r m tx rx mem) (hgo : tx.nextSeq ≠ getNextSync tx mem) :
    Inv S r r { tx with nextSync := getNextSync tx mem } rx mem ∧ S + 1 < r + 62 := by
  have hsync := h.synced
  have hroom := h.room
  have hne : S + 1 ≠ r + 62 := fun he => hgo (h.waits.mpr he)
  have hlt : S + 1 < r + 62 := by omega
  exact ⟨{ h with sync := h.next, synced := Nat.le_refl r, room := Nat.le_of_lt hlt }, hlt⟩

/-- **A send that returns announces one message**, in the slot of its number. -/
theorem Inv.qSend (h : Inv S r m tx rx mem) (hs : qSend tx mem payload = some (tx', mem')) :
    (∃ m', Inv (S + 1) r m' tx' rx mem') ∧
      mem'.slots = (Swmr.storePayload mem.slots (S % 63) payload).store (S % 63) 0
        (UInt64.ofNat (S + 1)) := by
  obtain ⟨hw, hpos⟩ := h.wrap
  have hroom := hw.room
  simp only [ShmQp.qSend] at hs
  split at hs
  · cases hs
  · rename_i hgo
    obtain ⟨rfl, rfl⟩ := Prod.mk.inj (Option.some.inj hs)
    by_cases hsyncs : tx.wrap.nextSeq = tx.wrap.nextSync
    · -- the writer has looked at the reader's position
      rw [if_pos hsyncs]
      obtain ⟨hnew, hlt⟩ := hw.resync fun he => hgo ⟨hsyncs, he⟩
      refine ⟨⟨r, hnew.publish hpos hlt⟩, ?_⟩
      simp only [sendSlots, hpos, hw.seqTx]
    · rw [if_neg hsyncs]
      have hne : S + 1 ≠ m + 62 := fun he => hsyncs (hw.full.mpr he)
      refine ⟨⟨m, hw.publish hpos (by omega)⟩, ?_⟩
      simp only [sendSlots, hpos, hw.seqTx]

/-- The reader finds the numbers of the messages it has not received, and no more. -/
theorem Inv.ready (h : Inv S r m tx rx mem) {k : ℕ} (hk : k < 63) :
    mem.slots ((r + k) % 63) 0 = rx.nextSeq + UInt64.ofNat k ↔ r + k < S := by
  have hsync := h.synced
  have hle := h.le_sent
  have hroom := h.room
  have hseq : rx.nextSeq + UInt64.ofNat k = UInt64.ofNat (r + k + 1) := by
    rw [h.seqRx, ← UInt64.ofNat_add, Nat.add_right_comm]
  rw [hseq]
  constructor
  · intro heq
    by_contra hge
    by_cases hfirst : r + k < 63
    · rw [Nat.mod_eq_of_lt hfirst, h.fresh (r + k) (by omega) hfirst] at heq
      have := (ofNat_inj (Nat.zero_le (r + k + 1)) (by omega)).mp heq
      omega
    · -- the number there is that of the message a lap before
      have hlap : (r + k - 63) % 63 = (r + k) % 63 := (Nat.mod_eq_sub_mod (by omega)).symm
      rw [← hlap, h.number (r + k - 63) (by omega) (by omega)] at heq
      have := (ofNat_inj (by omega : r + k - 63 + 1 ≤ r + k + 1) (by omega)).mp heq
      omega
  · intro hlt
    exact h.number (r + k) hlt (by omega)

/-- The slot at the reader's position has the number it waits for just when a message is there. -/
theorem Inv.canRecv (h : Inv S r m tx rx mem) :
    rx.nextSeq = mem.slots rx.lPos.toNat 0 ↔ r < S := by
  have hready := h.ready (by decide : 0 < 63)
  rw [h.posRx, eq_comm]
  simpa using hready

/-- **One message more for the reader**: what then stands in its slot. -/
theorem Inv.announced (h : Inv S r m tx rx mem)
    (hs : ShmQp.qSend tx mem payload = some (tx', mem')) :
    Swmr.announced 63 rx.lPos.toNat rx.nextSeq mem'.slots =
      Swmr.announced 63 rx.lPos.toNat rx.nextSeq mem.slots ++
        [Swmr.words fun j => mem'.slots (S % 63) (j + 1)] := by
  obtain ⟨⟨m', h'⟩, hslots⟩ := h.qSend hs
  have hle := h.le_sent
  have hsync := h.synced
  have hroom := h.room
  refine Swmr.announced_concat h.posRx hle (by omega) (fun k hk => h.ready hk)
    (fun k hk => h'.ready hk) ?_
  intro s hs
  funext j
  rw [hslots, Slots.store_of_ne fun h => absurd h hs,
    Swmr.storePayload_of_ne payload fun h => absurd h hs]

/-- **A receive that returns takes the oldest message.** -/
theorem Inv.receive (h : Inv S r m tx rx mem) {ys : List Word}
    (hr : receiveNonBlocking rx mem = some (rx', mem', ys)) :
    Inv S (r + 1) m tx rx' mem' ∧ mem'.slots = mem.slots := by
  simp only [receiveNonBlocking] at hr
  split at hr
  · rename_i hseen
    have hlt := h.canRecv.mp hseen
    obtain ⟨rfl, hrest⟩ := Prod.mk.inj (Option.some.inj hr)
    obtain ⟨rfl, -⟩ := Prod.mk.inj hrest
    have hnext : rx.nextSeq + 1 = UInt64.ofNat (r + 2) := by
      rw [h.seqRx]
      exact (UInt64.ofNat_add (r + 1) 1).symm
    have heq := wrap_eq (show rx.advance.numSlots = 63 from h.slotsRx)
    have hpos : rx.advance.lPos.toNat = r % 63 + 1 := lPos_succ h.posRx
    refine ⟨{ h with
      slotsRx := by rw [heq]; exact h.slotsRx
      seqRx := by rw [heq]; exact hnext
      posRx := ?_
      shared := ?_
      synced := Nat.le_succ_of_le h.synced
      le_sent := hlt }, rfl⟩
    · rw [heq]
      by_cases hlast : r % 63 + 1 = 63
      · rw [if_pos (hpos.trans hlast), (succ_of_last hlast).1]
        rfl
      · rw [if_neg (by omega), hpos, (succ_of_not_last (by decide) hlast).1]
    · rw [heq]
      change rx.nextSeq + 1 - 1 = UInt64.ofNat (r + 1)
      rw [h.seqRx, UInt64.add_sub_cancel]
  · cases hr

end Calls

/-! ## 4. The two ends together -/

/-- Both directions, between the calls. -/
def Held (w : World) : Prop := ∀ d, ∃ S r m, Inv S r m (w.tx d) (w.rx d.other) (w.mem d)

theorem held_create : Held queuepairCreate := fun _ => ⟨0, 0, 0, inv_init⟩

theorem held_transmit {w : World} (h : Held w) {d : Side} {c : Context} {mem : Memory} {e : Errval}
    (hd : ∃ S r m, Inv S r m c (w.rx d.other) mem) :
    Held (w.transmit d (some (c, mem, e))).1 := by
  intro s
  by_cases hs : s = d
  · subst hs
    simpa [World.transmit] using hd
  · simpa [World.transmit, hs] using h s

theorem held_receive {w : World} (h : Held w) (d : Side) (ret : List Word → Ret) :
    Held (w.receive d ret).1 := by
  unfold World.receive
  split
  · exact h
  · rename_i c mem ys hr
    obtain ⟨S, r, m, hinv⟩ := h d.other
    rw [Side.other_other] at hinv
    obtain ⟨hnew, -⟩ := hinv.receive hr
    intro s
    by_cases hs : s = d
    · subst hs
      have hne : s ≠ s.other := fun e => s.other_ne e.symm
      simpa [hne] using h s
    · obtain rfl := Side.eq_other hs
      simpa using ⟨S, r + 1, m, hnew⟩

/-- **Every call keeps both directions**, whatever it is given. -/
theorem held_call {w : World} (h : Held w) (d : Side) (c : Call) : Held (w.call d c).1 := by
  obtain ⟨S, r, m, hinv⟩ := h d
  have hsend : ∀ payload : Option (Nat → Word), Held (w.transmit d
      ((qSend (w.tx d) (w.mem d) payload).map fun r => (r.1, r.2, success))).1 := by
    intro payload
    cases hs : qSend (w.tx d) (w.mem d) payload with
    | none => exact h
    | some res =>
      obtain ⟨⟨m', hnew⟩, -⟩ := hinv.qSend hs
      exact held_transmit h ⟨S + 1, r, m', hnew⟩
  cases c with
  | trySend msg =>
    simp only [World.call, smltShmSend]
    split
    · exact hsend _
    · exact held_transmit h ⟨S, r, m, hinv⟩
  | notify => exact hsend none
  | tryRecv words => exact held_receive h d _
  | recvNotify => exact held_receive h d _

end Smelt.ShmQp
