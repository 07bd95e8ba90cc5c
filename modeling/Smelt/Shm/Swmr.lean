/-
# The single-writer multi-reader queue

`src/backends/shm/swmr_queue.c`: one writer, `num_readers` readers, and a ring of slots of a header
and seven payload words.  A message is announced by its SEQUENCE NUMBER in the header, written last;
a reader waits for the number it expects next.  Readers publish how far they are in `readers_pos`,
and the writer looks there only at a sync point, when `next_seq` has reached `next_sync`.

Three details matter below.

* A reader publishes only when bit five of its next sequence number is clear.
* The writer resets its local position lazily, at the start of the next send; a reader does it at
  once.
* `swmr_get_next_sync` reads `readers_pos[i].pos`, which is volatile, TWICE for a reader that lowers
  the minimum: once to compare it and once to assign it.

Section 2 has the calls as wholes.  `Micro.act` of section 3 takes them apart into their single
reads and writes of shared words, in any interleaving of the writer and the readers.  The header is
in the slot (`sep_header` is false).
-/
import Smelt.Message
import Smelt.Lib.Slots
import Smelt.Lib.Fifo
import Mathlib.Logic.Function.Basic

namespace Smelt.Swmr

/-! ## 1. The context -/

/-- `struct swmr_context`, less its pointers. -/
structure Context where
  numReaders : UInt8
  id : UInt8
  numSlots : UInt64
  lPos : UInt16
  nextSync : UInt64
  nextSeq : UInt64
  deriving DecidableEq, Repr

/-- `swmr_init_context`. -/
def initContext (numReaders id : UInt8) (queueSize : UInt32) : Context :=
  let numSlots := (queueSize - (numReaders.toUInt32 + 1)).toUInt64
  { numReaders := numReaders, id := id, numSlots := numSlots, lPos := 0,
    nextSync := numSlots - 1, nextSeq := 1 }

/-- The memory: `readers_pos[i].pos`, and the slots; word zero of a slot is its header. -/
structure Shm where
  pos : Nat → UInt64
  slots : Slots Word

/-- `if (l_pos == num_slots) { l_pos = 0; }`, at the start of a send. -/
def Context.wrap (c : Context) : Context :=
  if c.lPos.toUInt64 = c.numSlots then { c with lPos := 0 } else c

/-- The end of a send: `next_seq++; l_pos++;`. -/
def Context.advance (c : Context) : Context :=
  { c with lPos := c.lPos + 1, nextSeq := c.nextSeq + 1 }

/-- The end of a receive: the position is reset at once. -/
def Context.advanceReader (c : Context) : Context := c.advance.wrap

/-- `if ((next_seq & 0x20) == 0) { readers_pos[id].pos = (next_seq -1); }`. -/
def Context.publish (c : Context) (pos : Nat → UInt64) : Nat → UInt64 :=
  if c.nextSeq &&& 0x20 == 0 then Function.update pos c.id.toNat (c.nextSeq - 1) else pos

/-! ## 2. The calls -/

/-- `uint64_t min = 0xFFFFFFFF;`. -/
def minStart : UInt64 := 0xFFFFFFFF

/-- `swmr_get_next_sync`, when nothing moves while it runs. -/
def getNextSync (c : Context) (pos : Nat → UInt64) : UInt64 :=
  (List.range c.numReaders.toNat).foldl (fun min i => if min > pos i then pos i else min) minStart
    + (c.numSlots - 1)

/-- `swmr_can_send`. -/
def canSend (c : Context) (pos : Nat → UInt64) : Bool :=
  if c.nextSeq = c.nextSync then decide (c.nextSync < getNextSync c pos) else true

/-- The seven words of a payload. -/
def words (p : Nat → Word) : List Word := (List.range 7).map p

/-- The first `k` stores of a payload: `data[1] = p1` and so on. -/
def storeFirst (slots : Slots Word) (slot : Nat) (p : Nat → Word) (k : Nat) : Slots Word :=
  (List.range k).foldl (fun slots i => slots.store slot (i + 1) (p i)) slots

/-- The stores of a payload, to `data[7] = p7`. -/
def storePayload (slots : Slots Word) (slot : Nat) : Option (Nat → Word) → Slots Word
  | some p => storeFirst slots slot p 7
  | none => slots

/-- The stores of a payload go behind the header of one slot. -/
theorem storeFirst_word (slots : Slots Word) (slot : Nat) (p : Nat → Word) (k s j : Nat) :
    storeFirst slots slot p k s j =
      if s = slot ∧ 1 ≤ j ∧ j ≤ k then p (j - 1) else slots s j := by
  induction k with
  | zero => exact (if_neg (by omega)).symm
  | succ k ih =>
    have hlast : storeFirst slots slot p (k + 1) =
        (storeFirst slots slot p k).store slot (k + 1) (p k) := by
      simp [storeFirst, List.range_succ]
    rw [hlast]
    by_cases hs : s = slot ∧ j = k + 1
    · obtain ⟨rfl, rfl⟩ := hs
      rw [Slots.store_self, if_pos (by omega), Nat.add_sub_cancel]
    · rw [Slots.store_of_ne fun h1 h2 => hs ⟨h1, h2⟩, ih]
      have hiff : s = slot ∧ 1 ≤ j ∧ j ≤ k ↔ s = slot ∧ 1 ≤ j ∧ j ≤ k + 1 := by omega
      simp only [hiff]

theorem storePayload_of_ne {slots : Slots Word} {slot s j : Nat} (payload : Option (Nat → Word))
    (h : s = slot → j = 0) : storePayload slots slot payload s j = slots s j := by
  cases payload with
  | none => rfl
  | some p =>
    rw [storePayload, storeFirst_word, if_neg]
    rintro ⟨hs, hj, -⟩
    have := h hs
    omega

/-- The stores of a send: the payload, and the header last. -/
def sendSlots (slots : Slots Word) (c : Context) (payload : Option (Nat → Word)) : Slots Word :=
  (storePayload slots c.lPos.toNat payload).store c.lPos.toNat 0 c.nextSeq

/-- `swmr_send_raw` with a payload and `swmr_send_raw0` without; `none` is a writer that is still
waiting for an empty slot. -/
def sendRaw (c : Context) (shm : Shm) (payload : Option (Nat → Word)) : Option (Context × Shm) :=
  let c := c.wrap
  let next := getNextSync c shm.pos
  if c.nextSeq = c.nextSync ∧ c.nextSeq = next then none
  else
    let c := if c.nextSeq = c.nextSync then { c with nextSync := next } else c
    some (c.advance, { shm with slots := sendSlots shm.slots c payload })

/-- `swmr_can_receive`. -/
def canReceive (c : Context) (slots : Slots Word) : Bool := c.nextSeq == slots c.lPos.toNat 0

/-- `swmr_receive_non_blocking` and, without a payload, `swmr_receive_non_blocking0`. -/
def receiveNonBlocking (c : Context) (shm : Shm) (payload : Bool) :
    Option (Context × Shm × Option (List Word)) :=
  if c.nextSeq = shm.slots c.lPos.toNat 0 then
    let ys := if payload then some (words fun i => shm.slots c.lPos.toNat (i + 1)) else none
    let c := c.advanceReader
    some (c, { shm with pos := c.publish shm.pos }, ys)
  else none

/-! ## 3. The accesses -/

/-- Where the writer stands: it reads the position of reader `i` to compare it with `min`, or to
assign it, or it stores word `i` of the payload and at last the header. -/
inductive WritePc
  | idle
  | compare (payload : Option (Nat → Word)) (i : Nat) (min : UInt64)
  | assign (payload : Option (Nat → Word)) (i : Nat) (min : UInt64)
  | store (payload : Option (Nat → Word)) (i : Nat)

/-- Where a reader stands: it has seen its header, and copies. -/
inductive ReadPc
  | idle
  | copy (payload : Bool) (got : List Word)

/-- The writer, the readers and the memory, between two accesses. -/
structure Micro where
  writer : Context
  wpc : WritePc
  reader : Nat → Context
  rpc : Nat → ReadPc
  shm : Shm

/-- An access, by the writer or by the reader `i`. -/
inductive Act
  | send (payload : Option (Nat → Word))
  | compare
  | assign
  | store
  | publish
  | observe (i : Nat) (payload : Bool)
  | load (i : Nat)
  | finish (i : Nat)

/-- A message: its sequence number, and its words if it has any. -/
abbrev Item := Word × Option (List Word)

/-- What an access shows.  A send is done when the header is written, a receive when it returns. -/
inductive MEvent
  | quiet
  | miss (i : Nat)
  | sent (x : Item)
  | rcvd (i : Nat) (y : Item)

/-- How many payload words a send stores. -/
def storeWords : Option (Nat → Word) → Nat
  | some _ => 7
  | none => 0

/-- The loop of `swmr_get_next_sync` at reader `i`, and the loop around it at the end: the writer
waits while `next_seq == next_sync`. -/
def Micro.syncLoop (s : Micro) (payload : Option (Nat → Word)) (i : Nat) (min : UInt64) : Micro :=
  if i < s.writer.numReaders.toNat then { s with wpc := .compare payload i min }
  else
    let next := min + (s.writer.numSlots - 1)
    if s.writer.nextSeq = next then { s with wpc := .compare payload 0 minStart }
    else { s with writer := { s.writer with nextSync := next }, wpc := .store payload 0 }

/-- One access to the memory. -/
def Micro.act (s : Micro) : Act → Option (Micro × MEvent)
  | .send payload =>
    match s.wpc with
    | .idle =>
      let c := s.writer.wrap
      if c.nextSeq = c.nextSync then
        some ({ s with writer := c, wpc := .compare payload 0 minStart }, .quiet)
      else some ({ s with writer := c, wpc := .store payload 0 }, .quiet)
    | _ => none
  | .compare =>
    match s.wpc with
    | .compare payload i min =>
      if min > s.shm.pos i then some ({ s with wpc := .assign payload i min }, .quiet)
      else some (s.syncLoop payload (i + 1) min, .quiet)
    | _ => none
  | .assign =>
    match s.wpc with
    | .assign payload i _ => some (s.syncLoop payload (i + 1) (s.shm.pos i), .quiet)
    | _ => none
  | .store =>
    match s.wpc with
    | .store (some p) i =>
      if i < 7 then
        some ({ s with
            wpc := .store (some p) (i + 1)
            shm := { s.shm with slots := s.shm.slots.store s.writer.lPos.toNat (i + 1) (p i) } },
          .quiet)
      else none
    | _ => none
  | .publish =>
    match s.wpc with
    | .store payload i =>
      if i < storeWords payload then none
      else some ({ s with
          writer := s.writer.advance
          wpc := .idle
          shm := { s.shm with slots := s.shm.slots.store s.writer.lPos.toNat 0 s.writer.nextSeq } },
        .sent (s.writer.nextSeq, payload.map words))
    | _ => none
  | .observe i payload =>
    match s.rpc i with
    | .idle =>
      if (s.reader i).nextSeq = s.shm.slots (s.reader i).lPos.toNat 0 then
        some ({ s with rpc := Function.update s.rpc i (.copy payload []) }, .quiet)
      else some (s, .miss i)
    | _ => none
  | .load i =>
    match s.rpc i with
    | .copy true got =>
      if got.length < 7 then
        some ({ s with rpc := Function.update s.rpc i (.copy true
          (got ++ [s.shm.slots (s.reader i).lPos.toNat (got.length + 1)])) }, .quiet)
      else none
    | _ => none
  | .finish i =>
    match s.rpc i with
    | .copy payload got =>
      if payload = true ∧ got.length < 7 then none
      else
        let c := (s.reader i).advanceReader
        some ({ s with
            reader := Function.update s.reader i c
            rpc := Function.update s.rpc i .idle
            shm := { s.shm with pos := c.publish s.shm.pos } },
          .rcvd i ((s.reader i).nextSeq, if payload then some got else none))
    | _ => none

/-- The accesses of the writer and of the readers with ids below `num_readers`, in any order. -/
def Act.Legal (numReaders : Nat) : Act → Prop
  | .observe i _ => i < numReaders
  | .load i => i < numReaders
  | .finish i => i < numReaders
  | _ => True

def MStep (s : Micro) (e : MEvent) (s' : Micro) : Prop :=
  ∃ a, a.Legal s.writer.numReaders.toNat ∧ s.act a = some (s', e)

/-- The position the writer is about to read again, to assign it, is above the minimum so far. -/
def Micro.overtaken (s : Micro) : Bool :=
  match s.wpc with
  | .assign _ i min => decide (min < s.shm.pos i)
  | _ => false

/-- The writer does not assign a position above the minimum so far. -/
def Careful (s : Micro) : Act → Prop
  | .assign => s.overtaken = false
  | _ => True

/-- The accesses in any order, but for a reader that overtakes the minimum between the two reads of
its position. -/
def CarefulStep (s : Micro) (e : MEvent) (s' : Micro) : Prop :=
  ∃ a, a.Legal s.writer.numReaders.toNat ∧ Careful s a ∧ s.act a = some (s', e)

/-- The start, over zeroed memory. -/
def Micro.init (numReaders : UInt8) (queueSize : UInt32) : Micro where
  writer := initContext numReaders 0 queueSize
  wpc := .idle
  reader i := initContext numReaders i.toUInt8 queueSize
  rpc _ := .idle
  shm := { pos := fun _ => 0, slots := fun _ _ => 0 }

/-! ## 4. A call is its accesses

Nothing moves between the two reads of a position in a call that is left alone, so its accesses are
those of a `CarefulStep`. -/

section Calls

variable {s : Micro} {payload : Option (Nat → Word)}

/-- **Left alone, the two loops of a sync compute `swmr_get_next_sync`.** -/
theorem run_sync (s : Micro) (payload : Option (Nat → Word)) (i k : Nat) (min : UInt64)
    (hk : i + k = s.writer.numReaders.toNat) :
    ∃ tr, Run CarefulStep (s.syncLoop payload i min) tr
      (s.syncLoop payload (i + k) ((List.range' i k).foldl
        (fun min j => if min > s.shm.pos j then s.shm.pos j else min) min)) := by
  induction k generalizing i min with
  | zero => exact ⟨[], .nil⟩
  | succ k ih =>
    have hi : i < s.writer.numReaders.toNat := by omega
    have hloop : s.syncLoop payload i min = { s with wpc := .compare payload i min } := by
      simp only [Micro.syncLoop, hi, if_true]
    obtain ⟨tr, hrest⟩ := ih (i + 1) (if min > s.shm.pos i then s.shm.pos i else min) (by omega)
    rw [List.range'_succ, List.foldl_cons, ← Nat.add_assoc, Nat.add_right_comm, hloop]
    by_cases hlt : min > s.shm.pos i
    · -- the position lowers the minimum, and is read twice
      have h1 : CarefulStep { s with wpc := .compare payload i min } .quiet
          { s with wpc := .assign payload i min } :=
        ⟨.compare, trivial, trivial, by simp [Micro.act, hlt]⟩
      have hcare : Careful { s with wpc := .assign payload i min } .assign :=
        decide_eq_false (UInt64.not_lt.mpr (UInt64.le_of_lt hlt))
      have h2 : CarefulStep { s with wpc := .assign payload i min } .quiet
          (s.syncLoop payload (i + 1) (s.shm.pos i)) := ⟨.assign, trivial, hcare, rfl⟩
      rw [if_pos hlt] at hrest ⊢
      exact ⟨_, (Run.snoc (.snoc .nil h1) h2).append hrest⟩
    · have h1 : CarefulStep { s with wpc := .compare payload i min } .quiet
          (s.syncLoop payload (i + 1) min) :=
        ⟨.compare, trivial, trivial, by simp only [Micro.act, hlt, if_false]; rfl⟩
      rw [if_neg hlt] at hrest ⊢
      exact ⟨_, (Run.snoc .nil h1).append hrest⟩

/-- The first `k` stores of a payload. -/
theorem run_store (s : Micro) (p : Nat → Word) (k : Nat) (hk : k ≤ 7) :
    Run CarefulStep { s with wpc := .store (some p) 0 } (List.replicate k .quiet)
      { s with
        wpc := .store (some p) k
        shm := { s.shm with slots := storeFirst s.shm.slots s.writer.lPos.toNat p k } } := by
  induction k with
  | zero => exact .nil
  | succ k ih =>
    rw [List.replicate_succ']
    refine .snoc (ih (by omega)) ⟨.store, trivial, trivial, ?_⟩
    have hlt : k < 7 := by omega
    simp [Micro.act, hlt, storeFirst, List.range_succ]

/-- The stores of a send, the header last. -/
theorem run_stores (s : Micro) (payload : Option (Nat → Word)) :
    ∃ tr x, Run CarefulStep { s with wpc := .store payload 0 } (tr ++ [.sent x])
      { s with
        writer := s.writer.advance
        wpc := .idle
        shm := { s.shm with slots := sendSlots s.shm.slots s.writer payload } } := by
  cases payload with
  | none => exact ⟨[], (s.writer.nextSeq, none), .snoc .nil ⟨.publish, trivial, trivial, rfl⟩⟩
  | some p =>
    refine ⟨_, (s.writer.nextSeq, some (words p)), (run_store s p 7 (Nat.le_refl 7)).snoc
      ⟨.publish, trivial, trivial, ?_⟩⟩
    simp [Micro.act, storeWords, storePayload, sendSlots]

/-- **Left alone, the accesses of a send are `swmr_send_raw` or `swmr_send_raw0`.** -/
theorem run_sendRaw (hidle : s.wpc = .idle) (hR : 1 ≤ s.writer.numReaders.toNat) {c : Context}
    {shm : Shm} (hok : sendRaw s.writer s.shm payload = some (c, shm)) :
    ∃ tr x, Run CarefulStep s (tr ++ [.sent x]) { s with writer := c, shm := shm } := by
  have hwrap : s.writer.wrap.numReaders = s.writer.numReaders := by
    unfold Context.wrap
    split <;> rfl
  simp only [sendRaw] at hok
  split at hok
  · cases hok
  · rename_i hwait
    obtain ⟨rfl, rfl⟩ := Prod.mk.inj (Option.some.inj hok)
    by_cases hsync : s.writer.wrap.nextSeq = s.writer.wrap.nextSync
    · have hnext : s.writer.wrap.nextSeq ≠ getNextSync s.writer.wrap s.shm.pos :=
        fun h => hwait ⟨hsync, h⟩
      have hsend : CarefulStep s .quiet
          ({ s with writer := s.writer.wrap }.syncLoop payload 0 minStart) := by
        refine ⟨.send payload, trivial, trivial, ?_⟩
        simp only [Micro.act, hidle, hsync, if_true, Micro.syncLoop, hwrap, Nat.lt_of_succ_le hR]
      obtain ⟨tr, hloops⟩ := run_sync { s with writer := s.writer.wrap } payload 0
        s.writer.numReaders.toNat minStart (by simp [hwrap])
      have hend : { s with writer := s.writer.wrap }.syncLoop payload
          (0 + s.writer.numReaders.toNat) ((List.range' 0 s.writer.numReaders.toNat).foldl
            (fun min j => if min > s.shm.pos j then s.shm.pos j else min) minStart) =
          { s with
            writer := { s.writer.wrap with nextSync := getNextSync s.writer.wrap s.shm.pos }
            wpc := .store payload 0 } := by
        simp only [getNextSync, hwrap, List.range_eq_range'] at hnext
        simp only [Micro.syncLoop, hwrap, Nat.zero_add, Nat.lt_irrefl, if_false, hnext, getNextSync,
          List.range_eq_range']
      rw [hend] at hloops
      obtain ⟨tr', x, hstores⟩ := run_stores
        { s with writer := { s.writer.wrap with nextSync := getNextSync s.writer.wrap s.shm.pos } }
        payload
      have hrun := ((Run.snoc .nil hsend).append hloops).append hstores
      rw [← List.append_assoc, ← hidle] at hrun
      rw [if_pos hsync]
      exact ⟨_, x, hrun⟩
    · have hsend :
          CarefulStep s .quiet { s with writer := s.writer.wrap, wpc := .store payload 0 } :=
        ⟨.send payload, trivial, trivial, by simp only [Micro.act, hidle, hsync, if_false]⟩
      obtain ⟨tr', x, hstores⟩ := run_stores { s with writer := s.writer.wrap } payload
      have hrun := (Run.snoc .nil hsend).append hstores
      rw [← List.append_assoc, ← hidle] at hrun
      rw [if_neg hsync]
      exact ⟨_, x, hrun⟩

/-- The first `k` loads of a receive. -/
theorem run_load (s : Micro) {i : Nat} (hi : i < s.writer.numReaders.toNat) (k : Nat)
    (hk : k ≤ 7) :
    Run CarefulStep { s with rpc := Function.update s.rpc i (.copy true []) }
      (List.replicate k .quiet)
      { s with rpc := Function.update s.rpc i (.copy true
        ((List.range k).map fun l => s.shm.slots (s.reader i).lPos.toNat (l + 1))) } := by
  induction k with
  | zero => exact .nil
  | succ k ih =>
    rw [List.replicate_succ']
    refine .snoc (ih (by omega)) ⟨.load i, hi, trivial, ?_⟩
    have hlt : k < 7 := by omega
    simp [Micro.act, hlt, List.range_succ]

/-- **Left alone, the accesses of a receive are `swmr_receive_non_blocking` or
`swmr_receive_non_blocking0`.** -/
theorem run_receive {i : Nat} (hi : i < s.writer.numReaders.toNat) (hidle : s.rpc i = .idle)
    {payload : Bool} {c : Context} {shm : Shm} {ys : Option (List Word)}
    (hok : receiveNonBlocking (s.reader i) s.shm payload = some (c, shm, ys)) :
    ∃ tr, Run CarefulStep s (tr ++ [.rcvd i ((s.reader i).nextSeq, ys)])
      { s with reader := Function.update s.reader i c, shm := shm } := by
  simp only [receiveNonBlocking] at hok
  split at hok
  · rename_i hnum
    simp only [Option.some.injEq, Prod.mk.injEq] at hok
    obtain ⟨rfl, rfl, rfl⟩ := hok
    have hobs : CarefulStep s .quiet { s with rpc := Function.update s.rpc i (.copy payload []) } :=
      ⟨.observe i payload, hi, trivial, by simp [Micro.act, hidle, hnum]⟩
    have hback : Function.update s.rpc i .idle = s.rpc := by
      rw [← hidle]
      exact Function.update_eq_self i s.rpc
    cases payload with
    | false =>
      refine ⟨_, (Run.snoc .nil hobs).snoc ⟨.finish i, hi, trivial, ?_⟩⟩
      simp [Micro.act, hback]
    | true =>
      refine ⟨_, ((Run.snoc .nil hobs).append (run_load s hi 7 (Nat.le_refl 7))).snoc
        ⟨.finish i, hi, trivial, ?_⟩⟩
      simp [Micro.act, hback, words]
  · cases hok

end Calls

end Smelt.Swmr
