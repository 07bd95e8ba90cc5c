/-
# The single-writer multi-reader queue, call by call

The queue of a 1:n channel (`swmr_queue_create`, `smlt_swmr_send` and their siblings), used one call
at a time.  A call that is left alone is a careful run of its accesses (`run_sendRaw`,
`run_receive`), so the invariant of `Delivery.lean` holds between the calls with nothing more to
prove about the ring (`ok_send`, `ok_recv`).

`announced` is what a reader has before it: the slots from its position on, as long as they carry
the numbers it waits for.  A send makes that one message longer, for every reader.
-/
import Smelt.Shm.Delivery

namespace Smelt.Swmr

open Ring

/-! ## 1. The queue -/

/-- `struct swmr_queue`, and the memory behind it. -/
structure World where
  src : Context
  dst : Nat → Context
  shm : Shm

/-- `SWMRQ_SIZE`. -/
def swmrqSize : UInt32 := 64

/-- The sizing loop of `swmr_queue_create`, in at most `turns` turns. -/
def sizeLoop (count : UInt16) : Nat → UInt32 → UInt32
  | 0, queueSize => queueSize
  | turns + 1, queueSize =>
    if queueSize - (count.toUInt32 + 1) < 48 then sizeLoop count turns (queueSize + swmrqSize)
    else queueSize

/-- The size `swmr_queue_create` arrives at.  A page is larger than what the loop asks for, so the
loop adds at most one. -/
def queueSize (count : UInt16) : UInt32 := sizeLoop count 1 swmrqSize

/-- The loop has ended there. -/
theorem queueSize_done (count : UInt16) :
    ¬ queueSize count - (count.toUInt32 + 1) < 48 := by
  have hcount : count.toNat < 65536 := count.toNat_lt
  have hone : (count.toUInt32 + 1).toNat = count.toNat + 1 := by
    rw [UInt32.toNat_add, UInt16.toNat_toUInt32]
    exact Nat.mod_eq_of_lt (by change count.toNat + 1 < 4294967296; omega)
  unfold queueSize sizeLoop
  split
  · rename_i h
    have hpage : (swmrqSize + swmrqSize).toNat = 128 := rfl
    have hstart : swmrqSize.toNat = 64 := rfl
    rw [sizeLoop, UInt32.lt_iff_toNat_lt, UInt32.toNat_sub, hone, hpage]
    rw [UInt32.lt_iff_toNat_lt, UInt32.toNat_sub, hone, hstart] at h
    simp only [UInt32.reduceToNat] at h ⊢
    omega
  · assumption

/-- `swmr_queue_create`, over zeroed memory.  `swmr_init_context` takes the number of readers and
the id as `uint8_t`. -/
def queueCreate (count : UInt16) : World where
  src := initContext count.toUInt8 0 (queueSize count)
  dst i := initContext count.toUInt8 i.toUInt8 (queueSize count)
  shm := { pos := fun _ => 0, slots := fun _ _ => 0 }

/-- `swmr_send_raw` and `swmr_send_raw0` by the writer. -/
def World.sendRaw (w : World) (payload : Option (Nat → Word)) : Option World :=
  (Swmr.sendRaw w.src w.shm payload).map fun r => { w with src := r.1, shm := r.2 }

/-- `smlt_swmr_send`: a message of more than seven words is not sent, with the same result. -/
def World.send (w : World) (msg : Msg) : Option (World × Errval) :=
  if msg.words ≤ 7 then (w.sendRaw (some msg.data)).map fun w' => (w', success)
  else some (w, success)

/-- `swmr_receive_non_blocking` and `swmr_receive_non_blocking0` by the reader `i`. -/
def World.recvRaw (w : World) (i : Nat) (payload : Bool) : Option World :=
  (receiveNonBlocking (w.dst i) w.shm payload).map fun r =>
    { w with dst := Function.update w.dst i r.1, shm := r.2.1 }

/-! ## 2. Between the calls -/

/-- The queue, with nobody inside a call. -/
def World.micro (w : World) : Micro where
  writer := w.src
  wpc := .idle
  reader := w.dst
  rpc _ := .idle
  shm := w.shm

/-- The queue between the calls, with `R` readers and `N` slots. -/
def World.Ok (N R : ℕ) (w : World) : Prop := ∃ m items r, SInv N R m items r w.micro

section Calls

variable {N R : ℕ} {w w' : World}

theorem sinv_run {s s' : Micro} {tr : List MEvent} (hrun : Run CarefulStep s tr s')
    (h : ∃ m items r, SInv N R m items r s) : ∃ m items r, SInv N R m items r s' := by
  refine hrun.induct (fun _ s' => ∃ m items r, SInv N R m items r s') h ?_
  rintro - s e s' ⟨m, items, r, hinv⟩ hstep
  obtain ⟨q', ⟨m', items', r', hinv', -⟩, -⟩ :=
    srel_step hinv.readers ⟨m, items, r, hinv, rfl⟩ hstep
  exact ⟨m', items', r', hinv'⟩

theorem ok_send {payload : Option (Nat → Word)} (h : w.Ok N R)
    (hs : w.sendRaw payload = some w') : w'.Ok N R := by
  obtain ⟨m, items, r, hinv⟩ := h
  obtain ⟨⟨c, shm⟩, hraw, rfl⟩ := Option.map_eq_some_iff.mp hs
  have hR : 1 ≤ w.micro.writer.numReaders.toNat := by
    rw [hinv.writer.readers]
    exact hinv.readers
  obtain ⟨tr, x, hrun⟩ := run_sendRaw (show w.micro.wpc = .idle from rfl) hR hraw
  exact sinv_run hrun ⟨m, items, r, hinv⟩

theorem ok_recv {i : ℕ} {payload : Bool} (h : w.Ok N R) (hi : i < R)
    (hr : w.recvRaw i payload = some w') : w'.Ok N R := by
  obtain ⟨m, items, r, hinv⟩ := h
  obtain ⟨⟨c, shm, ys⟩, hraw, rfl⟩ := Option.map_eq_some_iff.mp hr
  have hreaders : i < w.micro.writer.numReaders.toNat := by
    rw [hinv.writer.readers]
    exact hi
  obtain ⟨tr, hrun⟩ := run_receive hreaders (show w.micro.rpc i = .idle from rfl) hraw
  exact sinv_run hrun ⟨m, items, r, hinv⟩

/-- What `swmr_queue_create` arrives at for up to 63 readers: one page or two, with room for the
positions and 48 slots. -/
theorem queueSize_spec {count : UInt16} (hone : 1 ≤ count.toNat) (hmax : count.toNat ≤ 63) :
    count.toUInt8.toNat = count.toNat ∧ 48 + (count.toNat + 1) ≤ (queueSize count).toNat ∧
      (queueSize count).toNat ≤ 128 := by
  have hsize : ∀ k : Fin 64, 1 ≤ k.val →
      (UInt16.ofNat k.val).toUInt8.toNat = k.val ∧
      48 + (k.val + 1) ≤ (queueSize (UInt16.ofNat k.val)).toNat ∧
      (queueSize (UInt16.ofNat k.val)).toNat ≤ 128 := by
    decide +kernel
  have := hsize ⟨count.toNat, by omega⟩ hone
  simpa only [UInt16.ofNat_toNat] using this

/-- The channels `swmr_queue_create` lays out as it means to: up to 63 readers, and at least 48
slots. -/
theorem ok_create {count : UInt16} (hone : 1 ≤ count.toNat) (hmax : count.toNat ≤ 63) :
    ∃ N, 48 ≤ N ∧ (queueCreate count).Ok N count.toNat := by
  obtain ⟨hreaders, hmin, hle⟩ := queueSize_spec hone hmax
  refine ⟨(queueSize count).toNat - (count.toNat + 1), by omega, 0, [], fun _ => 0, ?_⟩
  have hinit := sinv_init (by omega : 1 ≤ count.toUInt8.toNat)
    (by omega : 2 ≤ (queueSize count).toNat - (count.toNat + 1)) (by omega)
    (show (queueSize count).toNat =
      (queueSize count).toNat - (count.toNat + 1) + (count.toUInt8.toNat + 1) by omega)
  rw [hreaders] at hinit
  exact hinit

/-! ## 3. What a send does -/

/-- A send writes into one slot, and leaves the readers alone. -/
theorem sendRaw_frame {payload : Option (Nat → Word)} (hs : w.sendRaw payload = some w') :
    w'.dst = w.dst ∧ w'.src.nextSeq = w.src.nextSeq + 1 ∧
      w'.shm.slots = (storePayload w.shm.slots w.src.wrap.lPos.toNat payload).store
        w.src.wrap.lPos.toNat 0 w.src.nextSeq := by
  have hwrap : w.src.wrap.nextSeq = w.src.nextSeq := by
    unfold Context.wrap
    split <;> rfl
  obtain ⟨⟨c, shm⟩, hraw, rfl⟩ := Option.map_eq_some_iff.mp hs
  simp only [Swmr.sendRaw] at hraw
  split at hraw
  · cases hraw
  · obtain ⟨rfl, rfl⟩ := Prod.mk.inj (Option.some.inj hraw)
    refine ⟨rfl, ?_, ?_⟩
    · rw [← hwrap]
      split <;> rfl
    · rw [← hwrap]
      simp only [sendSlots]
      split <;> rfl

/-- A send that returns counts one message more. -/
theorem ok_send_seq {payload : Option (Nat → Word)} (h : w.Ok N R)
    (hs : w.sendRaw payload = some w') : w'.src.nextSeq.toNat = w.src.nextSeq.toNat + 1 := by
  obtain ⟨-, hseq, -⟩ := sendRaw_frame hs
  obtain ⟨m, items, r, hinv⟩ := h
  have hsent : w.src.nextSeq.toNat = items.length + 1 := hinv.writer.seq
  have hcap := hinv.cap
  have hroom := hinv.room
  have hsmall := hinv.small
  have hstart : minStart.toNat = 4294967295 := rfl
  rw [hseq, UInt64.toNat_add, UInt64.toNat_one, Nat.mod_eq_of_lt (by omega)]

/-- A reader finds the numbers of the messages it has not received, and no more. -/
theorem SInv.ready {m : ℕ} {items : List Item} {r : ℕ → ℕ} {s : Micro}
    (h : SInv N R m items r s) {i : ℕ} (hi : i < R) {k : ℕ} (hk : k < N) :
    s.shm.slots ((r i + k) % N) 0 = (s.reader i).nextSeq + UInt64.ofNat k ↔
      r i + k < items.length := by
  have hlap := h.lap hi
  have hle := h.le_sent i hi
  have hcap := h.cap
  have hroom := h.room
  have hsmall := h.small
  have hstart : minStart.toNat = 4294967295 := rfl
  have hseq : ((s.reader i).nextSeq + UInt64.ofNat k).toNat = r i + k + 1 := by
    rw [UInt64.toNat_add, UInt64.toNat_ofNat', (h.reader i hi).seq, Nat.mod_eq_of_lt (by omega)]
    omega
  rw [← h.held.observe (by omega : items.length < r i + k + N) hseq]
  exact eq_comm

/-- **A send that returns is one message more for every reader**: what then stands in its slot. -/
theorem World.Ok.send (h : w.Ok N R) {payload : Option (Nat → Word)}
    (hs : w.sendRaw payload = some w') {i : ℕ} (hi : i < R) :
    announced N (w'.dst i).lPos.toNat (w'.dst i).nextSeq w'.shm.slots =
      announced N (w.dst i).lPos.toNat (w.dst i).nextSeq w.shm.slots ++
        [words fun j => w'.shm.slots w.src.wrap.lPos.toNat (j + 1)] := by
  obtain ⟨m', items', r', hinv'⟩ := ok_send h hs
  have hseq := ok_send_seq h hs
  obtain ⟨m, items, r, hinv⟩ := h
  obtain ⟨hdst, -, hslots⟩ := sendRaw_frame hs
  obtain ⟨-, hpos⟩ := hinv.writer.wrap hinv.two
  -- the counts are in the contexts
  have hr : r' i = r i := by
    have h1 : (w'.dst i).nextSeq.toNat = r' i + 1 := (hinv'.reader i hi).seq
    have h2 : (w.dst i).nextSeq.toNat = r i + 1 := (hinv.reader i hi).seq
    rw [hdst] at h1
    omega
  have hsent : items'.length = items.length + 1 := by
    have h1 : w'.src.nextSeq.toNat = items'.length + 1 := hinv'.writer.seq
    have h2 : w.src.nextSeq.toNat = items.length + 1 := hinv.writer.seq
    omega
  have hlap := hinv.lap hi
  have hle := hinv.le_sent i hi
  have hpos : w.src.wrap.lPos.toNat = items.length % N := hpos
  have hready' : ∀ k, k < N → (w'.shm.slots ((r i + k) % N) 0 =
      (w.dst i).nextSeq + UInt64.ofNat k ↔ r i + k < items.length + 1) := by
    intro k hk
    rw [← hsent, ← hr, ← hdst]
    exact hinv'.ready hi hk
  have hother : ∀ s, s ≠ items.length % N → w'.shm.slots s = w.shm.slots s := by
    intro s hs
    funext j
    rw [hslots, hpos, Slots.store_of_ne fun h => absurd h hs,
      storePayload_of_ne payload fun h => absurd h hs]
  rw [hdst, hpos]
  exact announced_concat (hinv.reader i hi).pos hle (by omega) (fun k hk => hinv.ready hi hk)
    hready' hother

/-! ## 4. What a receive does -/

/-- What a reader has before it, by the counts. -/
theorem SInv.announced_eq {m : ℕ} {items : List Item} {r : ℕ → ℕ} {s : Micro}
    (h : SInv N R m items r s) {i : ℕ} (hi : i < R) :
    announced N (s.reader i).lPos.toNat (s.reader i).nextSeq s.shm.slots =
      (List.range (items.length - r i)).map fun k =>
        words fun j => s.shm.slots ((r i + k) % N) (j + 1) := by
  have hlap := h.lap hi
  have hle := h.le_sent i hi
  have hmod : ∀ k, ((s.reader i).lPos.toNat + k) % N = (r i + k) % N := by
    intro k
    rw [(h.reader i hi).pos, Nat.mod_add_mod]
  simp only [announced, hmod]
  refine pending_eq (by omega) (fun k hk => ?_) (fun hlt => ?_)
  · exact beq_iff_eq.mpr ((h.ready hi (by omega)).mpr (by omega))
  · exact beq_eq_false_iff_ne.mpr fun he => absurd ((h.ready hi hlt).mp he) (by omega)

/-- A receive succeeds just when the writer is ahead. -/
theorem World.Ok.ready (h : w.Ok N R) {i : ℕ} (hi : i < R) :
    (w.dst i).nextSeq = w.shm.slots (w.dst i).lPos.toNat 0 ↔
      (w.dst i).nextSeq.toNat < w.src.nextSeq.toNat := by
  obtain ⟨m, items, r, hinv⟩ := h
  have hsent : w.src.nextSeq.toNat = items.length + 1 := hinv.writer.seq
  have hseq : (w.dst i).nextSeq.toNat = r i + 1 := (hinv.reader i hi).seq
  have hpos : (w.dst i).lPos.toNat = r i % N := (hinv.reader i hi).pos
  have htwo := hinv.two
  have hready := hinv.ready hi (by omega : 0 < N)
  have hzero : UInt64.ofNat 0 = 0 := rfl
  rw [Nat.add_zero, hzero, UInt64.add_zero] at hready
  rw [hpos, eq_comm, hsent, hseq]
  exact hready.trans (by omega)

theorem advanceReader_nextSeq (c : Context) : c.advanceReader.nextSeq = c.nextSeq + 1 := by
  unfold Context.advanceReader Context.wrap
  split <;> rfl

/-- What a receive does to the contexts. -/
theorem ok_recv_seq {i : ℕ} {payload : Bool} (h : w.Ok N R) (hi : i < R)
    (hr : w.recvRaw i payload = some w') :
    w'.src = w.src ∧ w'.dst = Function.update w.dst i (w.dst i).advanceReader ∧
      w'.shm = { w.shm with pos := (w.dst i).advanceReader.publish w.shm.pos } ∧
      (w'.dst i).nextSeq.toNat = (w.dst i).nextSeq.toNat + 1 := by
  obtain ⟨⟨c, shm, ys⟩, hraw, rfl⟩ := Option.map_eq_some_iff.mp hr
  simp only [receiveNonBlocking] at hraw
  split at hraw
  · simp only [Option.some.injEq, Prod.mk.injEq] at hraw
    obtain ⟨rfl, rfl, -⟩ := hraw
    refine ⟨rfl, rfl, rfl, ?_⟩
    obtain ⟨m, items, r, hinv⟩ := h
    have hseq : (w.dst i).nextSeq.toNat = r i + 1 := (hinv.reader i hi).seq
    have hle := hinv.le_sent i hi
    have hcap := hinv.cap
    have hroom := hinv.room
    have hsmall := hinv.small
    have hstart : minStart.toNat = 4294967295 := rfl
    simp only [Function.update_self]
    rw [advanceReader_nextSeq, UInt64.toNat_add, UInt64.toNat_one, Nat.mod_eq_of_lt (by omega)]
  · cases hraw

/-- **A receive takes the first message before its reader**, and leaves the rest. -/
theorem World.Ok.recv (h : w.Ok N R) {i : ℕ} (hi : i < R) {xs : List Word}
    {rest : List (List Word)} (payload : Bool)
    (hq : announced N (w.dst i).lPos.toNat (w.dst i).nextSeq w.shm.slots = xs :: rest) :
    ∃ c pos, receiveNonBlocking (w.dst i) w.shm payload =
        some (c, { w.shm with pos := pos }, if payload then some xs else none) ∧
      announced N c.lPos.toNat c.nextSeq w.shm.slots = rest := by
  obtain ⟨m, items, r, hinv⟩ := id h
  have hcount := (hinv.announced_eq hi).symm.trans hq
  have hle := hinv.le_sent i hi
  have hlap := hinv.lap hi
  obtain ⟨left, hleft⟩ : ∃ left, items.length - r i = left + 1 := by
    cases hlen : items.length - r i with
    | zero =>
      rw [hlen] at hcount
      cases hcount
    | succ left => exact ⟨left, rfl⟩
  rw [hleft, List.range_succ_eq_map, List.map_cons, List.map_map] at hcount
  obtain ⟨hfirst, hrest⟩ := List.cons.inj hcount
  have hpos : r i % N = (w.dst i).lPos.toNat := ((hinv.reader i hi).pos).symm
  have hnum : (w.dst i).nextSeq = w.shm.slots (w.dst i).lPos.toNat 0 := by
    have hsent : w.src.nextSeq.toNat = items.length + 1 := hinv.writer.seq
    have hseq : (w.dst i).nextSeq.toNat = r i + 1 := (hinv.reader i hi).seq
    exact (h.ready hi).mpr (by omega)
  have hraw : receiveNonBlocking (w.dst i) w.shm payload =
      some ((w.dst i).advanceReader,
        { w.shm with pos := (w.dst i).advanceReader.publish w.shm.pos },
        if payload then some xs else none) := by
    rw [receiveNonBlocking, if_pos hnum, ← hfirst, Nat.add_zero, hpos]
    rfl
  refine ⟨_, _, hraw, ?_⟩
  -- the same count of messages sent, and one more received
  have hcall : w.recvRaw i payload = some
      { w with
        dst := Function.update w.dst i (w.dst i).advanceReader
        shm := { w.shm with pos := (w.dst i).advanceReader.publish w.shm.pos } } := by
    rw [World.recvRaw, hraw, Option.map_some]
  obtain ⟨-, -, -, hseq⟩ := ok_recv_seq h hi hcall
  obtain ⟨m', items', r', hinv'⟩ := ok_recv h hi hcall
  have hself : (Function.update w.dst i (w.dst i).advanceReader) i = (w.dst i).advanceReader :=
    Function.update_self i _ w.dst
  have hsent : items'.length = items.length := by
    have h1 : w.src.nextSeq.toNat = items'.length + 1 := hinv'.writer.seq
    have h2 : w.src.nextSeq.toNat = items.length + 1 := hinv.writer.seq
    omega
  have hr : r' i = r i + 1 := by
    have h1 : ((Function.update w.dst i (w.dst i).advanceReader) i).nextSeq.toNat = r' i + 1 :=
      (hinv'.reader i hi).seq
    have h2 : (w.dst i).nextSeq.toNat = r i + 1 := (hinv.reader i hi).seq
    have h3 : ((Function.update w.dst i (w.dst i).advanceReader) i).nextSeq.toNat =
      (w.dst i).nextSeq.toNat + 1 := hseq
    omega
  have hafter := hinv'.announced_eq hi
  rw [hsent, hr, show items.length - (r i + 1) = left by omega] at hafter
  rw [← hrest, ← hself]
  refine hafter.trans (List.map_congr_left fun k _ => ?_)
  simp only [Function.comp_apply, Nat.succ_eq_add_one, Nat.add_assoc, Nat.add_comm 1 k]
  rfl

end Calls

end Smelt.Swmr
