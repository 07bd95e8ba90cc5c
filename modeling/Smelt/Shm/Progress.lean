/-
# When the writer of the single-writer multi-reader queue waits

The writer looks at the readers only at the sync point, `next_seq == next_sync`, and a reader
publishes its position only while bit five of its next sequence number is clear.  So the published
position is a FUNCTION of the number of messages received (`published`), which is at most 32 behind
it; and the writer waits exactly while the slowest published position is the one it synced with
last.  Together: a writer that waits is at least `N - 34` messages ahead of that reader
(`swmr_progress`).

Both facts need `swmr_get_next_sync` to return the minimum.

* Along runs in which a reader overtakes the running minimum between the two reads of its position
  the sync point is past the minimum, and `swmr_can_send`, which compares with `<`, then disagrees
  with `swmr_send_raw`, which compares with `==` (`can_send_disagrees`).
* The running minimum starts from `0xFFFFFFFF`, a 32-bit bound on 64-bit positions: once every
  reader is past it the sync point stands still (`next_sync_iff`), and the writer hangs at the next
  one (`next_sync_hangs`).
-/
import Smelt.Shm.Delivery
import Mathlib.Data.Nat.Bitwise

namespace Smelt.Swmr

/-! ## 1. The sync point -/

/-- The running minimum of `swmr_get_next_sync` over the first `n` readers. -/
theorem foldl_min_spec (pos : ℕ → UInt64) (start : UInt64) (n : ℕ) :
    ∃ min, (List.range n).foldl (fun min i => if min > pos i then pos i else min) start = min ∧
      min ≤ start ∧ (∀ i, i < n → min ≤ pos i) ∧ (min = start ∨ ∃ i, i < n ∧ min = pos i) := by
  induction n with
  | zero =>
    exact ⟨start, rfl, UInt64.le_refl _, fun i hi => absurd hi (Nat.not_lt_zero i), .inl rfl⟩
  | succ n ih =>
    obtain ⟨min, hfold, hstart, hle, hmem⟩ := ih
    rw [List.range_succ, List.foldl_append, hfold, List.foldl_cons, List.foldl_nil]
    by_cases hlt : min > pos n
    · rw [if_pos hlt]
      refine ⟨pos n, rfl, UInt64.le_trans (UInt64.le_of_lt hlt) hstart, ?_,
        .inr ⟨n, Nat.lt_succ_self n, rfl⟩⟩
      intro i hi
      rcases Nat.lt_succ_iff_lt_or_eq.mp hi with hi | rfl
      · exact UInt64.le_trans (UInt64.le_of_lt hlt) (hle i hi)
      · exact UInt64.le_refl _
    · rw [if_neg hlt]
      refine ⟨min, rfl, hstart, ?_, ?_⟩
      · intro i hi
        rcases Nat.lt_succ_iff_lt_or_eq.mp hi with hi | rfl
        · exact hle i hi
        · exact UInt64.not_lt.mp hlt
      · rcases hmem with h | ⟨i, hi, h⟩
        · exact .inl h
        · exact .inr ⟨i, Nat.lt_succ_of_lt hi, h⟩

/-- The slowest of the published positions. -/
structure Slowest (c : Context) (pos : ℕ → UInt64) (min : UInt64) : Prop where
  mem : ∃ i, i < c.numReaders.toNat ∧ pos i = min
  le : ∀ i, i < c.numReaders.toNat → min ≤ pos i

/-- **`swmr_get_next_sync` follows the slowest reader up to `0xFFFFFFFF`**, and no further. -/
theorem getNextSync_eq {c : Context} {pos : ℕ → UInt64} {min : UInt64} (hmin : Slowest c pos min) :
    getNextSync c pos = (if min ≤ minStart then min else minStart) + (c.numSlots - 1) := by
  obtain ⟨low, hfold, hstart, hle, hmem⟩ := foldl_min_spec pos minStart c.numReaders.toNat
  obtain ⟨k, hk, hpos⟩ := hmin.mem
  have hlow : low ≤ min := by
    rw [← hpos]
    exact hle k hk
  rw [getNextSync, hfold]
  congr 1
  rcases hmem with rfl | ⟨i, hi, rfl⟩
  · by_cases hcap : min ≤ minStart
    · rw [if_pos hcap]
      exact UInt64.le_antisymm hlow hcap
    · rw [if_neg hcap]
  · have heq : pos i = min := UInt64.le_antisymm hlow (hmin.le i hi)
    rw [heq] at hstart ⊢
    rw [if_pos hstart]

/-- A send waits at the sync point, and while the next one is the same. -/
theorem sendRaw_eq_none {c : Context} {shm : Shm} {payload : Option (Nat → Word)} :
    sendRaw c shm payload = none ↔ c.nextSeq = c.nextSync ∧ c.nextSeq = getNextSync c shm.pos := by
  have hwrap : c.wrap.nextSeq = c.nextSeq ∧ c.wrap.nextSync = c.nextSync ∧
      getNextSync c.wrap shm.pos = getNextSync c shm.pos := by
    unfold Context.wrap
    split
    · exact ⟨rfl, rfl, rfl⟩
    · exact ⟨rfl, rfl, rfl⟩
  simp only [sendRaw, hwrap]
  split
  · rename_i h
    exact ⟨fun _ => h, fun _ => rfl⟩
  · rename_i h
    exact ⟨fun hnone => by simp at hnone, fun hw => absurd hw h⟩

/-- **The sync point is the slowest reader's just below `2 ^ 32`.**  For every number of readers,
every vector of positions and every writer: `swmr_get_next_sync` returns the minimum of the
positions plus `num_slots - 1`, and a writer at the sync point is released once every reader has
published a position past the one the sync point stands for, if and only if the minimum is at
most `0xFFFFFFFF`. -/
theorem next_sync_iff {c : Context} {pos : ℕ → UInt64} {min : UInt64} (hmin : Slowest c pos min)
    (hfits : ∀ i, i < c.numReaders.toNat → (pos i).toNat + c.numSlots.toNat < 2 ^ 64) :
    (getNextSync c pos = min + (c.numSlots - 1) ∧
      (c.nextSeq = c.nextSync →
        (∀ i, i < c.numReaders.toNat →
          c.nextSeq.toNat + 1 < (pos i).toNat + c.numSlots.toNat) →
        ∀ shm payload, shm.pos = pos → sendRaw c shm payload ≠ none)) ↔ min ≤ minStart := by
  rw [getNextSync_eq hmin]
  constructor
  · rintro ⟨heq, -⟩
    split at heq
    · assumption
    · rename_i hcap
      rw [← (UInt64.add_left_inj _).mp heq] at hcap
      exact absurd (UInt64.le_refl _) hcap
  · intro hcap
    rw [if_pos hcap]
    refine ⟨rfl, ?_⟩
    rintro - hpast shm payload rfl hnone
    obtain ⟨k, hk, rfl⟩ := hmin.mem
    have hk' := hpast k hk
    have hsum := toNat_sync (by omega) (hfits k hk)
    have hnext := (sendRaw_eq_none.mp hnone).2
    rw [getNextSync_eq hmin, if_pos hcap] at hnext
    have := congrArg UInt64.toNat hnext
    omega

/-- One reader and 62 slots, the writer at the sync point that belongs to `0xFFFFFFFF`. -/
def hungWriter : Context :=
  { numReaders := 1, id := 0, numSlots := 62, lPos := 0,
    nextSync := 0x10000003C, nextSeq := 0x10000003C }

theorem next_sync_iff_fresh :
    getNextSync (initContext 1 0 64) (fun _ => 5) = 5 + 61 := by
  have hmin : Slowest (initContext 1 0 64) (fun _ => 5) 5 :=
    ⟨⟨0, by decide, rfl⟩, fun _ _ => UInt64.le_refl _⟩
  exact ((next_sync_iff hmin fun i _ => by decide).mpr (by decide)).1

/-- **The writer hangs.**  The only reader has received every one of the `0x10000003B` messages, and
has published that; the sync point is still the one of `0xFFFFFFFF`, and a send waits. -/
theorem next_sync_hangs :
    Slowest hungWriter (fun _ => 0x10000003B) 0x10000003B ∧
      (0x10000003B : UInt64).toNat + hungWriter.numSlots.toNat < 2 ^ 64 ∧
      getNextSync hungWriter (fun _ => 0x10000003B) ≠ 0x10000003B + (hungWriter.numSlots - 1) ∧
      ∀ slots payload, sendRaw hungWriter ⟨fun _ => 0x10000003B, slots⟩ payload = none := by
  refine ⟨⟨⟨0, by decide, rfl⟩, fun _ _ => UInt64.le_refl _⟩, by decide, by decide, ?_⟩
  intro slots payload
  have hstill : hungWriter.nextSeq = getNextSync hungWriter fun _ => 0x10000003B := by decide
  exact sendRaw_eq_none.mpr ⟨rfl, hstill⟩

/-! ## 2. What a reader has published -/

/-- The position a reader that has received `r` messages has published last. -/
def published (r : ℕ) : ℕ := if (r + 1) / 32 % 2 = 0 then r else (r + 1) / 32 * 32 - 2

/-- It lags by 32 messages at most. -/
theorem le_published (r : ℕ) : r ≤ published r + 32 := by
  unfold published
  split <;> omega

theorem published_succ (r : ℕ) :
    published (r + 1) = if (r + 2) / 32 % 2 = 0 then r + 1 else published r := by
  unfold published
  split
  · rfl
  · split <;> omega

/-- `(next_seq & 0x20) == 0`. -/
theorem bit_five (seq : UInt64) : (seq &&& 0x20 == 0) = true ↔ seq.toNat / 32 % 2 = 0 := by
  rw [beq_iff_eq, ← UInt64.toNat_inj, UInt64.toNat_and]
  change seq.toNat &&& 2 ^ 5 = 0 ↔ _
  rw [Nat.and_two_pow, Nat.testBit_eq_decide_div_mod_eq]
  rcases Nat.mod_two_eq_zero_or_one (seq.toNat / 32) with h | h
  · simp [h]
  · simp [h]

/-- Every reader's position is the one it has published last. -/
def Lagged (R : ℕ) (s : Micro) : Prop :=
  ∀ i, i < R → (s.shm.pos i).toNat = published (s.reader i).count

/-- **Only the end of a receive moves a reader or a position.** -/
theorem act_frame {s s' : Micro} {a : Act} {e : MEvent} (ha : s.act a = some (s', e)) :
    (s'.reader = s.reader ∧ s'.shm.pos = s.shm.pos) ∨
      ∃ i, a = .finish i ∧
        s'.reader = Function.update s.reader i (s.reader i).advanceReader ∧
        s'.shm.pos = (s.reader i).advanceReader.publish s.shm.pos := by
  have hloop : ∀ payload i min, (s.syncLoop payload i min).reader = s.reader ∧
      (s.syncLoop payload i min).shm.pos = s.shm.pos := by
    intro payload i min
    simp only [Micro.syncLoop]
    split
    · exact ⟨rfl, rfl⟩
    · split <;> exact ⟨rfl, rfl⟩
  cases a with
  | send payload =>
    simp only [Micro.act] at ha
    repeat' split at ha
    all_goals cases ha
    all_goals exact .inl ⟨rfl, rfl⟩
  | compare =>
    simp only [Micro.act] at ha
    repeat' split at ha
    all_goals cases ha
    · exact .inl ⟨rfl, rfl⟩
    · exact .inl (hloop _ _ _)
  | assign =>
    simp only [Micro.act] at ha
    repeat' split at ha
    all_goals cases ha
    exact .inl (hloop _ _ _)
  | store =>
    simp only [Micro.act] at ha
    repeat' split at ha
    all_goals cases ha
    exact .inl ⟨rfl, rfl⟩
  | publish =>
    simp only [Micro.act] at ha
    repeat' split at ha
    all_goals cases ha
    exact .inl ⟨rfl, rfl⟩
  | observe i payload =>
    simp only [Micro.act] at ha
    repeat' split at ha
    all_goals cases ha
    all_goals exact .inl ⟨rfl, rfl⟩
  | load i =>
    simp only [Micro.act] at ha
    repeat' split at ha
    all_goals cases ha
    exact .inl ⟨rfl, rfl⟩
  | finish i =>
    simp only [Micro.act] at ha
    split at ha
    · split at ha
      · cases ha
      · cases ha
        exact .inr ⟨i, rfl, rfl, rfl⟩
    · cases ha

section Runs

variable {N R m : ℕ} {items : List Item} {r : ℕ → ℕ} {s s' : Micro} {e : MEvent}

/-- The invariant counts what the contexts count. -/
theorem SInv.count_reader (h : SInv N R m items r s) {i : ℕ} (hi : i < R) :
    (s.reader i).count = r i := by
  rw [Context.count, (h.reader i hi).seq, Nat.add_sub_cancel]

theorem SInv.count_writer (h : SInv N R m items r s) : s.writer.count = items.length := by
  rw [Context.count, h.writer.seq, Nat.add_sub_cancel]

/-- **A step keeps what is published.** -/
theorem lagged_step (h : SInv N R m items r s) (hlag : Lagged R s) (hstep : CarefulStep s e s') :
    Lagged R s' := by
  obtain ⟨a, hlegal, -, ha⟩ := hstep
  intro j hj
  rcases act_frame ha with ⟨hreader, hpos⟩ | ⟨i, rfl, hreader, hpos⟩
  · rw [hreader, hpos]
    exact hlag j hj
  · rw [h.writer.readers] at hlegal
    have hi : i < R := hlegal
    rw [hreader, hpos]
    have hcap := h.cap
    have hsmall := h.small
    have hroom := h.room
    have hle := h.le_sent i hi
    have hstart : minStart.toNat = 4294967295 := rfl
    have hctx := (h.reader i hi).advance h.two h.small (by omega)
    have hi' := hlag i hi
    rw [h.count_reader hi] at hi'
    have hcount : (s.reader i).advanceReader.count = r i + 1 := by
      rw [Context.count, hctx.seq, Nat.add_sub_cancel]
    unfold Context.publish
    rw [hctx.id]
    by_cases hji : j = i
    · subst hji
      rw [Function.update_self, hcount, published_succ]
      have hbit := bit_five (s.reader j).advanceReader.nextSeq
      rw [hctx.seq] at hbit
      by_cases hclear : (r j + 2) / 32 % 2 = 0
      · rw [if_pos (hbit.mpr hclear), if_pos hclear, Function.update_self]
        rw [UInt64.toNat_sub_of_le, hctx.seq]
        · rfl
        · rw [UInt64.le_iff_toNat_le, hctx.seq]
          exact Nat.le_add_left 1 _
      · rw [if_neg fun h => hclear (hbit.mp h), if_neg hclear]
        exact hi'
    · rw [Function.update_of_ne hji]
      split
      · rw [Function.update_of_ne hji]
        exact hlag j hj
      · exact hlag j hj

end Runs

/-! ## 3. The bound -/

/-- What is claimed of a state with `N` slots: `swmr_can_send` says whether a send would return; the
slowest reader of a writer that waits is `N - 34` messages behind at least; and a writer whose
readers have received everything does not wait. -/
structure Progress (N : ℕ) (s : Micro) : Prop where
  poll : canSend s.writer s.shm.pos = true ↔ ∀ payload, sendRaw s.writer s.shm payload ≠ none
  behind : ∀ payload, sendRaw s.writer s.shm payload = none →
    ∀ i, i < s.writer.numReaders.toNat →
      (∀ j, j < s.writer.numReaders.toNat → s.shm.pos i ≤ s.shm.pos j) →
      (s.reader i).count + N ≤ s.writer.count + 34
  drained : (∀ i, i < s.writer.numReaders.toNat → (s.reader i).count = s.writer.count) →
    ∀ payload, sendRaw s.writer s.shm payload ≠ none

/-- There is a slowest reader. -/
theorem exists_slowest {c : Context} (pos : ℕ → UInt64) (hR : 1 ≤ c.numReaders.toNat) :
    ∃ i, i < c.numReaders.toNat ∧ Slowest c pos (pos i) := by
  obtain ⟨min, -, -, hle, hmem⟩ := foldl_min_spec pos (pos 0) c.numReaders.toNat
  rcases hmem with rfl | ⟨i, hi, rfl⟩
  · exact ⟨0, hR, ⟨0, hR, rfl⟩, hle⟩
  · exact ⟨i, hi, ⟨i, hi, rfl⟩, hle⟩

section Bound

variable {N R m : ℕ} {items : List Item} {r : ℕ → ℕ} {s : Micro}

/-- The next sync point as a number, while the minimum is below `2 ^ 32`. -/
theorem SInv.next (h : SInv N R m items r s) (hsent : items.length < 2 ^ 32 - 1) {i : ℕ}
    (hi : i < R)
    (hslow : Slowest s.writer s.shm.pos (s.shm.pos i)) :
    (getNextSync s.writer s.shm.pos).toNat + 1 = (s.shm.pos i).toNat + N := by
  have hpos := h.pos_le i hi
  have hle := h.le_sent i hi
  have htwo := h.two
  have hsmall := h.small
  have hslots := h.writer.slots
  have hcap : s.shm.pos i ≤ minStart := by
    rw [UInt64.le_iff_toNat_le]
    change (s.shm.pos i).toNat ≤ 4294967295
    omega
  rw [getNextSync_eq hslow, if_pos hcap, toNat_sync (by omega) (by omega), hslots]

/-- A send waits just when the slowest position is the one of the last sync. -/
theorem SInv.waits (h : SInv N R m items r s) (hsent : items.length < 2 ^ 32 - 1) {i : ℕ}
    (hi : i < R) (hslow : Slowest s.writer s.shm.pos (s.shm.pos i))
    (payload : Option (Nat → Word)) :
    sendRaw s.writer s.shm payload = none ↔
      items.length + 2 = m + N ∧ (s.shm.pos i).toNat = m := by
  have hnext := h.next hsent hi hslow
  have hseq := h.writer.seq
  have hsync := h.writer.sync
  rw [sendRaw_eq_none, ← UInt64.toNat_inj, ← UInt64.toNat_inj]
  omega

theorem SInv.progress (h : SInv N R m items r s) (hlag : Lagged R s) (hN : 48 ≤ N)
    (hsent : items.length < 2 ^ 32 - 1) : Progress N s := by
  have hreaders := h.writer.readers
  have hbehind : ∀ payload, sendRaw s.writer s.shm payload = none →
      ∀ i, i < s.writer.numReaders.toNat →
        (∀ j, j < s.writer.numReaders.toNat → s.shm.pos i ≤ s.shm.pos j) →
        (s.reader i).count + N ≤ s.writer.count + 34 := by
    intro payload hnone i hi hslow
    have hi' : i < R := hreaders ▸ hi
    obtain ⟨hfull, hpos⟩ := (h.waits hsent hi' ⟨⟨i, hi, rfl⟩, hslow⟩ payload).mp hnone
    have hle := le_published (s.reader i).count
    have hpub := hlag i hi'
    rw [h.count_writer]
    omega
  obtain ⟨i, hi, hslow⟩ := exists_slowest (c := s.writer) s.shm.pos (hreaders ▸ h.readers)
  have hi' : i < R := hreaders ▸ hi
  refine ⟨?_, hbehind, ?_⟩
  · have hiff := h.waits hsent hi' hslow
    have hnext := h.next hsent hi' hslow
    have hseq := h.writer.seq
    have hsync := h.writer.sync
    have hle := h.le_pos i hi'
    unfold canSend
    split
    · rename_i heq
      have heq' := congrArg UInt64.toNat heq
      rw [decide_eq_true_iff, UInt64.lt_iff_toNat_lt]
      constructor
      · intro hlt payload hnone
        have := (hiff payload).mp hnone
        omega
      · intro hgo
        have := mt (hiff none).mpr (hgo none)
        omega
    · rename_i hne
      refine ⟨fun _ payload hnone => hne (sendRaw_eq_none.mp hnone).1, fun _ => rfl⟩
  · intro hall payload hnone
    have := hbehind payload hnone i hi hslow.le
    have := hall i hi
    omega

end Bound

/-- **The writer waits only for a reader that is far behind.**  For every number of readers from 1
and every number of slots from 48 to 65535, in every state with fewer than `2 ^ 32 - 1` messages
sent that is reached by accesses in any order in which no reader overtakes the running minimum
between the two reads of its position. -/
theorem swmr_progress {numReaders : UInt8} {queueSize : UInt32} {N : ℕ}
    (hR : 1 ≤ numReaders.toNat) (hN : 48 ≤ N) (hsmall : N ≤ 65535)
    (hsize : queueSize.toNat = N + (numReaders.toNat + 1)) {tr : List MEvent} {s : Micro}
    (hrun : Run CarefulStep (Micro.init numReaders queueSize) tr s)
    (hsent : s.writer.count < 2 ^ 32 - 1) : Progress N s := by
  have hinit := sinv_init hR (by omega : 2 ≤ N) hsmall hsize
  have hinv : (∃ q, SRel N numReaders.toNat 0 s q) ∧ Lagged numReaders.toNat s := by
    refine Run.induct (fun _ s => (∃ q, SRel N numReaders.toNat 0 s q) ∧
      Lagged numReaders.toNat s) ⟨⟨[], 0, [], fun _ => 0, hinit, rfl⟩, ?_⟩ ?_ hrun
    · intro i hi
      rw [hinit.count_reader hi]
      rfl
    rintro tr s e s' ⟨⟨q, h⟩, hlag⟩ hstep
    obtain ⟨q', h', -⟩ := srel_step hR h hstep
    obtain ⟨m, items, r, hs, -⟩ := h
    exact ⟨⟨q', h'⟩, lagged_step hs hlag hstep⟩
  obtain ⟨⟨-, m, items, r, h, -⟩, hlag⟩ := hinv
  rw [h.count_writer] at hsent
  exact h.progress hlag hN hsent

/-- Two readers over 61 slots, as `swmr_queue_create` lays them out, and as many notifications as go
in without a receive. -/
def fillActs : List Act := (List.replicate 59 [Act.send none, .publish]).flatten

set_option maxRecDepth 20000 in
theorem swmr_progress_full :
    ∃ tr s, Run.drive Micro.carefulAct (Micro.init 2 64) fillActs = some (tr, s) ∧
      canSend s.writer s.shm.pos = false ∧ Progress 61 s := by
  obtain ⟨tr, s, hdrive, hfull, hcount⟩ : ∃ tr s,
      Run.drive Micro.carefulAct (Micro.init 2 64) fillActs = some (tr, s) ∧
        canSend s.writer s.shm.pos = false ∧ s.writer.count < 2 ^ 32 - 1 :=
    ⟨_, _, rfl, by rfl, by decide⟩
  have hslots : (64 : UInt32).toNat = 61 + ((2 : UInt8).toNat + 1) := by decide
  exact ⟨tr, s, hdrive, hfull, swmr_progress (by decide : 1 ≤ (2 : UInt8).toNat)
    (by decide : 48 ≤ 61) (by decide) hslots (Run.of_drive carefulStep_of_act hdrive) hcount⟩

/-- The first reader receives one message, and the writer's sync is between the two reads of the
second position when the second reader receives thirty. -/
def passActs : List Act :=
  fillActs ++ [.observe 0 false, .finish 0, .send none, .compare, .assign, .compare] ++
    (List.replicate 30 [Act.observe 1 false, .finish 1]).flatten ++ [.assign, .publish] ++
    (List.replicate 29 [Act.send none, .publish]).flatten

set_option maxRecDepth 20000 in
/-- **`swmr_can_send` disagrees with `swmr_send_raw`** once a reader has overtaken the running
minimum: the writer is at a sync point past the slowest reader's, where the one asks for a larger
sync point and the other for a different one. -/
theorem can_send_disagrees :
    ∃ tr s, Run MStep (Micro.init 2 64) tr s ∧ s.wpc = .idle ∧ s.writer.count < 2 ^ 32 - 1 ∧
      canSend s.writer s.shm.pos = false ∧
      (∀ payload, sendRaw s.writer s.shm payload ≠ none) ∧ ¬ Progress 61 s := by
  refine ⟨_, _, Run.of_drive mstep_of_act
    (show Run.drive Micro.legalAct (Micro.init 2 64) passActs = some _ from rfl),
    rfl, by decide, ?_⟩
  have hpoll : ∀ {s : Micro}, canSend s.writer s.shm.pos = false →
      s.writer.nextSeq ≠ getNextSync s.writer s.shm.pos →
      canSend s.writer s.shm.pos = false ∧
        (∀ payload, sendRaw s.writer s.shm payload ≠ none) ∧ ¬ Progress 61 s := by
    intro s hfalse hne
    have hgo : ∀ payload, sendRaw s.writer s.shm payload ≠ none :=
      fun payload hnone => hne (sendRaw_eq_none.mp hnone).2
    refine ⟨hfalse, hgo, fun hprogress => ?_⟩
    rw [hprogress.poll.mpr hgo] at hfalse
    cases hfalse
  exact hpoll (by rfl) (by decide)

end Smelt.Swmr
