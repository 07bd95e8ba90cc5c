/-
# What the single-writer multi-reader queue delivers

`SInv` carries one number beside the counts of messages: `m`, the minimum the writer last synced
with, which `next_sync = m + N - 1` records.  The chain

  `m ≤ readers_pos[i] ≤ received by i ≤ sent ≤ m + N - 2`

is the whole argument: the writer is never a lap ahead of a reader, so the slot it writes next holds
nothing that anybody still has to read, and `next_seq` meets `next_sync` before it could pass it.

The chain needs the new minimum to be below all positions.  `swmr_get_next_sync` compares a
position with the running minimum and then reads it AGAIN to assign it; a reader that runs past
the running minimum between the two reads makes the result larger than the position of another
reader.  `CarefulStep` excludes just that, and `swmr_delivers` is the contract of the queue along
the runs without it.  `swmr_overruns` is a run with it: two readers, and a writer that goes into a
slot one of them has not read.  From there on `next_seq` is past `next_sync`, and the writer never
waits again.
-/
import Smelt.Shm.Ring

namespace Smelt.Swmr

open Ring

/-! ## 1. What is claimed, and when it holds -/

/-- The slot the writer is storing into. -/
def Micro.slot? (s : Micro) : Option ℕ :=
  match s.wpc with
  | .store _ _ => some s.writer.lPos.toNat
  | _ => none

/-- The messages a context is past: those sent, for the writer, and those received, for a reader. -/
def Context.count (c : Context) : ℕ := c.nextSeq.toNat - 1

/-- The writer is not in a slot with a message that a reader has not finished reading. -/
def Safe (s : Micro) : Prop :=
  ∀ slot, s.slot? = some slot → ∀ i, i < s.writer.numReaders.toNat →
    ∀ j, (s.reader i).count ≤ j → j < s.writer.count → j % s.writer.numSlots.toNat ≠ slot

/-- A receive reads a send: it has its number, and its words when both have words. -/
def Reads (sent rcvd : Item) : Prop :=
  rcvd.1 = sent.1 ∧ ∀ xs ys, sent.2 = some xs → rcvd.2 = some ys → ys = xs

/-- The sends, and the receives of reader `i`. -/
def MEvent.see (i : ℕ) : MEvent → Option (Fifo.Ev Item Item)
  | .sent x => some (.send x)
  | .rcvd i' y => if i' = i then some (.recv y) else none
  | _ => none

/-! ## 2. The invariant -/

/-- The writer's context after `S` sends, synced with the minimum `m`. -/
structure WriterOk (N R S m : ℕ) (c : Context) : Prop where
  slots : c.numSlots.toNat = N
  readers : c.numReaders.toNat = R
  seq : c.nextSeq.toNat = S + 1
  sync : c.nextSync.toNat + 1 = m + N
  /-- the position is reset late -/
  pos : c.lPos.toNat = S % N ∨ c.lPos.toNat = N ∧ S % N = 0

/-- The context of reader `i` after `r` receives. -/
structure ReaderOk (N i r : ℕ) (c : Context) : Prop where
  slots : c.numSlots.toNat = N
  id : c.id.toNat = i
  seq : c.nextSeq.toNat = r + 1
  pos : c.lPos.toNat = r % N

/-- What a send under way knows. -/
def WriteOk (N R S m : ℕ) (c : Context) (shm : Shm) : WritePc → Prop
  | .idle => True
  | .compare _ i min => c.lPos.toNat = S % N ∧ i < R ∧ S + 2 = m + N ∧ m ≤ min.toNat ∧
      min ≤ minStart ∧ ∀ j, j < i → min ≤ shm.pos j
  | .assign _ i min => c.lPos.toNat = S % N ∧ i < R ∧ S + 2 = m + N ∧ m ≤ min.toNat ∧
      min ≤ minStart ∧ ∀ j, j < i → min ≤ shm.pos j
  | .store payload i => c.lPos.toNat = S % N ∧ S + 2 < m + N ∧
      ∀ p, payload = some p → ∀ l, l < i → shm.slots (S % N) (l + 1) = p l

/-- What a receive under way knows. -/
def ReadOk (items : List Item) (r : ℕ) : ReadPc → Prop
  | .idle => True
  | .copy _ got => ∃ x, items[r]? = some x ∧ got.length ≤ 7 ∧ ∀ xs, x.2 = some xs →
      ∀ (l : ℕ) (v w : Word), xs[l]? = some v → got[l]? = some w → w = v

/-- The queue after the messages `items` have been sent and `r i` of them received by `i`. -/
structure SInv (N R m : ℕ) (items : List Item) (r : ℕ → ℕ) (s : Micro) : Prop where
  two : 2 ≤ N
  small : N ≤ 65535
  readers : 1 ≤ R
  cap : m ≤ minStart.toNat
  room : items.length + 2 ≤ m + N
  writer : WriterOk N R items.length m s.writer
  wpc : WriteOk N R items.length m s.writer s.shm s.wpc
  reader : ∀ i, i < R → ReaderOk N i (r i) (s.reader i)
  rpc : ∀ i, i < R → ReadOk items (r i) (s.rpc i)
  le_pos : ∀ i, i < R → m ≤ (s.shm.pos i).toNat
  pos_le : ∀ i, i < R → (s.shm.pos i).toNat ≤ r i
  le_sent : ∀ i, i < R → r i ≤ items.length
  held : Held N items s.shm.slots
  seven : ∀ x ∈ items, ∀ xs, x.2 = some xs → xs.length = 7

section Facts

variable {N R m : ℕ} {items : List Item} {r : ℕ → ℕ} {s : Micro}

/-- The writer is less than a lap ahead of every reader. -/
theorem SInv.lap (h : SInv N R m items r s) {i : ℕ} (hi : i < R) :
    items.length + 2 ≤ r i + N := by
  have h1 := h.le_pos i hi
  have h2 := h.pos_le i hi
  have h3 := h.room
  omega

/-- **No reader has to read what is in the slot the writer is in.** -/
theorem SInv.safe (h : SInv N R m items r s) : Safe s := by
  intro slot hslot i hi j hj hlt
  have hwpc := h.wpc
  unfold Micro.slot? at hslot
  split at hslot
  · rename_i payload k hpc
    rw [hpc] at hwpc
    rw [h.writer.readers] at hi
    simp only [Context.count, (h.reader i hi).seq, h.writer.seq, Nat.add_sub_cancel] at hj hlt
    have hlap := h.lap hi
    rw [h.writer.slots, ← Option.some.inj hslot, hwpc.1]
    exact mod_ne_mod hlt (by omega)
  · cases hslot

/-- The sync point that belongs to a position, as a number. -/
theorem toNat_sync {pos slots : UInt64} (hpos : 1 ≤ pos.toNat + slots.toNat)
    (hfits : pos.toNat + slots.toNat < 2 ^ 64) :
    (pos + (slots - 1)).toNat + 1 = pos.toNat + slots.toNat := by
  rw [UInt64.toNat_add, UInt64.toNat_sub]
  change (pos.toNat + (2 ^ 64 - 1 + slots.toNat) % 2 ^ 64) % 2 ^ 64 + 1 = _
  omega

/-- A position is reset when it reaches the number of slots. -/
theorem wrap_cases {c : Context} (hslots : c.numSlots.toNat = N) :
    (c.lPos.toNat = N ∧ c.wrap = { c with lPos := 0 }) ∨ (c.lPos.toNat ≠ N ∧ c.wrap = c) := by
  have hiff : c.lPos.toUInt64 = c.numSlots ↔ c.lPos.toNat = N := by
    rw [← UInt64.toNat_inj, UInt16.toNat_toUInt64, hslots]
  unfold Context.wrap
  split
  · exact .inl ⟨hiff.mp ‹_›, rfl⟩
  · exact .inr ⟨fun h => ‹¬ _› (hiff.mpr h), rfl⟩

/-- At the start of a send the position is that of the next message. -/
theorem WriterOk.wrap {S : ℕ} {c : Context} (hN : 2 ≤ N) (h : WriterOk N R S m c) :
    WriterOk N R S m c.wrap ∧ c.wrap.lPos.toNat = S % N := by
  have hlt := Nat.mod_lt S (by omega : 0 < N)
  rcases wrap_cases h.slots with ⟨hpos, hwrap⟩ | ⟨hpos, hwrap⟩
  · have hzero : S % N = 0 := by
      rcases h.pos with hS | ⟨-, hS⟩
      · omega
      · exact hS
    rw [hwrap]
    exact ⟨⟨h.slots, h.readers, h.seq, h.sync, .inl hzero.symm⟩, hzero.symm⟩
  · have hS : c.lPos.toNat = S % N := by
      rcases h.pos with hS | ⟨hN, -⟩
      · exact hS
      · exact absurd hN hpos
    rw [hwrap]
    exact ⟨h, hS⟩

/-- The next position, before it is reset. -/
theorem lPos_succ {c : Context} {S : ℕ} (hsmall : N ≤ 65535) (hN : 2 ≤ N)
    (hpos : c.lPos.toNat = S % N) : (c.lPos + 1).toNat = S % N + 1 := by
  have hlt := Nat.mod_lt S (by omega : 0 < N)
  rw [UInt16.toNat_add, hpos]
  exact Nat.mod_eq_of_lt (by change S % N + 1 < 65536; omega)

theorem WriterOk.advance {S : ℕ} {c : Context} (hN : 2 ≤ N) (hsmall : N ≤ 65535)
    (hS : S + 2 < 2 ^ 64) (hpos : c.lPos.toNat = S % N) (h : WriterOk N R S m c) :
    WriterOk N R (S + 1) m c.advance where
  slots := h.slots
  readers := h.readers
  seq := by
    have hseq : (c.nextSeq + 1).toNat = S + 2 := by
      rw [UInt64.toNat_add, h.seq]
      exact Nat.mod_eq_of_lt hS
    exact hseq
  sync := h.sync
  pos := by
    have hnext : c.advance.lPos.toNat = S % N + 1 := lPos_succ hsmall hN hpos
    rw [hnext]
    by_cases hlast : S % N + 1 = N
    · exact .inr ⟨hlast, (succ_of_last hlast).1⟩
    · exact .inl (succ_of_not_last (by omega) hlast).1.symm

theorem ReaderOk.advance {i k : ℕ} {c : Context} (hN : 2 ≤ N) (hsmall : N ≤ 65535)
    (hk : k + 2 < 2 ^ 64) (h : ReaderOk N i k c) : ReaderOk N i (k + 1) c.advanceReader := by
  have hseq : (c.nextSeq + 1).toNat = k + 2 := by
    rw [UInt64.toNat_add, h.seq]
    exact Nat.mod_eq_of_lt hk
  have hnext : c.advance.lPos.toNat = k % N + 1 := lPos_succ hsmall hN h.pos
  unfold Context.advanceReader
  rcases wrap_cases (show c.advance.numSlots.toNat = N from h.slots) with
    ⟨hpos, hwrap⟩ | ⟨hpos, hwrap⟩
  · rw [hwrap]
    have hlast : k % N + 1 = N := by omega
    exact ⟨h.slots, h.id, hseq, (succ_of_last hlast).1.symm⟩
  · rw [hwrap]
    have hlast : k % N + 1 ≠ N := by omega
    exact ⟨h.slots, h.id, hseq, hnext.trans (succ_of_not_last (by omega) hlast).1.symm⟩

end Facts

/-! ## 3. The writer -/

section Writer

variable {N R m : ℕ} {items : List Item} {r : ℕ → ℕ} {s s' : Micro} {e : MEvent}

/-- **The end of a turn of the sync loops.**  The writer goes on to the next reader, or starts
again, or has a new minimum below all positions. -/
theorem sinv_syncLoop (h : SInv N R m items r s) {payload : Option (Nat → Word)} {i : ℕ}
    {min : UInt64} (hpos : s.writer.lPos.toNat = items.length % N) (hi : i ≤ R)
    (hsync : items.length + 2 = m + N) (hm : m ≤ min.toNat) (hcap : min ≤ minStart)
    (hmin : ∀ j, j < i → min ≤ s.shm.pos j) :
    ∃ m', SInv N R m' items r (s.syncLoop payload i min) := by
  unfold Micro.syncLoop
  rw [h.writer.readers]
  split
  · rename_i hlt
    exact ⟨m, { h with wpc := ⟨hpos, hlt, hsync, hm, hcap, hmin⟩ }⟩
  · obtain rfl : i = R := by omega
    have hcap' : min.toNat ≤ minStart.toNat := UInt64.le_iff_toNat_le.mp hcap
    have hstart : minStart.toNat = 4294967295 := rfl
    have hsmall := h.small
    have htwo := h.two
    -- the sum does not leave the sixty-four bits
    have hnext : (min + (s.writer.numSlots - 1)).toNat + 1 = min.toNat + N := by
      have hslots := h.writer.slots
      rw [toNat_sync (by omega) (by omega), hslots]
    have hiff : s.writer.nextSeq = min + (s.writer.numSlots - 1) ↔
        items.length + 2 = min.toNat + N := by
      rw [← UInt64.toNat_inj, h.writer.seq]
      omega
    dsimp only
    split
    · exact ⟨m, { h with
        wpc := ⟨hpos, h.readers, hsync, h.cap, UInt64.le_refl _, fun j hj => by omega⟩ }⟩
    · rename_i hne
      have hlt : items.length + 2 < min.toNat + N := by
        have : items.length + 2 ≠ min.toNat + N := fun heq => hne (hiff.mpr heq)
        omega
      exact ⟨min.toNat, { h with
        cap := hcap'
        room := Nat.le_of_lt hlt
        writer := ⟨h.writer.slots, h.writer.readers, h.writer.seq, hnext, h.writer.pos⟩
        wpc := ⟨hpos, hlt, fun p _ l hl => by omega⟩
        le_pos := fun j hj => UInt64.le_iff_toNat_le.mp (hmin j hj) }⟩

theorem sinv_send {payload : Option (Nat → Word)} (h : SInv N R m items r s)
    (ha : s.act (.send payload) = some (s', e)) : e = .quiet ∧ SInv N R m items r s' := by
  obtain ⟨hwriter, hpos⟩ := h.writer.wrap h.two
  have hroom := h.room
  have hiff : s.writer.wrap.nextSeq = s.writer.wrap.nextSync ↔ items.length + 2 = m + N := by
    have hsync := hwriter.sync
    rw [← UInt64.toNat_inj, hwriter.seq]
    omega
  simp only [Micro.act] at ha
  cases hwpc : s.wpc with
  | idle =>
    simp only [hwpc] at ha
    split at ha
    · rename_i heq
      obtain ⟨rfl, rfl⟩ := Prod.mk.inj (Option.some.inj ha)
      exact ⟨rfl, { h with
        writer := hwriter
        wpc := ⟨hpos, h.readers, hiff.mp heq, h.cap, UInt64.le_refl _, fun j hj => by omega⟩ }⟩
    · rename_i hne
      obtain ⟨rfl, rfl⟩ := Prod.mk.inj (Option.some.inj ha)
      have hlt : items.length + 2 < m + N := by
        have : items.length + 2 ≠ m + N := fun heq => hne (hiff.mpr heq)
        omega
      exact ⟨rfl, { h with writer := hwriter, wpc := ⟨hpos, hlt, fun p _ l hl => by omega⟩ }⟩
  | compare payload i min => simp [hwpc] at ha
  | assign payload i min => simp [hwpc] at ha
  | store payload i => simp [hwpc] at ha

theorem sinv_compare (h : SInv N R m items r s) (ha : s.act .compare = some (s', e)) :
    e = .quiet ∧ ∃ m', SInv N R m' items r s' := by
  have hok := h.wpc
  simp only [Micro.act] at ha
  cases hwpc : s.wpc with
  | compare payload i min =>
    rw [hwpc] at ha hok
    obtain ⟨hpos, hi, hsync, hm, hcap, hmin⟩ := hok
    simp only at ha
    split at ha
    · obtain ⟨rfl, rfl⟩ := Prod.mk.inj (Option.some.inj ha)
      exact ⟨rfl, m, { h with wpc := ⟨hpos, hi, hsync, hm, hcap, hmin⟩ }⟩
    · rename_i hle
      obtain ⟨rfl, rfl⟩ := Prod.mk.inj (Option.some.inj ha)
      refine ⟨rfl, sinv_syncLoop h hpos hi hsync hm hcap ?_⟩
      intro j hj
      rcases Nat.lt_succ_iff_lt_or_eq.mp hj with hj | rfl
      · exact hmin j hj
      · exact UInt64.not_lt.mp hle
  | idle => simp [hwpc] at ha
  | assign payload i min => simp [hwpc] at ha
  | store payload i => simp [hwpc] at ha

/-- **The assignment keeps the minimum below all positions so far**, when the position is not above
the minimum. -/
theorem sinv_assign (h : SInv N R m items r s) (hcare : Careful s .assign)
    (ha : s.act .assign = some (s', e)) : e = .quiet ∧ ∃ m', SInv N R m' items r s' := by
  have hok := h.wpc
  simp only [Micro.act] at ha
  cases hwpc : s.wpc with
  | assign payload i min =>
    rw [hwpc] at ha hok
    obtain ⟨hpos, hi, hsync, -, hcap, hmin⟩ := hok
    have hle : s.shm.pos i ≤ min := by
      have : s.overtaken = false := hcare
      simpa [Micro.overtaken, hwpc] using this
    obtain ⟨rfl, rfl⟩ := Prod.mk.inj (Option.some.inj ha)
    refine ⟨rfl, sinv_syncLoop h hpos hi hsync (h.le_pos i hi) (UInt64.le_trans hle hcap) ?_⟩
    intro j hj
    rcases Nat.lt_succ_iff_lt_or_eq.mp hj with hj | rfl
    · exact UInt64.le_trans hle (hmin j hj)
    · exact UInt64.le_refl _
  | idle => simp [hwpc] at ha
  | compare payload i min => simp [hwpc] at ha
  | store payload i => simp [hwpc] at ha

theorem sinv_store (h : SInv N R m items r s) (ha : s.act .store = some (s', e)) :
    e = .quiet ∧ SInv N R m items r s' := by
  have hok := h.wpc
  simp only [Micro.act] at ha
  cases hwpc : s.wpc with
  | store payload i =>
    rw [hwpc] at ha hok
    obtain ⟨hpos, hlt, hdata⟩ := hok
    cases payload with
    | none => simp at ha
    | some p =>
      by_cases hi : i < 7
      · simp only [hi, if_true, Option.some.injEq, Prod.mk.injEq, hpos] at ha
        obtain ⟨rfl, rfl⟩ := ha
        refine ⟨rfl, { h with wpc := ⟨hpos, hlt, ?_⟩, held := h.held.store }⟩
        rintro _ ⟨⟩ l hl
        by_cases hli : l = i
        · rw [hli]
          exact Slots.store_self _ _ _ _
        · refine (Slots.store_of_ne fun _ h => hli (Nat.succ.inj h)).trans (hdata p rfl l ?_)
          omega
      · simp [hi] at ha
  | idle => simp [hwpc] at ha
  | compare payload i min => simp [hwpc] at ha
  | assign payload i min => simp [hwpc] at ha

theorem ReadOk.append {k : ℕ} {pc : ReadPc} (h : ReadOk items k pc) (x : Item) :
    ReadOk (items ++ [x]) k pc := by
  cases pc with
  | idle => trivial
  | copy payload got =>
    obtain ⟨y, hy, hrest⟩ := h
    exact ⟨y, List.getElem?_append_left (List.getElem?_eq_some_iff.mp hy).1 ▸ hy, hrest⟩

/-- **The header announces the message.** -/
theorem sinv_publish (h : SInv N R m items r s) (ha : s.act .publish = some (s', e)) :
    ∃ x, e = .sent x ∧ SInv N R m (items ++ [x]) r s' := by
  have hok := h.wpc
  simp only [Micro.act] at ha
  cases hwpc : s.wpc with
  | store payload i =>
    rw [hwpc] at ha hok
    obtain ⟨hpos, hlt, hdata⟩ := hok
    simp only at ha
    split at ha
    · cases ha
    · rename_i hdone
      obtain ⟨rfl, rfl⟩ := Prod.mk.inj (Option.some.inj ha)
      have hcap := h.cap
      have hsmall := h.small
      have hstart : minStart.toNat = 4294967295 := rfl
      refine ⟨_, rfl, {
        two := h.two
        small := h.small
        readers := h.readers
        cap := h.cap
        room := by simp; omega
        writer := ?_
        wpc := trivial
        reader := h.reader
        rpc := fun i hi => (h.rpc i hi).append _
        le_pos := h.le_pos
        pos_le := h.pos_le
        le_sent := fun i hi => by simpa using Nat.le_succ_of_le (h.le_sent i hi)
        held := ?_
        seven := ?_ }⟩
      · rw [List.length_append, List.length_singleton]
        exact h.writer.advance h.two h.small (by omega) hpos
      · simp only [hpos]
        refine h.held.publish h.writer.seq ?_
        intro xs hxs l v hv
        cases payload with
        | none => cases hxs
        | some p =>
          obtain rfl : words p = xs := Option.some.inj hxs
          obtain ⟨hl, rfl⟩ := List.getElem?_eq_some_iff.mp hv
          simp only [words, List.length_map, List.length_range] at hl
          simp only [storeWords] at hdone
          simpa [words] using hdata p rfl l (by omega)
      · intro x hx xs hxs
        rcases List.mem_append.mp hx with hx | hx
        · exact h.seven x hx xs hxs
        · obtain rfl := List.mem_singleton.mp hx
          cases payload with
          | none => cases hxs
          | some p =>
            obtain rfl : words p = xs := Option.some.inj hxs
            simp [words]
  | idle => simp [hwpc] at ha
  | compare payload i min => simp [hwpc] at ha
  | assign payload i min => simp [hwpc] at ha

end Writer

/-! ## 4. The readers -/

section Reader

variable {N R m : ℕ} {items : List Item} {r : ℕ → ℕ} {s s' : Micro} {e : MEvent} {i : ℕ}

/-- What one reader's step leaves to be shown. -/
theorem rpc_update {rpc : ℕ → ReadPc} (h : ∀ j, j < R → ReadOk items (r j) (rpc j)) {pc : ReadPc}
    (hpc : ReadOk items (r i) pc) :
    ∀ j, j < R → ReadOk items (r j) (Function.update rpc i pc j) := by
  intro j hj
  by_cases hij : j = i
  · subst hij
    rwa [Function.update_self]
  · rw [Function.update_of_ne hij]
    exact h j hj

/-- Publishing a position moves it up to what has been received, and no other. -/
theorem ReaderOk.publish {c : Context} (h : ReaderOk N i (r i + 1) c) {pos : ℕ → UInt64} {j : ℕ}
    (hi : (pos i).toNat ≤ r i) (hj : (pos j).toNat ≤ r j) :
    (pos j).toNat ≤ (c.publish pos j).toNat ∧
      (c.publish pos j).toNat ≤ Function.update r i (r i + 1) j := by
  have hseq : (c.nextSeq - 1).toNat = r i + 1 := by
    rw [UInt64.toNat_sub_of_le, h.seq]
    · rfl
    · rw [UInt64.le_iff_toNat_le, h.seq]
      exact Nat.le_add_left 1 _
  unfold Context.publish
  rw [h.id]
  by_cases hji : j = i
  · subst hji
    split
    · rw [Function.update_self, Function.update_self, hseq]
      omega
    · rw [Function.update_self]
      omega
  · rw [Function.update_of_ne hji]
    split
    · rw [Function.update_of_ne hji]
      omega
    · omega

theorem sinv_observe {payload : Bool} (h : SInv N R m items r s) (hi : i < R)
    (ha : s.act (.observe i payload) = some (s', e)) :
    (e = .quiet ∨ e = .miss i) ∧ SInv N R m items r s' := by
  have hlap := h.lap hi
  simp only [Micro.act] at ha
  cases hrpc : s.rpc i with
  | copy payload got => simp [hrpc] at ha
  | idle =>
    simp only [hrpc, (h.reader i hi).pos] at ha
    split at ha
    · rename_i hfound
      have hlt := (h.held.observe (by omega) (h.reader i hi).seq).mp hfound
      obtain ⟨rfl, rfl⟩ := Prod.mk.inj (Option.some.inj ha)
      refine ⟨.inl rfl, { h with rpc := rpc_update h.rpc ?_ }⟩
      exact ⟨items[r i], List.getElem?_eq_getElem hlt, Nat.zero_le 7, by simp⟩
    · obtain ⟨rfl, rfl⟩ := Prod.mk.inj (Option.some.inj ha)
      exact ⟨.inr rfl, h⟩

theorem sinv_load (h : SInv N R m items r s) (hi : i < R) (ha : s.act (.load i) = some (s', e)) :
    e = .quiet ∧ SInv N R m items r s' := by
  have hok := h.rpc i hi
  have hlap := h.lap hi
  simp only [Micro.act] at ha
  cases hrpc : s.rpc i with
  | idle => simp [hrpc] at ha
  | copy payload got =>
    rw [hrpc] at ha hok
    obtain ⟨x, hx, hlen, hgot⟩ := hok
    cases payload with
    | false => simp at ha
    | true =>
      by_cases hlt : got.length < 7
      · simp only [hlt, if_true, Option.some.injEq, Prod.mk.injEq, (h.reader i hi).pos] at ha
        obtain ⟨rfl, rfl⟩ := ha
        refine ⟨rfl, { h with rpc := rpc_update h.rpc ⟨x, hx, ?_, ?_⟩ }⟩
        · simpa [Nat.succ_le_iff] using hlt
        · intro xs hxs
          exact copy_concat (hgot xs hxs) fun v hv => h.held.word hx (by omega) hxs hv
      · simp [hlt] at ha

/-- **A receive that returns has read the message that was its turn.** -/
theorem sinv_finish (h : SInv N R m items r s) (hi : i < R)
    (ha : s.act (.finish i) = some (s', e)) :
    ∃ x y, e = .rcvd i y ∧ items[r i]? = some x ∧ Reads x y ∧
      SInv N R m items (Function.update r i (r i + 1)) s' := by
  have hok := h.rpc i hi
  have hcap := h.cap
  have hsmall := h.small
  have hroom := h.room
  have hstart : minStart.toNat = 4294967295 := rfl
  simp only [Micro.act] at ha
  cases hrpc : s.rpc i with
  | idle => simp [hrpc] at ha
  | copy payload got =>
    rw [hrpc] at ha hok
    obtain ⟨x, hx, hlen, hgot⟩ := hok
    have hlt : r i < items.length := (List.getElem?_eq_some_iff.mp hx).1
    simp only at ha
    split at ha
    · cases ha
    · rename_i hdone
      obtain ⟨rfl, rfl⟩ := Prod.mk.inj (Option.some.inj ha)
      have hctx := (h.reader i hi).advance h.two h.small (by omega)
      have hgrow : ∀ j, j < R → (s.shm.pos j).toNat ≤
          ((s.reader i).advanceReader.publish s.shm.pos j).toNat ∧
          ((s.reader i).advanceReader.publish s.shm.pos j).toNat ≤
            Function.update r i (r i + 1) j :=
        fun j hj => hctx.publish (h.pos_le i hi) (h.pos_le j hj)
      refine ⟨x, _, rfl, hx, ⟨?_, ?_⟩, {
        two := h.two
        small := h.small
        readers := h.readers
        cap := h.cap
        room := h.room
        writer := h.writer
        wpc := ?_
        reader := ?_
        rpc := ?_
        le_pos := fun j hj => Nat.le_trans (h.le_pos j hj) (hgrow j hj).1
        pos_le := fun j hj => (hgrow j hj).2
        le_sent := ?_
        held := h.held
        seven := h.seven }⟩
      · rw [← UInt64.toNat_inj, (h.reader i hi).seq, h.held.number (r i) x hx]
      · intro xs ys hxs hys
        cases payload with
        | false => cases hys
        | true =>
          obtain rfl : got = ys := Option.some.inj hys
          have hseven := h.seven x (List.mem_of_getElem? hx) xs hxs
          have hgot7 : got.length = 7 := by
            have : ¬ got.length < 7 := fun hlt7 => hdone ⟨rfl, hlt7⟩
            omega
          exact copy_eq (hgot xs hxs) (hgot7.trans hseven.symm)
      · have hwok := h.wpc
        -- a comparison under way has seen positions that were no larger
        have hmono : ∀ (k : ℕ) (min : UInt64), k < R → (∀ j, j < k → min ≤ s.shm.pos j) →
            ∀ j, j < k → min ≤ (s.reader i).advanceReader.publish s.shm.pos j := by
          intro k min hk hmin j hj
          refine UInt64.le_trans (hmin j hj) ?_
          exact UInt64.le_iff_toNat_le.mpr (hgrow j (by omega)).1
        cases hwpc : s.wpc with
        | idle => trivial
        | compare payload k min =>
          rw [hwpc] at hwok
          obtain ⟨h1, h2, h3, h4, h5, h6⟩ := hwok
          exact ⟨h1, h2, h3, h4, h5, hmono k min h2 h6⟩
        | assign payload k min =>
          rw [hwpc] at hwok
          obtain ⟨h1, h2, h3, h4, h5, h6⟩ := hwok
          exact ⟨h1, h2, h3, h4, h5, hmono k min h2 h6⟩
        | store payload k =>
          rw [hwpc] at hwok
          exact hwok
      · intro j hj
        by_cases hji : j = i
        · subst hji
          simp only [Function.update_self]
          exact hctx
        · simp only [Function.update_of_ne hji]
          exact h.reader j hj
      · intro j hj
        by_cases hji : j = i
        · subst hji
          simp only [Function.update_self]
          trivial
        · simp only [Function.update_of_ne hji]
          exact h.rpc j hj
      · intro j hj
        by_cases hji : j = i
        · subst hji
          rw [Function.update_self]
          exact hlt
        · rw [Function.update_of_ne hji]
          exact h.le_sent j hj

end Reader

/-! ## 5. Runs -/

/-- The queue stands for the FIFO of the messages the reader `i` has not received. -/
def SRel (N R i : ℕ) (s : Micro) (q : List Item) : Prop :=
  ∃ m items r, SInv N R m items r s ∧ q = items.drop (r i)

/-- **Every careful access is a step of the FIFO of each reader, or invisible to it.** -/
theorem srel_step {N R i : ℕ} {s s' : Micro} {q : List Item} {e : MEvent} (hi : i < R)
    (h : SRel N R i s q) (hstep : CarefulStep s e s') :
    ∃ q', SRel N R i s' q' ∧ Run.Follows (Fifo.Step Reads) q (e.see i) q' := by
  obtain ⟨m, items, r, h, rfl⟩ := h
  obtain ⟨a, hlegal, hcare, ha⟩ := hstep
  have hkeep : (e.see i = none ∧ ∃ m', SInv N R m' items r s') →
      ∃ q', SRel N R i s' q' ∧ Run.Follows (Fifo.Step Reads) (items.drop (r i)) (e.see i) q' := by
    rintro ⟨hsee, m', h'⟩
    exact ⟨items.drop (r i), ⟨m', items, r, h', rfl⟩, by rw [hsee]; rfl⟩
  rw [h.writer.readers] at hlegal
  cases a with
  | send payload =>
    obtain ⟨rfl, h'⟩ := sinv_send h ha
    exact hkeep ⟨rfl, m, h'⟩
  | compare =>
    obtain ⟨rfl, h'⟩ := sinv_compare h ha
    exact hkeep ⟨rfl, h'⟩
  | assign =>
    obtain ⟨rfl, h'⟩ := sinv_assign h hcare ha
    exact hkeep ⟨rfl, h'⟩
  | store =>
    obtain ⟨rfl, h'⟩ := sinv_store h ha
    exact hkeep ⟨rfl, m, h'⟩
  | publish =>
    obtain ⟨x, rfl, h'⟩ := sinv_publish h ha
    refine ⟨_, ⟨m, _, r, h', rfl⟩, ?_⟩
    rw [List.drop_append_of_le_length (h.le_sent i hi)]
    exact .send
  | observe j payload =>
    obtain ⟨rfl | rfl, h'⟩ := sinv_observe h hlegal ha
    · exact hkeep ⟨rfl, m, h'⟩
    · exact hkeep ⟨rfl, m, h'⟩
  | load j =>
    obtain ⟨rfl, h'⟩ := sinv_load h hlegal ha
    exact hkeep ⟨rfl, m, h'⟩
  | finish j =>
    obtain ⟨x, y, rfl, hx, hreads, h'⟩ := sinv_finish h hlegal ha
    refine ⟨_, ⟨m, items, _, h', rfl⟩, ?_⟩
    by_cases hji : j = i
    · subst hji
      have hsee : MEvent.see j (.rcvd j y) = some (.recv y) := if_pos rfl
      obtain ⟨hlt, rfl⟩ := List.getElem?_eq_some_iff.mp hx
      rw [hsee, Function.update_self, List.drop_eq_getElem_cons hlt]
      exact .recv hreads
    · have hsee : MEvent.see i (.rcvd j y) = none := if_neg hji
      rw [hsee, Function.update_of_ne (Ne.symm hji)]
      exact rfl

/-- The number of slots `swmr_init_context` computes. -/
theorem initContext_slots {numReaders id : UInt8} {queueSize : UInt32} {N : ℕ}
    (hsize : queueSize.toNat = N + (numReaders.toNat + 1)) :
    (initContext numReaders id queueSize).numSlots.toNat = N := by
  have hR : numReaders.toNat < 256 := numReaders.toNat_lt
  have hone : (numReaders.toUInt32 + 1).toNat = numReaders.toNat + 1 := by
    rw [UInt32.toNat_add, UInt8.toNat_toUInt32]
    exact Nat.mod_eq_of_lt (by change numReaders.toNat + 1 < 4294967296; omega)
  have hsub : (queueSize - (numReaders.toUInt32 + 1)).toNat = N := by
    rw [UInt32.toNat_sub_of_le, hone, hsize, Nat.add_sub_cancel]
    rw [UInt32.le_iff_toNat_le, hone, hsize]
    exact Nat.le_add_left _ _
  exact (UInt32.toNat_toUInt64 _).trans hsub

/-- A new queue, over zeroed memory. -/
theorem sinv_init {numReaders : UInt8} {queueSize : UInt32} {N : ℕ} (hR : 1 ≤ numReaders.toNat)
    (htwo : 2 ≤ N) (hsmall : N ≤ 65535) (hsize : queueSize.toNat = N + (numReaders.toNat + 1)) :
    SInv N numReaders.toNat 0 [] (fun _ => 0) (Micro.init numReaders queueSize) where
  two := htwo
  small := hsmall
  readers := hR
  cap := Nat.zero_le _
  room := by simpa using htwo
  writer := by
    have hslots : (initContext numReaders 0 queueSize).numSlots.toNat = N :=
      initContext_slots hsize
    refine ⟨hslots, rfl, rfl, ?_, .inl (Nat.zero_mod N).symm⟩
    have hsync : (initContext numReaders 0 queueSize).nextSync.toNat = N - 1 := by
      change ((initContext numReaders 0 queueSize).numSlots - 1).toNat = N - 1
      rw [UInt64.toNat_sub_of_le, hslots]
      · rfl
      · rw [UInt64.le_iff_toNat_le, hslots]
        change 1 ≤ N
        omega
    change (initContext numReaders 0 queueSize).nextSync.toNat + 1 = 0 + N
    omega
  wpc := trivial
  reader := by
    intro i hi
    have hlt : numReaders.toNat < 256 := numReaders.toNat_lt
    refine ⟨initContext_slots hsize, ?_, rfl, (Nat.zero_mod N).symm⟩
    exact UInt8.toNat_ofNat'.trans (Nat.mod_eq_of_lt (by omega))
  rpc _ _ := trivial
  le_pos _ _ := Nat.zero_le _
  pos_le _ _ := Nat.le_refl 0
  le_sent _ _ := Nat.le_refl 0
  held := held_nil N
  seven := by simp

/-- **The queue delivers every message to every reader in order.**  For every number of readers
from 1 and every number of slots from 2 to 65535, along every interleaving of the accesses in which
no reader overtakes the running minimum between the two reads of its position: the writer is never
in a slot that some reader has not finished reading, and the `j`-th receive of each reader is of the
`j`-th message sent, with its seven words when both have words. -/
theorem swmr_delivers {numReaders : UInt8} {queueSize : UInt32} {N : ℕ}
    (hR : 1 ≤ numReaders.toNat) (htwo : 2 ≤ N) (hsmall : N ≤ 65535)
    (hsize : queueSize.toNat = N + (numReaders.toNat + 1)) {tr : List MEvent} {s : Micro}
    (hrun : Run CarefulStep (Micro.init numReaders queueSize) tr s) :
    Safe s ∧ ∀ i, i < numReaders.toNat → ∀ (j : ℕ) (y : Item),
      (Fifo.recvs (tr.filterMap (MEvent.see i)))[j]? = some y →
      ∃ x, (Fifo.sends (tr.filterMap (MEvent.see i)))[j]? = some x ∧ Reads x y := by
  have hfifo : ∀ i, i < numReaders.toNat → ∃ q, SRel N numReaders.toNat i s q ∧
      Run (Fifo.Step Reads) [] (tr.filterMap (MEvent.see i)) q := fun i hi =>
    Run.simulates ⟨0, [], fun _ => 0, sinv_init hR htwo hsmall hsize, rfl⟩
      (fun _ _ _ _ h hs => srel_step hi h hs) hrun
  constructor
  · obtain ⟨-, ⟨m, items, r, h, -⟩, -⟩ := hfifo 0 hR
    exact h.safe
  · intro i hi
    obtain ⟨q, -, hq⟩ := hfifo i hi
    exact (Fifo.run_spec hq).1

instance (n : ℕ) : DecidablePred (Act.Legal n)
  | .observe i _ | .load i | .finish i => inferInstanceAs (Decidable (i < n))
  | .send _ | .compare | .assign | .store | .publish => .isTrue trivial

instance (s : Micro) : DecidablePred (Careful s)
  | .assign => inferInstanceAs (Decidable (s.overtaken = false))
  | .send _ | .compare | .store | .publish | .observe _ _ | .load _ | .finish _ => .isTrue trivial

/-- An access by the writer or one of the readers. -/
def Micro.legalAct (s : Micro) (a : Act) : Option (Micro × MEvent) :=
  if a.Legal s.writer.numReaders.toNat then s.act a else none

theorem mstep_of_act (s : Micro) (a : Act) (s' : Micro) (e : MEvent)
    (h : s.legalAct a = some (s', e)) : MStep s e s' := by
  unfold Micro.legalAct at h
  split at h
  · exact ⟨a, ‹_›, h⟩
  · cases h

/-- Such an access, when it meets the condition. -/
def Micro.carefulAct (s : Micro) (a : Act) : Option (Micro × MEvent) :=
  if a.Legal s.writer.numReaders.toNat ∧ Careful s a then s.act a else none

theorem carefulStep_of_act (s : Micro) (a : Act) (s' : Micro) (e : MEvent)
    (h : s.carefulAct a = some (s', e)) : CarefulStep s e s' := by
  unfold Micro.carefulAct at h
  split at h
  · rename_i hok
    exact ⟨a, hok.1, hok.2, h⟩
  · cases h

/-- Three notifications to two readers over five slots, one receive by the first reader, and a sync
that has read its position and is between the two reads of the second. -/
def racingActs : List Act :=
  [.send none, .publish, .send none, .publish, .send none, .publish, .observe 0 false, .finish 0,
    .send none, .compare, .assign, .compare]

/-- The second reader receives three messages. -/
def overtakingActs : List Act :=
  [.observe 1 false, .finish 1, .observe 1 false, .finish 1, .observe 1 false, .finish 1]

/-- The sync goes on, and the writer sends until it comes to the slot of the second message. -/
def overrunActs : List Act :=
  [.assign, .publish, .send none, .publish, .send none, .publish, .send none, .compare, .assign,
    .compare]

/-- A send of seven words that both readers receive, and the sync above, undisturbed. -/
def carefulActs : List Act :=
  .send (some fun i => i.toUInt64 + 1) :: List.replicate 7 .store ++
    [.publish, .observe 0 true] ++ List.replicate 7 (.load 0) ++
    [.finish 0, .send none, .publish, .send none, .publish, .observe 1 false, .finish 1,
      .send none, .compare, .assign, .compare, .publish]

def carefulTrace : List MEvent :=
  List.replicate 8 .quiet ++ [.sent (1, some [1, 2, 3, 4, 5, 6, 7])] ++ List.replicate 8 .quiet ++
    [.rcvd 0 (1, some [1, 2, 3, 4, 5, 6, 7]), .quiet, .sent (2, none), .quiet, .sent (3, none),
      .quiet, .rcvd 1 (1, none), .quiet, .quiet, .quiet, .quiet, .sent (4, none)]

theorem swmr_delivers_careful :
    ∃ s, Run.drive Micro.carefulAct (Micro.init 2 8) carefulActs = some (carefulTrace, s) ∧
      Safe s ∧ ∀ i, i < 2 → ∀ (j : ℕ) (y : Item),
        (Fifo.recvs (carefulTrace.filterMap (MEvent.see i)))[j]? = some y →
        ∃ x, (Fifo.sends (carefulTrace.filterMap (MEvent.see i)))[j]? = some x ∧ Reads x y := by
  obtain ⟨s, hdrive⟩ : ∃ s, Run.drive Micro.carefulAct (Micro.init 2 8) carefulActs =
      some (carefulTrace, s) := ⟨_, rfl⟩
  have hslots : (8 : UInt32).toNat = 5 + ((2 : UInt8).toNat + 1) := by decide
  exact ⟨s, hdrive, swmr_delivers (by decide : 1 ≤ (2 : UInt8).toNat) (by decide : 2 ≤ 5)
    (by decide) hslots (Run.of_drive carefulStep_of_act hdrive)⟩

/-- **A reader that overtakes the minimum lets the writer into a slot that is not read.**  With two
readers and five slots: the writer has compared the second position, `0`, with the minimum `1`; the
second reader then receives three messages, and `3` is assigned.  Three sends later the writer
syncs again, finds `next_sync` BELOW `next_seq`, and goes on into the slot of the second message,
which the first reader has not received. -/
theorem swmr_overruns :
    ∃ tr s, Run MStep (Micro.init 2 8) tr s ∧ ¬ Safe s ∧ (s.reader 0).count = 1 ∧
      s.slot? = some 1 ∧ s.writer.nextSync < s.writer.nextSeq := by
  refine ⟨_, _, Run.of_drive mstep_of_act
    (show Run.drive Micro.legalAct (Micro.init 2 8) (racingActs ++ overtakingActs ++ overrunActs)
      = some _ from rfl), ?_, rfl, rfl, by decide⟩
  intro h
  exact h 1 rfl 0 (by decide) 1 (by decide) (by decide) rfl

end Smelt.Swmr
