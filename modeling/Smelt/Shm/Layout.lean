/-
# The geometry of the single-writer multi-reader queue

`swmr_queue_create` and `swmr_init_context` with their addresses.  One allocation holds, in lines of
64 bytes, the positions of the readers, the data slots and, with `sep_header`, as many header slots
one `queue_size` further on; the pointers of a context are offsets into it.

The sizing loop means to leave 48 slots beside the positions.  It tests `queue_size - (count+1)`,
which is unsigned: with 64 readers and more it is below zero on the first page, wraps, and ends the
loop there.  From 256 readers on, `num_readers` does not hold `count` either.  So the geometry is
sound exactly up to 63 readers (`geometry_sound_iff`).
-/
import Smelt.Shm.Calls

namespace Smelt.Swmr

/-! ## 1. The pointers -/

/-- `CACHELINE_SIZE`, the size of a slot and of `union pos_point`. -/
def cachelineSize : UInt32 := 64

/-- The pointers of `struct swmr_context`, as byte offsets from `shm`. -/
structure Pointers where
  readersPos : ℕ
  data : ℕ
  header : ℕ
  deriving DecidableEq, Repr

/-- The pointers `swmr_init_context` sets. -/
def initPointers (numReaders : UInt8) (sepHeader : Bool) (queueSize : UInt32) : Pointers :=
  let data := (numReaders.toNat + 1) * cachelineSize.toNat
  { readersPos := 0, data := data,
    header := if sepHeader then data + (queueSize * cachelineSize).toNat else data }

/-- `struct swmr_context` with its pointers. -/
structure SharedContext extends Context, Pointers

/-- `swmr_init_context`. -/
def SharedContext.init (numReaders id : UInt8) (sepHeader : Bool) (queueSize : UInt32) :
    SharedContext where
  toContext := initContext numReaders id queueSize
  toPointers := initPointers numReaders sepHeader queueSize

/-- `struct swmr_queue`, and the memory behind it: the word at each byte offset from `shm`. -/
structure SharedQueue where
  src : SharedContext
  dst : ℕ → SharedContext
  mem : ℕ → Word

/-- `swmr_queue_create`, over zeroed memory. -/
def SharedQueue.create (count : UInt16) (sepHeader : Bool) : SharedQueue where
  src := .init count.toUInt8 0 sepHeader (queueSize count)
  dst i := .init count.toUInt8 i.toUInt8 sepHeader (queueSize count)
  mem _ := 0

/-- The bytes `swmr_queue_create` allocates. -/
def allocBytes (sepHeader : Bool) (queueSize : UInt32) : ℕ :=
  if sepHeader then (queueSize * cachelineSize * 2).toNat else (queueSize * cachelineSize).toNat

/-- The contexts of a queue with `count` readers. -/
def SharedQueue.IsContext (w : SharedQueue) (count : ℕ) (c : SharedContext) : Prop :=
  c = w.src ∨ ∃ i < count, c = w.dst i

/-! ## 2. Lines -/

/-- The lines of 64 bytes a queue uses: `readers_pos[i]`, and the data and the header of a slot. -/
inductive Line
  | pos (i : ℕ)
  | data (slot : ℕ)
  | header (slot : ℕ)

/-- The lines of a context; the header has one of its own with `sep_header` only. -/
def SharedContext.Uses (c : SharedContext) (sepHeader : Bool) : Line → Prop
  | .pos i => i < c.numReaders.toNat
  | .data slot => slot < c.numSlots.toNat
  | .header slot => sepHeader = true ∧ slot < c.numSlots.toNat

/-- Where a line starts. -/
def SharedContext.offset (c : SharedContext) : Line → ℕ
  | .pos i => c.readersPos + i * cachelineSize.toNat
  | .data slot => c.data + slot * cachelineSize.toNat
  | .header slot => c.header + slot * cachelineSize.toNat

/-- **A sound geometry** for `count` readers. -/
structure Sound (count : UInt16) (sepHeader : Bool) : Prop where
  /-- the sizing loop has ended with the size the contexts are made for -/
  ends : ∃ turns, sizeLoop count turns swmrqSize = queueSize count ∧
    ¬ queueSize count - (count.toUInt32 + 1) < 48
  readers : ∀ c, (SharedQueue.create count sepHeader).IsContext count.toNat c →
    c.numReaders.toNat = count.toNat
  ids : ∀ i < count.toNat, ∀ j < count.toNat,
    ((SharedQueue.create count sepHeader).dst i).id =
      ((SharedQueue.create count sepHeader).dst j).id → i = j
  id_lt : ∀ i < count.toNat, ((SharedQueue.create count sepHeader).dst i).id.toNat <
    ((SharedQueue.create count sepHeader).dst i).numReaders.toNat
  slots : ∀ c, (SharedQueue.create count sepHeader).IsContext count.toNat c →
    48 ≤ c.numSlots.toNat ∧ c.numSlots.toNat < 2 ^ 16
  /-- no two lines overlap -/
  disjoint : ∀ c c', (SharedQueue.create count sepHeader).IsContext count.toNat c →
    (SharedQueue.create count sepHeader).IsContext count.toNat c' →
    ∀ l l', c.Uses sepHeader l → c'.Uses sepHeader l' → l ≠ l' →
      c.offset l + cachelineSize.toNat ≤ c'.offset l' ∨
        c'.offset l' + cachelineSize.toNat ≤ c.offset l
  inside : ∀ c, (SharedQueue.create count sepHeader).IsContext count.toNat c →
    ∀ l, c.Uses sepHeader l →
      c.offset l + cachelineSize.toNat ≤ allocBytes sepHeader (queueSize count)

/-! ## 3. Which counts -/

section Geometry

variable {count : UInt16} {sepHeader : Bool} {c : SharedContext}

/-- All contexts are made alike but for the id. -/
theorem SharedQueue.IsContext.eq_init
    (h : (SharedQueue.create count sepHeader).IsContext count.toNat c) :
    ∃ id, c = .init count.toUInt8 id sepHeader (queueSize count) := by
  rcases h with rfl | ⟨i, -, rfl⟩
  · exact ⟨0, rfl⟩
  · exact ⟨i.toUInt8, rfl⟩

/-- The sizes of a page or two are those of the natural numbers. -/
theorem toNat_bytes {size : UInt32} (h : size.toNat ≤ 128) :
    (size * cachelineSize).toNat = size.toNat * 64 ∧
      (size * cachelineSize * 2).toNat = size.toNat * 128 := by
  have hline : cachelineSize.toNat = 64 := rfl
  have htwo : (2 : UInt32).toNat = 2 := rfl
  have hone : (size * cachelineSize).toNat = size.toNat * 64 := by
    rw [UInt32.toNat_mul, hline, Nat.mod_eq_of_lt (by omega)]
  refine ⟨hone, ?_⟩
  rw [UInt32.toNat_mul, hone, htwo, Nat.mod_eq_of_lt (by omega)]
  omega

/-- The lines of a queue with `R` readers and `N` slots. -/
def Line.Below (R N : ℕ) : Line → Prop
  | .pos i => i < R
  | .data slot => slot < N
  | .header slot => slot < N

/-- The lines in the order they are laid out in: the positions, one line that stays free, the data
slots, and the headers one `queue_size` after these. -/
def Line.index (R Q : ℕ) : Line → ℕ
  | .pos i => i
  | .data slot => R + 1 + slot
  | .header slot => R + 1 + Q + slot

/-- Different lines are at different places. -/
theorem Line.index_inj {R N Q : ℕ} (hN : N + (R + 1) = Q) {l l' : Line} (hl : l.Below R N)
    (hl' : l'.Below R N) (h : l.index R Q = l'.index R Q) : l = l' := by
  rcases l with i | s | s <;> rcases l' with i' | s' | s' <;>
    simp only [Line.index, Line.Below, Line.pos.injEq, Line.data.injEq, Line.header.injEq,
      reduceCtorEq] at h hl hl' ⊢ <;>
    omega

variable (hone : 1 ≤ count.toNat) (hmax : count.toNat ≤ 63)
include hone hmax

/-- The slots take what the positions leave. -/
theorem numSlots_add (hc : (SharedQueue.create count sepHeader).IsContext count.toNat c) :
    c.numReaders.toNat = count.toNat ∧
      c.numSlots.toNat + (count.toNat + 1) = (queueSize count).toNat := by
  obtain ⟨hreaders, hmin, -⟩ := queueSize_spec hone hmax
  obtain ⟨id, rfl⟩ := hc.eq_init
  have hslots : (initContext count.toUInt8 id (queueSize count)).numSlots.toNat =
      (queueSize count).toNat - (count.toNat + 1) := initContext_slots (by omega)
  refine ⟨hreaders, ?_⟩
  rw [SharedContext.init, hslots]
  omega

theorem below_of_uses (hc : (SharedQueue.create count sepHeader).IsContext count.toNat c) {l : Line}
    (hl : c.Uses sepHeader l) :
    l.Below count.toNat ((queueSize count).toNat - (count.toNat + 1)) := by
  obtain ⟨hreaders, hslots⟩ := numSlots_add hone hmax hc
  cases l with
  | pos i => exact hreaders ▸ hl
  | data slot =>
    have : slot < c.numSlots.toNat := hl
    exact show slot < _ by omega
  | header slot =>
    have : slot < c.numSlots.toNat := hl.2
    exact show slot < _ by omega

/-- **Up to 63 readers the lines follow each other.** -/
theorem offset_eq (hc : (SharedQueue.create count sepHeader).IsContext count.toNat c) {l : Line}
    (hl : c.Uses sepHeader l) :
    c.offset l = l.index count.toNat (queueSize count).toNat * 64 := by
  obtain ⟨hreaders, -, hle⟩ := queueSize_spec hone hmax
  obtain ⟨hbytes, -⟩ := toNat_bytes hle
  have hline : cachelineSize.toNat = 64 := rfl
  obtain ⟨id, rfl⟩ := hc.eq_init
  cases l with
  | pos i =>
    simp only [SharedContext.offset, SharedContext.init, initPointers, hline, Line.index]
    omega
  | data slot =>
    simp only [SharedContext.offset, SharedContext.init, initPointers, hline, Line.index, hreaders]
    omega
  | header slot =>
    simp only [SharedContext.offset, SharedContext.init, initPointers, hline, Line.index, hreaders,
      hl.1, if_true, hbytes]
    omega

/-- And the last of them ends inside the allocation. -/
theorem index_lt (hc : (SharedQueue.create count sepHeader).IsContext count.toNat c) {l : Line}
    (hl : c.Uses sepHeader l) :
    (l.index count.toNat (queueSize count).toNat + 1) * 64 ≤
      allocBytes sepHeader (queueSize count) := by
  obtain ⟨-, hmin, hle⟩ := queueSize_spec hone hmax
  obtain ⟨hbytes, hbytes'⟩ := toNat_bytes hle
  have hbelow := below_of_uses hone hmax hc hl
  cases l with
  | pos i =>
    simp only [Line.Below, Line.index, allocBytes, hbytes, hbytes'] at hbelow ⊢
    split <;> omega
  | data slot =>
    simp only [Line.Below, Line.index, allocBytes, hbytes, hbytes'] at hbelow ⊢
    split <;> omega
  | header slot =>
    simp only [Line.Below, Line.index, allocBytes, hbytes', hl.1, if_true] at hbelow ⊢
    omega

theorem geometry_sound : Sound count sepHeader where
  ends := ⟨1, rfl, queueSize_done count⟩
  readers c hc := (numSlots_add hone hmax hc).1
  ids := by
    intro i hi j hj h
    have hid : i.toUInt8 = j.toUInt8 := h
    have hi' : i.toUInt8.toNat = i := UInt8.toNat_ofNat'.trans (Nat.mod_eq_of_lt (by omega))
    have hj' : j.toUInt8.toNat = j := UInt8.toNat_ofNat'.trans (Nat.mod_eq_of_lt (by omega))
    rw [← hi', ← hj', hid]
  id_lt := by
    intro i hi
    rw [(numSlots_add hone hmax (.inr ⟨i, hi, rfl⟩)).1]
    exact Nat.lt_of_le_of_lt (UInt8.toNat_ofNat'.trans_le (Nat.mod_le _ _)) hi
  slots := by
    intro c hc
    obtain ⟨-, hmin, hle⟩ := queueSize_spec hone hmax
    obtain ⟨-, hslots⟩ := numSlots_add hone hmax hc
    omega
  disjoint := by
    intro c c' hc hc' l l' hl hl' hne
    have hmin := (queueSize_spec hone hmax).2.1
    have hindex : l.index count.toNat (queueSize count).toNat ≠
        l'.index count.toNat (queueSize count).toNat :=
      fun h => hne (Line.index_inj (by omega) (below_of_uses hone hmax hc hl)
        (below_of_uses hone hmax hc' hl') h)
    have hline : cachelineSize.toNat = 64 := rfl
    rw [offset_eq hone hmax hc hl, offset_eq hone hmax hc' hl', hline]
    omega
  inside := by
    intro c hc l hl
    have hline : cachelineSize.toNat = 64 := rfl
    have hend := index_lt hone hmax hc hl
    rw [offset_eq hone hmax hc hl, hline]
    omega

end Geometry

/-- From 64 to 255 readers the first page passes the test of the loop, and the slots are
`64 - (count+1)` in 32 bits. -/
theorem numSlots_wrapped {count : UInt16} (hmin : 64 ≤ count.toNat) (hmax : count.toNat < 256) :
    2 ^ 16 ≤ (initContext count.toUInt8 0 (queueSize count)).numSlots.toNat := by
  have hwrap : ∀ k : Fin 256, 64 ≤ k.val → 2 ^ 16 ≤ (initContext (UInt16.ofNat k.val).toUInt8 0
      (queueSize (UInt16.ofNat k.val))).numSlots.toNat := by
    decide +kernel
  have := hwrap ⟨count.toNat, hmax⟩ hmin
  simpa only [UInt16.ofNat_toNat] using this

/-- **The geometry is sound exactly up to 63 readers**, in both layouts. -/
theorem geometry_sound_iff {count : UInt16} (hone : 1 ≤ count.toNat) (sepHeader : Bool) :
    Sound count sepHeader ↔ count.toNat ≤ 63 := by
  refine ⟨fun h => ?_, fun hmax => geometry_sound hone hmax⟩
  by_contra hmany
  by_cases hbyte : count.toNat < 256
  · have hslots := (h.slots _ (.inl rfl)).2
    exact absurd (numSlots_wrapped (by omega) hbyte) (Nat.not_le.mpr hslots)
  · have hreaders := h.readers _ (.inl rfl)
    have hlt : ((SharedQueue.create count sepHeader).src.numReaders).toNat < 256 :=
      UInt8.toNat_lt _
    omega

/-- Both layouts for the 63 readers of a 64-way cluster. -/
theorem geometry_sound_iff_max : (Sound 63 false ∧ Sound 63 true) :=
  ⟨(geometry_sound_iff (by decide) false).mpr (by decide),
    (geometry_sound_iff (by decide) true).mpr (by decide)⟩

/-- **With 64 readers a queue has 2^32 - 1 slots** in one page. -/
theorem geometry_unsound :
    ¬ ∀ (count : UInt16) (sepHeader : Bool), 1 ≤ count.toNat → Sound count sepHeader := by
  intro hall
  have hslots := ((hall 64 false (by decide)).slots _ (.inl rfl)).2
  exact absurd hslots (by decide +kernel)

end Smelt.Swmr
