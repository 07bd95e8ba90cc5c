/-
# Allocating aligned memory

`src/platforms/linux/mem.c`, as it is configured (`SMLT_CONFIG_LINUX_NUMA_ALIGN` is off).
libnuma gives out pages and wants their base and size back, so an allocation asks for more than
it was asked for, rounds up past a header of two words, and leaves base and size in the header
for `smlt_platform_free`.

Everything the library shares lies on this arithmetic.  `alloc_free_inverse` says that it is right
at every base address: the header and the buffer are in the block and apart from each other, and the
free gives back what was allocated.

Pointers are `uintptr_t`, 64 bits with wrapping; the memory is a byte at every address.  What
libnuma answers is a parameter.
-/
import Smelt.Lib.Bytes

namespace Smelt

namespace Platform

/-- `uintptr_t`. -/
abbrev Uintptr := BitVec 64

/-- The memory allocator of libnuma: the base it gives for a size, and its highest node. -/
structure NumaMemory where
  allocLocal : Uintptr → Uintptr
  allocOnnode : Uintptr → UInt8 → Uintptr
  maxNode : ℕ

/-! ## 1. Allocation and free -/

/-- `memset(p, 0, bytes)`. -/
def clear (mem : Bytes) (p bytes : Uintptr) : Bytes :=
  fun x => if p.toNat ≤ x ∧ x < p.toNat + bytes.toNat then 0 else mem x

/-- `if (align < sizeof(void *)) align = sizeof(void *)`. -/
def raiseAlign (align : Uintptr) : Uintptr := if align < 8 then 8 else align

/-- The buffer in a block at `buf`, after its header: the end that both allocations have
in common. -/
def placeBuffer (mem : Bytes) (buf bytes align : Uintptr) (doClear : Bool) : Uintptr × Bytes :=
  let bufAligned := Align.alignUp (buf + 16) align
  let mem := mem.store (bufAligned - 8).toNat 8 buf.toNat
  let mem := mem.store (bufAligned - 16).toNat 8 (bytes + align + 16).toNat
  (bufAligned, if doClear then clear mem bufAligned bytes else mem)

/-- `smlt_platform_alloc`; `none` is the assertion on `numa_alloc_local`. -/
def platformAlloc (numa : NumaMemory) (mem : Bytes) (bytes align : Uintptr) (doClear : Bool) :
    Option (Uintptr × Bytes) :=
  let align := raiseAlign align
  if !Align.isPowerOfTwo align then some (0, mem)
  else
    let buf := numa.allocLocal (bytes + align + 16)
    if buf = 0 then none else some (placeBuffer mem buf bytes align doClear)

/-- `smlt_platform_alloc_on_node`. -/
def platformAllocOnNode (numa : NumaMemory) (mem : Bytes) (bytes align : Uintptr) (node : UInt8)
    (doClear : Bool) : Uintptr × Bytes :=
  let align := raiseAlign align
  if node.toNat > numa.maxNode then (0, mem)
  else if !Align.isPowerOfTwo align then (0, mem)
  else
    let buf := numa.allocOnnode (bytes + align + 16) node
    if buf = 0 then (0, mem) else placeBuffer mem buf bytes align doClear

/-- `smlt_platform_free`: what it passes to `numa_free`. -/
def platformFree (mem : Bytes) (buf : Uintptr) : Uintptr × Uintptr :=
  (BitVec.ofNat 64 (mem.load (buf - 8).toNat 8), BitVec.ofNat 64 (mem.load (buf - 16).toNat 8))

/-! ## 2. What a buffer is -/

/-- **The buffer of `bytes` bytes at `p`**, in the block of `bytes + align + 16` bytes at `b`, with
the memory `mem` after the allocation: from the base of the block on come the two words of the
header, the buffer, and the end of the block, and none reaches into the next. -/
structure Serves (mem : Bytes) (bytes align b p : Uintptr) : Prop where
  aligned : align.toNat ∣ p.toNat
  base : b.toNat ≤ (p - 16).toNat
  sizeWord : (p - 16).toNat + 8 ≤ (p - 8).toNat
  baseWord : (p - 8).toNat + 8 ≤ p.toNat
  top : p.toNat + bytes.toNat ≤ b.toNat + (bytes.toNat + align.toNat + 16)
  /-- whatever is written to the buffer, the free gives back base and size -/
  free : ∀ mem' : Bytes, (∀ x, ¬ (p.toNat ≤ x ∧ x < p.toNat + bytes.toNat) → mem' x = mem x) →
    platformFree mem' p = (b, bytes + align + 16)

section Alloc

variable {bytes align b p : Uintptr}

theorem toNat_raiseAlign (align : Uintptr) : (raiseAlign align).toNat = max 8 align.toNat := by
  have height : (8 : Uintptr).toNat = 8 := rfl
  rw [raiseAlign]
  split
  · rename_i h
    rw [BitVec.lt_def] at h
    omega
  · rename_i h
    rw [BitVec.lt_def] at h
    omega

/-- Raised to a word, a power of two is one. -/
theorem exists_pow_raiseAlign (h : ∃ k, align.toNat = 2 ^ k) :
    ∃ k, (raiseAlign align).toNat = 2 ^ k := by
  obtain ⟨k, hk⟩ := h
  rw [toNat_raiseAlign, hk]
  rcases Nat.le_total (2 ^ k) 8 with hle | hge
  · exact ⟨3, Nat.max_eq_left hle⟩
  · exact ⟨k, Nat.max_eq_right hge⟩

/-- The places, when the block is below the top of the address space. -/
theorem place_spec (hpow : ∃ k, align.toNat = 2 ^ k)
    (hwrap : b.toNat + bytes.toNat + align.toNat + 16 < 2 ^ 64)
    (hp : p = Align.alignUp (b + 16) align) :
    align.toNat ∣ p.toNat ∧ b.toNat + 16 ≤ p.toNat ∧ p.toNat < b.toNat + 16 + align.toNat := by
  obtain ⟨k, hk⟩ := hpow
  have hsum : (b + 16).toNat = b.toNat + 16 := by
    have hsixteen : (16 : Uintptr).toNat = 16 := rfl
    rw [BitVec.toNat_add, hsixteen]
    exact Nat.mod_eq_of_lt (by omega)
  have hup := Align.alignUp_spec (x := b + 16) hk (by omega)
  rw [hsum, ← hp] at hup
  exact hup

theorem clear_of_not_mem {mem : Bytes} {x : ℕ}
    (hx : ¬ (p.toNat ≤ x ∧ x < p.toNat + bytes.toNat)) : clear mem p bytes x = mem x :=
  if_neg hx

/-- **A placed buffer serves.** -/
theorem placeBuffer_serves (mem : Bytes) (doClear : Bool) (hpow : ∃ k, align.toNat = 2 ^ k)
    (hwrap : b.toNat + bytes.toNat + align.toNat + 16 < 2 ^ 64) :
    Serves (placeBuffer mem b bytes align doClear).2 bytes align b
      (placeBuffer mem b bytes align doClear).1 := by
  obtain ⟨hdvd, hlow, hhigh⟩ := place_spec hpow hwrap rfl
  rw [placeBuffer]
  generalize Align.alignUp (b + 16) align = p at hdvd hlow hhigh ⊢
  dsimp only
  have hplt := p.isLt
  have h16 : (p - 16).toNat = p.toNat - 16 := by
    have hle : (16 : Uintptr) ≤ p := by
      rw [BitVec.le_def]
      exact Nat.le_trans (Nat.le_add_left 16 b.toNat) hlow
    exact BitVec.toNat_sub_of_le hle
  have h8 : (p - 8).toNat = p.toNat - 8 := by
    have hle : (8 : Uintptr) ≤ p := by
      rw [BitVec.le_def]
      exact Nat.le_trans (by decide) (Nat.le_trans (Nat.le_add_left 16 b.toNat) hlow)
    exact BitVec.toNat_sub_of_le hle
  refine ⟨hdvd, by omega, by omega, by omega, by omega, fun mem' hmem => ?_⟩
  -- the header is below the buffer, so neither clearing nor writing it gets there
  have hheader : ∀ x, x < p.toNat → mem' x =
      ((mem.store (p - 8).toNat 8 b.toNat).store
        (p - 16).toNat 8 (bytes + align + 16).toNat) x := by
    intro x hx
    have hout : ¬ (p.toNat ≤ x ∧ x < p.toNat + bytes.toNat) := fun h => by omega
    rw [hmem x hout]
    cases doClear with
    | false => rfl
    | true => exact clear_of_not_mem hout
  have hbase : mem'.load (p - 8).toNat 8 = b.toNat := by
    rw [Bytes.load_congr fun x h1 h2 => hheader x (by omega),
      Bytes.load_congr fun x h1 h2 => Bytes.store_of_not_mem (.inr (by omega)), Bytes.load_store]
    exact Nat.mod_eq_of_lt b.isLt
  have hsize : mem'.load (p - 16).toNat 8 = (bytes + align + 16).toNat := by
    rw [Bytes.load_congr fun x h1 h2 => hheader x (by omega), Bytes.load_store]
    exact Nat.mod_eq_of_lt (bytes + align + 16).isLt
  rw [platformFree, hbase, hsize, BitVec.ofNat_toNat, BitVec.setWidth_eq, BitVec.ofNat_toNat,
    BitVec.setWidth_eq]

end Alloc

/-! ## 3. Allocation and free are inverse -/

/-- **Every allocation that libnuma grants is served**, locally and on a node. -/
theorem alloc_free_inverse (numa : NumaMemory) (mem : Bytes) (bytes align : Uintptr)
    (doClear : Bool)
    (hpow : ∃ k, align.toNat = 2 ^ k) :
    (∀ b, numa.allocLocal (bytes + raiseAlign align + 16) = b → b ≠ 0 →
        b.toNat + bytes.toNat + (raiseAlign align).toNat + 16 < 2 ^ 64 →
      ∃ p mem', platformAlloc numa mem bytes align doClear = some (p, mem') ∧
        Serves mem' bytes (raiseAlign align) b p) ∧
    ∀ (node : UInt8) (b : Uintptr), node.toNat ≤ numa.maxNode →
        numa.allocOnnode (bytes + raiseAlign align + 16) node = b → b ≠ 0 →
        b.toNat + bytes.toNat + (raiseAlign align).toNat + 16 < 2 ^ 64 →
      ∃ p mem', platformAllocOnNode numa mem bytes align node doClear = (p, mem') ∧
        Serves mem' bytes (raiseAlign align) b p := by
  have hraised := exists_pow_raiseAlign hpow
  have hcheck : (!Align.isPowerOfTwo (raiseAlign align)) = false := by
    rw [Align.isPowerOfTwo_iff.mpr hraised]
    rfl
  constructor
  · rintro b hb hnull hwrap
    refine ⟨_, _, ?_, placeBuffer_serves mem doClear hraised hwrap⟩
    rw [platformAlloc]
    dsimp only
    rw [hcheck, if_neg Bool.false_ne_true, hb, if_neg hnull]
  · rintro node b hnode hb hnull hwrap
    refine ⟨_, _, ?_, placeBuffer_serves mem doClear hraised hwrap⟩
    rw [platformAllocOnNode]
    dsimp only
    rw [if_neg (Nat.not_lt.mpr hnode), hcheck, if_neg Bool.false_ne_true, hb, if_neg hnull]

/-- An allocator that has one block. -/
def oneBlock (b : Uintptr) : NumaMemory where
  allocLocal _ := b
  allocOnnode _ _ := b
  maxNode := 0

theorem alloc_free_inverse_page :
    (∃ p mem', platformAlloc (oneBlock 0x1000) (fun _ => 0) 100 64 true = some (p, mem') ∧
      Serves mem' 100 64 0x1000 p) ∧
    ∃ p mem', platformAllocOnNode (oneBlock 0x1000) (fun _ => 0) 100 64 0 true = (p, mem') ∧
      Serves mem' 100 64 0x1000 p := by
  obtain ⟨hlocal, honNode⟩ :=
    alloc_free_inverse (oneBlock 0x1000) (fun _ => 0) 100 64 true ⟨6, rfl⟩
  exact ⟨hlocal 0x1000 rfl (by decide) (by decide),
    honNode 0 0x1000 (by decide) rfl (by decide) (by decide)⟩

end Platform

end Smelt
