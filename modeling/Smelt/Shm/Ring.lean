/-
# A ring of numbered messages

What the shared-memory queues have in common: message `j`, counted from zero, goes to slot `j % N`
under the sequence number `j + 1`, its payload before its number.  `Held` says that the last
messages are in their slots, all but the one whose slot is next to be written.

A reader that has received `r` messages looks for the number `r + 1` in slot `r % N`.  As long as
the writer is less than a lap ahead of it, it finds the number just when the message has been sent
(`Held.observe`), and then the words it reads are those of the message (`Held.word`).
-/
import Smelt.Shm.Swmr
import Smelt.Lib.Ring

namespace Smelt.Swmr

open Ring

/-- The messages `items` have been sent, and the last of them are in their slots. -/
structure Held (N : ℕ) (items : List Item) (slots : Slots Word) : Prop where
  number : ∀ (j : ℕ) (x : Item), items[j]? = some x → x.1.toNat = j + 1
  held : ∀ (j : ℕ) (x : Item), items[j]? = some x → items.length < j + N →
    slots (j % N) 0 = x.1 ∧ ∀ (xs : List Word), x.2 = some xs →
      ∀ (l : ℕ) (v : Word), xs[l]? = some v → slots (j % N) (l + 1) = v
  /-- no slot announces a message to come -/
  sent : ∀ slot, (slots slot 0).toNat ≤ items.length

variable {N : ℕ} {items : List Item} {slots : Slots Word}

theorem held_nil (N : ℕ) : Held N [] fun _ _ => 0 :=
  ⟨fun j x h => by simp at h, fun j x h => by simp at h, fun _ => Nat.le_refl 0⟩

/-- A payload word goes into the slot that is next to be written. -/
theorem Held.store (h : Held N items slots) {i : ℕ} {v : Word} :
    Held N items (slots.store (items.length % N) (i + 1) v) where
  number := h.number
  held := by
    intro j x hx hlt
    have hj := (List.getElem?_eq_some_iff.mp hx).1
    have hne : j % N ≠ items.length % N := mod_ne_mod hj hlt
    obtain ⟨h0, hdata⟩ := h.held j x hx hlt
    constructor
    · exact (Slots.store_of_ne fun hs => absurd hs hne).trans h0
    · intro xs hxs l w hw
      exact (Slots.store_of_ne fun hs => absurd hs hne).trans (hdata xs hxs l w hw)
  sent := by
    intro slot
    rw [Slots.store_of_ne fun _ => (Nat.succ_ne_zero i).symm]
    exact h.sent slot

/-- The number of the next message announces it. -/
theorem Held.publish (h : Held N items slots) {x : Item} (hx : x.1.toNat = items.length + 1)
    (hdata : ∀ (xs : List Word), x.2 = some xs →
      ∀ (l : ℕ) (v : Word), xs[l]? = some v → slots (items.length % N) (l + 1) = v) :
    Held N (items ++ [x]) (slots.store (items.length % N) 0 x.1) where
  number := by
    intro j y hy
    rcases Run.getElem?_snoc.mp hy with hy | ⟨rfl, rfl⟩
    · exact h.number j y hy
    · exact hx
  held := by
    intro j y hy hlt
    rw [List.length_append, List.length_singleton] at hlt
    rcases Run.getElem?_snoc.mp hy with hy | ⟨rfl, rfl⟩
    · have hj := (List.getElem?_eq_some_iff.mp hy).1
      have hne : j % N ≠ items.length % N := mod_ne_mod hj (by omega)
      obtain ⟨h0, hword⟩ := h.held j y hy (by omega)
      constructor
      · exact (Slots.store_of_ne fun hs => absurd hs hne).trans h0
      · intro xs hxs l w hw
        exact (Slots.store_of_ne fun hs => absurd hs hne).trans (hword xs hxs l w hw)
    · constructor
      · exact Slots.store_self _ _ _ _
      · intro xs hxs l w hw
        exact (Slots.store_of_ne fun _ => Nat.succ_ne_zero l).trans (hdata xs hxs l w hw)
  sent := by
    intro slot
    rw [List.length_append, List.length_singleton]
    by_cases hslot : slot = items.length % N
    · rw [hslot, Slots.store_self, hx]
    · rw [Slots.store_of_ne fun hs => absurd hs hslot]
      exact Nat.le_succ_of_le (h.sent slot)

/-- **A reader less than a lap behind finds its number just when the message was sent.** -/
theorem Held.observe (h : Held N items slots) {r : ℕ}
    (hlap : items.length < r + N) {seq : Word} (hseq : seq.toNat = r + 1) :
    seq = slots (r % N) 0 ↔ r < items.length := by
  constructor
  · intro heq
    have := h.sent (r % N)
    rw [← heq, hseq] at this
    omega
  · intro hlt
    have hget := List.getElem?_eq_getElem hlt
    rw [(h.held r _ hget hlap).1, ← UInt64.toNat_inj, hseq, h.number r _ hget]

/-- What it then reads is the message's. -/
theorem Held.word (h : Held N items slots) {r : ℕ} {x : Item} (hx : items[r]? = some x)
    (hlap : items.length < r + N) {xs : List Word} (hxs : x.2 = some xs) {l : ℕ} {v : Word}
    (hv : xs[l]? = some v) : slots (r % N) (l + 1) = v :=
  (h.held r x hx hlap).2 xs hxs l v hv

/-! ## A copy under way -/

section Copy

variable {xs got : List Word}

/-- One word more of a copy. -/
theorem copy_concat (h : ∀ (l : ℕ) (v w : Word), xs[l]? = some v → got[l]? = some w → w = v)
    {word : Word} (hword : ∀ v, xs[got.length]? = some v → word = v) :
    ∀ (l : ℕ) (v w : Word), xs[l]? = some v → (got ++ [word])[l]? = some w → w = v := by
  intro l v w hv hw
  rcases Run.getElem?_snoc.mp hw with hw | ⟨rfl, rfl⟩
  · exact h l v w hv hw
  · exact hword v hv

/-- A copy of as many words as there are is what was copied. -/
theorem copy_eq (h : ∀ (l : ℕ) (v w : Word), xs[l]? = some v → got[l]? = some w → w = v)
    (hlen : got.length = xs.length) : got = xs := by
  refine List.ext_getElem hlen fun l h1 h2 => ?_
  exact h l _ _ (List.getElem?_eq_getElem h2) (List.getElem?_eq_getElem h1)

end Copy

/-! ## What a reader has before it -/

/-- The messages before a reader at `lPos` that waits for the number `seq`: the payloads of the
slots from there on, as long as they carry the numbers that follow. -/
def announced (N lPos : ℕ) (seq : Word) (slots : Slots Word) : List (List Word) :=
  pending N (fun k => slots ((lPos + k) % N) 0 == seq + UInt64.ofNat k)
    fun k => words fun j => slots ((lPos + k) % N) (j + 1)

/-- **A reader sees one message more** when the slot after the last one gets the next number and
the other slots are left alone. -/
theorem announced_concat {slots' : Slots Word} {r S lPos : ℕ} {seq : Word} (hpos : lPos = r % N)
    (hle : r ≤ S) (hlap : S < r + N)
    (hready : ∀ k, k < N → (slots ((r + k) % N) 0 = seq + UInt64.ofNat k ↔ r + k < S))
    (hready' : ∀ k, k < N → (slots' ((r + k) % N) 0 = seq + UInt64.ofNat k ↔ r + k < S + 1))
    (hother : ∀ s, s ≠ S % N → slots' s = slots s) :
    announced N lPos seq slots' =
      announced N lPos seq slots ++ [words fun j => slots' (S % N) (j + 1)] := by
  obtain ⟨c, rfl⟩ := Nat.exists_eq_add_of_le hle
  have hmod : ∀ k, (lPos + k) % N = (r + k) % N := by
    intro k
    rw [hpos, Nat.mod_add_mod]
  have hc : c < N := by omega
  simp only [announced, hmod]
  refine pending_concat hc ?_ ?_ ?_ ?_ ?_
  · intro k hk
    exact beq_iff_eq.mpr ((hready k (by omega)).mpr (by omega))
  · exact beq_eq_false_iff_ne.mpr fun he => absurd ((hready c hc).mp he) (Nat.lt_irrefl _)
  · intro k hk
    exact beq_iff_eq.mpr ((hready' k (by omega)).mpr (by omega))
  · intro hlt
    exact beq_eq_false_iff_ne.mpr fun he => absurd ((hready' (c + 1) hlt).mp he) (by omega)
  · intro k hk
    rw [hother _ (mod_ne_mod (by omega : r + k < r + c) (by omega))]

end Smelt.Swmr
