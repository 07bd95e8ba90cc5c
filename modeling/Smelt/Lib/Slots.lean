/-
# Slots of words

Shared memory that is used slot by slot and, inside a slot, word by word.  The two lemmas are all
that a proof about interleaved stores needs to know: a store is seen where it went, and nowhere
else.
-/
import Mathlib.Init

/-- The words of the slots of an array. -/
abbrev Slots (α : Type) := Nat → Nat → α

namespace Slots

variable {α : Type}

/-- Store into one word of one slot. -/
def store (mem : Slots α) (slot i : Nat) (v : α) : Slots α :=
  fun s j => if s = slot ∧ j = i then v else mem s j

theorem store_self (mem : Slots α) (slot i : Nat) (v : α) : mem.store slot i v slot i = v :=
  if_pos ⟨rfl, rfl⟩

theorem store_of_ne {mem : Slots α} {slot i s j : Nat} {v : α} (h : s = slot → j ≠ i) :
    mem.store slot i v s j = mem s j :=
  if_neg fun hs => h hs.1 hs.2

end Slots
