/-
# Positions on a ring

The `i`-th item that goes through a ring of `n` slots is at slot `i % n` and belongs to lap
`i / n`.  A queue never stores `i`: it stores the slot, which it advances by one and resets at
`n`, and sometimes one bit of the lap, which it flips at each reset.  The lemmas here say that
these two are what advancing `i` does, and that two items less than `n` apart never meet in
one slot, which is the whole reason a ring of `n` slots can hold `n` items.

`pending` is what the reader of a ring has before it: it takes slot after slot for as long as a
slot announces an item, and no longer than one lap.  `take_perm` is about a ring nobody reads from:
what it has in the end.
-/
import Mathlib.Data.Nat.ModEq
import Mathlib.Algebra.Order.Group.Nat
import Mathlib.Order.Interval.Finset.Nat
import Mathlib.Order.Interval.Multiset

namespace Ring

variable {n i j : ℕ}

/-- The lap bit of item `i`: set on the even laps, so set at the start. -/
def phase (n i : ℕ) : Bool := i / n % 2 == 0

/-- The last slot of a lap: the next item starts the next lap at slot `0`. -/
theorem succ_of_last (h : i % n + 1 = n) : (i + 1) % n = 0 ∧ (i + 1) / n = i / n + 1 := by
  have hn : 0 < n := by omega
  have hi : i + 1 = n * (i / n + 1) := by
    have := Nat.div_add_mod i n
    rw [Nat.mul_add, Nat.mul_one]
    omega
  exact ⟨by rw [hi]; exact Nat.mul_mod_right _ _, by rw [hi]; exact Nat.mul_div_cancel_left _ hn⟩

/-- Any other slot: the next item is in the next slot of the same lap. -/
theorem succ_of_not_last (hn : 0 < n) (h : i % n + 1 ≠ n) :
    (i + 1) % n = i % n + 1 ∧ (i + 1) / n = i / n := by
  have hlt : i % n + 1 < n := by
    have := Nat.mod_lt i hn
    omega
  have hi : i + 1 = n * (i / n) + (i % n + 1) := by
    have := Nat.div_add_mod i n
    omega
  constructor
  · rw [hi, Nat.mul_add_mod]
    exact Nat.mod_eq_of_lt hlt
  · rw [hi, Nat.mul_add_div hn, Nat.div_eq_of_lt hlt, Nat.add_zero]

/-- The lap bit flips when a lap ends. -/
theorem phase_succ_of_last (h : i % n + 1 = n) : phase n (i + 1) = !phase n i := by
  simp only [phase, (succ_of_last h).2]
  rcases Nat.mod_two_eq_zero_or_one (i / n) with h2 | h2
  · have h3 : (i / n + 1) % 2 = 1 := by omega
    simp [h2, h3]
  · have h3 : (i / n + 1) % 2 = 0 := by omega
    simp [h2, h3]

/-- The lap bit stands inside a lap. -/
theorem phase_succ_of_not_last (hn : 0 < n) (h : i % n + 1 ≠ n) :
    phase n (i + 1) = phase n i := by
  simp only [phase, (succ_of_not_last hn h).2]

/-- One lap later the bit is the other one. -/
theorem phase_add (hn : 0 < n) : phase n (i + n) = !phase n i := by
  simp only [phase, Nat.add_div_right i hn]
  rcases Nat.mod_two_eq_zero_or_one (i / n) with h2 | h2
  · have h3 : (i / n).succ % 2 = 1 := by omega
    simp [h2, h3]
  · have h3 : (i / n).succ % 2 = 0 := by omega
    simp [h2, h3]

/-- The first lap has the bit set. -/
theorem phase_of_lt (h : i < n) : phase n i = true := by
  simp [phase, Nat.div_eq_of_lt h]

/-- **Two items less than `n` apart are in different slots.** -/
theorem mod_ne_mod (hij : i < j) (hjn : j < i + n) : i % n ≠ j % n := by
  intro h
  have hd : n ∣ j - i := (Nat.modEq_iff_dvd' (Nat.le_of_lt hij)).mp h
  have hpos : 0 < j - i := by omega
  have := Nat.le_of_dvd hpos hd
  omega

/-- The lap bit less than a lap ahead: it flips when the count from slot `i % n` goes round. -/
theorem phase_ahead {k : ℕ} (hk : k < n) :
    phase n (i + k) = if i % n + k < n then phase n i else !phase n i := by
  have hn : 0 < n := by omega
  have hlt := Nat.mod_lt i hn
  have hsplit : i + k = n * (i / n) + (i % n + k) := by
    have := Nat.div_add_mod i n
    omega
  have hdiv : (i + k) / n = i / n + (i % n + k) / n := by
    conv_lhs => rw [hsplit]
    exact Nat.mul_add_div hn _ _
  split
  · rename_i h
    rw [phase, hdiv, Nat.div_eq_of_lt h, Nat.add_zero, phase]
  · rename_i h
    have hone : (i % n + k) / n = 1 := Nat.div_eq_of_lt_le (by omega) (by omega)
    rw [← phase_add hn, phase, phase, hdiv, hone, Nat.add_div_right i hn]

/-! ## What a reader has before it -/

section Pending

variable {α : Type*} {ready ready' : ℕ → Bool} {read read' : ℕ → α} {c : ℕ}

/-- The items of the slots ahead of a reader: `ready k` says that the `k`-th of them announces an
item, and `read k` is what is in it. -/
def pending (n : ℕ) (ready : ℕ → Bool) (read : ℕ → α) : List α :=
  ((List.range n).takeWhile ready).map read

/-- The first slot that announces nothing ends them. -/
theorem pending_eq (hc : c ≤ n) (hready : ∀ k, k < c → ready k = true)
    (hstop : c < n → ready c = false) : pending n ready read = (List.range c).map read := by
  obtain ⟨d, rfl⟩ := Nat.exists_eq_add_of_le hc
  have hrest : ((List.range d).map (c + ·)).takeWhile ready = [] := by
    cases d with
    | zero => rfl
    | succ d =>
      have hzero : ready (c + 0) = false := hstop (by omega)
      rw [List.range_succ_eq_map, List.map_cons, List.takeWhile_cons, hzero]
      rfl
  rw [pending, List.range_add, List.takeWhile_append_of_pos, hrest, List.append_nil]
  intro k hk
  exact hready k (List.mem_range.mp hk)

/-- **One item more**: the slot that ended them now announces an item, the next one does not, and
the slots before it read as they did. -/
theorem pending_concat (hc : c < n) (hready : ∀ k, k < c → ready k = true)
    (hstop : ready c = false) (hready' : ∀ k, k ≤ c → ready' k = true)
    (hstop' : c + 1 < n → ready' (c + 1) = false) (hread : ∀ k, k < c → read' k = read k) :
    pending n ready' read' = pending n ready read ++ [read' c] := by
  rw [pending_eq (Nat.le_of_lt hc) hready fun _ => hstop,
    pending_eq (Nat.succ_le_of_lt hc) (fun k hk => hready' k (Nat.le_of_lt_succ hk)) hstop',
    List.range_succ, List.map_append, List.map_singleton]
  congr 1
  refine List.map_congr_left fun k hk => ?_
  exact hread k (List.mem_range.mp hk)

end Pending

/-! ## What is in a ring that is written over -/

/-- The slots of one lap, from item `s` on, are all slots. -/
theorem lap_perm (s n : ℕ) : ((List.range' s n).map (· % n)).Perm (List.range n) := by
  have h := Nat.multiset_Ico_map_mod s n
  have hico : Multiset.Ico s (s + n) = (List.range' s (s + n - s) : Multiset ℕ) := rfl
  rw [hico, Nat.add_sub_cancel_left, Multiset.map_coe] at h
  exact Multiset.coe_eq_coe.mp h

/-- The last items of a list, by index. -/
theorem map_getElem? {α : Type*} (l : List α) (s n : ℕ) (h : s + n = l.length) :
    (List.range' s n).map (fun k => l[k]?) = (l.drop s).map some := by
  refine List.ext_getElem? fun k => ?_
  rw [List.getElem?_map, List.getElem?_map, List.getElem?_drop]
  rcases Nat.lt_or_ge k n with hk | hk
  · rw [List.getElem?_range' hk, Option.map_some, Nat.one_mul, List.getElem?_eq_getElem (by omega)]
    rfl
  · rw [List.getElem?_eq_none (by simpa using hk), List.getElem?_eq_none (by omega)]
    rfl

/-- **A ring of `n` slots has the last `n` items**, in the slots that are in use, when it holds
every item until the slot is used again. -/
theorem take_perm {α : Type*} {ring items : List α} {n : ℕ} (hlen : ring.length = n)
    (hring : ∀ k v, items[k]? = some v → items.length ≤ k + n → ring[k % n]? = some v) :
    (ring.take (min items.length n)).Perm (items.drop (items.length - n)) := by
  have hitem : ∀ k, k < items.length → items.length ≤ k + n → ring[k % n]? = items[k]? := by
    intro k hk hkn
    have hv := List.getElem?_eq_getElem hk
    rw [hv, hring k _ hv hkn]
  rcases Nat.lt_or_ge n items.length with hfull | hshort
  · rw [Nat.min_eq_right (Nat.le_of_lt hfull), List.take_of_length_le (Nat.le_of_eq hlen)]
    have hall := map_getElem? ring 0 n (by omega)
    have hlast := map_getElem? items (items.length - n) n (by omega)
    have hperm := (lap_perm (items.length - n) n).map fun k => ring[k]?
    rw [List.map_map, List.range_eq_range', hall, List.drop_zero] at hperm
    have hsame : (List.range' (items.length - n) n).map ((fun k => ring[k]?) ∘ (· % n)) =
        (items.drop (items.length - n)).map some := by
      rw [← hlast]
      refine List.map_congr_left fun k hk => ?_
      rw [List.mem_range'_1] at hk
      exact hitem k (by omega) (by omega)
    rw [hsame] at hperm
    exact ((List.map_perm_map_iff (Option.some_injective _)).mp hperm).symm
  · have hzero : items.length - n = 0 := by omega
    rw [Nat.min_eq_left hshort, hzero, List.drop_zero]
    refine List.Perm.of_eq (List.ext_getElem? fun k => ?_)
    rcases Nat.lt_or_ge k items.length with hk | hk
    · have hmod : k % n = k := Nat.mod_eq_of_lt (by omega)
      have := hitem k hk (by omega)
      rw [hmod] at this
      rw [List.getElem?_take_of_lt hk, this]
    · rw [List.getElem?_take_eq_none hk, List.getElem?_eq_none hk]
end Ring
