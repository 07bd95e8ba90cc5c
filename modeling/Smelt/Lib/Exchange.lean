/-
# Partitioning by exchanges

The partition step of an exchange sort goes through a list from both ends: a cursor `i` comes up
over entries below the pivot, a cursor `j` comes down over entries above it, the entries at which
they stop change places, and both go one further.  No scan tests for the end of the list.

What lets them do without is in `Window`: each cursor has an entry ahead of it at which it stops.
At the start that is the pivot itself (`Window.start`); after an exchange it is the entry that has
just gone to the other side (`Window.swap`).  When the cursors meet, `i` is strictly inside the list
and splits it (`Window.split`).
-/
import Mathlib.Order.Lattice
import Mathlib.Data.List.Basic

namespace Exchange

/-- The entries after an exchange. -/
theorem getElem?_exchange {β : Type*} {data : List β} {i j : ℕ} {vi vj : β} (hne : i < j)
    (hj : j < data.length) (k : ℕ) :
    ((data.set i vj).set j vi)[k]? =
      if k = i then some vj else if k = j then some vi else data[k]? := by
  by_cases hkj : k = j
  · subst hkj
    have hki : k ≠ i := Nat.ne_of_gt hne
    rw [List.getElem?_set_self (by simpa using hj), if_neg hki, if_pos rfl]
  · rw [List.getElem?_set_ne (Ne.symm hkj)]
    by_cases hki : k = i
    · subst hki
      rw [List.getElem?_set_self (Nat.lt_trans hne hj), if_pos rfl]
    · rw [List.getElem?_set_ne (Ne.symm hki), if_neg hki, if_neg hkj]

variable {α : Type*} [LinearOrder α]

/-- The list before a round, with the cursors at `i` and `j`. -/
structure Window (pivot : α) (data : List α) (i j : ℕ) : Prop where
  lt : j < data.length
  low : ∀ k v, data[k]? = some v → k < i → v ≤ pivot
  high : ∀ k v, data[k]? = some v → j < k → pivot ≤ v
  /-- an entry at which the cursor from below stops -/
  stopUp : ∃ k v, data[k]? = some v ∧ i ≤ k ∧ pivot ≤ v
  /-- and one for the cursor from above; one of the two is not the first entry -/
  stopDown : ∃ k v, data[k]? = some v ∧ k ≤ j ∧ v ≤ pivot ∧ (0 < i ∨ 0 < k)

/-- The cursor from below has come from `i` to `i'`. -/
structure UpTo (pivot : α) (data : List α) (i i' : ℕ) : Prop where
  le : i ≤ i'
  stop : ∃ v, data[i']? = some v ∧ pivot ≤ v
  passed : ∀ k v, data[k]? = some v → i ≤ k → k < i' → v < pivot

/-- The cursor from above has come from `j` to `j'`. -/
structure DownTo (pivot : α) (data : List α) (j j' : ℕ) : Prop where
  le : j' ≤ j
  stop : ∃ v, data[j']? = some v ∧ v ≤ pivot
  passed : ∀ k v, data[k]? = some v → j' < k → k ≤ j → pivot < v

section Window

variable {pivot : α} {data : List α} {i j i' j' : ℕ}

/-- Both cursors stop at the pivot. -/
theorem Window.start {m : ℕ} (hm : data[m]? = some pivot) (hpos : 0 < m) :
    Window pivot data 0 (data.length - 1) := by
  have hlt : m < data.length := (List.getElem?_eq_some_iff.mp hm).1
  refine ⟨by omega, fun k v _ hk => absurd hk (Nat.not_lt_zero k), fun k v hv hk => ?_, ?_, ?_⟩
  · have := (List.getElem?_eq_some_iff.mp hv).1
    omega
  · exact ⟨m, pivot, hm, Nat.zero_le m, le_refl pivot⟩
  · exact ⟨m, pivot, hm, by omega, le_refl pivot, .inr hpos⟩

/-- What the cursor from below has behind it. -/
theorem Window.low_of_upTo (h : Window pivot data i j) (hup : UpTo pivot data i i') {k : ℕ} {v : α}
    (hv : data[k]? = some v) (hk : k < i') : v ≤ pivot := by
  rcases Nat.lt_or_ge k i with hlt | hge
  · exact h.low k v hv hlt
  · exact le_of_lt (hup.passed k v hv hge hk)

/-- What the cursor from above has behind it. -/
theorem Window.high_of_downTo (h : Window pivot data i j) (hdown : DownTo pivot data j j') {k : ℕ}
    {v : α} (hv : data[k]? = some v) (hk : j' < k) : pivot ≤ v := by
  rcases Nat.lt_or_ge j k with hlt | hge
  · exact h.high k v hv hlt
  · exact le_of_lt (hdown.passed k v hv hk hge)

/-- No cursor leaves the list. -/
theorem UpTo.lt_length (hup : UpTo pivot data i i') : i' < data.length := by
  obtain ⟨v, hv, -⟩ := hup.stop
  exact (List.getElem?_eq_some_iff.mp hv).1

/-- **The cursors have met**, at a place strictly inside the list that splits it. -/
theorem Window.split (h : Window pivot data i j) (hup : UpTo pivot data i i')
    (hdown : DownTo pivot data j j') (hmet : j' ≤ i') :
    0 < i' ∧ i' < data.length ∧ (∀ v ∈ data.take i', v ≤ pivot) ∧
      ∀ v ∈ data.drop i', pivot ≤ v := by
  have hlt := hup.lt_length
  refine ⟨?_, hlt, fun v hv => ?_, fun v hv => ?_⟩
  · -- were both cursors at the first entry, the one from above would have passed its stop
    obtain ⟨k, v, hv, hkj, hle, hpos⟩ := h.stopDown
    have hge := hup.le
    by_contra hzero
    have hk : j' < k := by omega
    exact absurd hle (not_le_of_gt (hdown.passed k v hv hk hkj))
  · obtain ⟨k, hk⟩ := List.getElem?_of_mem hv
    have hki : k < i' := by
      have := (List.getElem?_eq_some_iff.mp hk).1
      rw [List.length_take] at this
      omega
    rw [List.getElem?_take_of_lt hki] at hk
    exact h.low_of_upTo hup hk hki
  · obtain ⟨k, hk⟩ := List.getElem?_of_mem hv
    rw [List.getElem?_drop] at hk
    rcases Nat.eq_zero_or_pos k with rfl | hpos
    · obtain ⟨w, hw, hle⟩ := hup.stop
      obtain rfl : w = v := Option.some.inj (hw.symm.trans hk)
      exact hle
    · exact h.high_of_downTo hdown hk (by omega)

/-- **One exchange**: the two entries go to the right sides, and each stops the other cursor from
now on. -/
theorem Window.swap (h : Window pivot data i j) (hup : UpTo pivot data i i')
    (hdown : DownTo pivot data j j') (hlt : i' < j') {vi vj : α} (hvi : data[i']? = some vi)
    (hvj : data[j']? = some vj) :
    Window pivot ((data.set i' vj).set j' vi) (i' + 1) (j' - 1) := by
  have hj' : j' < data.length := (List.getElem?_eq_some_iff.mp hvj).1
  have hle : vj ≤ pivot := by
    obtain ⟨w, hw, hle⟩ := hdown.stop
    obtain rfl : w = vj := Option.some.inj (hw.symm.trans hvj)
    exact hle
  have hge : pivot ≤ vi := by
    obtain ⟨w, hw, hge⟩ := hup.stop
    obtain rfl : w = vi := Option.some.inj (hw.symm.trans hvi)
    exact hge
  have hentry := @getElem?_exchange α data i' j' vi vj hlt hj'
  refine ⟨by simp only [List.length_set]; omega, fun k v hv hk => ?_, fun k v hv hk => ?_, ?_, ?_⟩
  · rw [hentry] at hv
    by_cases hki : k = i'
    · rw [if_pos hki] at hv
      exact Option.some.inj hv ▸ hle
    · rw [if_neg hki, if_neg (by omega)] at hv
      exact h.low_of_upTo hup hv (by omega)
  · rw [hentry, if_neg (by omega)] at hv
    by_cases hkj : k = j'
    · rw [if_pos hkj] at hv
      exact Option.some.inj hv ▸ hge
    · rw [if_neg hkj] at hv
      exact h.high_of_downTo hdown hv (by omega)
  · refine ⟨j', vi, ?_, hlt, hge⟩
    rw [hentry, if_neg (Nat.ne_of_gt hlt), if_pos rfl]
  · refine ⟨i', vj, ?_, by omega, hle, .inl (Nat.succ_pos i')⟩
    rw [hentry, if_pos rfl]

end Window

/-- Two sorted lists with the pivot between them. -/
theorem sorted_append {pivot : α} {xs ys : List α} (hxs : xs.Pairwise (· ≤ ·))
    (hys : ys.Pairwise (· ≤ ·)) (hlow : ∀ v ∈ xs, v ≤ pivot) (hhigh : ∀ v ∈ ys, pivot ≤ v) :
    (xs ++ ys).Pairwise (· ≤ ·) :=
  List.pairwise_append.mpr
    ⟨hxs, hys, fun x hx y hy => le_trans (hlow x hx) (hhigh y hy)⟩

end Exchange
