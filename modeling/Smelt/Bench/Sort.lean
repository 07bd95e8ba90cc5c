/-
# The sort of the measurements

`smlt_bench_sort` of `src/bench.c`: a quicksort in place, on the `len` values from `data` on.  Its
loops test for no bound and its cursors are unsigned, so the model has every access checked
(`Fault.bounds`), counts the cursors in 32 bits, and bounds every loop by a fuel (`Fault.fuel`).

`benchSort_sorts` says that none of that is ever needed: with more fuel than values the sort
returns, and the result is an ascending permutation.  The argument about the cursors is
`Exchange.Window`; here it is carried through the loops.

A recursive call gets a pointer and a length, and the two of them share no value.  So a segment is a
list of its own, `data.take i` and `data.drop i`, and an access is checked against the segment.
-/
import Smelt.Message
import Smelt.Lib.Exchange
import Mathlib.Data.UInt
import Mathlib.Data.List.Sort

namespace Smelt

/-! ## 1. Values and accesses -/

/-- `cycles_t`. -/
abbrev Cycles := UInt64

instance linearOrderUInt64 : LinearOrder UInt64 where
  le_refl := UInt64.le_refl
  le_trans _ _ _ := UInt64.le_trans
  lt_iff_le_not_ge a b := by
    rw [UInt64.not_le]
    exact ⟨fun h => ⟨UInt64.le_of_lt h, h⟩, fun h => h.2⟩
  le_antisymm _ _ := UInt64.le_antisymm
  le_total := UInt64.le_total
  toDecidableLE := inferInstance
  toDecidableEq := inferInstance
  toDecidableLT := inferInstance

namespace Bench

/-- The ways not to return: an access outside the segment, a division by zero, a loop that
goes on. -/
inductive Fault
  | bounds
  | division
  | fuel
  deriving DecidableEq, Repr

/-- `data[i]`. -/
def read (data : List Cycles) (i : ℕ) : Except Fault Cycles :=
  match data[i]? with
  | some v => .ok v
  | none => .error .bounds

/-- `data[i] = v`. -/
def write (data : List Cycles) (i : ℕ) (v : Cycles) : Except Fault (List Cycles) :=
  if i < data.length then .ok (data.set i v) else .error .bounds

theorem read_eq_ok {data : List Cycles} {i : ℕ} {v : Cycles} (h : data[i]? = some v) :
    read data i = .ok v := by
  rw [read, h]

theorem write_eq_ok {data : List Cycles} {i : ℕ} (h : i < data.length) (v : Cycles) :
    write data i v = .ok (data.set i v) :=
  if_pos h

/-! ## 2. `smlt_bench_sort` -/

/-- `while (data[i] < pivot) i++`. -/
def scanUp (data : List Cycles) (pivot : Cycles) : ℕ → ℕ → Except Fault ℕ
  | 0, _ => .error .fuel
  | fuel + 1, i => do
    let v ← read data i
    if v < pivot then scanUp data pivot fuel ((i + 1) % 2 ^ 32) else return i

/-- `while (pivot < data[j]) j--`. -/
def scanDown (data : List Cycles) (pivot : Cycles) : ℕ → ℕ → Except Fault ℕ
  | 0, _ => .error .fuel
  | fuel + 1, j => do
    let v ← read data j
    if pivot < v then scanDown data pivot fuel ((j + 2 ^ 32 - 1) % 2 ^ 32) else return j

/-- The rounds of the `for` loop, with `fuel` for each scan. -/
def exchangeLoop (fuel : ℕ) (pivot : Cycles) :
    ℕ → ℕ → ℕ → List Cycles → Except Fault (ℕ × List Cycles)
  | 0, _, _, _ => .error .fuel
  | rounds + 1, i, j, data => do
    let i ← scanUp data pivot fuel i
    let j ← scanDown data pivot fuel j
    if i ≥ j then return (i, data)
    let tmp ← read data i
    let v ← read data j
    let data ← write data i v
    let data ← write data j tmp
    exchangeLoop fuel pivot rounds ((i + 1) % 2 ^ 32) ((j + 2 ^ 32 - 1) % 2 ^ 32) data

/-- The segment split around its middle value: the place of the split, and the values. -/
def benchSplit (fuel : ℕ) (data : List Cycles) : Except Fault (ℕ × List Cycles) := do
  let pivot ← read data (data.length / 2)
  exchangeLoop fuel pivot fuel 0 (data.length - 1) data

/-- `smlt_bench_sort`. -/
def benchSort : ℕ → List Cycles → Except Fault (List Cycles)
  | 0, _ => .error .fuel
  | fuel + 1, data =>
    if data.length < 2 then .ok data
    else do
      let (i, data) ← benchSplit fuel data
      let left ← benchSort fuel (data.take i)
      let right ← benchSort fuel (data.drop i)
      return left ++ right

/-! ## 3. The scans -/

section Scans

variable {data : List Cycles} {pivot : Cycles} {i j k fuel : ℕ} {v : Cycles}

/-- **The scan from below** stops at or before an entry that is not below the pivot. -/
theorem scanUp_spec (hlen : data.length < 2 ^ 32) (hk : data[k]? = some v) (hik : i ≤ k)
    (hstop : pivot ≤ v) (hfuel : k < fuel + i) :
    ∃ i', scanUp data pivot fuel i = .ok i' ∧ Exchange.UpTo pivot data i i' := by
  have hklt := (List.getElem?_eq_some_iff.mp hk).1
  induction fuel generalizing i with
  | zero => omega
  | succ fuel ih =>
    have hi := List.getElem?_eq_getElem (Nat.lt_of_le_of_lt hik hklt)
    rw [scanUp, read_eq_ok hi]
    simp only [bind, Except.bind]
    by_cases hlow : data[i] < pivot
    · have hne : i ≠ k := by
        rintro rfl
        obtain rfl := Option.some.inj (hi.symm.trans hk)
        exact absurd hstop (not_le_of_gt hlow)
      rw [if_pos hlow, Nat.mod_eq_of_lt (by omega)]
      obtain ⟨i', hrun, hup⟩ := @ih (i + 1) (by omega) (by omega)
      refine ⟨i', hrun, Nat.le_of_succ_le hup.le, hup.stop, fun l w hw hil hl => ?_⟩
      rcases Nat.eq_or_lt_of_le hil with rfl | hlt
      · exact Option.some.inj (hi.symm.trans hw) ▸ hlow
      · exact hup.passed l w hw hlt hl
    · rw [if_neg hlow]
      exact ⟨i, rfl, Nat.le_refl i, ⟨_, hi, not_lt.mp hlow⟩, fun l _ _ h1 h2 => by omega⟩

/-- **The scan from above** stops at or before an entry that is not above the pivot, so it does not
come down to `-1`. -/
theorem scanDown_spec (hlen : data.length < 2 ^ 32) (hj : j < data.length) (hk : data[k]? = some v)
    (hkj : k ≤ j) (hstop : v ≤ pivot) (hfuel : j < fuel + k) :
    ∃ j', scanDown data pivot fuel j = .ok j' ∧ Exchange.DownTo pivot data j j' := by
  induction fuel generalizing j with
  | zero => omega
  | succ fuel ih =>
    have hjv := List.getElem?_eq_getElem hj
    rw [scanDown, read_eq_ok hjv]
    simp only [bind, Except.bind]
    by_cases hhigh : pivot < data[j]
    · have hne : k ≠ j := by
        rintro rfl
        obtain rfl := Option.some.inj (hjv.symm.trans hk)
        exact absurd hstop (not_le_of_gt hhigh)
      have hdec : (j + 2 ^ 32 - 1) % 2 ^ 32 = j - 1 := by omega
      rw [if_pos hhigh, hdec]
      obtain ⟨j', hrun, hdown⟩ := @ih (j - 1) (by omega) (by omega) (by omega)
      have hle := hdown.le
      refine ⟨j', hrun, by omega, hdown.stop, fun l w hw hl hlj => ?_⟩
      rcases Nat.eq_or_lt_of_le hlj with rfl | hlt
      · exact Option.some.inj (hjv.symm.trans hw) ▸ hhigh
      · exact hdown.passed l w hw hl (by omega)
    · rw [if_neg hhigh]
      exact ⟨j, rfl, Nat.le_refl j, ⟨_, hjv, not_lt.mp hhigh⟩, fun l _ _ h1 h2 => by omega⟩

end Scans

/-! ## 4. The rounds -/

/-- The segment is split: its values, in another order, with the smaller ones before place `i`. -/
structure Split (data : List Cycles) (i : ℕ) (data' : List Cycles) : Prop where
  perm : data'.Perm data
  pos : 0 < i
  lt : i < data.length
  ordered : ∃ pivot, (∀ v ∈ data'.take i, v ≤ pivot) ∧ ∀ v ∈ data'.drop i, pivot ≤ v

/-- **The rounds split the segment.**  In every round the cursors come closer. -/
theorem exchangeLoop_spec {pivot : Cycles} {fuel rounds i j : ℕ} {data : List Cycles}
    (hlen : data.length < 2 ^ 32) (hfuel : data.length ≤ fuel)
    (hwin : Exchange.Window pivot data i j) (hrounds : j < rounds + i ∧ 0 < rounds) :
    ∃ i' data', exchangeLoop fuel pivot rounds i j data = .ok (i', data') ∧
      Split data i' data' := by
  induction rounds generalizing i j data with
  | zero => exact absurd hrounds.2 (Nat.lt_irrefl 0)
  | succ rounds ih =>
    obtain ⟨k, v, hk, hik, hge⟩ := hwin.stopUp
    have hklt := (List.getElem?_eq_some_iff.mp hk).1
    obtain ⟨i', hi', hup⟩ := scanUp_spec hlen hk hik hge (by omega : k < fuel + i)
    obtain ⟨k, v, hk, hkj, hle, -⟩ := hwin.stopDown
    have hjlt := hwin.lt
    obtain ⟨j', hj', hdown⟩ := scanDown_spec hlen hjlt hk hkj hle (by omega : j < fuel + k)
    rw [exchangeLoop, hi', hj']
    simp only [bind, Except.bind]
    by_cases hmet : i' ≥ j'
    · obtain ⟨hpos, hlt, hlow, hhigh⟩ := hwin.split hup hdown hmet
      rw [if_pos hmet]
      exact ⟨i', data, rfl, List.Perm.refl data, hpos, hlt, pivot, hlow, hhigh⟩
    · have hle := hdown.le
      have hi := List.getElem?_eq_getElem hup.lt_length
      have hj := List.getElem?_eq_getElem (Nat.lt_of_le_of_lt hle hjlt)
      have hsetlt : j' < (data.set i' data[j']).length := by
        rw [List.length_set]
        omega
      have hinc : (i' + 1) % 2 ^ 32 = i' + 1 := Nat.mod_eq_of_lt (by omega)
      have hdec : (j' + 2 ^ 32 - 1) % 2 ^ 32 = j' - 1 := by omega
      rw [if_neg hmet, read_eq_ok hi, read_eq_ok hj]
      simp only []
      rw [write_eq_ok hup.lt_length]
      simp only []
      rw [write_eq_ok hsetlt]
      simp only []
      rw [hinc, hdec]
      have hperm : ((data.set i' data[j']).set j' data[i']).Perm data :=
        List.set_set_perm hup.lt_length (Nat.lt_of_le_of_lt hle hjlt)
      have hge := hup.le
      obtain ⟨i'', data', hrun, hsplit⟩ := @ih (i' + 1) (j' - 1) _
        (hperm.length_eq.symm ▸ hlen) (hperm.length_eq.symm ▸ hfuel)
        (hwin.swap hup hdown (not_le.mp hmet) hi hj) (by omega)
      exact ⟨i'', data', hrun, hsplit.perm.trans hperm, hsplit.pos, hperm.length_eq ▸ hsplit.lt,
        hsplit.ordered⟩

theorem benchSplit_spec {fuel : ℕ} {data : List Cycles} (hlen : data.length < 2 ^ 32)
    (htwo : 2 ≤ data.length) (hfuel : data.length ≤ fuel) :
    ∃ i data', benchSplit fuel data = .ok (i, data') ∧ Split data i data' := by
  have hmid := List.getElem?_eq_getElem (by omega : data.length / 2 < data.length)
  rw [benchSplit, read_eq_ok hmid]
  simp only [bind, Except.bind]
  exact exchangeLoop_spec hlen hfuel (Exchange.Window.start hmid (by omega)) (by omega)

/-! ## 5. The sort -/

/-- **The sort returns an ascending permutation**, by induction on the depth of the calls: each half
of a split is shorter than the segment. -/
theorem benchSort_spec {fuel : ℕ} {data : List Cycles} (hlen : data.length < 2 ^ 32)
    (hfuel : data.length < fuel) :
    ∃ sorted, benchSort fuel data = .ok sorted ∧ sorted.Perm data ∧ sorted.Pairwise (· ≤ ·) := by
  induction fuel generalizing data with
  | zero => exact absurd hfuel (Nat.not_lt_zero _)
  | succ fuel ih =>
    rw [benchSort]
    by_cases hshort : data.length < 2
    · rw [if_pos hshort]
      refine ⟨data, rfl, List.Perm.refl data, ?_⟩
      match data, hshort with
      | [], _ => exact List.Pairwise.nil
      | [v], _ => exact List.pairwise_singleton _ v
    · rw [if_neg hshort]
      obtain ⟨i, data', hrun, hsplit⟩ :=
        benchSplit_spec hlen (not_lt.mp hshort) (Nat.le_of_lt_succ hfuel)
      have hlength := hsplit.perm.length_eq
      have hpos := hsplit.pos
      have hlt := hsplit.lt
      have hleft : (data'.take i).length < data.length := by
        rw [List.length_take]
        omega
      have hright : (data'.drop i).length < data.length := by
        rw [List.length_drop]
        omega
      obtain ⟨left, hl, hlperm, hlsorted⟩ := @ih (data'.take i) (by omega) (by omega)
      obtain ⟨right, hr, hrperm, hrsorted⟩ := @ih (data'.drop i) (by omega) (by omega)
      obtain ⟨pivot, hlow, hhigh⟩ := hsplit.ordered
      refine ⟨left ++ right, ?_, ?_, ?_⟩
      · rw [hrun]
        simp only [bind, Except.bind]
        rw [hl, hr]
        rfl
      · have hboth := hlperm.append hrperm
        rw [List.take_append_drop] at hboth
        exact hboth.trans hsplit.perm
      · exact Exchange.sorted_append hlsorted hrsorted
          (fun v hv => hlow v (hlperm.mem_iff.mp hv)) fun v hv => hhigh v (hrperm.mem_iff.mp hv)

/-- A sort of `data` comes to its end, without an access outside of any segment, and its result is
`sorted`. -/
structure Sorts (data sorted : List Cycles) : Prop where
  returns : ∀ fuel, data.length < fuel → benchSort fuel data = .ok sorted
  perm : sorted.Perm data
  ordered : sorted.Pairwise (· ≤ ·)
  /-- the segments of the two calls are shorter -/
  shorter : 2 ≤ data.length → ∀ fuel, data.length ≤ fuel → ∃ i data',
    benchSplit fuel data = .ok (i, data') ∧ (data'.take i).length < data.length ∧
      (data'.drop i).length < data.length

/-- **`smlt_bench_sort` sorts, in bounds, and terminates**, for every length that fits its 32-bit
argument. -/
theorem benchSort_sorts (data : List Cycles) (hlen : data.length < 2 ^ 32) :
    ∃ sorted, Sorts data sorted := by
  obtain ⟨sorted, -, hperm, hordered⟩ := benchSort_spec hlen (Nat.lt_succ_self data.length)
  refine ⟨sorted, fun fuel hfuel => ?_, hperm, hordered, fun htwo fuel hfuel => ?_⟩
  · -- whatever the fuel, the result is the one ascending permutation
    obtain ⟨sorted', hrun, hperm', hordered'⟩ := benchSort_spec hlen hfuel
    rw [hrun, (hperm'.trans hperm.symm).eq_of_pairwise' hordered' hordered]
  · obtain ⟨i, data', hrun, hsplit⟩ := benchSplit_spec hlen htwo hfuel
    have hlength := hsplit.perm.length_eq
    have hpos := hsplit.pos
    have hlt := hsplit.lt
    refine ⟨i, data', hrun, ?_, ?_⟩
    · rw [List.length_take]
      omega
    · rw [List.length_drop]
      omega

theorem benchSort_sorts_five : ∃ sorted, Sorts [5, 2, 5, 1, 5] sorted :=
  benchSort_sorts [5, 2, 5, 1, 5] (by decide)

example : benchSort 6 [5, 2, 5, 1, 5] = .ok [1, 2, 5, 5, 5] := by decide

end Bench

end Smelt
