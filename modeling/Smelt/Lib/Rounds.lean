/-
# Exchanges in numbered rounds

A group of participants that go through rounds `0, 1, 2, …`, each at its own speed.  In round `g`
a participant sends to one other and receives from one other: `uses i j g` says that `i` sends to
`j` in round `g`.  `S i` is the number of rounds in which `i` has sent, `G i` the number in which it
has received.

There is nothing to remember about the channels: what is in flight from `i` to `j` can be read off
the two counters (`flight`).  The lemmas say how a send and a receive change it.
-/
import Mathlib.Data.List.Basic
import Mathlib.Data.Nat.Init
import Mathlib.Logic.Function.Basic

namespace Rounds

variable {ι : Type} [DecidableEq ι] {uses : ι → ι → ℕ → Bool} {S G : ι → ℕ} {i j : ι}

/-- The rounds in which `i` has sent to `j` and `j` has not received yet, oldest first. -/
def flight (uses : ι → ι → ℕ → Bool) (S G : ι → ℕ) (i j : ι) : List ℕ :=
  (List.range (S i)).filter fun g => uses i j g && decide (G j ≤ g)

/-- The round of a send joins what is in flight. -/
theorem flight_send (huse : uses i j (S i) = true) (hG : G j ≤ S i) :
    flight uses (Function.update S i (S i + 1)) G i j = flight uses S G i j ++ [S i] := by
  unfold flight
  rw [Function.update_self, List.range_succ, List.filter_append]
  simp [huse, hG]

/-- A send concerns no other pair. -/
theorem flight_send_of_ne {i' j' : ι} (hfun : i' = i → uses i j' (S i) = false) :
    flight uses (Function.update S i (S i + 1)) G i' j' = flight uses S G i' j' := by
  unfold flight
  by_cases hi : i' = i
  · subst hi
    rw [Function.update_self, List.range_succ, List.filter_append]
    simp [hfun rfl]
  · rw [Function.update_of_ne hi]

omit [DecidableEq ι] in
/-- The first round at or after `m` that a filter lets through is `m`, if it lets `m` through. -/
theorem filter_range_eq_cons {p : ℕ → Bool} {n m : ℕ} (hm : m < n) (hp : p m = true) :
    (List.range n).filter (fun g => p g && decide (m ≤ g)) =
      m :: (List.range n).filter fun g => p g && decide (m + 1 ≤ g) := by
  induction n with
  | zero => omega
  | succ n ih =>
    rw [List.range_succ, List.filter_append, List.filter_append]
    rcases Nat.lt_or_ge m n with hlt | hge
    · have h1 : m ≤ n := by omega
      have h2 : m + 1 ≤ n := hlt
      rw [ih hlt, List.cons_append]
      simp only [List.filter_cons, List.filter_nil, h1, h2]
    · obtain rfl : m = n := by omega
      have hnil : ∀ k, m ≤ k → (List.range m).filter (fun g => p g && decide (k ≤ g)) = [] := by
        intro k hk
        rw [List.filter_eq_nil_iff]
        intro g hg
        have hlt : ¬ k ≤ g := by
          have := List.mem_range.mp hg
          omega
        simp [hlt]
      rw [hnil m (Nat.le_refl m), hnil (m + 1) (Nat.le_succ m)]
      simp [hp]

/-- A receive takes the round the receiver is in. -/
theorem flight_recv (huse : uses i j (G j) = true) (hS : G j < S i) :
    flight uses S G i j = G j :: flight uses S (Function.update G j (G j + 1)) i j := by
  unfold flight
  rw [Function.update_self]
  exact filter_range_eq_cons hS huse

/-- A receive concerns no other pair. -/
theorem flight_recv_of_ne {i' j' : ι} (hinj : j' = j → uses i' j (G j) = false) :
    flight uses S (Function.update G j (G j + 1)) i' j' = flight uses S G i' j' := by
  unfold flight
  by_cases hj : j' = j
  · subst hj
    rw [Function.update_self]
    apply List.filter_congr
    intro g _
    by_cases hg : g = G j'
    · rw [hg, hinj rfl]
      rfl
    · congr 1
      simp only [decide_eq_decide]
      omega
  · rw [Function.update_of_ne hj]

omit [DecidableEq ι] in
/-- What is in flight bounds the counters. -/
theorem lt_of_flight {g : ℕ} (h : g ∈ flight uses S G i j) : G j ≤ g ∧ g < S i := by
  unfold flight at h
  simp only [List.mem_filter, List.mem_range, Bool.and_eq_true, decide_eq_true_eq] at h
  exact ⟨h.2.2, h.1⟩

/-- What was sent is what was received and what is in flight, at most. -/
theorem length_sends_le {p : ℕ → Bool} (a b : ℕ) :
    ((List.range b).filter p).length ≤ ((List.range a).filter p).length +
      ((List.range b).filter fun g => p g && decide (a ≤ g)).length := by
  rcases Nat.le_total b a with hba | hab
  · have hsub : ((List.range b).filter p).Sublist ((List.range a).filter p) :=
      (List.range_sublist.mpr hba).filter p
    exact Nat.le_add_right_of_le hsub.length_le
  · induction b, hab using Nat.le_induction with
    | base => exact Nat.le_add_right _ _
    | succ b hab ih =>
      simp only [List.range_succ, List.filter_append, List.length_append]
      cases hp : p b <;> simp [hp, hab] <;> omega

/-- **The rounds received are a beginning of the rounds sent.** -/
theorem recvs_of_sends {p : ℕ → Bool} {a b m g : ℕ} (h : ∀ x, x < a → p x = true → x < b)
    (hg : ((List.range a).filter p)[m]? = some g) : ((List.range b).filter p)[m]? = some g := by
  rcases Nat.le_total a b with hab | hba
  · obtain ⟨c, rfl⟩ := Nat.exists_eq_add_of_le hab
    obtain ⟨hm, -⟩ := List.getElem?_eq_some_iff.mp hg
    rw [List.range_add, List.filter_append, List.getElem?_append_left hm]
    exact hg
  · obtain ⟨c, rfl⟩ := Nat.exists_eq_add_of_le hba
    have hnil : ((List.range c).map (b + ·)).filter p = [] := by
      rw [List.filter_eq_nil_iff]
      intro x hx hp
      obtain ⟨y, hy, rfl⟩ := List.mem_map.mp hx
      have := h (b + y) (by have := List.mem_range.mp hy; omega) hp
      omega
    rwa [List.range_add, List.filter_append, hnil, List.append_nil] at hg

end Rounds
