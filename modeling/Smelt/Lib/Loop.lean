/-
# Loops that overwrite, loops that check, and loops that get through

Three shapes of loop over a range.  A loop that stores the index whenever a test succeeds leaves the
LAST index that passes it (`last`).  A loop that stops at the first failed check, and whose checks
do not look at what it has built, is the loop without checks when all of them succeed and fails
otherwise (`foldlM_check`).  And a loop that follows a pointer in each turn gets to its end when an
invariant says that the next pointer is there (`foldlM_range`).

Over a list the invariant speaks of the elements that are done (`foldlM_done`).
-/
import Mathlib.Data.List.Basic
import Mathlib.Data.List.Induction
import Mathlib.Order.Basic

namespace Loop

/-! ## 1. The last index -/

section Last

variable {p q : ℕ → Prop} [DecidablePred p] [DecidablePred q] {n i : ℕ}

/-- The last index below `n` that passes the test. -/
def last (p : ℕ → Prop) [DecidablePred p] : ℕ → Option ℕ
  | 0 => none
  | n + 1 => if p n then some n else last p n

theorem last_eq_some :
    last p n = some i ↔ i < n ∧ p i ∧ ∀ j, i < j → j < n → ¬ p j := by
  induction n with
  | zero => simp [last]
  | succ n ih =>
    rw [last]
    by_cases hn : p n
    · rw [if_pos hn]
      constructor
      · rintro ⟨⟩
        exact ⟨Nat.lt_succ_self _, hn, fun j h1 h2 => by omega⟩
      · rintro ⟨hlt, -, hlast⟩
        rcases Nat.lt_succ_iff_lt_or_eq.mp hlt with hlt | rfl
        · exact absurd hn (hlast n hlt (Nat.lt_succ_self n))
        · rfl
    · rw [if_neg hn, ih]
      constructor
      · rintro ⟨hlt, hi, hlast⟩
        refine ⟨Nat.lt_succ_of_lt hlt, hi, ?_⟩
        intro j h1 h2
        rcases Nat.lt_succ_iff_lt_or_eq.mp h2 with h2 | rfl
        · exact hlast j h1 h2
        · exact hn
      · rintro ⟨hlt, hi, hlast⟩
        have hne : i ≠ n := fun he => hn (he ▸ hi)
        exact ⟨by omega, hi, fun j h1 h2 => hlast j h1 (Nat.lt_succ_of_lt h2)⟩

theorem last_eq_none : last p n = none ↔ ∀ i, i < n → ¬ p i := by
  induction n with
  | zero => simp [last]
  | succ n ih =>
    rw [last]
    by_cases hn : p n
    · rw [if_pos hn]
      constructor
      · intro h
        cases h
      · intro h
        exact absurd hn (h n (Nat.lt_succ_self n))
    · rw [if_neg hn, ih]
      constructor
      · intro h i hi
        rcases Nat.lt_succ_iff_lt_or_eq.mp hi with hi | rfl
        · exact h i hi
        · exact hn
      · exact fun h i hi => h i (Nat.lt_succ_of_lt hi)

/-- A test that some index passes has a last one. -/
theorem exists_last (hi : i < n) (hp : p i) : ∃ j, last p n = some j := by
  cases hlast : last p n with
  | none => exact absurd hp (last_eq_none.mp hlast i hi)
  | some j => exact ⟨j, rfl⟩

end Last

/-! ## 2. Checks on the way -/

/-- **A loop with checks**, when the checks do not depend on what the loop builds: it ends with the
result of the loop without them when all of them succeed, and fails otherwise. -/
theorem foldlM_check {α σ ε : Type*} {f : σ → α → Except ε σ} {ok : α → Prop} {g : σ → α → σ}
    (hok : ∀ s a, ok a → f s a = .ok (g s a)) (hfail : ∀ s a, ¬ ok a → ∃ e, f s a = .error e)
    {l : List α} {s s' : σ} :
    l.foldlM f s = .ok s' ↔ (∀ a ∈ l, ok a) ∧ s' = l.foldl g s := by
  induction l generalizing s with
  | nil =>
    simp only [List.foldlM_nil, List.foldl_nil, List.not_mem_nil, false_implies, implies_true,
      true_and]
    exact ⟨fun h => (Except.ok.inj h).symm, fun h => h ▸ rfl⟩
  | cons a l ih =>
    rw [List.foldlM_cons, List.foldl_cons, List.forall_mem_cons]
    by_cases ha : ok a
    · rw [hok s a ha]
      simp only [ha, true_and]
      exact ih
    · obtain ⟨e, he⟩ := hfail s a ha
      rw [he]
      constructor
      · intro h
        cases h
      · rintro ⟨⟨h, -⟩, -⟩
        exact absurd h ha

/-! ## 3. Getting through -/

/-- **The invariant rule for a loop that may stop**: with an invariant from which every turn goes on
and which it restores, the loop gets to its end. -/
theorem foldlM_range {σ : Type*} {f : σ → ℕ → Option σ} {n : ℕ} (I : ℕ → σ → Prop) {s : σ}
    (h₀ : I 0 s) (hstep : ∀ i s, i < n → I i s → ∃ s', f s i = some s' ∧ I (i + 1) s') :
    ∃ s', (List.range n).foldlM f s = some s' ∧ I n s' := by
  induction n with
  | zero => exact ⟨s, rfl, h₀⟩
  | succ n ih =>
    obtain ⟨mid, hmid, hI⟩ := ih fun i s hi => hstep i s (Nat.lt_succ_of_lt hi)
    obtain ⟨s', hs', hI'⟩ := hstep n mid (Nat.lt_succ_self n) hI
    refine ⟨s', ?_, hI'⟩
    rw [List.range_succ, List.foldlM_append, hmid]
    simp [hs']

/-- What every turn that goes on restores holds when the loop has got to its end. -/
theorem foldlM_keeps {σ : Type*} {f : σ → ℕ → Option σ} {n : ℕ} (I : ℕ → σ → Prop) {s s' : σ}
    (h₀ : I 0 s) (hstep : ∀ i s s', i < n → I i s → f s i = some s' → I (i + 1) s')
    (h : (List.range n).foldlM f s = some s') : I n s' := by
  induction n generalizing s' with
  | zero => exact Option.some.inj h ▸ h₀
  | succ n ih =>
    rw [List.range_succ, List.foldlM_append] at h
    obtain ⟨mid, hmid, hlast⟩ := Option.bind_eq_some_iff.mp h
    obtain ⟨s₁, hs₁, heq⟩ := Option.bind_eq_some_iff.mp hlast
    obtain rfl : s₁ = s' := Option.some.inj heq
    exact hstep n mid s₁ (Nat.lt_succ_self n)
      (ih (fun i s s' hi => hstep i s s' (Nat.lt_succ_of_lt hi)) hmid) hs₁

/-! ## 4. Over a list -/

section List

variable {α σ ε : Type*} {f : σ → α → Except ε σ} {l : List α}

/-- **The invariant rule for a loop over a list** that has got to its end: what holds of the
elements done, and is restored by a turn for the next one, holds of all. -/
theorem foldlM_done (I : List α → σ → Prop) {s s' : σ} (h₀ : I [] s)
    (hstep : ∀ done a s s', done ++ [a] <+: l → I done s → f s a = .ok s' → I (done ++ [a]) s')
    (h : l.foldlM f s = .ok s') : I l s' := by
  induction l using List.reverseRecOn generalizing s' with
  | nil => exact Except.ok.inj h ▸ h₀
  | append_singleton l a ih =>
    rw [List.foldlM_append] at h
    cases hmid : l.foldlM f s with
    | error e =>
      rw [hmid] at h
      cases h
    | ok mid =>
      rw [hmid] at h
      have hlast : f mid a = .ok s' := by
        rw [← h]
        exact (bind_pure (f mid a)).symm
      refine hstep l a mid s' (List.prefix_refl _) (ih (fun done b s s' hpre => ?_) hmid) hlast
      exact hstep done b s s' (hpre.trans (List.prefix_append l [a]))

/-- A loop none of whose turns fails. -/
theorem foldlM_total (hstep : ∀ s a, ∃ s', f s a = .ok s') (s : σ) :
    ∃ s', l.foldlM f s = .ok s' := by
  induction l generalizing s with
  | nil => exact ⟨s, rfl⟩
  | cons a l ih =>
    obtain ⟨mid, hmid⟩ := hstep s a
    obtain ⟨s', hs'⟩ := ih mid
    refine ⟨s', ?_⟩
    rw [List.foldlM_cons, hmid]
    exact hs'

end List

end Loop
