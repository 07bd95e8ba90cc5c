/-
# What happens under a fair schedule

Deterministic processes take turns in the order of a schedule, and a schedule is fair when every
process gets a turn again and again.  What they have to do is measured by `work`, which no turn
adds to.  There may be turns that do no work: a process looks again whether it can go on.

So while there is work left, somebody must be READY: after some more of its own turns it does work,
whatever the others do in between, unless one of them does some first.  `Ready g s` names the
process that is ready (`owner g`) with what it is going to do, and `wait g s` is how many of its own
turns it still lets pass.

`Fair.ends` is the rule: then the work comes to an end.
-/
import Mathlib.Data.Nat.Init
import Mathlib.Tactic.Basic

/-- Every process gets a turn again and again. -/
def Fair {ι : Type*} (sched : ℕ → ι) : Prop := ∀ (i : ι) (n : ℕ), ∃ m, n ≤ m ∧ sched m = i

/-- The states that the turns of a schedule lead to. -/
def trail {σ ι : Type*} (turn : σ → ι → σ) (sched : ℕ → ι) (s₀ : σ) : ℕ → σ
  | 0 => s₀
  | n + 1 => turn (trail turn sched s₀ n) (sched n)

section Trail

variable {σ ι : Type*} {turn : σ → ι → σ} {sched : ℕ → ι} {s₀ : σ}

/-- What every turn keeps holds along the schedule. -/
theorem trail_keeps {P : σ → Prop} (hturn : ∀ s i, P s → P (turn s i)) {n m : ℕ} (hnm : n ≤ m)
    (h : P (trail turn sched s₀ n)) : P (trail turn sched s₀ m) := by
  induction m, hnm using Nat.le_induction with
  | base => exact h
  | succ m _ ih => exact hturn _ _ ih

end Trail

/-- Processes that take turns, with the work that is left and who is ready to do some of it. -/
structure Fair.Rule {σ ι γ : Type*} (turn : σ → ι → σ) (Inv Done : σ → Prop) (work : σ → ℕ)
    (owner : γ → ι) (Ready : γ → σ → Prop) (wait : γ → σ → ℕ) : Prop where
  inv : ∀ s i, Inv s → Inv (turn s i)
  /-- no turn adds work -/
  le : ∀ s i, Inv s → work (turn s i) ≤ work s
  ready : ∀ s, Inv s → ¬ Done s → ∃ g, Ready g s
  /-- as long as nobody does any work, who is ready stays ready -/
  keep : ∀ s i g, Inv s → Ready g s → work (turn s i) = work s →
    Ready g (turn s i) ∧ wait g (turn s i) ≤ wait g s
  /-- a turn of the one that is ready does work, or brings it nearer -/
  move : ∀ s g, Inv s → Ready g s → work (turn s (owner g)) < work s ∨
    wait g (turn s (owner g)) < wait g s

namespace Fair.Rule

variable {σ ι γ : Type*} {turn : σ → ι → σ} {Inv Done : σ → Prop} {work : σ → ℕ} {owner : γ → ι}
  {Ready : γ → σ → Prop} {wait : γ → σ → ℕ} {sched : ℕ → ι} {s₀ : σ}

/-- Until `m`, somebody has done work, or the one that is ready still is. -/
theorem until_turn (h : Fair.Rule turn Inv Done work owner Ready wait) {g : γ} {n m : ℕ}
    (hnm : n ≤ m) (hinv : Inv (trail turn sched s₀ n)) (hg : Ready g (trail turn sched s₀ n)) :
    (∃ k, n ≤ k ∧ work (trail turn sched s₀ k) < work (trail turn sched s₀ n)) ∨
      Ready g (trail turn sched s₀ m) ∧
        work (trail turn sched s₀ m) = work (trail turn sched s₀ n) ∧
        wait g (trail turn sched s₀ m) ≤ wait g (trail turn sched s₀ n) := by
  induction m, hnm using Nat.le_induction with
  | base => exact .inr ⟨hg, rfl, Nat.le_refl _⟩
  | succ m hm ih =>
    rcases ih with hwork | ⟨hready, heq, hwait⟩
    · exact .inl hwork
    · have hinv' := trail_keeps h.inv hm hinv
      have hle := h.le _ (sched m) hinv'
      rcases Nat.lt_or_eq_of_le hle with hlt | hsame
      · exact .inl ⟨m + 1, by omega, heq ▸ hlt⟩
      · obtain ⟨hready', hwait'⟩ := h.keep _ (sched m) g hinv' hready hsame
        exact .inr ⟨hready', hsame.trans heq, Nat.le_trans hwait' hwait⟩

/-- Under a fair schedule, work is done while there is some. -/
theorem works (h : Fair.Rule turn Inv Done work owner Ready wait) (hfair : Fair sched) {g : γ}
    {n : ℕ} (hinv : Inv (trail turn sched s₀ n)) (hg : Ready g (trail turn sched s₀ n)) :
    ∃ k, n ≤ k ∧ work (trail turn sched s₀ k) < work (trail turn sched s₀ n) := by
  induction hw : wait g (trail turn sched s₀ n) using Nat.strong_induction_on generalizing n with
  | _ w ih =>
    obtain ⟨m, hnm, hm⟩ := hfair (owner g) n
    rcases h.until_turn hnm hinv hg with hwork | ⟨hready, heq, hwait⟩
    · exact hwork
    · have hinv' := trail_keeps h.inv hnm hinv
      -- the turn of the one that is ready
      have hmove := h.move _ g hinv' hready
      rw [← hm] at hmove
      change work (trail turn sched s₀ (m + 1)) < _ ∨ wait g (trail turn sched s₀ (m + 1)) < _
        at hmove
      rcases Nat.lt_or_eq_of_le (h.le _ (sched m) hinv') with hlt | hsame
      · exact ⟨m + 1, by omega, heq ▸ hlt⟩
      · change work (trail turn sched s₀ (m + 1)) = _ at hsame
        have hnear : wait g (trail turn sched s₀ (m + 1)) < w := by
          rcases hmove with hlt | hlt <;> omega
        have hready' := (h.keep _ (sched m) g hinv' hready hsame).1
        obtain ⟨k, hk, hlt⟩ := ih _ hnear (n := m + 1) (h.inv _ _ hinv') hready' rfl
        exact ⟨k, by omega, by omega⟩

/-- **Under a fair schedule everything gets done.** -/
theorem ends (h : Fair.Rule turn Inv Done work owner Ready wait) (hfair : Fair sched)
    (h₀ : Inv s₀) : ∃ n, Done (trail turn sched s₀ n) := by
  have hend : ∀ n, ∃ m, n ≤ m ∧ Done (trail turn sched s₀ m) := by
    intro n
    induction hw : work (trail turn sched s₀ n) using Nat.strong_induction_on generalizing n with
    | _ w ih =>
      by_cases hdone : Done (trail turn sched s₀ n)
      · exact ⟨n, Nat.le_refl n, hdone⟩
      · have hinv : Inv (trail turn sched s₀ n) := trail_keeps h.inv (Nat.zero_le n) h₀
        obtain ⟨g, hg⟩ := h.ready _ hinv hdone
        obtain ⟨k, hk, hlt⟩ := h.works hfair hinv hg
        obtain ⟨m, hm, hdone'⟩ := ih _ (hw ▸ hlt) k rfl
        exact ⟨m, Nat.le_trans hk hm, hdone'⟩
  obtain ⟨m, -, hm⟩ := hend 0
  exact ⟨m, hm⟩

end Fair.Rule
