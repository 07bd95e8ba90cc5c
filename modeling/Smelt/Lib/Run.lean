/-
# Runs of a labelled step relation, with their traces

Everything this development says about interleavings is said about runs: a start state, the
list of events taken, oldest first, and the state reached.  The trace is the history a
specification speaks about (the `k`-th send, the `k`-th receive), so the modelled programs
need no history variables of their own.

Two rules are used throughout.

* `Run.induct`: a property of trace and state that holds at the start and survives one step
  holds of every run.
* `Run.simulates`: a step relation that is simulated event by event by another one, up to
  events the other does not see, has the other's runs as its visible traces.
-/
import Mathlib.Logic.Relation
import Mathlib.Data.List.Basic

/-! ## 1. Runs -/

/-- `Run step s₀ tr s`: the events `tr`, oldest first, lead from `s₀` to `s`. -/
inductive Run {σ ε : Type*} (step : σ → ε → σ → Prop) (s₀ : σ) : List ε → σ → Prop
  | nil : Run step s₀ [] s₀
  | snoc {tr : List ε} {s s' : σ} {e : ε} :
      Run step s₀ tr s → step s e s' → Run step s₀ (tr ++ [e]) s'

namespace Run

variable {σ τ ε δ : Type*} {step : σ → ε → σ → Prop} {s₀ s : σ} {tr : List ε}

/-- **The invariant rule.**  What holds before the first event and survives each step holds
of every run. -/
theorem induct (Inv : List ε → σ → Prop) (h₀ : Inv [] s₀)
    (hstep : ∀ tr s e s', Inv tr s → step s e s' → Inv (tr ++ [e]) s')
    (h : Run step s₀ tr s) : Inv tr s := by
  induction h with
  | nil => exact h₀
  | snoc _ hs ih => exact hstep _ _ _ _ ih hs

/-- Runs grow with the step relation. -/
theorem mono {step' : σ → ε → σ → Prop} (hle : ∀ s e s', step s e s' → step' s e s')
    (h : Run step s₀ tr s) : Run step' s₀ tr s := by
  induction h with
  | nil => exact .nil
  | snoc _ hs ih => exact .snoc ih (hle _ _ _ hs)

/-- A run in which every event has `P` is a run of the steps restricted to such events. -/
theorem restrict {P : ε → Prop} (h : Run step s₀ tr s) (hP : ∀ e ∈ tr, P e) :
    Run (fun s e s' => step s e s' ∧ P e) s₀ tr s := by
  induction h with
  | nil => exact .nil
  | snoc _ hs ih =>
    exact .snoc (ih fun e he => hP e (List.mem_append_left _ he))
      ⟨hs, hP _ (List.mem_append_right _ (List.mem_singleton_self _))⟩

/-- Runs compose. -/
theorem append {s' : σ} {tr' : List ε} (h : Run step s₀ tr s) (h' : Run step s tr' s') :
    Run step s₀ (tr ++ tr') s' := by
  induction h' with
  | nil => simpa using h
  | snoc _ hs ih =>
    rw [← List.append_assoc]
    exact .snoc ih hs

/-- An entry of a history is an old one or the last. -/
theorem getElem?_snoc {α : Type*} {l : List α} {a b : α} {j : ℕ} :
    (l ++ [a])[j]? = some b ↔ l[j]? = some b ∨ j = l.length ∧ b = a := by
  rcases Nat.lt_trichotomy j l.length with hj | rfl | hj
  · simp only [List.getElem?_append_left hj, Nat.ne_of_lt hj, false_and, or_false]
  · simp only [List.getElem?_concat_length, Option.some.injEq,
      List.getElem?_eq_none (Nat.le_refl _), reduceCtorEq, true_and, false_or]
    exact eq_comm
  · have h1 : (l ++ [a])[j]? = none := by
      refine List.getElem?_eq_none ?_
      rw [List.length_append]
      exact hj
    have h2 : l[j]? = none := List.getElem?_eq_none (Nat.le_of_lt hj)
    simp only [h1, h2, reduceCtorEq, false_or, false_iff, not_and]
    exact fun he => absurd he (Nat.ne_of_gt hj)

/-- Drive a machine that computes its next state and event through a list of inputs, up to the
first input it does not take. -/
def drive {ι : Type*} (f : σ → ι → Option (σ × ε)) : σ → List ι → Option (List ε × σ)
  | s, [] => some ([], s)
  | s, i :: is =>
    match f s i with
    | none => none
    | some (s', e) => (drive f s' is).map fun r => (e :: r.1, r.2)

/-- Driving a machine is a run of it. -/
theorem of_drive {ι : Type*} {f : σ → ι → Option (σ × ε)}
    (hf : ∀ s i s' e, f s i = some (s', e) → step s e s') {is : List ι} {s s' : σ} {tr : List ε}
    (h : drive f s is = some (tr, s')) : Run step s tr s' := by
  induction is generalizing s tr with
  | nil =>
    simp only [drive, Option.some.injEq, Prod.mk.injEq] at h
    rw [← h.1, ← h.2]
    exact .nil
  | cons i is ih =>
    simp only [drive] at h
    cases hi : f s i with
    | none => simp [hi] at h
    | some r =>
      simp only [hi, Option.map_eq_some_iff, Prod.mk.injEq] at h
      obtain ⟨t, ht, htr, hs⟩ := h
      rw [← htr]
      exact append (.snoc .nil (hf _ _ _ _ hi)) (ih (by rw [ht, ← hs]))

/-! ## 2. Simulation -/

/-- What the abstract machine does when it sees `o`: a step, or nothing. -/
def Follows (astep : τ → δ → τ → Prop) (t : τ) : Option δ → τ → Prop
  | none, t' => t' = t
  | some d, t' => astep t d t'

/-- The abstract run goes on with what an event shows. -/
theorem snoc_follows {astep : τ → δ → τ → Prop} {see : ε → Option δ} {t₀ t t' : τ} {e : ε}
    (h : Run astep t₀ (tr.filterMap see) t) (hm : Follows astep t (see e) t') :
    Run astep t₀ ((tr ++ [e]).filterMap see) t' := by
  cases hsee : see e with
  | none =>
    rw [hsee] at hm
    have hm : t' = t := hm
    simpa [List.filterMap_append, hsee, hm] using h
  | some d =>
    rw [hsee] at hm
    simpa [List.filterMap_append, hsee] using h.snoc hm

/-- **The simulation rule.**  `see e` is what the abstract machine sees of `e`, if anything.
When every concrete step from related states is matched by the step it shows, or by standing
still when it shows nothing, the visible part of a concrete trace is an abstract trace. -/
theorem simulates {astep : τ → δ → τ → Prop} {see : ε → Option δ} {R : σ → τ → Prop} {t₀ : τ}
    (h₀ : R s₀ t₀)
    (hstep : ∀ s t e s', R s t → step s e s' → ∃ t', R s' t' ∧ Follows astep t (see e) t')
    (h : Run step s₀ tr s) : ∃ t, R s t ∧ Run astep t₀ (tr.filterMap see) t := by
  induction h with
  | nil => exact ⟨t₀, h₀, .nil⟩
  | @snoc tr s s' e _ hs ih =>
    obtain ⟨t, hR, hrun⟩ := ih
    obtain ⟨t', hR', hm⟩ := hstep s t e s' hR hs
    exact ⟨t', hR', hrun.snoc_follows hm⟩

end Run
