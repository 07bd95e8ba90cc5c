/-
# Programs that make calls

A program that reaches the world through calls only: it returns, it makes a call and goes on with
the answer, or it is still in a loop (`spin`).  What a call does is not part of the program, so one
program has several readings.  Two are used.

* `Only`: every call the program can make has a property, whatever it is answered, among the answers
  the callees can give.
* `run`: the program on a state, with a handler that answers the calls.  `none` is a program that
  has not returned.
-/
import Mathlib.Init

universe u v w

/-- A program over the calls `Q`, where `R q` are the answers to `q`. -/
inductive Prog (Q : Type u) (R : Q → Type v) (α : Type w)
  | ret (a : α)
  | spin
  | call (q : Q) (k : R q → Prog Q R α)

namespace Prog

variable {Q : Type u} {R : Q → Type v} {α β : Type w} {σ : Type*}

/-- One program after the other. -/
def bind : Prog Q R α → (α → Prog Q R β) → Prog Q R β
  | .ret a, f => f a
  | .spin, _ => .spin
  | .call q k, f => .call q fun r => (k r).bind f

/-! ## 1. The calls a program can make -/

/-- Every call the program can make has the property `P`. -/
def Only (allows : ∀ q, R q → Prop) (P : Q → Prop) : Prog Q R α → Prop
  | .ret _ => True
  | .spin => True
  | .call q k => P q ∧ ∀ r, allows q r → (k r).Only allows P

variable {allows : ∀ q, R q → Prop} {P : Q → Prop}

theorem only_call {q : Q} {k : R q → Prog Q R α} (hq : P q)
    (hk : ∀ r, allows q r → (k r).Only allows P) : (Prog.call q k).Only allows P :=
  ⟨hq, hk⟩

theorem only_ite {c : Prop} [Decidable c] {x y : Prog Q R α} (hx : x.Only allows P)
    (hy : y.Only allows P) : (if c then x else y).Only allows P := by
  split
  · exact hx
  · exact hy

theorem only_bind {x : Prog Q R α} {f : α → Prog Q R β} (hx : x.Only allows P)
    (hf : ∀ a, (f a).Only allows P) : (x.bind f).Only allows P := by
  induction x with
  | ret a => exact hf a
  | spin => trivial
  | call q k ih => exact ⟨hx.1, fun r hr => ih r (hx.2 r hr)⟩

/-! ## 2. Running a program -/

/-- The program on the state `s`. -/
def run (handle : ∀ q, σ → Option (σ × R q)) : Prog Q R α → σ → Option (σ × α)
  | .ret a, s => some (s, a)
  | .spin, _ => none
  | .call q k, s => (handle q s).bind fun r => (k r.2).run handle r.1

variable {handle : ∀ q, σ → Option (σ × R q)}

theorem run_call {q : Q} {k : R q → Prog Q R α} {s s' : σ} {r : R q}
    (h : handle q s = some (s', r)) : (Prog.call q k).run handle s = (k r).run handle s' := by
  rw [run, h, Option.bind_some]

theorem run_call_none {q : Q} {k : R q → Prog Q R α} {s : σ} (h : handle q s = none) :
    (Prog.call q k).run handle s = none := by
  rw [run, h, Option.bind_none]

/-- One program after the other runs one after the other. -/
theorem run_bind (x : Prog Q R α) (f : α → Prog Q R β) (s : σ) :
    (x.bind f).run handle s = (x.run handle s).bind fun r => (f r.2).run handle r.1 := by
  induction x generalizing s with
  | ret a => rfl
  | spin => rfl
  | call q k ih =>
    simp only [bind, run]
    cases handle q s with
    | none => rfl
    | some r => exact ih r.2 r.1

/-- **Programs simulate when their calls do.**  `Rel` is kept by every call that the abstract
handler answers, with the same answer. -/
theorem run_sim {τ : Type*} {ahandle : ∀ q, τ → Option (τ × R q)} {Rel : σ → τ → Prop}
    (hsim : ∀ q s t t' r, Rel s t → ahandle q t = some (t', r) →
      ∃ s', handle q s = some (s', r) ∧ Rel s' t') {x : Prog Q R α} {s : σ} {t t' : τ} {a : α}
    (hrel : Rel s t) (h : x.run ahandle t = some (t', a)) :
    ∃ s', x.run handle s = some (s', a) ∧ Rel s' t' := by
  induction x generalizing s t with
  | ret b =>
    obtain ⟨rfl, rfl⟩ := Prod.mk.inj (Option.some.inj h)
    exact ⟨s, rfl, hrel⟩
  | spin => cases h
  | call q k ih =>
    obtain ⟨⟨t₁, r⟩, hcall, hrest⟩ := Option.bind_eq_some_iff.mp h
    obtain ⟨s₁, hcall', hrel'⟩ := hsim q s t t₁ r hrel hcall
    rw [run_call hcall']
    exact ih r hrel' hrest

end Prog
