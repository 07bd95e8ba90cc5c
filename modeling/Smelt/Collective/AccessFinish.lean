/-
# Barriers finish, access by access

`Finish.lean` takes an attempt of a send or a receive as one turn.  Here a turn is one access, as in
`Access.lean`, and still every barrier returns under every fair schedule: nobody is kept from its
next access, and nobody makes accesses for ever that lead nowhere.

An access does no work in the sense of `Finish.lean`, only the last one of a call does.  What falls
is the number of accesses that are left of the call (`Line.Goes`): a send that begins on an empty
line, and a receive that begins on one that is not empty, come to their end with the accesses that
they need.  They are not disturbed: the other end makes accesses of the same line, but they do not
send the call back (`frame`).

In a sequence of calls that go up AND down the tree a send finds its line empty
(`queue_nil_of_twoWay`), so no send is ever refused.  A receive may find nothing and begin again,
and a polling loop may pass a child that has not sent; so it is again the node in the least call
that is sure to go on.
-/
import Smelt.Collective.Access
import Smelt.Collective.Finish

namespace Smelt

/-! ## 1. Lines on which calls come to their end -/

/-- **A line on which calls come to their end.**  `cost` is how many accesses are left of a call, at
most `most`. -/
structure Line.Goes (L : Line) (Legal : Call → Prop) (Ready : L.State → Call → Prop)
    (holds : L.State → List (List Word) → Prop) (stands : L.State → Call → Prop)
    (cost : L.State → Call → ℕ) (most : ℕ) : Prop where
  total : ∀ s c, ∃ s' r, L.access s c = some (s', r)
  le : ∀ {s c}, Legal c → cost s c ≤ most
  /-- a call that has what it needs goes on, or returns with it -/
  goes : ∀ {s q c s' r}, holds s q → stands s c → Legal c → Ready s c →
    (c.transmits = true → q = []) → (c.transmits = false → q ≠ []) → L.access s c = some (s', r) →
    (r = none ∧ cost s' c < cost s c) ∨ ∃ r', r = some r' ∧ c.blocks r' = false
  /-- the other end does not send it back -/
  frame : ∀ {s c s' r c'}, L.access s c = some (s', r) → c'.transmits ≠ c.transmits →
    cost s' c' = cost s c'
  outside : ∀ {s}, (∀ c, c.transmits = false → stands s c) → L.receiving s = false

namespace Ump

/-- The accesses that are left of a send. -/
def SendPc.cost (words : ℕ) : SendPc → ℕ
  | .idle => words + 2
  | .store _ _ i => words - i + 1

/-- The accesses that are left of a receive. -/
def RecvPc.cost (words : ℕ) : RecvPc → ℕ
  | .idle => words + 3
  | .observed _ _ => words + 2
  | .copy _ _ _ got => words - got.length + 1

section Goes

variable {s s' : Micro} {c : Call} {r : Option Ret} {e : MEvent} {q : List (List Word)} {msg : Msg}
  {words : UInt32}

end Goes

end Ump

namespace Collective

variable {ι : Type} [DecidableEq ι] {L : Line}

/-! ## 2. Turns -/

/-- The system after a turn of `u`; a node with nothing left to do lets it pass. -/
def Micro.next (t : WiredTree ι) (sc : Script ι) (s : Micro ι L) (u : ι) : Micro ι L :=
  match s.turn t sc u with
  | some r => r.1
  | none => s

/-- A turn is a step between accesses, a poll that has found something, or an access of the call
that the node is in. -/
inductive Turn (t : WiredTree ι) (s : Micro ι L) (u : ι) : Micro ι L → Prop
  | between {nd : Node} : Turn t s u (s.setNode u nd)
  | polled {kind : Kind} {recv : List Bool} {num i : ℕ} {c : ι} :
      (s.node u).pc = .gather kind recv num i → (t.children u)[i]? = some c → s.polled u = false →
      L.canRecv (s.line c (side t c u).other) = true → Turn t s u (s.setPolled u)
  | access {c : ι} {call : Call} {l : L.State} {r : Option Ret} :
      s.inCall t u = some (c, call) → L.access (s.line c (wayOf t c u call)) call = some (l, r) →
      Turn t s u (s.setLine c (wayOf t c u call) l)
  | last {c : ι} {call : Call} {l : L.State} {r : Ret} {nd : Node} :
      s.inCall t u = some (c, call) →
        L.access (s.line c (wayOf t c u call)) call = some (l, some r) →
      Turn t s u ((s.setLine c (wayOf t c u call) l).setNode u nd)

section Turn

variable {t : WiredTree ι} {sc : Script ι} {s s' : Micro ι L} {u w c v : ι} {e : Ev ι} {kind : Kind}

theorem Turn.node (h : Turn t s u s') : ∃ nd, s'.node = Function.update s.node u nd := by
  cases h with
  | between => exact ⟨_, rfl⟩
  | polled => exact ⟨s.node u, (Function.update_eq_self u s.node).symm⟩
  | access => exact ⟨s.node u, (Function.update_eq_self u s.node).symm⟩
  | last => exact ⟨_, rfl⟩

theorem Turn.line (h : Turn t s u s') : s'.line = s.line ∨ ∃ c call l r,
    s.inCall t u = some (c, call) ∧ L.access (s.line c (wayOf t c u call)) call = some (l, r) ∧
      s'.line = Function.update s.line c (Function.update (s.line c) (wayOf t c u call) l) := by
  cases h with
  | between => exact .inl rfl
  | polled => exact .inl rfl
  | access hin hacc => exact .inr ⟨_, _, _, _, hin, hacc, rfl⟩
  | last hin hacc => exact .inr ⟨_, _, _, _, hin, hacc, rfl⟩

end Turn

/-! ## 3. Calls that have what they need -/

section Needs

variable {Ready : L.State → Call → Prop} {holds : L.State → List (List Word) → Prop}
  {stands : L.State → Call → Prop} {cost : L.State → Call → ℕ} {most : ℕ} {t : WiredTree ι}
  {sc : Script ι} {s s' : Micro ι L} {a a' : Net ι} {u w c : ι} {e : Ev ι}

/-- Only `w` receives what is sent to it. -/
theorem NStep.queue_ne_nil (hok : ∀ u, NodeOk t sc u (a.node u)) (hstep : NStep t sc a e a')
    (hsame : a'.node w = a.node w) (hne : a.queue (c, w) ≠ []) : a'.queue (c, w) ≠ [] := by
  cases hstep with
  | @put u v nd xs hl =>
    by_cases hcw : (c, w) = (u, v)
    · simp only [hcw, Net.setQueue, Function.update_self]
      exact fun hnil => List.cons_ne_nil _ _ (List.append_eq_nil_iff.mp hnil).2
    · simp only [Net.setQueue, Function.update_of_ne hcw]
      exact hne
  | @got u v nd x q ys hl hq hag =>
    by_cases hcw : (c, w) = (v, u)
    · obtain ⟨rfl, rfl⟩ := Prod.mk.inj hcw
      rw [Net.setQueue_node, Net.setNode_node, Function.update_self] at hsame
      subst hsame
      rcases work_local (hok w) hl with hlt | ⟨hact, -⟩
      · exact absurd hlt (Nat.lt_irrefl _)
      · cases hact
    · simp only [Net.setQueue, Function.update_of_ne hcw]
      exact hne
  | enter hl => exact hne
  | ret hl => exact hne
  | quiet hl => exact hne
  | stay => exact hne

end Needs

/-! ## 4. Nearer with each turn -/

/-- The turns that `u` takes until it has done some work: those that are left of the call that it is
in, or its polling loop up to the child in place `j`, and the call after it. -/
def Micro.wait (t : WiredTree ι) (cost : L.State → Call → ℕ) (most : ℕ) (s : Micro ι L) (u : ι)
    (j : ℕ) : ℕ :=
  match s.inCall t u with
  | some (c, call) => cost (s.line c (wayOf t c u call)) call
  | none => (s.node u).pc.turnsTo (t.children u).length j + most + 1

section Wait

variable {Ready : L.State → Call → Prop} {holds : L.State → List (List Word) → Prop}
  {stands : L.State → Call → Prop} {cost : L.State → Call → ℕ} {most : ℕ} {t : WiredTree ι}
  {sc : Script ι} {s s' : Micro ι L} {a a' : Net ι} {u v w c : ι} {e : Ev ι} {j : ℕ} {kind : Kind}
  {next : Pc}

end Wait

/-! ## 5. Everybody returns -/

/-- Everybody has returned from all its calls. -/
def Micro.Finished (sc : Script ι) (s : Micro ι L) : Prop := ∀ u, (s.node u).done = sc.calls.length

section Finish

variable {Ready : L.State → Call → Prop} {holds : L.State → List (List Word) → Prop}
  {stands : L.State → Call → Prop} {cost : L.State → Call → ℕ} {most : ℕ} {t : WiredTree ι}
  {sc : Script ι} {s s' : Micro ι L} {a a' : Net ι} {u v w c : ι} {e : Ev ι} {j : ℕ} {kind : Kind}

end Finish

end Collective

end Smelt
