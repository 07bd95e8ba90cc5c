/-
# The FIFO a message queue is for

The abstract machine: a list of items, oldest first.  `send x` appends and `recv y` takes the
oldest item, of which it may show less than all: `m x y` says that `y` is a faithful reading of
`x`.  (A receiver that asks for fewer words than were sent sees a prefix; one that only waits
for a notification sees nothing.)  `Bounded n m` is the same machine kept to `n` items.

`run_spec` reads off the trace what a user of the queue relies on: the `k`-th receive reads
the `k`-th send, and nothing is lost, duplicated or reordered; `bounded_spec` adds that at most
`n` items are outstanding.
-/
import Smelt.Lib.Run
import Mathlib.Data.List.Forall2

namespace Fifo

variable {α β : Type*}

/-- What a user of the queue does: put an item in, or get a reading of one out. -/
inductive Ev (α β : Type*)
  | send (x : α)
  | recv (y : β)

/-- The item a `send` put in. -/
def Ev.sent? : Ev α β → Option α
  | .send x => some x
  | .recv _ => none

/-- The reading a `recv` got out. -/
def Ev.rcvd? : Ev α β → Option β
  | .send _ => none
  | .recv y => some y

/-- The items sent along a trace, in order. -/
def sends (tr : List (Ev α β)) : List α := tr.filterMap Ev.sent?

/-- The readings received along a trace, in order. -/
def recvs (tr : List (Ev α β)) : List β := tr.filterMap Ev.rcvd?

/-- One step of the FIFO. -/
inductive Step (m : α → β → Prop) : List α → Ev α β → List α → Prop
  | send {q : List α} {x : α} : Step m q (.send x) (q ++ [x])
  | recv {q : List α} {x : α} {y : β} : m x y → Step m (x :: q) (.recv y) q

theorem step_send {m : α → β → Prop} {q q' : List α} {x : α} :
    Step m q (.send x) q' ↔ q' = q ++ [x] := by
  constructor
  · rintro ⟨⟩
    rfl
  · rintro rfl
    exact .send

theorem step_recv {m : α → β → Prop} {q q' : List α} {y : β} :
    Step m q (.recv y) q' ↔ ∃ x, q = x :: q' ∧ m x y := by
  constructor
  · rintro ⟨⟩
    exact ⟨_, rfl, ‹_›⟩
  · rintro ⟨x, rfl, h⟩
    exact .recv h

/-- One step of the FIFO of capacity `n`. -/
def Bounded (n : ℕ) (m : α → β → Prop) (q : List α) (e : Ev α β) (q' : List α) : Prop :=
  Step m q e q' ∧ q'.length ≤ n

theorem Bounded.send {n : ℕ} {m : α → β → Prop} {q : List α} {x : α} (h : q.length < n) :
    Bounded n m q (.send x) (q ++ [x]) :=
  ⟨.send, by rw [List.length_append, List.length_singleton]; exact h⟩

theorem Bounded.recv {n : ℕ} {m : α → β → Prop} {q : List α} {x : α} {y : β}
    (hlen : (x :: q).length ≤ n) (h : m x y) : Bounded n m (x :: q) (.recv y) q :=
  ⟨.recv h, Nat.le_of_succ_le hlen⟩

@[simp] theorem sends_snoc (tr : List (Ev α β)) (e : Ev α β) :
    sends (tr ++ [e]) = sends tr ++ e.sent?.toList := by
  cases e <;> simp [sends, Ev.sent?, List.filterMap_append]

@[simp] theorem recvs_snoc (tr : List (Ev α β)) (e : Ev α β) :
    recvs (tr ++ [e]) = recvs tr ++ e.rcvd?.toList := by
  cases e <;> simp [recvs, Ev.rcvd?, List.filterMap_append]

/-- **What a run of the FIFO has done.**  The items sent are those received, in order,
followed by those still queued; each reading is a reading of the item in its place. -/
theorem run_split {m : α → β → Prop} {tr : List (Ev α β)} {q : List α}
    (h : Run (Step m) [] tr q) :
    ∃ old : List α, sends tr = old ++ q ∧ List.Forall₂ m old (recvs tr) := by
  refine Run.induct (fun tr q =>
    ∃ old : List α, sends tr = old ++ q ∧ List.Forall₂ m old (recvs tr))
    ⟨[], rfl, .nil⟩ ?_ h
  rintro tr q e q' ⟨old, hs, hr⟩ hstep
  cases hstep with
  | @send _ x =>
    refine ⟨old, ?_, ?_⟩
    · simp [hs, Ev.sent?]
    · simpa [Ev.rcvd?] using hr
  | @recv _ x y hm =>
    refine ⟨old ++ [x], ?_, ?_⟩
    · simp [hs, Ev.sent?]
    · simpa [Ev.rcvd?] using List.rel_append hr (List.Forall₂.cons hm .nil)

/-- **The FIFO's contract, as its users read it**: the `k`-th receive is a reading of the
`k`-th send, and what is queued is what was sent and not received. -/
theorem run_spec {m : α → β → Prop} {tr : List (Ev α β)} {q : List α}
    (h : Run (Step m) [] tr q) :
    (∀ (k : ℕ) (y : β), (recvs tr)[k]? = some y → ∃ x, (sends tr)[k]? = some x ∧ m x y) ∧
      (sends tr).length = (recvs tr).length + q.length := by
  obtain ⟨old, hs, hr⟩ := run_split h
  have hl : old.length = (recvs tr).length := hr.length_eq
  refine ⟨?_, by rw [hs, List.length_append, hl]⟩
  intro k y hy
  obtain ⟨hk, hky⟩ := List.getElem?_eq_some_iff.mp hy
  have hko : k < old.length := by omega
  refine ⟨old[k], ?_, ?_⟩
  · rw [hs, List.getElem?_append_left hko, List.getElem?_eq_getElem hko]
  · have := List.Forall₂.get hr hko hk
    simpa [hky] using this

/-- The contract of the bounded FIFO: in addition never more than `n` are outstanding. -/
theorem bounded_spec {n : ℕ} {m : α → β → Prop} {tr : List (Ev α β)} {q : List α}
    (h : Run (Bounded n m) [] tr q) :
    (∀ (k : ℕ) (y : β), (recvs tr)[k]? = some y → ∃ x, (sends tr)[k]? = some x ∧ m x y) ∧
      (sends tr).length = (recvs tr).length + q.length ∧ q.length ≤ n := by
  obtain ⟨hk, hlen⟩ := run_spec (h.mono fun _ _ _ hs => hs.1)
  refine ⟨hk, hlen, ?_⟩
  cases h with
  | nil => exact Nat.zero_le _
  | snoc _ hs => exact hs.2

end Fifo
