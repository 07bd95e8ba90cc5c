/-
# What a successful send has to have done

The sending functions of the library differ in whom they reach and in what they are built on, and
they share one contract: `SMLT_SUCCESS` means that the message is in the destination's queue.  Here
the contract is stated once, for any of them.

A `View` is what there is to see of one queue: for every reader the messages before it, each with
ALL the payload words of its slot, the slot the next message goes to, and the control word of every
slot.  A queue pair is two queues of one reader each; the queue of a 1:n channel is one queue with
many readers.  `Appends` compares two views of one queue, and `Path.Delivered` asks for it of ONE
queue of the destination, with every other queue in reach as it was.

The messages of a view are those the readers would get by receiving, slot after slot, so a control
word that is overwritten with the right bits shows as a message that nobody sent.

The contract is about whole runs.  A send that breaks it can leave a queue in which later ones do
not keep it either.  So as long as every send fits, every send is delivered (`Law.delivers`), and if
every send was delivered, then every one fitted (`Law.fitted`).
-/
import Smelt.Message
import Smelt.Lib.Run

namespace Smelt.Send

/-- What there is to see of a queue. -/
structure View where
  readers : List (List (List Word))
  next : ℕ
  ctrl : ℕ → Word

/-- **Exactly one message more, carrying the words `xs`**: every reader has it after what it had
before, and no control word changed but that of its slot. -/
structure Appends (xs : List Word) (v v' : View) : Prop where
  message : ∃ ws, v'.readers = v.readers.map (· ++ [ws]) ∧ xs <+: ws
  ctrl : ∀ slot, slot ≠ v.next → v'.ctrl slot = v.ctrl slot

/-- A queue with a reader does not look the same afterwards. -/
theorem Appends.ne {xs : List Word} {v v' : View} (hreader : v.readers ≠ [])
    (h : Appends xs v v') : v' ≠ v := by
  rintro rfl
  obtain ⟨ws, hws, -⟩ := h.message
  obtain ⟨q, qs, hq⟩ := List.exists_cons_of_ne_nil hreader
  rw [hq, List.map_cons] at hws
  have hlen := congrArg List.length (List.cons.inj hws).1
  simp at hlen

/-- A message is no longer than a slot. -/
theorem Appends.length_le {xs : List Word} {v v' : View} {cap : ℕ} (hreader : v.readers ≠ [])
    (hcap : ∀ q ∈ v'.readers, ∀ ws ∈ q, ws.length = cap) (h : Appends xs v v') :
    xs.length ≤ cap := by
  obtain ⟨ws, hws, hpre⟩ := h.message
  obtain ⟨q, qs, hq⟩ := List.exists_cons_of_ne_nil hreader
  have hmem : q ++ [ws] ∈ v'.readers := by simp [hws, hq]
  rw [← hcap _ hmem ws (by simp)]
  exact hpre.length_le

/-- A way to send: a system with its queues, the calls that can be made on it, and the sending
function under consideration.  `act` are all calls but the sends that succeed, `send` gives `none`
while a call has not returned, `Fits` is the condition under which it keeps the contract, and `Few`
says of a system that this is known to be the only one. -/
structure Path where
  State : Type
  Caller : Type
  Queue : Type
  Act : Type
  Init : State → Prop
  act : State → Act → Option State
  send : State → Caller → Msg → Option (State × Errval)
  dest : State → Caller → Queue → Prop
  view : State → Queue → View
  Fits : State → Caller → Msg → Prop
  Few : State → Prop

namespace Path

variable {P : Path} {Good : P.State → Prop}

/-- A send that has returned `SMLT_SUCCESS`, with the system before and after it. -/
structure Sent (P : Path) where
  before : P.State
  who : P.Caller
  msg : Msg
  after : P.State

/-- The calls on the system. -/
inductive Event (P : Path)
  | act (a : P.Act)
  | sent (x : P.Sent)

/-- The calls, one at a time. -/
def Step (P : Path) (s : P.State) : P.Event → P.State → Prop
  | .act a, s' => P.act s a = some s'
  | .sent x, s' => x.before = s ∧ x.after = s' ∧ P.send s x.who x.msg = some (s', success)

def Event.sent? : P.Event → Option P.Sent
  | .act _ => none
  | .sent x => some x

/-- The sends of a run that have returned `SMLT_SUCCESS`. -/
def sends (tr : List P.Event) : List P.Sent := tr.filterMap Event.sent?

/-- **The message has been delivered**: one of the destination's queues has one message more, and
the other queues are as they were. -/
def Delivered (P : Path) (s : P.State) (who : P.Caller) (msg : Msg) (s' : P.State) : Prop :=
  ∃ q, P.dest s who q ∧ Appends msg.payload (P.view s q) (P.view s' q) ∧
    ∀ q', q' ≠ q → P.view s' q' = P.view s q'

def Sent.Delivered (x : P.Sent) : Prop := P.Delivered x.before x.who x.msg x.after

def Sent.Fits (x : P.Sent) : Prop := P.Fits x.before x.who x.msg

theorem forall_sends_snoc_act {tr : List P.Event} {a : P.Act} {p : P.Sent → Prop} :
    (∀ x ∈ sends (tr ++ [.act a]), p x) ↔ ∀ x ∈ sends tr, p x := by
  simp [sends, Event.sent?]

theorem forall_sends_snoc {tr : List P.Event} {y : P.Sent} {p : P.Sent → Prop} :
    (∀ x ∈ sends (tr ++ [.sent y]), p x) ↔ (∀ x ∈ sends tr, p x) ∧ p y := by
  simp [sends, Event.sent?, or_imp, forall_and]

/-- An invariant under which a successful send that fits delivers and keeps it, and, in a system of
the right size, one that does not fit does not deliver. -/
structure Law (P : Path) (Good : P.State → Prop) : Prop where
  init : ∀ {s}, P.Init s → Good s
  act : ∀ {s a s'}, Good s → P.act s a = some s' → Good s'
  fits : ∀ {s who msg s'}, Good s → P.send s who msg = some (s', success) → P.Fits s who msg →
    P.Delivered s who msg s' ∧ Good s'
  only : ∀ {s who msg s'}, Good s → P.Few s → P.send s who msg = some (s', success) →
    P.Delivered s who msg s' → P.Fits s who msg
  few : ∀ {s e s'}, Good s → P.Few s → P.Step s e s' → P.Few s'

variable {s₀ s : P.State} {tr : List P.Event}

/-- **While every send fits, every send is delivered.** -/
theorem Law.delivers (h : P.Law Good) (hinit : P.Init s₀) (hrun : Run P.Step s₀ tr s) :
    (∀ x ∈ sends tr, x.Fits) → Good s ∧ ∀ x ∈ sends tr, x.Delivered := by
  refine hrun.induct (fun tr s => (∀ x ∈ sends tr, x.Fits) → Good s ∧ ∀ x ∈ sends tr, x.Delivered)
    (fun _ => ⟨h.init hinit, fun x hx => nomatch hx⟩) ?_
  rintro tr s e s' ih hstep hfits
  cases e with
  | act a =>
    obtain ⟨hgood, hdel⟩ := ih (forall_sends_snoc_act.mp hfits)
    exact ⟨h.act hgood hstep, forall_sends_snoc_act.mpr hdel⟩
  | sent y =>
    obtain ⟨rfl, rfl, hsend⟩ := hstep
    obtain ⟨hbefore, hy⟩ := forall_sends_snoc.mp hfits
    obtain ⟨hgood, hdel⟩ := ih hbefore
    obtain ⟨hlast, hgood'⟩ := h.fits hgood hsend hy
    exact ⟨hgood', forall_sends_snoc.mpr ⟨hdel, hlast⟩⟩

/-- **If every send was delivered, every send fitted.** -/
theorem Law.fitted (h : P.Law Good) (hinit : P.Init s₀) (hfew : P.Few s₀)
    (hrun : Run P.Step s₀ tr s) : (∀ x ∈ sends tr, x.Delivered) → ∀ x ∈ sends tr, x.Fits := by
  have hall : Run P.Step s₀ tr s ∧
      ((∀ x ∈ sends tr, x.Delivered) → P.Few s ∧ ∀ x ∈ sends tr, x.Fits) := by
    refine hrun.induct (fun tr s => Run P.Step s₀ tr s ∧
      ((∀ x ∈ sends tr, x.Delivered) → P.Few s ∧ ∀ x ∈ sends tr, x.Fits))
      ⟨.nil, fun _ => ⟨hfew, fun x hx => nomatch hx⟩⟩ ?_
    rintro tr s e s' ⟨hrun, ih⟩ hstep
    refine ⟨.snoc hrun hstep, fun hdel => ?_⟩
    cases e with
    | act a =>
      obtain ⟨hfew, hfits⟩ := ih (forall_sends_snoc_act.mp hdel)
      exact ⟨h.few (h.delivers hinit hrun hfits).1 hfew hstep, forall_sends_snoc_act.mpr hfits⟩
    | sent y =>
      -- those before it fitted, so the system is in order when it is made
      obtain ⟨hbefore, hy⟩ := forall_sends_snoc.mp hdel
      obtain ⟨hfew, hfits⟩ := ih hbefore
      have hgood := (h.delivers hinit hrun hfits).1
      refine ⟨h.few hgood hfew hstep, forall_sends_snoc.mpr ⟨hfits, ?_⟩⟩
      obtain ⟨rfl, rfl, hsend⟩ := hstep
      exact h.only hgood hfew hsend hy
  exact fun hdel => (hall.2 hdel).2

end Path

end Smelt.Send
