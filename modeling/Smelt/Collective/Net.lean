/-
# The nodes as local programs over ideal queues

Everything the collectives guarantee rests on two things: what one node does between its sends and
receives (`Local`), and that a channel delivers what was sent, in order (`Backend.IsFifo`).  This
module separates them.  `NStep` is the network: local programs and one ideal queue for each ordered
pair of neighbours, whose items remember the number of the call they were sent in.  `step_nstep`
says that every turn of the system of `Machine.lean`, over any backend that is a FIFO, is a step
of the network.

`NodeOk` ties a node's place to the call it is in, and is kept by every local step.
-/
import Smelt.Collective.Machine

namespace Smelt.Collective

variable {ι : Type}

/-! ## 1. What a node does by itself -/

/-- The words a phase puts on a channel. -/
def Kind.words : Kind → List Word → List Word
  | .payload, buf => buf
  | .notify, _ => []

/-- What a local step does to the world: it may send to a neighbour or receive from one. -/
inductive Act (ι : Type)
  | enter
  | put (v : ι) (xs : List Word)
  | got (v : ι) (ys : List Word)
  | ret
  | quiet

/-- The program of the node `u`, one step at a time, whatever its neighbours do. -/
inductive Local (t : WiredTree ι) (sc : Script ι) (u : ι) : Node → Act ι → Node → Prop
  | enter {done : ℕ} {b : List Word} {call : Coll} : sc.calls[done]? = some call →
      Local t sc u ⟨done, .idle, b⟩ .enter
        ⟨done, call.entry t u, call.firstBuf (sc.input u done) (sc.msg u done)⟩
  | poll {done num i : ℕ} {b : List Word} {kind : Kind} {recv : List Bool} {c : ι} :
      (t.children u)[i]? = some c →
      Local t sc u ⟨done, .gather kind recv num i, b⟩ .quiet
        ⟨done, .gather kind recv num (nextChild (t.children u).length i), b⟩
  | take {done num i : ℕ} {b ys : List Word} {kind : Kind} {recv : List Bool} {c : ι} :
      (t.children u)[i]? = some c → recv[i]? = some false → ys.length = (kind.words b).length →
      Local t sc u ⟨done, .gather kind recv num i, b⟩ (.got c ys)
        ⟨done, .gather kind (recv.set i true) (num + 1) (nextChild (t.children u).length i),
          kind.store b ys⟩
  | gathered {done num i : ℕ} {b : List Word} {kind : Kind} {recv : List Bool} :
      (t.children u).length ≤ num →
      Local t sc u ⟨done, .gather kind recv num i, b⟩ .quiet ⟨done, .sendUp kind, b⟩
  | skipUp {done : ℕ} {b : List Word} {kind : Kind} {call : Coll} :
      t.parent u = none → sc.calls[done]? = some call →
      Local t sc u ⟨done, .sendUp kind, b⟩ .quiet ⟨done, call.afterReduce t u, b⟩
  | putUp {done : ℕ} {b : List Word} {kind : Kind} {call : Coll} {p : ι} :
      t.parent u = some p → sc.calls[done]? = some call →
      Local t sc u ⟨done, .sendUp kind, b⟩ (.put p (kind.words b)) ⟨done, call.afterReduce t u, b⟩
  | gotDown {done : ℕ} {b ys : List Word} {kind : Kind} {p : ι} :
      t.parent u = some p → ys.length = (kind.words b).length →
      Local t sc u ⟨done, .recvDown kind, b⟩ (.got p ys) ⟨done, .sendDown kind 0, kind.store b ys⟩
  | putDown {done i : ℕ} {b : List Word} {kind : Kind} {c : ι} : (t.children u)[i]? = some c →
      Local t sc u ⟨done, .sendDown kind i, b⟩ (.put c (kind.words b))
        ⟨done, .sendDown kind (i + 1), b⟩
  | sentDown {done i : ℕ} {b : List Word} {kind : Kind} : (t.children u)[i]? = none →
      Local t sc u ⟨done, .sendDown kind i, b⟩ .quiet ⟨done, .ret, b⟩
  | ret {done : ℕ} {b : List Word} : Local t sc u ⟨done, .ret, b⟩ .ret ⟨done + 1, .idle, b⟩

/-! ## 2. Places and calls -/

/-- The reduction half of a call. -/
def Coll.up? : Coll → Option Kind
  | .broadcast => none
  | .broadcastNotify => none
  | .reduce (some _) => some .payload
  | .reduce none => some .notify
  | .reduceNotify => some .notify
  | .reduceAll (some _) => some .payload
  | .reduceAll none => some .notify
  | .barrierWait => some .notify

/-- The broadcast half of a call. -/
def Coll.down? : Coll → Option Kind
  | .broadcast => some .payload
  | .broadcastNotify => some .notify
  | .reduce _ => none
  | .reduceNotify => none
  | .reduceAll _ => some .payload
  | .barrierWait => some .notify

/-- A place in the `done`-th call of `u`. -/
def PcOk (t : WiredTree ι) (sc : Script ι) (u : ι) (done : ℕ) : Pc → Prop
  | .idle => True
  | .gather kind recv num i =>
    (∃ call, sc.calls[done]? = some call ∧ call.up? = some kind) ∧
      recv.length = (t.children u).length ∧ num = recv.count true ∧
      (i < (t.children u).length ∨ (t.children u).length = 0)
  | .sendUp kind => ∃ call, sc.calls[done]? = some call ∧ call.up? = some kind
  | .recvDown kind =>
    (∃ call, sc.calls[done]? = some call ∧ call.down? = some kind) ∧ t.parent u ≠ none
  | .sendDown kind i =>
    (∃ call, sc.calls[done]? = some call ∧ call.down? = some kind) ∧ i ≤ (t.children u).length
  | .ret => ∃ call, sc.calls[done]? = some call
  | .failed => False

/-- A node between two steps: its place belongs to its call, and its buffer is as long as the one
it was called with. -/
structure NodeOk (t : WiredTree ι) (sc : Script ι) (u : ι) (nd : Node) : Prop where
  pc : PcOk t sc u nd.done nd.pc
  buf : nd.pc ≠ .idle → nd.buf.length = (sc.msg u nd.done).length
  done : nd.done ≤ sc.calls.length

section Ok

variable {t : WiredTree ι} {sc : Script ι} {u : ι}

theorem broadcastEntry_ok {done : ℕ} {call : Coll} {kind : Kind}
    (hcall : sc.calls[done]? = some call) (hdown : call.down? = some kind) :
    PcOk t sc u done (broadcastEntry t u kind) := by
  unfold broadcastEntry
  cases hp : t.parent u with
  | none => exact ⟨⟨call, hcall, hdown⟩, Nat.zero_le _⟩
  | some p => exact ⟨⟨call, hcall, hdown⟩, by simp [hp]⟩

theorem reduceEntry_ok {done : ℕ} {call : Coll} {kind : Kind}
    (hcall : sc.calls[done]? = some call) (hup : call.up? = some kind) :
    PcOk t sc u done (reduceEntry t u kind) := by
  refine ⟨⟨call, hcall, hup⟩, List.length_replicate, ?_, ?_⟩
  · simp [List.count_replicate]
  · omega

/-- Where a call starts, by its halves. -/
theorem entry_cases (t : WiredTree ι) (u : ι) (call : Coll) :
    (∃ kind, call.up? = some kind ∧ call.entry t u = reduceEntry t u kind) ∨
      ∃ kind, call.up? = none ∧ call.down? = some kind ∧
        call.entry t u = broadcastEntry t u kind := by
  rcases call with _ | _ | (_ | op) | _ | (_ | op) | _
  · exact .inr ⟨_, rfl, rfl, rfl⟩
  · exact .inr ⟨_, rfl, rfl, rfl⟩
  all_goals exact .inl ⟨_, rfl, rfl⟩

/-- Where a call goes on after its reduction, by its broadcast half. -/
theorem afterReduce_cases (t : WiredTree ι) (u : ι) {call : Coll} {kind : Kind}
    (hup : call.up? = some kind) :
    (call.down? = none ∧ call.afterReduce t u = .ret) ∨
      ∃ kind', call.down? = some kind' ∧ call.afterReduce t u = broadcastEntry t u kind' := by
  rcases call with _ | _ | (_ | op) | _ | (_ | op) | _
  · cases hup
  · cases hup
  · exact .inl ⟨rfl, rfl⟩
  · exact .inl ⟨rfl, rfl⟩
  · exact .inl ⟨rfl, rfl⟩
  all_goals exact .inr ⟨_, rfl, rfl⟩

theorem entry_ok {done : ℕ} {call : Coll} (hcall : sc.calls[done]? = some call) :
    PcOk t sc u done (call.entry t u) := by
  rcases entry_cases t u call with ⟨kind, hup, he⟩ | ⟨kind, -, hdown, he⟩
  · rw [he]
    exact reduceEntry_ok hcall hup
  · rw [he]
    exact broadcastEntry_ok hcall hdown

theorem afterReduce_ok {done : ℕ} {call : Coll} {kind : Kind}
    (hcall : sc.calls[done]? = some call) (hup : call.up? = some kind) :
    PcOk t sc u done (call.afterReduce t u) := by
  rcases afterReduce_cases t u hup with ⟨-, he⟩ | ⟨kind', hdown, he⟩
  · rw [he]
    exact ⟨call, hcall⟩
  · rw [he]
    exact broadcastEntry_ok hcall hdown

theorem firstBuf_length (call : Coll) (input msg : List Word) :
    (call.firstBuf input msg).length = msg.length := by
  rcases call with _ | _ | (_ | op) | _ | (_ | op) | _
  all_goals first | rfl | exact op.length_run _ _

theorem store_length {kind : Kind} {b ys : List Word} (h : ys.length = (kind.words b).length) :
    (kind.store b ys).length = b.length := by
  cases kind with
  | payload => exact h
  | notify => rfl

theorem nextChild_lt {count i : ℕ} (h : i < count) : nextChild count i < count := by
  unfold nextChild
  split <;> omega

theorem count_set_true {recv : List Bool} {i : ℕ} (h : recv[i]? = some false) :
    (recv.set i true).count true = recv.count true + 1 := by
  obtain ⟨hi, hv⟩ := List.getElem?_eq_some_iff.mp h
  simp [List.count_set, hi, hv]

/-- **Every local step keeps a node in order.** -/
theorem nodeOk_local {nd nd' : Node} {act : Act ι} (h : NodeOk t sc u nd)
    (hl : Local t sc u nd act nd') : NodeOk t sc u nd' := by
  have hpc := h.pc
  have hbuf := h.buf
  cases hl with
  | enter hcall => exact ⟨entry_ok hcall, fun _ => firstBuf_length _ _ _, h.done⟩
  | poll hc =>
    obtain ⟨hcall, hlen, hnum, -⟩ := hpc
    have hi := (List.getElem?_eq_some_iff.mp hc).1
    exact ⟨⟨hcall, hlen, hnum, .inl (nextChild_lt hi)⟩, fun _ => hbuf nofun, h.done⟩
  | take hc hrecv hys =>
    obtain ⟨hcall, hlen, hnum, -⟩ := hpc
    have hi := (List.getElem?_eq_some_iff.mp hc).1
    refine ⟨⟨hcall, ?_, ?_, .inl (nextChild_lt hi)⟩, fun _ => ?_, h.done⟩
    · rw [List.length_set, hlen]
    · rw [count_set_true hrecv, hnum]
    · exact (store_length hys).trans (hbuf nofun)
  | gathered hnum => exact ⟨hpc.1, fun _ => hbuf nofun, h.done⟩
  | skipUp hp hcall =>
    obtain ⟨call, hcall', hup⟩ := hpc
    obtain rfl := Option.some.inj (hcall.symm.trans hcall')
    exact ⟨afterReduce_ok hcall hup, fun _ => hbuf nofun, h.done⟩
  | putUp hp hcall =>
    obtain ⟨call, hcall', hup⟩ := hpc
    obtain rfl := Option.some.inj (hcall.symm.trans hcall')
    exact ⟨afterReduce_ok hcall hup, fun _ => hbuf nofun, h.done⟩
  | gotDown hp hys =>
    exact ⟨⟨hpc.1, Nat.zero_le _⟩, fun _ => (store_length hys).trans (hbuf nofun), h.done⟩
  | putDown hc =>
    have hi := (List.getElem?_eq_some_iff.mp hc).1
    exact ⟨⟨hpc.1, hi⟩, fun _ => hbuf nofun, h.done⟩
  | sentDown hc =>
    obtain ⟨⟨call, hcall, -⟩, -⟩ := hpc
    exact ⟨⟨call, hcall⟩, fun _ => hbuf nofun, h.done⟩
  | ret =>
    obtain ⟨call, hcall⟩ := hpc
    exact ⟨trivial, fun hh => absurd rfl hh, (List.getElem?_eq_some_iff.mp hcall).1⟩

theorem nodeOk_init (t : WiredTree ι) (sc : Script ι) (u : ι) :
    NodeOk t sc u { done := 0, pc := .idle, buf := [] } :=
  ⟨trivial, fun h => absurd rfl h, Nat.zero_le _⟩

end Ok

/-! ## 3. The network -/

variable [DecidableEq ι]

/-- A message with the number of the call it was sent in. -/
abbrev Item := ℕ × List Word

/-- The nodes, and for each ordered pair of neighbours what the first has sent to the second and
the second has not received. -/
structure Net (ι : Type) where
  node : ι → Node
  queue : ι × ι → List Item

def Net.setNode (a : Net ι) (u : ι) (nd : Node) : Net ι :=
  { a with node := Function.update a.node u nd }

def Net.setQueue (a : Net ι) (u v : ι) (q : List Item) : Net ι :=
  { a with queue := Function.update a.queue (u, v) q }

@[simp] theorem Net.setNode_queue (a : Net ι) (u : ι) (nd : Node) :
    (a.setNode u nd).queue = a.queue := rfl

@[simp] theorem Net.setQueue_node (a : Net ι) (u v : ι) (q : List Item) :
    (a.setQueue u v q).node = a.node := rfl

theorem Net.setNode_node (a : Net ι) (u : ι) (nd : Node) :
    (a.setNode u nd).node = Function.update a.node u nd := rfl

theorem Net.setQueue_queue (a : Net ι) (u v : ι) (q : List Item) :
    (a.setQueue u v q).queue = Function.update a.queue (u, v) q := rfl

/-- A step of the network: a local step with what it does to the queues, or a turn that found no
room or no message. -/
inductive NStep (t : WiredTree ι) (sc : Script ι) : Net ι → Ev ι → Net ι → Prop
  | enter {a : Net ι} {u : ι} {nd : Node} : Local t sc u (a.node u) .enter nd →
      NStep t sc a (.enter u (a.node u).done) (a.setNode u nd)
  | put {a : Net ι} {u v : ι} {nd : Node} {xs : List Word} :
      Local t sc u (a.node u) (.put v xs) nd →
      NStep t sc a (.put u v (a.node u).done xs)
        ((a.setNode u nd).setQueue u v (a.queue (u, v) ++ [((a.node u).done, xs)]))
  | got {a : Net ι} {u v : ι} {nd : Node} {x : Item} {q : List Item} {ys : List Word} :
      Local t sc u (a.node u) (.got v ys) nd → a.queue (v, u) = x :: q → Agree x.2 ys →
      NStep t sc a (.got u v (a.node u).done ys) ((a.setNode u nd).setQueue v u q)
  | ret {a : Net ι} {u : ι} {nd : Node} : Local t sc u (a.node u) .ret nd →
      NStep t sc a (.ret u (a.node u).done (a.node u).buf) (a.setNode u nd)
  | quiet {a : Net ι} {u : ι} {nd : Node} : Local t sc u (a.node u) .quiet nd →
      NStep t sc a (.quiet u) (a.setNode u nd)
  | stay {a : Net ι} {u : ι} : NStep t sc a (.quiet u) a

/-- What the step does as an event of the node that makes it. -/
def Act.ev (u : ι) (nd : Node) : Act ι → Ev ι
  | .enter => .enter u nd.done
  | .put v xs => .put u v nd.done xs
  | .got v ys => .got u v nd.done ys
  | .ret => .ret u nd.done nd.buf
  | .quiet => .quiet u

/-- **What a step does to the nodes**: one of them makes a local step, or none does. -/
theorem NStep.node {t : WiredTree ι} {sc : Script ι} {a a' : Net ι} {e : Ev ι}
    (h : NStep t sc a e a') :
    (a'.node = a.node ∧ ∃ u, e = .quiet u) ∨
      ∃ u act nd, Local t sc u (a.node u) act nd ∧ a'.node = Function.update a.node u nd ∧
        e = act.ev u (a.node u) := by
  cases h with
  | enter hl => exact .inr ⟨_, _, _, hl, rfl, rfl⟩
  | put hl => exact .inr ⟨_, _, _, hl, rfl, rfl⟩
  | got hl hq hag => exact .inr ⟨_, _, _, hl, rfl, rfl⟩
  | ret hl => exact .inr ⟨_, _, _, hl, rfl, rfl⟩
  | quiet hl => exact .inr ⟨_, _, _, hl, rfl, rfl⟩
  | @stay u => exact .inl ⟨rfl, u, rfl⟩

/-- The network at the start. -/
def Net.init : Net ι :=
  { node := fun _ => { done := 0, pc := .idle, buf := [] }, queue := fun _ => [] }

/-! ## 4. The system is the network -/

/-- What the channel of `c` holds, by the end that sent it. -/
def contents (q : ι × ι → List Item) (p c : ι) : Side → List (List Word)
  | .src => (q (p, c)).map Prod.snd
  | .dst => (q (c, p)).map Prod.snd

/-- The channel of `c` joins `u` and `v`. -/
def Joins (t : WiredTree ι) (c u v : ι) : Prop :=
  (t.parent c = some u ∧ v = c) ∨ (t.parent c = some v ∧ u = c)

section Simulation

variable {B : Backend} {holds : B.State → (Side → List (List Word)) → Prop}
  {t : WiredTree ι} {sc : Script ι}

/-- The channels hold what the queues hold. -/
def ChanOk (holds : B.State → (Side → List (List Word)) → Prop) (t : WiredTree ι)
    (chan : ι → B.State) (q : ι × ι → List Item) : Prop :=
  ∀ p c, t.parent c = some p → holds (chan c) (contents q p c)

/-- The system stands for the network: the same nodes, in order, and every channel holds what the
two queues of its edge hold. -/
structure Rep (holds : B.State → (Side → List (List Word)) → Prop) (t : WiredTree ι)
    (sc : Script ι) (s : Sys ι B) (a : Net ι) : Prop where
  node : s.node = a.node
  ok : ∀ u, NodeOk t sc u (a.node u)
  chan : ChanOk holds t s.chan a.queue

omit [DecidableEq ι] in
theorem Joins.parent {c u v : ι} (h : Joins t c u v) : ∃ p, t.parent c = some p := by
  rcases h with ⟨h, -⟩ | ⟨h, -⟩
  · exact ⟨_, h⟩
  · exact ⟨_, h⟩

omit [DecidableEq ι] in
theorem Joins.symm {c u v : ι} (h : Joins t c u v) : Joins t c v u := by
  rcases h with h | h
  · exact .inr h
  · exact .inl h

theorem side_other {c u v : ι} (h : Joins t c u v) : (side t c u).other = side t c v := by
  rcases h with ⟨hp, rfl⟩ | ⟨hp, rfl⟩
  · have hne : ¬ u = v := fun hh => WiredTree.ne_parent hp hh.symm
    simp [side, hp, hne, Side.other]
  · have hne : ¬ v = u := fun hh => WiredTree.ne_parent hp hh.symm
    simp [side, hp, hne, Side.other]

/-- What `u` has sent to `v` is what its end of the channel has sent. -/
theorem contents_side {q : ι × ι → List Item} {p c u v : ι} (h : Joins t c u v)
    (hp : t.parent c = some p) : contents q p c (side t c u) = (q (u, v)).map Prod.snd := by
  rcases h with ⟨hu, rfl⟩ | ⟨hv, rfl⟩
  · obtain rfl : p = u := Option.some.inj (hp.symm.trans hu)
    simp [side, hp, contents]
  · obtain rfl : p = v := Option.some.inj (hp.symm.trans hv)
    have hne : ¬ p = u := fun hh => WiredTree.ne_parent hp hh.symm
    simp [side, hp, hne, contents]

/-- Changing the queue from `u` to `v` changes the contents at the end of `u`. -/
theorem contents_update {q : ι × ι → List Item} {p c u v : ι} (h : Joins t c u v)
    (hp : t.parent c = some p) (l : List Item) :
    contents (Function.update q (u, v) l) p c =
      Function.update (contents q p c) (side t c u) (l.map Prod.snd) := by
  rcases h with ⟨hu, rfl⟩ | ⟨hv, rfl⟩
  · obtain rfl : p = u := Option.some.inj (hp.symm.trans hu)
    have hne : ¬ v = p := WiredTree.ne_parent hp
    funext d
    cases d <;> simp [side, hp, contents, hne]
  · obtain rfl : p = v := Option.some.inj (hp.symm.trans hv)
    have hne : ¬ p = u := fun hh => WiredTree.ne_parent hp hh.symm
    funext d
    cases d <;> simp [side, hp, hne, contents]

/-- It changes the contents of no other channel. -/
theorem contents_update_other {q : ι × ι → List Item} {p c c' u v : ι} (h : Joins t c u v)
    (hp : t.parent c' = some p) (hne : c' ≠ c) (l : List Item) :
    contents (Function.update q (u, v) l) p c' = contents q p c' := by
  have h1 : (p, c') ≠ (u, v) := by
    rintro ⟨rfl, rfl⟩
    rcases h with ⟨-, hv⟩ | ⟨hv, hu⟩
    · exact hne hv
    · exact WiredTree.parent_asymm hp (hu ▸ hv)
  have h2 : (c', p) ≠ (u, v) := by
    rintro ⟨rfl, rfl⟩
    rcases h with ⟨hu, hv⟩ | ⟨-, hu⟩
    · exact WiredTree.parent_asymm hp (hv ▸ hu)
    · exact hne hu
  funext d
  cases d <;> simp [contents, h1, h2]

theorem payload_ofList {xs : List Word} (h : xs.length ≤ 7) : (Msg.ofList xs).payload = xs := by
  have hlen : (xs.length.toUInt32).toNat = xs.length := by
    simp only [Nat.toUInt32, UInt32.toNat_ofNat']
    omega
  refine List.ext_getElem (by simp [Msg.ofList, hlen]) fun i h1 h2 => ?_
  simp [Msg.ofList, h2]

theorem send_words (kind : Kind) {buf : List Word} (h : buf.length ≤ 7) :
    (kind.send buf).words ≤ 7 ∧ (kind.send buf).transmits = true ∧
      ∀ r xs, (kind.send buf).put? r = some xs → xs = kind.words buf := by
  cases kind with
  | payload =>
    have hpay := payload_ofList h
    refine ⟨?_, rfl, ?_⟩
    · have : (Msg.ofList buf).payload.length = (Msg.ofList buf).words.toNat := Msg.length_payload _
      rw [hpay] at this
      simp only [Kind.send, Call.words]
      omega
    · intro r xs hr
      rcases r with (_ | _) | _ | _
      · simp only [Kind.send, Call.put?, Option.some.injEq] at hr
        rw [← hr, hpay]
        rfl
      all_goals simp [Kind.send, Call.put?] at hr
  | notify =>
    refine ⟨Nat.zero_le _, rfl, ?_⟩
    intro r xs hr
    rcases r with (_ | _) | _ | _
    · simpa [Kind.send, Call.put?, Kind.words] using hr.symm
    all_goals simp [Kind.send, Call.put?] at hr

theorem recv_words (kind : Kind) {buf : List Word} (h : buf.length ≤ 7) :
    (kind.recv buf).words = (kind.words buf).length ∧ (kind.recv buf).words ≤ 7 ∧
      (kind.recv buf).transmits = false := by
  cases kind with
  | payload =>
    have hlen : (buf.length.toUInt32).toNat = buf.length := by
      simp only [Nat.toUInt32, UInt32.toNat_ofNat']
      omega
    exact ⟨hlen, by simpa [Kind.recv, Call.words, hlen] using h, rfl⟩
  | notify => exact ⟨rfl, Nat.zero_le _, rfl⟩

/-- A new state of the channel of `c`, with the other channels as they were. -/
theorem ChanOk.set {chan : ι → B.State} {q q' : ι × ι → List Item} {p c : ι} {w : B.State}
    (h : ChanOk holds t chan q) (hp : t.parent c = some p) (hw : holds w (contents q' p c))
    (hother : ∀ p' c', t.parent c' = some p' → c' ≠ c → contents q' p' c' = contents q p' c') :
    ChanOk holds t (Function.update chan c w) q' := by
  intro p' c' hp'
  by_cases hc : c' = c
  · subst hc
    obtain rfl : p' = p := Option.some.inj (hp'.symm.trans hp)
    simpa using hw
  · rw [Function.update_of_ne hc, hother p' c' hp' hc]
    exact h p' c' hp'

/-- One attempt of a send: the item is queued, or there was no room and nothing happened. -/
theorem sendTurn_spec (hB : B.IsFifo holds) {s : Sys ι B} {q : ι × ι → List Item} {c u v : ι}
    (hchan : ChanOk holds t s.chan q) (hj : Joins t c u v) (hlen : (s.node u).buf.length ≤ 7)
    (kind : Kind) (next onFail : Pc) :
    let r := s.sendTurn t c u v kind next onFail
    (r.2 = .put u v (s.node u).done (kind.words (s.node u).buf) ∧
        r.1.node = Function.update s.node u { s.node u with pc := next } ∧
        ChanOk holds t r.1.chan (Function.update q (u, v)
          (q (u, v) ++ [((s.node u).done, kind.words (s.node u).buf)]))) ∨
      (r.2 = .quiet u ∧ r.1.node = s.node ∧ q (u, v) ≠ [] ∧ ChanOk holds t r.1.chan q) := by
  obtain ⟨p, hp⟩ := hj.parent
  obtain ⟨hwords, htrans, hput⟩ := send_words kind hlen
  have hold := hchan p c hp
  simp only [Sys.sendTurn]
  cases hr : (kind.send (s.node u).buf).put?
      (B.call (s.chan c) (side t c u) (kind.send (s.node u).buf)).2 with
  | some xs =>
    obtain rfl := hput _ _ hr
    refine .inl ⟨rfl, rfl, hchan.set hp ?_ fun p' c' hp' hc => contents_update_other hj hp' hc _⟩
    have := hB.put hold hwords hr
    rwa [contents_side hj hp, ← List.map_singleton (f := Prod.snd)
      (a := ((s.node u).done, kind.words (s.node u).buf)), ← List.map_append,
      ← contents_update hj hp] at this
  | none =>
    obtain ⟨hblocks, hne, hold'⟩ := hB.refuse hold hwords htrans hr
    rw [contents_side hj hp] at hne
    simp only
    rw [if_pos hblocks]
    exact .inr ⟨rfl, rfl, by simpa using hne, hchan.set hp hold' fun _ _ _ _ => rfl⟩

/-- One attempt of a receive: the oldest item is taken, or there was none and nothing happened. -/
theorem recvTurn_spec (hB : B.IsFifo holds) {s : Sys ι B} {q : ι × ι → List Item} {c u v : ι}
    (hchan : ChanOk holds t s.chan q) (hj : Joins t c u v) (hlen : (s.node u).buf.length ≤ 7)
    (kind : Kind) (next : Pc) :
    let r := s.recvTurn t c u v kind next
    (∃ ys x rest, r.2 = .got u v (s.node u).done ys ∧
        r.1.node = Function.update s.node u
          { s.node u with pc := next, buf := kind.store (s.node u).buf ys } ∧
        ys.length = (kind.words (s.node u).buf).length ∧ q (v, u) = x :: rest ∧ Agree x.2 ys ∧
        ChanOk holds t r.1.chan (Function.update q (v, u) rest)) ∨
      (r.2 = .quiet u ∧ r.1.node = s.node ∧ q (v, u) = [] ∧ ChanOk holds t r.1.chan q) := by
  obtain ⟨p, hp⟩ := hj.parent
  obtain ⟨hwords, hle, htrans⟩ := recv_words kind hlen
  have hold := hchan p c hp
  have hside : (side t c u).other = side t c v := side_other hj
  have hcont : contents q p c (side t c v) = (q (v, u)).map Prod.snd := contents_side hj.symm hp
  simp only [Sys.recvTurn]
  cases hr : (kind.recv (s.node u).buf).got?
      (B.call (s.chan c) (side t c u) (kind.recv (s.node u).buf)).2 with
  | some ys =>
    obtain ⟨hys, xs, rest, hq, hag, hold'⟩ := hB.got hold hle hr
    rw [hside, hcont] at hq
    obtain ⟨x, rest', hx, rfl, rfl⟩ := List.map_eq_cons_iff.mp hq
    refine .inl ⟨ys, x, rest', rfl, rfl, by rw [hys, hwords], hx, hag,
      hchan.set hp ?_ fun p' c' hp' hc => contents_update_other hj.symm hp' hc _⟩
    rwa [hside, ← contents_update hj.symm hp] at hold'
  | none =>
    obtain ⟨hblocks, hnil, hold'⟩ := hB.empty hold hle htrans hr
    rw [hside, hcont, List.map_eq_nil_iff] at hnil
    simp only
    rw [if_pos hblocks]
    exact .inr ⟨rfl, rfl, hnil, hchan.set hp hold' fun _ _ _ _ => rfl⟩

theorem ok_update {f : ι → Node} (h : ∀ v, NodeOk t sc v (f v)) {u : ι} {nd : Node} {act : Act ι}
    (hl : Local t sc u (f u) act nd) (v : ι) : NodeOk t sc v (Function.update f u nd v) := by
  by_cases hv : v = u
  · subst hv
    rw [Function.update_self]
    exact nodeOk_local (h v) hl
  · rw [Function.update_of_ne hv]
    exact h v

omit [DecidableEq ι] in
/-- In a call a node's buffer has room in a slot. -/
theorem NodeOk.buf_le {u : ι} {nd : Node} (h : NodeOk t sc u nd) (hpc : nd.pc ≠ .idle) :
    nd.buf.length ≤ 7 := by
  rw [h.buf hpc]
  exact sc.fits u nd.done

section Turns

variable {s s' : Sys ι B} {a : Net ι} {u : ι} {e : Ev ι}

/-- A turn that neither sends nor receives. -/
theorem Rep.local (h : Rep holds t sc s a) {nd : Node} {act : Act ι}
    (hl : Local t sc u (a.node u) act nd) : Rep holds t sc (s.setNode u nd) (a.setNode u nd) where
  node := by rw [Net.setNode_node, Sys.setNode, h.node]
  ok := ok_update h.ok hl
  chan := h.chan

/-- A turn that tries to send. -/
theorem Rep.send (hB : B.IsFifo holds) (h : Rep holds t sc s a) {c v : ι} {kind : Kind}
    (next onFail : Pc) (hj : Joins t c u v) (hpc : (a.node u).pc ≠ .idle)
    (hl : Local t sc u (a.node u) (.put v (kind.words (a.node u).buf))
      { a.node u with pc := next }) :
    ∃ a', Rep holds t sc (s.sendTurn t c u v kind next onFail).1 a' ∧
      NStep t sc a (s.sendTurn t c u v kind next onFail).2 a' := by
  have hlen : (s.node u).buf.length ≤ 7 := by
    rw [h.node]
    exact (h.ok u).buf_le hpc
  rcases sendTurn_spec hB h.chan hj hlen kind next onFail with ⟨he, hn, hc⟩ | ⟨he, hn, -, hc⟩
  · rw [h.node] at he hn hc
    refine ⟨(a.setNode u { a.node u with pc := next }).setQueue u v
      (a.queue (u, v) ++ [((a.node u).done, kind.words (a.node u).buf)]),
      ⟨hn, ok_update h.ok hl, hc⟩, ?_⟩
    rw [he]
    exact .put hl
  · refine ⟨a, ⟨hn.trans h.node, h.ok, hc⟩, ?_⟩
    rw [he]
    exact .stay

/-- A turn that tries to receive. -/
theorem Rep.recv (hB : B.IsFifo holds) (h : Rep holds t sc s a) {c v : ι} {kind : Kind}
    (next : Pc) (hj : Joins t c u v) (hpc : (a.node u).pc ≠ .idle)
    (hl : ∀ ys, ys.length = (kind.words (a.node u).buf).length →
      Local t sc u (a.node u) (.got v ys)
        { a.node u with pc := next, buf := kind.store (a.node u).buf ys }) :
    ∃ a', Rep holds t sc (s.recvTurn t c u v kind next).1 a' ∧
      NStep t sc a (s.recvTurn t c u v kind next).2 a' := by
  have hlen : (s.node u).buf.length ≤ 7 := by
    rw [h.node]
    exact (h.ok u).buf_le hpc
  rcases recvTurn_spec hB h.chan hj hlen kind next with
    ⟨ys, x, rest, he, hn, hys, hq, hag, hc⟩ | ⟨he, hn, -, hc⟩
  · rw [h.node] at he hn hys
    refine ⟨(a.setNode u { a.node u with pc := next, buf := kind.store (a.node u).buf ys }).setQueue
      v u rest, ⟨hn, ok_update h.ok (hl ys hys), hc⟩, ?_⟩
    rw [he]
    exact .got (hl ys hys) hq hag
  · refine ⟨a, ⟨hn.trans h.node, h.ok, hc⟩, ?_⟩
    rw [he]
    exact .stay

/-- **Every turn of the system is a step of the network.** -/
theorem rep_turn (hB : B.IsFifo holds) (h : Rep holds t sc s a)
    (hturn : s.turn t sc u = some (s', e)) : ∃ a', Rep holds t sc s' a' ∧ NStep t sc a e a' := by
  have hok := (h.ok u).pc
  simp only [Sys.turn, h.node] at hturn
  rcases hnd : a.node u with ⟨done, pc, buf⟩
  rw [hnd] at hok
  simp only [hnd] at hturn
  cases pc with
  | idle =>
    cases hcall : sc.calls[done]? with
    | none => simp [hcall] at hturn
    | some call =>
      simp only [hcall, Option.some.injEq, Prod.mk.injEq] at hturn
      obtain ⟨rfl, rfl⟩ := hturn
      have hl : Local t sc u (a.node u) .enter _ := hnd ▸ Local.enter hcall
      exact ⟨_, h.local hl, by simpa only [hnd] using NStep.enter hl⟩
  | gather kind recv num i =>
    by_cases hnum : num < (t.children u).length
    · cases hc : (t.children u)[i]? with
      | none => simp [hnum, hc] at hturn
      | some c =>
        simp only [hnum, if_true, hc] at hturn
        split at hturn
        · rename_i hpoll
          simp only [Option.some.injEq] at hturn
          have hj : Joins t c u c := .inl ⟨WiredTree.parent_of_getElem? hc, rfl⟩
          have := h.recv hB (.gather kind (recv.set i true) (num + 1)
            (nextChild (t.children u).length i)) hj (by rw [hnd]; nofun)
            (fun ys hys => by rw [hnd] at hys ⊢; exact .take hc hpoll.1 hys)
          rwa [hturn] at this
        · simp only [Option.some.injEq, Prod.mk.injEq] at hturn
          obtain ⟨rfl, rfl⟩ := hturn
          have hl : Local t sc u (a.node u) .quiet _ := hnd ▸ Local.poll hc
          exact ⟨_, h.local hl, .quiet hl⟩
    · simp only [hnum, if_false, Option.some.injEq, Prod.mk.injEq] at hturn
      obtain ⟨rfl, rfl⟩ := hturn
      have hl : Local t sc u (a.node u) .quiet _ := hnd ▸ Local.gathered (Nat.le_of_not_lt hnum)
      exact ⟨_, h.local hl, .quiet hl⟩
  | sendUp kind =>
    cases hcall : sc.calls[done]? with
    | none => simp [hcall] at hturn
    | some call =>
      cases hp : t.parent u with
      | none =>
        simp only [hcall, hp, Option.some.injEq, Prod.mk.injEq] at hturn
        obtain ⟨rfl, rfl⟩ := hturn
        have hl : Local t sc u (a.node u) .quiet _ := hnd ▸ Local.skipUp hp hcall
        exact ⟨_, h.local hl, .quiet hl⟩
      | some p =>
        simp only [hcall, hp, Option.some.injEq] at hturn
        have := h.send hB (call.afterReduce t u) (call.afterReduce t u)
          (.inr ⟨hp, rfl⟩) (by rw [hnd]; nofun) (by rw [hnd]; exact .putUp hp hcall)
        rwa [hturn] at this
  | recvDown kind =>
    cases hp : t.parent u with
    | none => simp [hp] at hturn
    | some p =>
      simp only [hp, Option.some.injEq] at hturn
      have := h.recv hB (.sendDown kind 0) (.inr ⟨hp, rfl⟩) (by rw [hnd]; nofun)
        (fun ys hys => by rw [hnd] at hys ⊢; exact .gotDown hp hys)
      rwa [hturn] at this
  | sendDown kind i =>
    cases hc : (t.children u)[i]? with
    | none =>
      simp only [hc, Option.some.injEq, Prod.mk.injEq] at hturn
      obtain ⟨rfl, rfl⟩ := hturn
      have hl : Local t sc u (a.node u) .quiet _ := hnd ▸ Local.sentDown hc
      exact ⟨_, h.local hl, .quiet hl⟩
    | some c =>
      simp only [hc, Option.some.injEq] at hturn
      have hj : Joins t c u c := .inl ⟨WiredTree.parent_of_getElem? hc, rfl⟩
      have := h.send hB (.sendDown kind (i + 1)) .failed hj
        (by rw [hnd]; nofun) (by rw [hnd]; exact .putDown hc)
      rwa [hturn] at this
  | ret =>
    simp only [Option.some.injEq, Prod.mk.injEq] at hturn
    obtain ⟨rfl, rfl⟩ := hturn
    have hl : Local t sc u (a.node u) .ret _ := hnd ▸ Local.ret
    exact ⟨_, h.local hl, by simpa only [hnd] using NStep.ret hl⟩
  | failed => exact hok.elim

/-- **Every run of the system is a run of the network**, over any backend that is a FIFO. -/
theorem reachable_net (hB : B.IsFifo holds) {chan : ι → B.State}
    (hinit : ∀ c, c ≠ t.root → holds (chan c) fun _ => []) {tr : List (Ev ι)}
    (hrun : Run (Step t sc) (Sys.init chan) tr s) :
    ∃ a, Rep holds t sc s a ∧ Run (NStep t sc) Net.init tr a := by
  refine Run.induct (fun tr s => ∃ a, Rep holds t sc s a ∧ Run (NStep t sc) Net.init tr a)
    ?_ ?_ hrun
  · refine ⟨Net.init, ⟨rfl, fun u => nodeOk_init t sc u, ?_⟩, .nil⟩
    intro p c hp
    have hnil : contents (Net.init (ι := ι)).queue p c = fun _ => [] := by
      funext d
      cases d <;> rfl
    rw [hnil]
    exact hinit c fun hc => by simp [(t.parent_eq_none c).mpr hc] at hp
  · rintro tr s e s' ⟨a, hrep, hnet⟩ ⟨u, hturn⟩
    obtain ⟨a', hrep', hstep⟩ := rep_turn hB hrep hturn
    exact ⟨a', hrep', hnet.snoc hstep⟩

end Turns

end Simulation

end Smelt.Collective
