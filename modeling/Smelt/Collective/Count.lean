/-
# How many messages a neighbour has seen

No node counts messages, and no message carries a number.  That the `k`-th call of one node meets
the `k`-th call of its neighbour rests on this: what a node has sent to a neighbour, and what it
has received from it, is a function of its own place alone.  `sentCount` and `gotCount` are these
functions: one message for each finished call that uses the edge, and one more when the current
call has already used it.

A local step moves them exactly when it sends or receives (`sent_local`, `got_local`), so in the
network the difference of the two ends of an edge is the length of the queue between them
(`NetInv`).  And a queued item's call number is determined by its position, which is what makes
the neighbours' calls meet (`netInv_step`, `reads_step`).
-/
import Smelt.Collective.Net

namespace Smelt.Collective

variable {ι : Type} [DecidableEq ι]

/-! ## 1. The counters -/

/-- `u` and `v` are the two ends of an edge. -/
def Adj (t : WiredTree ι) (u v : ι) : Prop := t.parent u = some v ∨ t.parent v = some u

/-- The call moves a message from `u` to `v`: up the tree in its reduction, down in its
broadcast. -/
def uses (t : WiredTree ι) (u v : ι) (call : Coll) : Bool :=
  if t.parent u = some v then call.up?.isSome else call.down?.isSome

/-- The number of calls before the `k`-th that move a message from `u` to `v`. -/
def before (t : WiredTree ι) (sc : Script ι) (u v : ι) (k : ℕ) : ℕ :=
  (sc.calls.take k).countP (uses t u v)

/-- In its current call `u` has sent to `v`, if the call does so at all. -/
def hasSent (t : WiredTree ι) (u v : ι) : Pc → Bool
  | .recvDown _ => t.parent u = some v
  | .sendDown _ i => t.parent u = some v ∨ (t.children u).idxOf v < i
  | .ret => true
  | _ => false

/-- In its current call `u` has received from `v`, if the call does so at all. -/
def hasGot (t : WiredTree ι) (u v : ι) : Pc → Bool
  | .gather _ recv _ _ => t.parent v = some u ∧ recv[(t.children u).idxOf v]? = some true
  | .sendUp _ => t.parent v = some u
  | .recvDown _ => t.parent v = some u
  | .sendDown _ _ => true
  | .ret => true
  | _ => false

/-- What `u` has sent to `v`, by its place. -/
def sentCount (t : WiredTree ι) (sc : Script ι) (u v : ι) (nd : Node) : ℕ :=
  before t sc u v nd.done +
    if sc.calls[nd.done]?.any (uses t u v) && hasSent t u v nd.pc then 1 else 0

/-- What `u` has received from `v`, by its place. -/
def gotCount (t : WiredTree ι) (sc : Script ι) (u v : ι) (nd : Node) : ℕ :=
  before t sc v u nd.done +
    if sc.calls[nd.done]?.any (uses t v u) && hasGot t u v nd.pc then 1 else 0

section Local

variable {t : WiredTree ι} {sc : Script ι} {u v : ι} {nd nd' : Node} {act : Act ι}

theorem before_succ (t : WiredTree ι) (sc : Script ι) (u v : ι) (k : ℕ) :
    before t sc u v (k + 1) =
      before t sc u v k + if sc.calls[k]?.any (uses t u v) then 1 else 0 := by
  unfold before
  rw [List.take_add_one, List.countP_append]
  cases sc.calls[k]? with
  | none => simp
  | some call => simp [List.countP_cons]

theorem before_mono (t : WiredTree ι) (sc : Script ι) (u v : ι) {k k' : ℕ} (h : k ≤ k') :
    before t sc u v k ≤ before t sc u v k' :=
  List.Sublist.countP_le (List.take_sublist_take_left h)

/-- **The number of a call that uses an edge is determined by how many did before it.** -/
theorem before_inj {k k' : ℕ} {call call' : Coll} (hk : sc.calls[k]? = some call)
    (hu : uses t u v call = true) (hk' : sc.calls[k']? = some call')
    (hu' : uses t u v call' = true) (h : before t sc u v k = before t sc u v k') : k = k' := by
  have h1 := before_succ t sc u v k
  have h2 := before_succ t sc u v k'
  simp only [hk, hk', Option.any_some, hu, hu', if_true] at h1 h2
  rcases Nat.lt_trichotomy k k' with hlt | heq | hlt
  · have := before_mono t sc u v (show k + 1 ≤ k' from hlt)
    omega
  · exact heq
  · have := before_mono t sc u v (show k' + 1 ≤ k from hlt)
    omega

@[simp] theorem hasSent_idle (t : WiredTree ι) (u v : ι) : hasSent t u v .idle = false := rfl

@[simp] theorem hasSent_sendUp (t : WiredTree ι) (u v : ι) (kind : Kind) :
    hasSent t u v (.sendUp kind) = false := rfl

@[simp] theorem hasSent_ret (t : WiredTree ι) (u v : ι) : hasSent t u v .ret = true := rfl

@[simp] theorem hasGot_idle (t : WiredTree ι) (u v : ι) : hasGot t u v .idle = false := rfl

@[simp] theorem hasGot_ret (t : WiredTree ι) (u v : ι) : hasGot t u v .ret = true := rfl

@[simp] theorem hasGot_sendDown (t : WiredTree ι) (u v : ι) (kind : Kind) (i : ℕ) :
    hasGot t u v (.sendDown kind i) = true := rfl

theorem sentCount_of_call {done : ℕ} {b : List Word} {pc : Pc} {call : Coll}
    (hcall : sc.calls[done]? = some call) : sentCount t sc u v ⟨done, pc, b⟩ =
      before t sc u v done + if uses t u v call && hasSent t u v pc then 1 else 0 := by
  simp [sentCount, hcall]

theorem gotCount_of_call {done : ℕ} {b : List Word} {pc : Pc} {call : Coll}
    (hcall : sc.calls[done]? = some call) : gotCount t sc u v ⟨done, pc, b⟩ =
      before t sc v u done + if uses t v u call && hasGot t u v pc then 1 else 0 := by
  simp [gotCount, hcall]

theorem sentCount_ret {done : ℕ} {b : List Word} :
    sentCount t sc u v ⟨done + 1, .idle, b⟩ = sentCount t sc u v ⟨done, .ret, b⟩ := by
  simp [sentCount, hasSent, before_succ]

theorem gotCount_ret {done : ℕ} {b : List Word} :
    gotCount t sc u v ⟨done + 1, .idle, b⟩ = gotCount t sc u v ⟨done, .ret, b⟩ := by
  simp [gotCount, hasGot, before_succ]

theorem uses_up (h : t.parent u = some v) (call : Coll) :
    uses t u v call = call.up?.isSome := by
  simp [uses, h]

theorem uses_down (h : t.parent v = some u) (call : Coll) :
    uses t u v call = call.down?.isSome := by
  simp [uses, WiredTree.parent_asymm h]

/-- The neighbour a step sends to. -/
def Act.putTo : Act ι → Option ι
  | .put v _ => some v
  | _ => none

/-- The neighbour a step receives from. -/
def Act.gotFrom : Act ι → Option ι
  | .got v _ => some v
  | _ => none

omit [DecidableEq ι] in
/-- A child that is not in place `i`. -/
theorem idxOf_ne [DecidableEq ι] {c : ι} {i : ℕ} (hc : (t.children u)[i]? = some c)
    (hv : t.parent v = some u) (hne : c ≠ v) : (t.children u).idxOf v ≠ i := by
  rintro rfl
  have hlt := List.idxOf_lt_length_of_mem ((t.mem_children u v).mpr hv)
  rw [List.getElem?_eq_getElem hlt, List.getElem_idxOf hlt] at hc
  exact hne (Option.some.inj hc).symm

/-- **A node's count of what it has sent moves exactly when it sends.** -/
theorem sent_local (hok : NodeOk t sc u nd) (hadj : Adj t u v) (hl : Local t sc u nd act nd') :
    sentCount t sc u v nd' = sentCount t sc u v nd + if act.putTo = some v then 1 else 0 := by
  have hpc := hok.pc
  cases hl with
  | @enter done b call hcall =>
    have hfalse : (uses t u v call && hasSent t u v (call.entry t u)) = false := by
      rcases entry_cases t u call with ⟨kind, -, he⟩ | ⟨kind, hup, -, he⟩
      · simp [he, reduceEntry, hasSent]
      · rcases hadj with h | h
        · simp [uses_up h, hup]
        · have hne : ¬ t.parent u = some v := WiredTree.parent_asymm h
          rw [he, broadcastEntry]
          split <;> simp [hasSent, hne]
    rw [sentCount_of_call hcall, sentCount_of_call hcall, hfalse]
    simp [Act.putTo]
  | poll hc => rfl
  | take hc hrecv hys => rfl
  | gathered hnum => rfl
  | @skipUp done b kind call hp hcall =>
    obtain ⟨call', hcall', hup⟩ := hpc
    obtain rfl := Option.some.inj (hcall.symm.trans hcall')
    have hne : ¬ t.parent u = some v := by simp [hp]
    have hdown : t.parent v = some u := hadj.resolve_left hne
    have hfalse : (uses t u v call && hasSent t u v (call.afterReduce t u)) = false := by
      rcases afterReduce_cases t u hup with ⟨hd, he⟩ | ⟨kind', -, he⟩
      · simp [uses_down hdown, hd]
      · simp [he, broadcastEntry, hp, hasSent]
    rw [sentCount_of_call hcall, sentCount_of_call hcall, hfalse]
    simp [Act.putTo]
  | @putUp done b kind call p hp hcall =>
    obtain ⟨call', hcall', hup⟩ := hpc
    obtain rfl := Option.some.inj (hcall.symm.trans hcall')
    rcases hadj with h | h
    · obtain rfl : p = v := Option.some.inj (hp.symm.trans h)
      have htrue : (uses t u p call && hasSent t u p (call.afterReduce t u)) = true := by
        rcases afterReduce_cases t u hup with ⟨-, he⟩ | ⟨kind', -, he⟩
        · simp [uses_up h, hup, he, hasSent]
        · simp [uses_up h, hup, he, broadcastEntry, hp, hasSent]
      rw [sentCount_of_call hcall, sentCount_of_call hcall, htrue]
      simp [Act.putTo]
    · have hne : ¬ p = v := fun hh => WiredTree.parent_asymm h (hh ▸ hp)
      have hfalse : (uses t u v call && hasSent t u v (call.afterReduce t u)) = false := by
        rcases afterReduce_cases t u hup with ⟨hd, he⟩ | ⟨kind', -, he⟩
        · simp [uses_down h, hd]
        · simp [he, broadcastEntry, hp, hasSent, hne]
      rw [sentCount_of_call hcall, sentCount_of_call hcall, hfalse]
      simp [Act.putTo, hne]
  | gotDown hp hys =>
    have hsame : ∀ kind : Kind,
        hasSent t u v (.sendDown kind 0) = hasSent t u v (.recvDown kind) := by
      intro kind
      simp [hasSent]
    simp [sentCount, hsame, Act.putTo]
  | @putDown done i b kind c hc =>
    obtain ⟨⟨call, hcall, hd⟩, -⟩ := hpc
    have hpc' := WiredTree.parent_of_getElem? hc
    have hidx := WiredTree.idxOf_children hc
    by_cases hcv : c = v
    · subst hcv
      have hne : ¬ t.parent u = some c := WiredTree.parent_asymm hpc'
      simp [sentCount, hcall, uses_down hpc', hd, hasSent, hne, hidx, Act.putTo]
    · have hsame : hasSent t u v (.sendDown kind (i + 1)) = hasSent t u v (.sendDown kind i) := by
        rcases hadj with h | h
        · simp [hasSent, h]
        · have := idxOf_ne hc h hcv
          have hiff : (t.children u).idxOf v < i + 1 ↔ (t.children u).idxOf v < i := by omega
          simp [hasSent, hiff]
      simp [sentCount, hsame, Act.putTo, hcv]
  | @sentDown done i b kind hc =>
    have hsame : hasSent t u v (.sendDown kind i) = true := by
      rcases hadj with h | h
      · simp [hasSent, h]
      · have hlt := List.idxOf_lt_length_of_mem ((t.mem_children u v).mpr h)
        have hle := List.getElem?_eq_none_iff.mp hc
        simp only [hasSent, decide_eq_true_iff]
        exact .inr (by omega)
    simp [sentCount, hsame, Act.putTo]
  | ret => exact sentCount_ret

omit [DecidableEq ι] in
/-- When as many flags are set as there are children, all are. -/
theorem getElem?_of_count (recv : List Bool) (i : ℕ) (hi : i < recv.length)
    (h : recv.length ≤ recv.count true) : recv[i]? = some true := by
  have heq : recv.count true = recv.length := Nat.le_antisymm List.count_le_length h
  have hmem : recv[i] ∈ recv := List.getElem_mem hi
  rw [List.getElem?_eq_getElem hi, ← List.count_eq_length.mp heq _ hmem]

/-- **A node's count of what it has received moves exactly when it receives.** -/
theorem got_local (hok : NodeOk t sc u nd) (hadj : Adj t u v) (hl : Local t sc u nd act nd') :
    gotCount t sc u v nd' = gotCount t sc u v nd + if act.gotFrom = some v then 1 else 0 := by
  have hpc := hok.pc
  cases hl with
  | @enter done b call hcall =>
    have hfalse : (uses t v u call && hasGot t u v (call.entry t u)) = false := by
      rcases entry_cases t u call with ⟨kind, -, he⟩ | ⟨kind, hup, -, he⟩
      · simp only [he, reduceEntry, hasGot, List.getElem?_replicate]
        split <;> simp
      · rcases hadj with h | h
        · have hne : ¬ t.parent v = some u := WiredTree.parent_asymm h
          simp [he, broadcastEntry, h, hasGot, hne]
        · simp [uses_up h, hup]
    rw [gotCount_of_call hcall, gotCount_of_call hcall, hfalse]
    simp [Act.gotFrom]
  | poll hc => rfl
  | @take done num i b ys kind recv c hc hrecv hys =>
    obtain ⟨⟨call, hcall, hup⟩, hlen, -, -⟩ := hpc
    have hpc' := WiredTree.parent_of_getElem? hc
    have hidx := WiredTree.idxOf_children hc
    obtain ⟨hi, hval⟩ := List.getElem?_eq_some_iff.mp hrecv
    by_cases hcv : c = v
    · subst hcv
      simp [gotCount, hcall, uses_up hpc', hup, hasGot, hpc', hidx, hi, hval, Act.gotFrom]
    · have hsame : ∀ num' i', hasGot t u v (.gather kind (recv.set i true) num' i') =
          hasGot t u v (.gather kind recv num i) := by
        intro num' i'
        by_cases h : t.parent v = some u
        · have := idxOf_ne hc h hcv
          simp [hasGot, h, Ne.symm this]
        · simp [hasGot, h]
      simp [gotCount, hsame, Act.gotFrom, hcv]
  | @gathered done num i b kind recv hnum =>
    obtain ⟨-, hlen, hcount, -⟩ := hpc
    have hsame : hasGot t u v (.gather kind recv num i) = hasGot t u v (.sendUp kind) := by
      by_cases h : t.parent v = some u
      · have hlt := List.idxOf_lt_length_of_mem ((t.mem_children u v).mpr h)
        have := getElem?_of_count recv ((t.children u).idxOf v) (by omega) (by omega)
        simp [hasGot, h, this]
      · simp [hasGot, h]
    simp [gotCount, hsame, Act.gotFrom]
  | @skipUp done b kind call hp hcall =>
    obtain ⟨call', hcall', hup⟩ := hpc
    obtain rfl := Option.some.inj (hcall.symm.trans hcall')
    have hdown : t.parent v = some u := hadj.resolve_left (by simp [hp])
    have hsame : hasGot t u v (call.afterReduce t u) = hasGot t u v (.sendUp kind) := by
      rcases afterReduce_cases t u hup with ⟨-, he⟩ | ⟨kind', -, he⟩
      · simp [he, hasGot, hdown]
      · simp [he, broadcastEntry, hp, hasGot, hdown]
    rw [gotCount_of_call hcall, gotCount_of_call hcall, hsame]
    simp [Act.gotFrom]
  | @putUp done b kind call p hp hcall =>
    obtain ⟨call', hcall', hup⟩ := hpc
    obtain rfl := Option.some.inj (hcall.symm.trans hcall')
    have hsame : (uses t v u call && hasGot t u v (call.afterReduce t u)) =
        (uses t v u call && hasGot t u v (.sendUp kind)) := by
      rcases afterReduce_cases t u hup with ⟨hd, he⟩ | ⟨kind', -, he⟩
      · rcases hadj with h | h
        · simp [uses_down h, hd]
        · simp [he, hasGot, h]
      · simp [he, broadcastEntry, hp, hasGot]
    rw [gotCount_of_call hcall, gotCount_of_call hcall, hsame]
    simp [Act.gotFrom]
  | @gotDown done b ys kind p hp hys =>
    obtain ⟨⟨call, hcall, hd⟩, -⟩ := hpc
    by_cases hpv : p = v
    · subst hpv
      have hne : ¬ t.parent p = some u := WiredTree.parent_asymm hp
      simp [gotCount, hcall, uses_down hp, hd, hasGot, hne, Act.gotFrom]
    · have h : t.parent v = some u :=
        hadj.resolve_left fun h => hpv (Option.some.inj (hp.symm.trans h))
      simp [gotCount, hasGot, h, Act.gotFrom, hpv]
  | putDown hc => simp [gotCount, Act.gotFrom]
  | sentDown hc => simp [gotCount, Act.gotFrom]
  | ret => exact gotCount_ret

/-- A send goes to a neighbour, in a call that uses the edge and has not used it yet. -/
theorem put_ready {xs : List Word} (hok : NodeOk t sc u nd) (hl : Local t sc u nd (.put v xs) nd') :
    Adj t u v ∧ sentCount t sc u v nd = before t sc u v nd.done ∧
      ∃ call, sc.calls[nd.done]? = some call ∧ uses t u v call = true := by
  have hpc := hok.pc
  cases hl with
  | putUp hp hcall =>
    obtain ⟨call', hcall', hup⟩ := hpc
    exact ⟨.inl hp, by simp [sentCount], call', hcall', by simp [uses_up hp, hup]⟩
  | putDown hc =>
    obtain ⟨⟨call, hcall, hd⟩, -⟩ := hpc
    have hp := WiredTree.parent_of_getElem? hc
    have hne : ¬ t.parent u = some v := WiredTree.parent_asymm hp
    refine ⟨.inr hp, ?_, call, hcall, by simp [uses_down hp, hd]⟩
    simp [sentCount, hasSent, hne, WiredTree.idxOf_children hc]

/-- A receive comes from a neighbour, in a call that uses the edge and has not used it yet. -/
theorem got_ready {ys : List Word} (hok : NodeOk t sc u nd) (hl : Local t sc u nd (.got v ys) nd') :
    Adj t u v ∧ gotCount t sc u v nd = before t sc v u nd.done ∧
      ∃ call, sc.calls[nd.done]? = some call ∧ uses t v u call = true := by
  have hpc := hok.pc
  cases hl with
  | take hc hrecv hys =>
    obtain ⟨⟨call, hcall, hup⟩, -⟩ := hpc
    have hp := WiredTree.parent_of_getElem? hc
    refine ⟨.inr hp, ?_, call, hcall, by simp [uses_up hp, hup]⟩
    simp [gotCount, hasGot, WiredTree.idxOf_children hc, hrecv]
  | gotDown hp hys =>
    obtain ⟨⟨call, hcall, hd⟩, -⟩ := hpc
    have hne : ¬ t.parent v = some u := WiredTree.parent_asymm hp
    exact ⟨.inl hp, by simp [gotCount, hasGot, hne], call, hcall, by simp [uses_down hp, hd]⟩

end Local

/-! ## 2. The queues between them -/

omit [DecidableEq ι] in
theorem Adj.symm {t : WiredTree ι} {u v : ι} (h : Adj t u v) : Adj t v u := h.elim .inr .inl

/-- The network between two steps: each queue is the difference of its ends' counters, and a
queued item was sent in the call that its position says. -/
structure NetInv (t : WiredTree ι) (sc : Script ι) (a : Net ι) : Prop where
  ok : ∀ u, NodeOk t sc u (a.node u)
  count : ∀ u v, Adj t u v →
    gotCount t sc v u (a.node v) + (a.queue (u, v)).length = sentCount t sc u v (a.node u)
  item : ∀ u v, Adj t u v → ∀ (i : ℕ) (x : Item), (a.queue (u, v))[i]? = some x →
    (∃ call, sc.calls[x.1]? = some call ∧ uses t u v call = true) ∧
      before t sc u v x.1 = gotCount t sc v u (a.node v) + i

section Step

variable {t : WiredTree ι} {sc : Script ι} {a a' : Net ι} {e : Ev ι}

theorem sent_update {f : ι → Node} (hok : ∀ w, NodeOk t sc w (f w)) {w u v : ι} {nd : Node}
    {act : Act ι} (hl : Local t sc w (f w) act nd) (hadj : Adj t u v) :
    sentCount t sc u v (Function.update f w nd u) =
      sentCount t sc u v (f u) + if u = w ∧ act.putTo = some v then 1 else 0 := by
  by_cases hu : u = w
  · subst hu
    rw [Function.update_self, sent_local (hok u) hadj hl]
    simp
  · simp [hu]

theorem got_update {f : ι → Node} (hok : ∀ w, NodeOk t sc w (f w)) {w u v : ι} {nd : Node}
    {act : Act ι} (hl : Local t sc w (f w) act nd) (hadj : Adj t u v) :
    gotCount t sc u v (Function.update f w nd u) =
      gotCount t sc u v (f u) + if u = w ∧ act.gotFrom = some v then 1 else 0 := by
  by_cases hu : u = w
  · subst hu
    rw [Function.update_self, got_local (hok u) hadj hl]
    simp
  · simp [hu]

/-- A local step that neither sends nor receives. -/
theorem NetInv.setNode (h : NetInv t sc a) {w : ι} {nd : Node} {act : Act ι}
    (hl : Local t sc w (a.node w) act nd) (hput : act.putTo = none) (hgot : act.gotFrom = none) :
    NetInv t sc (a.setNode w nd) where
  ok := ok_update h.ok hl
  count := by
    intro u v hadj
    rw [Net.setNode_node, got_update h.ok hl hadj.symm, sent_update h.ok hl hadj]
    simpa [hput, hgot] using h.count u v hadj
  item := by
    intro u v hadj i x hx
    rw [Net.setNode_node, got_update h.ok hl hadj.symm]
    simpa [hgot] using h.item u v hadj i x hx

theorem NetInv.put (h : NetInv t sc a) {w z : ι} {nd : Node} {xs : List Word}
    (hl : Local t sc w (a.node w) (.put z xs) nd) :
    NetInv t sc ((a.setNode w nd).setQueue w z
      (a.queue (w, z) ++ [((a.node w).done, xs)])) := by
  obtain ⟨hwz, hready, hcall⟩ := put_ready (h.ok w) hl
  refine ⟨ok_update h.ok hl, ?_, ?_⟩
  · intro u v hadj
    have hcount := h.count u v hadj
    simp only [Net.setQueue_node, Net.setNode_node, Net.setQueue_queue]
    rw [got_update h.ok hl hadj.symm, sent_update h.ok hl hadj]
    by_cases heq : (u, v) = (w, z)
    · obtain ⟨rfl, rfl⟩ := Prod.mk.inj heq
      simp only [Function.update_self, Act.putTo, Act.gotFrom, List.length_append,
        List.length_singleton]
      simp
      omega
    · have hne : ¬ (u = w ∧ z = v) := fun hh => heq (by rw [hh.1, hh.2])
      simp [Function.update_of_ne heq, Act.putTo, Act.gotFrom, hne, hcount]
  · intro u v hadj i x hx
    simp only [Net.setQueue_node, Net.setNode_node, Net.setQueue_queue] at hx ⊢
    rw [got_update h.ok hl hadj.symm]
    by_cases heq : (u, v) = (w, z)
    · obtain ⟨rfl, rfl⟩ := Prod.mk.inj heq
      have hcount := h.count u v hadj
      rw [Function.update_self] at hx
      rcases Nat.lt_or_ge i (a.queue (u, v)).length with hi | hi
      · rw [List.getElem?_append_left hi] at hx
        simpa [Act.gotFrom] using h.item u v hadj i x hx
      · have hlt := (List.getElem?_eq_some_iff.mp hx).1
        simp only [List.length_append, List.length_singleton] at hlt
        obtain rfl : i = (a.queue (u, v)).length := by omega
        rw [List.getElem?_concat_length, Option.some.injEq] at hx
        subst hx
        exact ⟨hcall, by simp [Act.gotFrom]; omega⟩
    · rw [Function.update_of_ne heq] at hx
      simpa [Act.gotFrom] using h.item u v hadj i x hx

theorem NetInv.got (h : NetInv t sc a) {w z : ι} {nd : Node} {ys : List Word} {x : Item}
    {q : List Item} (hl : Local t sc w (a.node w) (.got z ys) nd) (hq : a.queue (z, w) = x :: q) :
    NetInv t sc ((a.setNode w nd).setQueue z w q) := by
  obtain ⟨hwz, hready, hcall⟩ := got_ready (h.ok w) hl
  refine ⟨ok_update h.ok hl, ?_, ?_⟩
  · intro u v hadj
    have hcount := h.count u v hadj
    simp only [Net.setQueue_node, Net.setNode_node, Net.setQueue_queue]
    rw [got_update h.ok hl hadj.symm, sent_update h.ok hl hadj]
    by_cases heq : (u, v) = (z, w)
    · obtain ⟨rfl, rfl⟩ := Prod.mk.inj heq
      rw [hq, List.length_cons] at hcount
      simp [Act.putTo, Act.gotFrom]
      omega
    · have hne : ¬ (v = w ∧ z = u) := fun hh => heq (by rw [hh.1, hh.2])
      simp [Function.update_of_ne heq, Act.putTo, Act.gotFrom, hne, hcount]
  · intro u v hadj i y hy
    simp only [Net.setQueue_node, Net.setNode_node, Net.setQueue_queue] at hy ⊢
    rw [got_update h.ok hl hadj.symm]
    by_cases heq : (u, v) = (z, w)
    · obtain ⟨rfl, rfl⟩ := Prod.mk.inj heq
      rw [Function.update_self] at hy
      have := h.item u v hadj (i + 1) y (by rw [hq]; simpa using hy)
      simp only [Act.gotFrom, and_self, if_true]
      exact ⟨this.1, by omega⟩
    · have hne : ¬ (v = w ∧ z = u) := fun hh => heq (by rw [hh.1, hh.2])
      rw [Function.update_of_ne heq] at hy
      simpa [Act.gotFrom, hne] using h.item u v hadj i y hy

/-- **Every step of the network keeps the counters in step with the queues.** -/
theorem netInv_step (h : NetInv t sc a) (hstep : NStep t sc a e a') : NetInv t sc a' := by
  cases hstep with
  | enter hl => exact h.setNode hl rfl rfl
  | put hl => exact h.put hl
  | got hl hq hag => exact h.got hl hq
  | ret hl => exact h.setNode hl rfl rfl
  | quiet hl => exact h.setNode hl rfl rfl
  | stay => exact h

theorem netInv_init (t : WiredTree ι) (sc : Script ι) : NetInv t sc Net.init where
  ok u := nodeOk_init t sc u
  count u v _ := by simp [Net.init, gotCount, sentCount, before]
  item u v _ i x hx := by simp [Net.init] at hx

/-- Every reachable network is in order. -/
theorem reachable_netInv {tr : List (Ev ι)} (h : Run (NStep t sc) Net.init tr a) :
    NetInv t sc a :=
  Run.induct (fun _ a => NetInv t sc a) (netInv_init t sc)
    (fun _ _ _ _ hinv hstep => netInv_step hinv hstep) h

end Step

/-! ## 3. Call by call -/

/-- `u` has made the send to `v` of its `k`-th call. -/
def Sent (t : WiredTree ι) (u v : ι) (k : ℕ) (nd : Node) : Prop :=
  k < nd.done ∨ k = nd.done ∧ hasSent t u v nd.pc = true

/-- `u` has made the receive from `v` of its `k`-th call. -/
def Got (t : WiredTree ι) (u v : ι) (k : ℕ) (nd : Node) : Prop :=
  k < nd.done ∨ k = nd.done ∧ hasGot t u v nd.pc = true

section Calls

variable {t : WiredTree ι} {sc : Script ι} {u v : ι} {k : ℕ} {call : Coll}

/-- A counter that has passed a call that uses the edge has counted it. -/
theorem before_lt_iff (hcall : sc.calls[k]? = some call) (huses : uses t u v call = true)
    (done : ℕ) (flag : Bool) :
    before t sc u v k <
        before t sc u v done + (if sc.calls[done]?.any (uses t u v) && flag then 1 else 0) ↔
      k < done ∨ k = done ∧ flag = true := by
  have hk := before_succ t sc u v k
  simp only [hcall, Option.any_some, huses, if_true] at hk
  rcases Nat.lt_trichotomy k done with hlt | rfl | hlt
  · have := before_mono t sc u v (show k + 1 ≤ done from hlt)
    exact ⟨fun _ => .inl hlt, fun _ => by omega⟩
  · cases flag <;> simp [hcall, huses]
  · have hd := before_succ t sc u v done
    have := before_mono t sc u v (show done + 1 ≤ k from hlt)
    have hle : (if sc.calls[done]?.any (uses t u v) && flag then 1 else 0) ≤
        if sc.calls[done]?.any (uses t u v) then 1 else 0 := by
      cases flag <;> simp
    constructor
    · intro h
      omega
    · rintro (h | ⟨h, -⟩) <;> omega

theorem before_lt_sentCount_iff (hcall : sc.calls[k]? = some call) (huses : uses t u v call = true)
    (nd : Node) : before t sc u v k < sentCount t sc u v nd ↔ Sent t u v k nd :=
  before_lt_iff hcall huses nd.done _

theorem before_lt_gotCount_iff (hcall : sc.calls[k]? = some call) (huses : uses t v u call = true)
    (nd : Node) : before t sc v u k < gotCount t sc u v nd ↔ Got t u v k nd :=
  before_lt_iff hcall huses nd.done _

/-- **What was received was sent**, in the call of the same number. -/
theorem NetInv.sent_of_got {a : Net ι} (h : NetInv t sc a) (hadj : Adj t u v)
    (hcall : sc.calls[k]? = some call) (huses : uses t u v call = true)
    (hgot : Got t v u k (a.node v)) : Sent t u v k (a.node u) := by
  rw [← before_lt_sentCount_iff hcall huses]
  have h1 := (before_lt_gotCount_iff hcall huses (a.node v)).mpr hgot
  have h2 := h.count u v hadj
  omega

/-- What was sent and not received is queued. -/
theorem NetInv.queue_ne_nil {a : Net ι} (h : NetInv t sc a) (hadj : Adj t u v)
    (hcall : sc.calls[k]? = some call) (huses : uses t u v call = true)
    (hsent : Sent t u v k (a.node u)) (hgot : ¬ Got t v u k (a.node v)) :
    a.queue (u, v) ≠ [] := by
  rw [← before_lt_sentCount_iff hcall huses] at hsent
  rw [← before_lt_gotCount_iff hcall huses] at hgot
  have h2 := h.count u v hadj
  intro hnil
  rw [hnil, List.length_nil] at h2
  omega

end Calls

end Smelt.Collective
