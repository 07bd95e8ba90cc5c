/-
# What a reduction computes

`smlt_reduce` is meant to combine the inputs of all nodes.  It applies the operation once, to the
node's own input, and then receives each child's message INTO the result buffer, where it replaces
what was there.  So the value a node passes up is the value of the child it heard LAST, and the
root's result is the input of a single leaf: the one reached from the root by going, at each node,
to the child whose message arrived last (`LastLeaf`).

`reduce_iff_last_leaf` is the exact statement: the root's result is the combination of all inputs
just when that leaf's input happens to be, and after `smlt_reduce_all` every node has the root's
result.  `reduce_loses_input` is the smallest case in which it is not.

The proof follows a value up the tree.  Arrivals are read off the trace; once all children of a
node have been heard, nothing more arrives there in this call, so the chain of last arrivals under
it is fixed (`LastLeaf.snoc`).
-/
import Smelt.Collective.Match
import Mathlib.Data.Finset.Fold
import Mathlib.Data.Fintype.Basic

namespace Smelt.Collective

variable {ι : Type} [DecidableEq ι]

/-! ## 1. Arrivals -/

/-- The child whose message `u` takes in its `k`-th call. -/
def heard (t : WiredTree ι) (u : ι) (k : ℕ) : Ev ι → Option ι
  | .got u' c k' _ => if u' = u ∧ k' = k ∧ t.parent c = some u then some c else none
  | _ => none

/-- The children `u` has heard in its `k`-th call, in the order of arrival. -/
def arrivals (t : WiredTree ι) (tr : List (Ev ι)) (u : ι) (k : ℕ) : List ι :=
  tr.filterMap (heard t u k)

/-- The leaf a node's value comes from: from a node that has heard all its children, go to the one
it heard last. -/
inductive LastLeaf (t : WiredTree ι) (tr : List (Ev ι)) (k : ℕ) : ι → ι → Prop
  | leaf {u : ι} : t.children u = [] → LastLeaf t tr k u u
  | last {u c l : ι} : (arrivals t tr u k).length = (t.children u).length →
      (arrivals t tr u k).getLast? = some c → LastLeaf t tr k c l → LastLeaf t tr k u l

section Arrivals

variable {t : WiredTree ι} {sc : Script ι} {k : ℕ} {call : Coll}

theorem arrivals_snoc (t : WiredTree ι) (tr : List (Ev ι)) (e : Ev ι) (u : ι) (k : ℕ) :
    arrivals t (tr ++ [e]) u k = arrivals t tr u k ++ (heard t u k e).toList := by
  unfold arrivals
  rw [List.filterMap_append]
  cases h : heard t u k e <;> simp [h]

theorem LastLeaf.isLeaf {tr : List (Ev ι)} {u l : ι} (h : LastLeaf t tr k u l) :
    t.children l = [] := by
  induction h with
  | leaf h => exact h
  | last _ _ _ ih => exact ih

/-- There is at most one last leaf. -/
theorem LastLeaf.unique {tr : List (Ev ι)} {u l l' : ι} (h : LastLeaf t tr k u l)
    (h' : LastLeaf t tr k u l') : l = l' := by
  -- a leaf has no arrivals, so the two constructors exclude each other
  have hleaf : ∀ {u c : ι}, t.children u = [] →
      (arrivals t tr u k).length = (t.children u).length →
      (arrivals t tr u k).getLast? ≠ some c := by
    intro u c hu hlen hc
    rw [hu, List.length_nil, List.length_eq_zero_iff] at hlen
    simp [hlen] at hc
  induction h with
  | leaf hu =>
    cases h' with
    | leaf _ => rfl
    | last hlen hc _ => exact absurd hc (hleaf hu hlen)
  | last hlen hc _ ih =>
    cases h' with
    | leaf hu => exact absurd hc (hleaf hu hlen)
    | last _ hc' hl' =>
      obtain rfl := Option.some.inj (hc.symm.trans hc')
      exact ih hl'

/-- Where all children have been heard, nothing more arrives: the chain is fixed. -/
theorem LastLeaf.snoc {tr : List (Ev ι)} {u l : ι} {e : Ev ι} (h : LastLeaf t tr k u l)
    (he : ∀ w c, heard t w k e = some c → (arrivals t tr w k).length < (t.children w).length) :
    LastLeaf t (tr ++ [e]) k u l := by
  induction h with
  | leaf h => exact .leaf h
  | @last u c l hlen hlast _ ih =>
    have hnone : heard t u k e = none := by
      rw [Option.eq_none_iff_forall_ne_some]
      intro c' hc'
      have := he u c' hc'
      omega
    refine .last ?_ ?_ ih
    · simpa [arrivals_snoc, hnone] using hlen
    · simpa [arrivals_snoc, hnone] using hlast

/-- How many children a node has heard in the `k`-th call, by its place. -/
def heardCount (t : WiredTree ι) (u : ι) (k : ℕ) (nd : Node) : ℕ :=
  if k < nd.done then (t.children u).length
  else if k = nd.done then
    match nd.pc with
    | .idle => 0
    | .gather _ _ num _ => num
    | _ => (t.children u).length
  else 0

omit [DecidableEq ι] in
theorem heardCount_afterReduce {u : ι} {kind : Kind} (hup : call.up? = some kind) (b : List Word)
    (done : ℕ) : heardCount t u k ⟨done, call.afterReduce t u, b⟩ =
      heardCount t u k ⟨done, .sendUp kind, b⟩ := by
  rcases afterReduce_cases t u hup with ⟨-, he⟩ | ⟨kind', -, he⟩
  · rw [he]
    rfl
  · rw [he, broadcastEntry]
    split <;> rfl

/-- **A node's place counts its arrivals.** -/
theorem heard_local {u : ι} {nd nd' : Node} {act : Act ι} (hok : NodeOk t sc u nd)
    (hcall : sc.calls[k]? = some call) {kind : Kind} (hup : call.up? = some kind)
    (hl : Local t sc u nd act nd') :
    heardCount t u k nd' = heardCount t u k nd + (heard t u k (act.ev u nd)).toList.length := by
  have hpc := hok.pc
  cases hl with
  | @enter done b call' hcall' =>
    by_cases hk : k = done
    · subst hk
      obtain rfl := Option.some.inj (hcall.symm.trans hcall')
      rcases entry_cases t u call with ⟨kind', -, he⟩ | ⟨kind', hup', -⟩
      · simp [heardCount, he, reduceEntry, heard, Act.ev]
      · rw [hup] at hup'
        cases hup'
    · simp [heardCount, hk, heard, Act.ev]
  | poll hc => simp [heardCount, heard, Act.ev]
  | @take done num i b ys kind recv c hc hrecv hys =>
    have hp := WiredTree.parent_of_getElem? hc
    rcases Nat.lt_trichotomy k done with hlt | rfl | hlt
    · simp [heardCount, hlt, heard, Act.ev, Nat.ne_of_gt hlt]
    · simp [heardCount, heard, Act.ev, hp]
    · simp [heardCount, Nat.not_lt_of_gt hlt, Nat.ne_of_gt hlt, heard, Act.ev, Nat.ne_of_lt hlt]
  | @gathered done num i b kind recv hnum =>
    obtain ⟨-, hlen, hcount, -⟩ := hpc
    have hle : recv.count true ≤ recv.length := List.count_le_length
    have heq : num = (t.children u).length := by omega
    simp [heardCount, heard, Act.ev, heq]
  | skipUp hp hcall' =>
    obtain ⟨call', hcall'', hup'⟩ := hpc
    obtain rfl := Option.some.inj (hcall'.symm.trans hcall'')
    simp [heardCount_afterReduce hup', heard, Act.ev]
  | putUp hp hcall' =>
    obtain ⟨call', hcall'', hup'⟩ := hpc
    obtain rfl := Option.some.inj (hcall'.symm.trans hcall'')
    simp [heardCount_afterReduce hup', heard, Act.ev]
  | @gotDown done b ys kind p hp hys =>
    simp [heardCount, heard, Act.ev, WiredTree.parent_asymm hp]
  | putDown hc => simp [heardCount, heard, Act.ev]
  | sentDown hc => simp [heardCount, heard, Act.ev]
  | @ret done b =>
    rcases Nat.lt_trichotomy k done with hlt | rfl | hlt
    · simp [heardCount, hlt, Nat.lt_succ_of_lt hlt, heard, Act.ev]
    · simp [heardCount, heard, Act.ev]
    · have h1 : ¬ k < done + 1 := by omega
      have h2 : ¬ k < done := by omega
      have h3 : ¬ k = done := by omega
      simp [heardCount, h1, h2, h3, heard, Act.ev]

/-- What happens at other nodes is not an arrival here. -/
theorem heard_of_ne {u w : ι} (act : Act ι) (nd : Node) (h : u ≠ w) :
    heard t u k (act.ev w nd) = none := by
  cases act <;> simp [heard, Act.ev, Ne.symm h]

/-- The arrivals of a step, at every node. -/
theorem arrivals_step {a a' : Net ι} {e : Ev ι} {tr : List (Ev ι)} (hinv : NetInv t sc a)
    (hcall : sc.calls[k]? = some call) {kind : Kind} (hup : call.up? = some kind)
    (h : ∀ u, (arrivals t tr u k).length = heardCount t u k (a.node u))
    (hstep : NStep t sc a e a') (u : ι) :
    (arrivals t (tr ++ [e]) u k).length = heardCount t u k (a'.node u) := by
  rw [arrivals_snoc, List.length_append, h u]
  rcases hstep.node with ⟨hnode, w, rfl⟩ | ⟨w, act, nd, hl, hnode, rfl⟩
  · simp [hnode, heard]
  · by_cases hu : u = w
    · subst hu
      rw [hnode, Function.update_self, heard_local (hinv.ok u) hcall hup hl]
    · rw [hnode, Function.update_of_ne hu, heard_of_ne _ _ hu]
      rfl

/-- A node that takes a child's message has not heard all its children. -/
theorem lt_of_heard {a a' : Net ι} {e : Ev ι} {tr : List (Ev ι)} (hinv : NetInv t sc a)
    (h : ∀ u, (arrivals t tr u k).length = heardCount t u k (a.node u))
    (hstep : NStep t sc a e a') {w c : ι} (he : heard t w k e = some c) :
    (arrivals t tr w k).length < (t.children w).length := by
  rw [h w]
  cases hstep with
  | @got u v nd x q ys hl hq hag =>
    simp only [heard] at he
    split at he
    · rename_i hcond
      obtain ⟨rfl, hk, hp⟩ := hcond
      have hok := (hinv.ok u).pc
      generalize a.node u = n at *
      cases hl with
      | @take done num i b _ kind recv _ hc hrecv hys =>
        obtain ⟨-, hlen, hcount, -⟩ := hok
        obtain ⟨hi, hv⟩ := List.getElem?_eq_some_iff.mp hrecv
        have hne : recv.count true ≠ recv.length := by
          intro heq
          have := List.count_eq_length.mp heq _ (List.getElem_mem hi)
          simp [hv] at this
        have hle : recv.count true ≤ recv.length := List.count_le_length
        obtain rfl : done = k := hk
        simp only [heardCount, Nat.lt_irrefl, if_false, if_true]
        omega
      | gotDown hp' hys => exact absurd hp (WiredTree.parent_asymm hp')
    · cases he
  | _ => cases he

end Arrivals

/-! ## 2. Values on their way -/

/-- What a node contributes by itself: the operation applied to its own input. -/
def own (sc : Script ι) (k : ℕ) (call : Coll) (u : ι) : List Word :=
  call.firstBuf (sc.input u k) (sc.msg u k)

/-- `xs` is the value of `u`: that of its last leaf. -/
def Result (t : WiredTree ι) (sc : Script ι) (k : ℕ) (call : Coll) (tr : List (Ev ι)) (u : ι)
    (xs : List Word) : Prop :=
  ∃ l, LastLeaf t tr k u l ∧ xs = own sc k call l

/-- What stands in the buffer of `u` while it gathers: its own contribution, until it hears
somebody. -/
def Holding (t : WiredTree ι) (sc : Script ι) (k : ℕ) (call : Coll) (tr : List (Ev ι)) (u : ι)
    (xs : List Word) : Prop :=
  (arrivals t tr u k = [] ∧ xs = own sc k call u) ∨
    ∃ c, (arrivals t tr u k).getLast? = some c ∧ Result t sc k call tr c xs

/-- Whose value a node has when the reduction is over: its own, or the root's after the broadcast
of `smlt_reduce_all`. -/
def holder (t : WiredTree ι) (call : Coll) (u : ι) : ι :=
  if call.down? = none then u else t.root

/-- The buffers and the queues in the `k`-th call. -/
structure ValInv (t : WiredTree ι) (sc : Script ι) (k : ℕ) (call : Coll) (tr : List (Ev ι))
    (a : Net ι) : Prop where
  up : ∀ u, (a.node u).done = k →
    ((∃ kind recv num i, (a.node u).pc = .gather kind recv num i) ∨
      ∃ kind, (a.node u).pc = .sendUp kind) → Holding t sc k call tr u (a.node u).buf
  upItem : ∀ c p, t.parent c = some p → ∀ x ∈ a.queue (c, p), x.1 = k →
    Result t sc k call tr c x.2
  down : ∀ u, (a.node u).done = k →
    ((∃ kind i, (a.node u).pc = .sendDown kind i) ∨ (a.node u).pc = .ret) →
    Result t sc k call tr (holder t call u) (a.node u).buf
  downItem : ∀ p c, t.parent c = some p → ∀ x ∈ a.queue (p, c), x.1 = k →
    Result t sc k call tr t.root x.2

section Values

variable {t : WiredTree ι} {sc : Script ι} {k : ℕ} {call : Coll} {tr : List (Ev ι)}
  {a a' : Net ι} {e : Ev ι}

/-- When all children have been heard, what a node holds is its value. -/
theorem Holding.result {u : ι} {xs : List Word} (h : Holding t sc k call tr u xs)
    (hlen : (arrivals t tr u k).length = (t.children u).length) : Result t sc k call tr u xs := by
  rcases h with ⟨hnil, hxs⟩ | ⟨c, hc, l, hl, hxs⟩
  · rw [hnil, List.length_nil] at hlen
    exact ⟨u, .leaf (List.length_eq_zero_iff.mp hlen.symm), hxs⟩
  · exact ⟨l, .last hlen hc hl, hxs⟩

omit [DecidableEq ι] in
theorem own_length (sc : Script ι) (k : ℕ) (call : Coll) (u : ι) :
    (own sc k call u).length = (sc.msg u k).length :=
  firstBuf_length _ _ _

/-- The step of the node `w`, seen from the values: what was settled stays settled. -/
theorem Result.snoc {u : ι} {xs : List Word} (h : Result t sc k call tr u xs)
    (he : ∀ w c, heard t w k e = some c → (arrivals t tr w k).length < (t.children w).length) :
    Result t sc k call (tr ++ [e]) u xs := by
  obtain ⟨l, hl, hxs⟩ := h
  exact ⟨l, hl.snoc he, hxs⟩

theorem Holding.snoc {u : ι} {xs : List Word} (h : Holding t sc k call tr u xs)
    (he : ∀ w c, heard t w k e = some c → (arrivals t tr w k).length < (t.children w).length)
    (hu : heard t u k e = none) : Holding t sc k call (tr ++ [e]) u xs := by
  have harr : arrivals t (tr ++ [e]) u k = arrivals t tr u k := by simp [arrivals_snoc, hu]
  rcases h with ⟨hnil, hxs⟩ | ⟨c, hc, hr⟩
  · exact .inl ⟨harr.trans hnil, hxs⟩
  · exact .inr ⟨c, by rw [harr]; exact hc, hr.snoc he⟩

/-- The call moves payloads, both ways. -/
structure Payloads (call : Coll) : Prop where
  up : call.up? = some .payload
  down : ∀ kind, call.down? = some kind → kind = .payload

omit [DecidableEq ι] in
/-- A receive in such a call fills the buffer. -/
theorem got_length {u v : ι} {nd nd' : Node} {ys : List Word} (hok : NodeOk t sc u nd)
    (hcall : sc.calls[nd.done]? = some call) (hpay : Payloads call)
    (hl : Local t sc u nd (.got v ys) nd') : ys.length = (sc.msg u nd.done).length := by
  have hpc := hok.pc
  have hbuf := hok.buf
  cases hl with
  | take hc hrecv hys =>
    obtain ⟨⟨call', hcall', hup⟩, -⟩ := hpc
    obtain rfl := Option.some.inj (hcall.symm.trans hcall')
    obtain rfl := Option.some.inj (hpay.up.symm.trans hup)
    exact hys.trans (hbuf nofun)
  | gotDown hp hys =>
    obtain ⟨⟨call', hcall', hd⟩, -⟩ := hpc
    obtain rfl := Option.some.inj (hcall.symm.trans hcall')
    obtain rfl := hpay.down _ hd
    exact hys.trans (hbuf nofun)

/-- **One local step, with the values it moves.** -/
theorem val_local {w : ι} {act : Act ι} {nd : Node} (hv : ValInv t sc k call tr a)
    (hinv : NetInv t sc a) (hcall : sc.calls[k]? = some call) (hpay : Payloads call)
    (harr : ∀ u, (arrivals t tr u k).length = heardCount t u k (a.node u))
    (hl : Local t sc w (a.node w) act nd)
    (hgot : ∀ v ys, act = .got v ys → (a.node w).done = k →
      (t.parent v = some w → Result t sc k call tr v ys) ∧
      (t.parent w = some v → Result t sc k call tr t.root ys))
    (he : ∀ u c, heard t u k (act.ev w (a.node w)) = some c →
      (arrivals t tr u k).length < (t.children u).length) :
    (nd.done = k → ((∃ kind recv num i, nd.pc = .gather kind recv num i) ∨
        ∃ kind, nd.pc = .sendUp kind) →
      Holding t sc k call (tr ++ [act.ev w (a.node w)]) w nd.buf) ∧
    (nd.done = k → ((∃ kind i, nd.pc = .sendDown kind i) ∨ nd.pc = .ret) →
      Result t sc k call (tr ++ [act.ev w (a.node w)]) (holder t call w) nd.buf) ∧
    (∀ p xs, act = .put p xs → (a.node w).done = k →
      (t.parent w = some p → Result t sc k call (tr ++ [act.ev w (a.node w)]) w xs) ∧
      (t.parent p = some w → Result t sc k call (tr ++ [act.ev w (a.node w)]) t.root xs)) := by
  have hok := (hinv.ok w).pc
  have hup := hv.up w
  have hdown := hv.down w
  have hlen := harr w
  generalize a.node w = n at *
  cases hl with
  | @enter done b call' hcall' =>
    refine ⟨fun hd _ => ?_, fun hd hpc => ?_, by simp⟩
    · obtain rfl : done = k := hd
      obtain rfl := Option.some.inj (hcall.symm.trans hcall')
      have hnil : arrivals t tr w done = [] := by
        rw [← List.length_eq_zero_iff, hlen]
        simp [heardCount]
      exact .inl ⟨by simp [arrivals_snoc, hnil, heard, Act.ev], rfl⟩
    · obtain rfl : done = k := hd
      obtain rfl := Option.some.inj (hcall.symm.trans hcall')
      rcases entry_cases t w call with ⟨kind, -, hentry⟩ | ⟨kind, hnone, -⟩
      · simp [hentry, reduceEntry] at hpc
      · rw [hpay.up] at hnone
        cases hnone
  | poll hc =>
    exact ⟨fun hd _ => (hup hd (.inl ⟨_, _, _, _, rfl⟩)).snoc he rfl, by simp, by simp⟩
  | @take done num i b ys kind recv c hc hrecv hys =>
    refine ⟨fun hd _ => ?_, by simp, by simp⟩
    obtain rfl : done = k := hd
    obtain ⟨⟨call', hcall', hkind⟩, -⟩ := hok
    obtain rfl := Option.some.inj (hcall.symm.trans hcall')
    obtain rfl := Option.some.inj (hpay.up.symm.trans hkind)
    have hp := WiredTree.parent_of_getElem? hc
    refine .inr ⟨c, ?_, ((hgot c ys rfl rfl).1 hp).snoc he⟩
    simp [arrivals_snoc, heard, Act.ev, hp]
  | gathered hnum =>
    exact ⟨fun hd _ => (hup hd (.inl ⟨_, _, _, _, rfl⟩)).snoc he rfl, by simp, by simp⟩
  | @skipUp done b kind call' hp hcall' =>
    have hroot : w = t.root := (t.parent_eq_none w).mp hp
    obtain ⟨call'', hcall'', hkind⟩ := hok
    obtain rfl := Option.some.inj (hcall'.symm.trans hcall'')
    refine ⟨fun hd hpc => ?_, fun hd _ => ?_, by simp⟩
    · rcases afterReduce_cases t w hkind with ⟨-, ha⟩ | ⟨kind', -, ha⟩
      · simp [ha] at hpc
      · simp [ha, broadcastEntry, hp] at hpc
    · obtain rfl : done = k := hd
      have hres := (hup rfl (.inr ⟨kind, rfl⟩)).result (by simpa [heardCount] using hlen)
      have hholder : holder t call w = w := by
        unfold holder
        split
        · rfl
        · exact hroot.symm
      rw [hholder]
      exact hres.snoc he
  | @putUp done b kind call' p hp hcall' =>
    obtain ⟨call'', hcall'', hkind⟩ := hok
    obtain rfl := Option.some.inj (hcall'.symm.trans hcall'')
    refine ⟨fun hd hpc => ?_, fun hd hpc => ?_, ?_⟩
    · rcases afterReduce_cases t w hkind with ⟨-, ha⟩ | ⟨kind', -, ha⟩
      · simp [ha] at hpc
      · simp [ha, broadcastEntry, hp] at hpc
    · obtain rfl : done = k := hd
      obtain rfl := Option.some.inj (hcall.symm.trans hcall')
      have hres := (hup rfl (.inr ⟨kind, rfl⟩)).result (by simpa [heardCount] using hlen)
      rcases afterReduce_cases t w hkind with ⟨hnone, ha⟩ | ⟨kind', -, ha⟩
      · have hholder : holder t call w = w := by simp [holder, hnone]
        rw [hholder]
        exact hres.snoc he
      · simp [ha, broadcastEntry, hp] at hpc
    · rintro p' xs hact hd
      injection hact with hp' hxs
      subst hp' hxs
      obtain rfl : done = k := hd
      obtain rfl := Option.some.inj (hcall.symm.trans hcall')
      obtain rfl := Option.some.inj (hpay.up.symm.trans hkind)
      have hres := (hup rfl (.inr ⟨.payload, rfl⟩)).result (by simpa [heardCount] using hlen)
      exact ⟨fun _ => hres.snoc he, fun hpar => absurd hp (WiredTree.parent_asymm hpar)⟩
  | @gotDown done b ys kind p hp hys =>
    refine ⟨by simp, fun hd _ => ?_, by simp⟩
    obtain rfl : done = k := hd
    obtain ⟨⟨call', hcall', hkind⟩, -⟩ := hok
    obtain rfl := Option.some.inj (hcall.symm.trans hcall')
    obtain rfl := hpay.down _ hkind
    have hholder : holder t call w = t.root := by simp [holder, hkind]
    rw [hholder]
    exact ((hgot p ys rfl rfl).2 hp).snoc he
  | @putDown done i b kind c hc =>
    refine ⟨by simp, fun hd _ => (hdown hd (.inl ⟨_, _, rfl⟩)).snoc he, ?_⟩
    rintro c' xs hact hd
    injection hact with hc' hxs
    subst hc' hxs
    obtain rfl : done = k := hd
    obtain ⟨⟨call', hcall', hkind⟩, -⟩ := hok
    obtain rfl := Option.some.inj (hcall.symm.trans hcall')
    obtain rfl := hpay.down _ hkind
    have hres := hdown rfl (.inl ⟨_, _, rfl⟩)
    have hholder : holder t call w = t.root := by simp [holder, hkind]
    rw [hholder] at hres
    exact ⟨fun hpar => absurd hpar (WiredTree.parent_asymm (WiredTree.parent_of_getElem? hc)),
      fun _ => hres.snoc he⟩
  | sentDown hc =>
    exact ⟨by simp, fun hd _ => (hdown hd (.inl ⟨_, _, rfl⟩)).snoc he, by simp⟩
  | ret => exact ⟨by simp, by simp, by simp⟩

/-- What was settled before the step, with the node of `w` as the step leaves it. -/
theorem ValInv.setNode {w : ι} {nd : Node} {q : ι × ι → List Item} (hv : ValInv t sc k call tr a)
    (he : ∀ u c, heard t u k e = some c → (arrivals t tr u k).length < (t.children u).length)
    (hw : ∀ u, u ≠ w → heard t u k e = none)
    (hup : nd.done = k → ((∃ kind recv num i, nd.pc = .gather kind recv num i) ∨
      ∃ kind, nd.pc = .sendUp kind) → Holding t sc k call (tr ++ [e]) w nd.buf)
    (hdown : nd.done = k → ((∃ kind i, nd.pc = .sendDown kind i) ∨ nd.pc = .ret) →
      Result t sc k call (tr ++ [e]) (holder t call w) nd.buf)
    (hupItem : ∀ c p, t.parent c = some p → ∀ x ∈ q (c, p), x.1 = k →
      Result t sc k call (tr ++ [e]) c x.2)
    (hdownItem : ∀ p c, t.parent c = some p → ∀ x ∈ q (p, c), x.1 = k →
      Result t sc k call (tr ++ [e]) t.root x.2) :
    ValInv t sc k call (tr ++ [e]) { node := Function.update a.node w nd, queue := q } := by
  refine ⟨fun u => ?_, hupItem, fun u => ?_, hdownItem⟩
  · by_cases hu : u = w
    · subst hu
      simpa using hup
    · simp only [Function.update_of_ne hu]
      exact fun hd hpc => (hv.up u hd hpc).snoc he (hw u hu)
  · by_cases hu : u = w
    · subst hu
      simpa using hdown
    · simp only [Function.update_of_ne hu]
      exact fun hd hpc => (hv.down u hd hpc).snoc he

/-- **Every step keeps the values on their way.** -/
theorem valInv_step {len : ℕ} (hlen : ∀ u, (sc.msg u k).length = len) (hinv : NetInv t sc a)
    (hcall : sc.calls[k]? = some call) (hpay : Payloads call)
    (harr : ∀ u, (arrivals t tr u k).length = heardCount t u k (a.node u))
    (hv : ValInv t sc k call tr a) (hstep : NStep t sc a e a') :
    ValInv t sc k call (tr ++ [e]) a' := by
  have he : ∀ u c, heard t u k e = some c → (arrivals t tr u k).length < (t.children u).length :=
    fun u c hc => lt_of_heard hinv harr hstep hc
  have hui : ∀ c p, t.parent c = some p → ∀ x ∈ a.queue (c, p), x.1 = k →
      Result t sc k call (tr ++ [e]) c x.2 :=
    fun c p hp x hx hk => (hv.upItem c p hp x hx hk).snoc he
  have hdi : ∀ p c, t.parent c = some p → ∀ x ∈ a.queue (p, c), x.1 = k →
      Result t sc k call (tr ++ [e]) t.root x.2 :=
    fun p c hp x hx hk => (hv.downItem p c hp x hx hk).snoc he
  cases hstep with
  | @enter w nd hl =>
    obtain ⟨h1, h2, -⟩ := val_local hv hinv hcall hpay harr hl nofun he
    exact hv.setNode he (fun u hu => heard_of_ne .enter _ hu) h1 h2 hui hdi
  | @ret w nd hl =>
    obtain ⟨h1, h2, -⟩ := val_local hv hinv hcall hpay harr hl nofun he
    exact hv.setNode he (fun u hu => heard_of_ne .ret _ hu) h1 h2 hui hdi
  | @quiet w nd hl =>
    obtain ⟨h1, h2, -⟩ := val_local hv hinv hcall hpay harr hl nofun he
    exact hv.setNode he (fun u hu => heard_of_ne .quiet (a.node w) hu) h1 h2 hui hdi
  | @stay w =>
    exact ⟨fun u hd hpc => (hv.up u hd hpc).snoc he rfl, hui,
      fun u hd hpc => (hv.down u hd hpc).snoc he, hdi⟩
  | @put w z nd xs hl =>
    obtain ⟨h1, h2, h3⟩ := val_local hv hinv hcall hpay harr hl nofun he
    refine hv.setNode he (fun u hu => heard_of_ne (.put z xs) _ hu) h1 h2 ?_ ?_
    · intro c p hp x hx hk
      by_cases heq : (c, p) = (w, z)
      · obtain ⟨rfl, rfl⟩ := Prod.mk.inj heq
        simp only [Function.update_self] at hx
        rcases List.mem_append.mp hx with hx | hx
        · exact hui c p hp x hx hk
        · obtain rfl := List.mem_singleton.mp hx
          exact (h3 p xs rfl hk).1 hp
      · simp only [Net.setNode_queue, Function.update_of_ne heq] at hx
        exact hui c p hp x hx hk
    · intro p c hp x hx hk
      by_cases heq : (p, c) = (w, z)
      · obtain ⟨rfl, rfl⟩ := Prod.mk.inj heq
        simp only [Function.update_self] at hx
        rcases List.mem_append.mp hx with hx | hx
        · exact hdi p c hp x hx hk
        · obtain rfl := List.mem_singleton.mp hx
          exact (h3 c xs rfl hk).2 hp
      · simp only [Net.setNode_queue, Function.update_of_ne heq] at hx
        exact hdi p c hp x hx hk
  | @got w z nd x q ys hl hq hag =>
    have hmem : ∀ y ∈ q, y ∈ a.queue (z, w) := fun y hy => hq ▸ List.mem_cons_of_mem _ hy
    have hhead : x ∈ a.queue (z, w) := hq ▸ List.mem_cons_self
    have hx1 := hinv.head hl hq
    -- the item at the head is of this call, and the receive gets all of it
    have hys : ∀ v, (a.node w).done = k → Result t sc k call tr v x.2 →
        Result t sc k call tr v ys := by
      rintro v hd ⟨l, hl', hx2⟩
      refine ⟨l, hl', ?_⟩
      have hlen' : ys.length = x.2.length := by
        rw [got_length (hinv.ok w) (hd ▸ hcall) hpay hl, hx2, own_length, hd, hlen, hlen]
      rw [hag.eq_of_length hlen', hx2]
    have hgot : ∀ v ys', Act.got z ys = .got v ys' → (a.node w).done = k →
        (t.parent v = some w → Result t sc k call tr v ys') ∧
        (t.parent w = some v → Result t sc k call tr t.root ys') := by
      rintro v ys' hact hd
      injection hact with hz hys'
      subst hz hys'
      exact ⟨fun hp => hys _ hd (hv.upItem z w hp x hhead (hx1.trans hd)),
        fun hp => hys _ hd (hv.downItem z w hp x hhead (hx1.trans hd))⟩
    obtain ⟨h1, h2, -⟩ := val_local hv hinv hcall hpay harr hl hgot he
    refine hv.setNode he (fun u hu => heard_of_ne (.got z ys) _ hu) h1 h2 ?_ ?_
    · intro c p hp y hy hk
      by_cases heq : (c, p) = (z, w)
      · obtain ⟨rfl, rfl⟩ := Prod.mk.inj heq
        simp only [Function.update_self] at hy
        exact hui c p hp y (hmem y hy) hk
      · simp only [Net.setNode_queue, Function.update_of_ne heq] at hy
        exact hui c p hp y hy hk
    · intro p c hp y hy hk
      by_cases heq : (p, c) = (z, w)
      · obtain ⟨rfl, rfl⟩ := Prod.mk.inj heq
        simp only [Function.update_self] at hy
        exact hdi p c hp y (hmem y hy) hk
      · simp only [Net.setNode_queue, Function.update_of_ne heq] at hy
        exact hdi p c hp y hy hk

/-- **A call that has returned has returned the value of a last leaf.** -/
theorem reachable_result {len : ℕ} (hlen : ∀ u, (sc.msg u k).length = len)
    (hcall : sc.calls[k]? = some call) (hpay : Payloads call)
    (h : Run (NStep t sc) Net.init tr a) {u : ι} {buf : List Word} (hret : Ev.ret u k buf ∈ tr) :
    Result t sc k call tr (holder t call u) buf := by
  have hall := Run.induct (fun tr a => NetInv t sc a ∧
    (∀ u, (arrivals t tr u k).length = heardCount t u k (a.node u)) ∧ ValInv t sc k call tr a ∧
    ∀ u buf, Ev.ret u k buf ∈ tr → Result t sc k call tr (holder t call u) buf) ?_ ?_ h
  · exact hall.2.2.2 u buf hret
  · refine ⟨netInv_init t sc, fun u => ?_, ⟨?_, ?_, ?_, ?_⟩, ?_⟩
    · rcases k with _ | k <;> simp [Net.init, heardCount, arrivals]
    all_goals simp [Net.init]
  · rintro tr a e a' ⟨hinv, harr, hv, hrets⟩ hstep
    refine ⟨netInv_step hinv hstep, arrivals_step hinv hcall hpay.up harr hstep,
      valInv_step hlen hinv hcall hpay harr hv hstep, ?_⟩
    have he : ∀ u c, heard t u k e = some c → (arrivals t tr u k).length < (t.children u).length :=
      fun u c hc => lt_of_heard hinv harr hstep hc
    intro u buf hmem
    rcases List.mem_append.mp hmem with hmem | hmem
    · exact (hrets u buf hmem).snoc he
    · rw [List.mem_singleton] at hmem
      rcases hstep.node with ⟨-, w, rfl⟩ | ⟨w, act, nd, hl, -, rfl⟩
      · cases hmem
      · cases act with
        | ret =>
          injection hmem with hu hk hb
          subst hu hb
          have hpc : (a.node u).pc = .ret := by
            generalize a.node u = n at hl
            cases hl
            rfl
          exact (hv.down u hk.symm (.inr hpc)).snoc he
        | _ => cases hmem

end Values

/-! ## 3. The system -/

/-- Buffers of `len` words. -/
abbrev Words (len : ℕ) := { xs : List Word // xs.length = len }

variable {B : Backend} {holds : B.State → (Side → List (List Word)) → Prop}

/-- **When a reduction is right.**  On every tree, over every backend that is a FIFO, in every run
in which all nodes have returned from their `k`-th call, a `smlt_reduce` or a `smlt_reduce_all`
with an operation: there is one leaf, the last leaf under the root, such that the root's result is
the combination of all inputs just when the input of that leaf is; and after `smlt_reduce_all`
every node's result is, just when it is. -/
theorem reduce_iff_last_leaf [Fintype ι] (hB : B.IsFifo holds) {t : WiredTree ι} {sc : Script ι}
    {chan : ι → B.State} (hinit : ∀ c, c ≠ t.root → holds (chan c) fun _ => []) {k len : ℕ}
    {op : Op} {all : Bool}
    (hcall : sc.calls[k]? = some (if all then .reduceAll (some op) else .reduce (some op)))
    (f : Words len → Words len → Words len) [Std.Commutative f] [Std.Associative f] (e : Words len)
    (he : ∀ x, f e x = x) (hop : ∀ x y : Words len, op.run x y = f x y) (input : ι → Words len)
    (hinput : ∀ u, sc.input u k = input u) (hmsg : ∀ u, sc.msg u k = e) {tr : List (Ev ι)}
    {s : Sys ι B} (hrun : Run (Step t sc) (Sys.init chan) tr s)
    (hret : ∀ u, ∃ buf, Ev.ret u k buf ∈ tr) :
    ∃ l, LastLeaf t tr k t.root l ∧
      ((∀ buf, Ev.ret t.root k buf ∈ tr → buf = Finset.univ.fold f e input) ↔
        input l = Finset.univ.fold f e input) ∧
      (all = true → ((∀ u buf, Ev.ret u k buf ∈ tr → buf = Finset.univ.fold f e input) ↔
        input l = Finset.univ.fold f e input)) := by
  obtain ⟨a, -, hnet⟩ := reachable_net hB hinit hrun
  have hpay : Payloads (if all then .reduceAll (some op) else .reduce (some op)) := by
    cases all
    · exact ⟨rfl, nofun⟩
    · exact ⟨rfl, fun _ h => (Option.some.inj h).symm⟩
  have hlen : ∀ u, (sc.msg u k).length = len := fun u => by rw [hmsg u, e.2]
  -- at a leaf the operation meets the identity, so a leaf's own contribution is its input
  have hown : ∀ l, own sc k (if all then .reduceAll (some op) else .reduce (some op)) l
      = input l := by
    intro l
    have hrun : op.run (sc.msg l k) (sc.input l k) = input l := by
      rw [hmsg l, hinput l, hop e (input l), he]
    cases all <;> exact hrun
  have hroot : holder t (if all then .reduceAll (some op) else .reduce (some op)) t.root
      = t.root := by
    unfold holder
    split <;> rfl
  obtain ⟨rootBuf, hrootBuf⟩ := hret t.root
  obtain ⟨l, hl, hbuf⟩ := reachable_result hlen hcall hpay hnet hrootBuf
  rw [hroot] at hl
  rw [hown] at hbuf
  have hval : ∀ u buf, holder t (if all then .reduceAll (some op) else .reduce (some op)) u
      = t.root → Ev.ret u k buf ∈ tr → buf = input l := by
    intro u buf hu hmem
    obtain ⟨l', hl', hbuf'⟩ := reachable_result hlen hcall hpay hnet hmem
    rw [hu] at hl'
    rw [hbuf', hown, hl.unique hl']
  refine ⟨l, hl, ⟨fun h => ?_, fun h buf hmem => ?_⟩, fun hall => ⟨fun h => ?_, ?_⟩⟩
  · exact Subtype.ext (hbuf.symm.trans (h rootBuf hrootBuf))
  · rw [hval t.root buf hroot hmem, h]
  · exact Subtype.ext (hbuf.symm.trans (h t.root rootBuf hrootBuf))
  · intro h u buf hmem
    subst hall
    rw [hval u buf rfl hmem, h]

/-- Word by word, the sum. -/
def addOp : Op where
  run dest src := dest.mapIdx fun i x => x + src.getD i 0
  length_run _ _ := List.length_mapIdx

def addWords {len : ℕ} (x y : Words len) : Words len :=
  ⟨addOp.run x y, (addOp.length_run _ _).trans x.2⟩

theorem addWords_getD {len : ℕ} (x y : Words len) {i : ℕ} (hi : i < len) :
    (addWords x y).1.getD i 0 = x.1.getD i 0 + y.1.getD i 0 := by
  have hx : i < x.1.length := by rwa [x.2]
  simp [addWords, addOp, hx]

/-- Buffers of one length are equal word by word. -/
theorem Words.ext {len : ℕ} {x y : Words len} (h : ∀ i < len, x.1.getD i 0 = y.1.getD i 0) :
    x = y := by
  apply Subtype.ext
  apply List.ext_getElem (x.2.trans y.2.symm)
  intro i h1 h2
  simpa [h1, h2] using h i (x.2 ▸ h1)

instance (len : ℕ) : Std.Commutative (@addWords len) where
  comm x y := by
    apply Words.ext
    intro i hi
    rw [addWords_getD x y hi, addWords_getD y x hi, UInt64.add_comm]

instance (len : ℕ) : Std.Associative (@addWords len) where
  assoc x y z := by
    apply Words.ext
    intro i hi
    rw [addWords_getD _ z hi, addWords_getD x y hi, addWords_getD x _ hi, addWords_getD y z hi,
      UInt64.add_assoc]

def zeroWords : Words 1 := ⟨[0], rfl⟩

theorem addWords_zero (x : Words 1) : addWords zeroWords x = x := by
  apply Words.ext
  intro i hi
  rw [addWords_getD _ x hi]
  obtain rfl : i = 0 := by omega
  exact UInt64.zero_add _

/-- The sum of one word over one edge: `x` at the root, `y` at the child. -/
def sumScript (call : Coll) (x y : Word) : Script Bool where
  calls := [call]
  msg _ _ := [0]
  input u _ := if u then [y] else [x]
  fits _ _ := by decide

def sumInput (x y : Word) (u : Bool) : Words 1 := ⟨if u then [y] else [x], by cases u <;> rfl⟩

def sumTurns : List Bool :=
  [true, true, true, false, false, false, false, false, false, false, true, true, true]

/-- The child sends first; the root receives, and sends back what it has. -/
def sumTrace (y : Word) : List (Ev Bool) :=
  [.enter true 0, .quiet true, .put true false 0 [y], .enter false 0, .got false true 0 [y],
    .quiet false, .quiet false, .put false true 0 [y], .quiet false, .ret false 0 [y],
    .got true false 0 [y], .quiet true, .ret true 0 [y]]

theorem reduce_iff_last_leaf_sum :
    ∃ w s, Ump.queuepairInit (fun _ => some 4096) 3 = .ok w ∧
      Run.drive (Sys.turn .pair (sumScript (.reduceAll (some addOp)) 0 5))
        (Sys.init (B := Ump.backend) fun _ => w) sumTurns = some (sumTrace 5, s) ∧
      ∃ l, LastLeaf .pair (sumTrace 5) 0 false l ∧
        ((∀ u buf, Ev.ret u 0 buf ∈ sumTrace 5 →
            buf = Finset.univ.fold addWords zeroWords (sumInput 0 5)) ↔
          sumInput 0 5 l = Finset.univ.fold addWords zeroWords (sumInput 0 5)) := by
  obtain ⟨w, s, hinit, hdrive⟩ : ∃ w s, Ump.queuepairInit (fun _ => some 4096) 3 = .ok w ∧
      Run.drive (Sys.turn .pair (sumScript (.reduceAll (some addOp)) 0 5))
        (Sys.init (B := Ump.backend) fun _ => w) sumTurns = some (sumTrace 5, s) :=
    ⟨_, _, rfl, rfl⟩
  have hcall : (sumScript (.reduceAll (some addOp)) 0 5).calls[0]? =
      some (if true then .reduceAll (some addOp) else .reduce (some addOp)) := rfl
  obtain ⟨l, hl, -, hall⟩ := reduce_iff_last_leaf Ump.backend_isFifo
    (fun _ _ => Ump.holds_init hinit) hcall addWords zeroWords addWords_zero (fun _ _ => rfl)
    (sumInput 0 5) (fun _ => rfl) (fun _ => rfl)
    (Run.of_drive (fun s u s' e h => ⟨u, h⟩) hdrive) (fun u => ⟨[5], by cases u <;> decide⟩)
  exact ⟨w, s, hinit, hdrive, l, hl, hall rfl⟩

/-- `smlt_reduce` on one edge: the child sends and returns, then the root receives. -/
def lossTrace (y : Word) : List (Ev Bool) :=
  [.enter true 0, .quiet true, .put true false 0 [y], .ret true 0 [y], .enter false 0,
    .got false true 0 [y], .quiet false, .quiet false, .ret false 0 [y]]

/-- One and two are two: the input of the root is lost. -/
theorem reduce_loses_input :
    ∃ w s, Ump.queuepairInit (fun _ => some 4096) 3 = .ok w ∧
      Run.drive (Sys.turn .pair (sumScript (.reduce (some addOp)) 1 2))
        (Sys.init (B := Ump.backend) fun _ => w)
        [true, true, true, true, false, false, false, false, false] = some (lossTrace 2, s) ∧
      (∀ u, ∃ buf, Ev.ret u 0 buf ∈ lossTrace 2) ∧ Ev.ret false 0 [2] ∈ lossTrace 2 ∧
      [2] ≠ (Finset.univ.fold addWords zeroWords (sumInput 1 2)).1 :=
  ⟨_, _, rfl, rfl, fun u => ⟨[2], by cases u <;> decide⟩, by decide, by decide⟩

end Smelt.Collective
