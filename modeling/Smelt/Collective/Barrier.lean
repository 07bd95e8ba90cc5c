/-
# The tree barrier

`smlt_barrier_wait` is a reduction of notifications followed by a broadcast of notifications.  Two
facts about one node in its `k`-th barrier carry the whole argument:

* it has sent to its parent only after it has received from all its children, and
* it has sent to a child only after it has received from its parent and from all its children.

With "what was received was sent" (`NetInv.sent_of_got`) the first runs down the tree and the
second up it.  So a node that has returned knows that the root has received from everybody, and
everybody has entered.  A fast node may already be in its next barrier; it gets no further than
that, because its next message up waits for a message down that the slow node has not sent.
-/
import Smelt.Collective.Match

namespace Smelt.Collective

variable {ι : Type} [DecidableEq ι] {t : WiredTree ι} {sc : Script ι} {a : Net ι}

/-! ## 1. One barrier -/

/-- `u` is past its reduction of the `k`-th call. -/
def Risen (k : ℕ) (nd : Node) : Prop :=
  k < nd.done ∨
    k = nd.done ∧
      ((∃ kind, nd.pc = .recvDown kind) ∨ (∃ kind i, nd.pc = .sendDown kind i) ∨ nd.pc = .ret)

/-- `u` is past the receive from its parent of the `k`-th call. -/
def Fallen (k : ℕ) (nd : Node) : Prop :=
  k < nd.done ∨ k = nd.done ∧ ((∃ kind i, nd.pc = .sendDown kind i) ∨ nd.pc = .ret)

/-- The `k`-th call of a node has been entered. -/
def Entered (k : ℕ) (nd : Node) : Prop := k < nd.done ∨ k = nd.done ∧ nd.pc ≠ .idle

theorem Fallen.risen {k : ℕ} {nd : Node} (h : Fallen k nd) : Risen k nd := by
  rcases h with h | ⟨h, h' | h'⟩
  · exact .inl h
  · exact .inr ⟨h, .inr (.inl h')⟩
  · exact .inr ⟨h, .inr (.inr h')⟩

theorem Risen.entered {k : ℕ} {nd : Node} (h : Risen k nd) : Entered k nd := by
  rcases h with h | ⟨h, ⟨kind, h'⟩ | ⟨kind, i, h'⟩ | h'⟩
  · exact .inl h
  all_goals exact .inr ⟨h, by simp [h']⟩

theorem Sent.risen {u v : ι} {k : ℕ} {nd : Node} (h : Sent t u v k nd) : Risen k nd := by
  rcases h with h | ⟨h, hs⟩
  · exact .inl h
  · refine .inr ⟨h, ?_⟩
    cases hpc : nd.pc with
    | recvDown kind => exact .inl ⟨kind, rfl⟩
    | sendDown kind i => exact .inr (.inl ⟨kind, i, rfl⟩)
    | ret => exact .inr (.inr rfl)
    | idle => simp [hpc, hasSent] at hs
    | gather kind recv num i => simp [hpc, hasSent] at hs
    | sendUp kind => simp [hpc, hasSent] at hs
    | failed => simp [hpc, hasSent] at hs

/-- A send to a child comes after the receive from the parent. -/
theorem Sent.fallen {u c : ι} {k : ℕ} {nd : Node} (h : Sent t u c k nd)
    (hc : t.parent c = some u) : Fallen k nd := by
  have hne : ¬ t.parent u = some c := WiredTree.parent_asymm hc
  rcases h with h | ⟨h, hs⟩
  · exact .inl h
  · refine .inr ⟨h, ?_⟩
    cases hpc : nd.pc with
    | sendDown kind i => exact .inl ⟨kind, i, rfl⟩
    | ret => exact .inr rfl
    | recvDown kind => simp [hpc, hasSent, hne] at hs
    | idle => simp [hpc, hasSent] at hs
    | gather kind recv num i => simp [hpc, hasSent] at hs
    | sendUp kind => simp [hpc, hasSent] at hs
    | failed => simp [hpc, hasSent] at hs

/-- A node past its reduction has received from every child. -/
theorem Risen.got {u c : ι} {k : ℕ} {nd : Node} (h : Risen k nd) (hc : t.parent c = some u) :
    Got t u c k nd := by
  rcases h with h | ⟨h, ⟨kind, h'⟩ | ⟨kind, i, h'⟩ | h'⟩
  · exact .inl h
  all_goals exact .inr ⟨h, by simp [h', hasGot, hc]⟩

/-- A node past the receive from its parent has received from everybody. -/
theorem Fallen.got {u v : ι} {k : ℕ} {nd : Node} (h : Fallen k nd) : Got t u v k nd := by
  rcases h with h | ⟨h, ⟨kind, i, h'⟩ | h'⟩
  · exact .inl h
  all_goals exact .inr ⟨h, by simp [h']⟩

section Barrier

variable {k : ℕ}

theorem uses_barrier (u v : ι) : uses t u v .barrierWait = true := by
  unfold uses
  split <;> rfl

/-- What has come down to a node has come down to its parent. -/
theorem fallen_parent (hinv : NetInv t sc a) (hk : sc.calls[k]? = some .barrierWait) {p c : ι}
    (hp : t.parent c = some p) (h : Fallen k (a.node c)) : Fallen k (a.node p) :=
  (hinv.sent_of_got (.inr hp) hk (uses_barrier p c) h.got).fallen hp

/-- What has risen past a node has risen past its children. -/
theorem risen_child (hinv : NetInv t sc a) (hk : sc.calls[k]? = some .barrierWait) {p c : ι}
    (hp : t.parent c = some p) (h : Risen k (a.node p)) : Risen k (a.node c) :=
  (hinv.sent_of_got (.inl hp) hk (uses_barrier c p) (h.got hp)).risen

/-- **When one node is through its barrier, every node has entered it.** -/
theorem entered_of_fallen (hinv : NetInv t sc a) (hk : sc.calls[k]? = some .barrierWait) {u : ι}
    (h : Fallen k (a.node u)) (v : ι) : Entered k (a.node v) := by
  have hroot : Fallen k (a.node u) → Fallen k (a.node t.root) :=
    t.induct_down (P := fun u => Fallen k (a.node u) → Fallen k (a.node t.root)) id
      (fun p c hp ih hc => ih (fallen_parent hinv hk hp hc)) u
  have hall : Risen k (a.node v) :=
    t.induct_down (P := fun v => Risen k (a.node v)) (hroot h).risen
      (fun p c hp ih => risen_child hinv hk hp ih) v
  exact hall.entered

/-! ## 2. What is outstanding -/

/-- A node that has sent to a neighbour in a later barrier has been answered in this one. -/
theorem got_of_sent_later (hinv : NetInv t sc a) {k' : ℕ} (hk : sc.calls[k]? = some .barrierWait)
    (hk' : sc.calls[k']? = some .barrierWait) (hlt : k < k') {u v : ι} (hadj : Adj t u v)
    (hsent : Sent t u v k' (a.node u)) : Got t v u k (a.node v) := by
  have hle : k' ≤ (a.node u).done := by
    rcases hsent with h | ⟨h, -⟩ <;> omega
  rcases hadj with hp | hp
  · -- `v` is the parent: `u` is through barrier `k`, so `v` has sent it the answer
    have hfallen : Fallen k (a.node u) := .inl (by omega)
    have hv := hinv.sent_of_got (.inr hp) hk (uses_barrier v u) (hfallen.got (v := v))
    exact (hv.fallen hp).got
  · -- `v` is a child: `u` has its notification of barrier `k'`, so `v` is through barrier `k`
    have hrisen := hsent.risen
    have hv := hinv.sent_of_got (.inl hp) hk' (uses_barrier v u) (hrisen.got hp)
    have hdone : k < (a.node v).done := by
      rcases hv with h | ⟨h, -⟩ <;> omega
    exact .inl hdone

end Barrier

/-- **In a sequence of barriers at most one notification is outstanding** in each direction. -/
theorem queue_length_le_one (hinv : NetInv t sc a) {rounds : ℕ}
    (hsc : sc.calls = List.replicate rounds .barrierWait) {u v : ι} (hadj : Adj t u v) :
    (a.queue (u, v)).length ≤ 1 := by
  have hcalls : ∀ {k : ℕ} {call : Coll}, sc.calls[k]? = some call → call = .barrierWait := by
    intro k call hk
    rw [hsc] at hk
    exact (List.mem_replicate.mp (List.mem_of_getElem? hk)).2
  by_contra hlen
  obtain ⟨x, y, q, hq⟩ : ∃ x y q, a.queue (u, v) = x :: y :: q := by
    match h : a.queue (u, v) with
    | [] => simp [h] at hlen
    | [_] => simp [h] at hlen
    | x :: y :: q => exact ⟨x, y, q, rfl⟩
  obtain ⟨⟨call, hk, -⟩, hx⟩ := hinv.item u v hadj 0 x (by simp [hq])
  obtain ⟨⟨call', hk', -⟩, hy⟩ := hinv.item u v hadj 1 y (by simp [hq])
  obtain rfl := hcalls hk
  obtain rfl := hcalls hk'
  have hcount := hinv.count u v hadj
  rw [hq, List.length_cons, List.length_cons] at hcount
  have hlt : x.1 < y.1 := by
    by_contra hge
    have := before_mono t sc u v (Nat.le_of_not_lt hge)
    omega
  have hsent : Sent t u v y.1 (a.node u) :=
    (before_lt_sentCount_iff hk' (uses_barrier u v) _).mp (by omega)
  have hgot := got_of_sent_later hinv hk hk' hlt hadj hsent
  have := (before_lt_gotCount_iff hk (uses_barrier u v) _).mpr hgot
  omega

/-! ## 3. Along a run -/

omit [DecidableEq ι] in
theorem done_local {u : ι} {nd nd' : Node} {act : Act ι} (hl : Local t sc u nd act nd') :
    nd.done ≤ nd'.done ∧ (act = .ret → nd.done < nd'.done) := by
  cases hl <;> simp

omit [DecidableEq ι] in
theorem entered_local {u : ι} {k : ℕ} {nd nd' : Node} {act : Act ι} (hl : Local t sc u nd act nd')
    (h : Entered k nd') : Entered k nd ∨ act = .enter ∧ k = nd.done := by
  cases hl with
  | enter hcall =>
    rcases h with h | ⟨h, -⟩
    · exact .inl (.inl h)
    · exact .inr ⟨rfl, h⟩
  | ret =>
    rcases h with h | ⟨-, h⟩
    · have h : k < _ + 1 := h
      rcases Nat.lt_succ_iff_lt_or_eq.mp h with h | h
      · exact .inl (.inl h)
      · exact .inl (.inr ⟨h, nofun⟩)
    · exact absurd rfl h
  | _ =>
    rcases h with h | ⟨h, -⟩
    · exact .inl (.inl h)
    · exact .inl (.inr ⟨h, nofun⟩)

/-- The trace and the places agree on what has been entered and what has returned. -/
theorem reachable_calls {tr : List (Ev ι)} (h : Run (NStep t sc) Net.init tr a) :
    (∀ u k buf, Ev.ret u k buf ∈ tr → k < (a.node u).done) ∧
      ∀ u k, Entered k (a.node u) → Ev.enter u k ∈ tr := by
  refine Run.induct (fun tr a => (∀ u k buf, Ev.ret u k buf ∈ tr → k < (a.node u).done) ∧
      ∀ u k, Entered k (a.node u) → Ev.enter u k ∈ tr) ?_ ?_ h
  · exact ⟨by simp, by simp [Entered, Net.init]⟩
  rintro tr a e a' ⟨hret, henter⟩ hstep
  rcases hstep.node with ⟨hnode, w, rfl⟩ | ⟨w, act, nd, hl, hnode, rfl⟩
  · rw [hnode]
    refine ⟨fun u k buf hmem => hret u k buf ?_, fun u k hu => ?_⟩
    · simpa using hmem
    · exact List.mem_append_left _ (henter u k hu)
  · obtain ⟨hle, hlt⟩ := done_local hl
    rw [hnode]
    refine ⟨fun u k buf hmem => ?_, fun u k hu => ?_⟩
    · have hdone : (a.node u).done ≤ (Function.update a.node w nd u).done := by
        by_cases hu : u = w
        · subst hu
          rwa [Function.update_self]
        · rw [Function.update_of_ne hu]
      rcases List.mem_append.mp hmem with hmem | hmem
      · exact Nat.lt_of_lt_of_le (hret u k buf hmem) hdone
      · rw [List.mem_singleton] at hmem
        cases act with
        | ret =>
          injection hmem with hu hk hb
          subst hu hk
          rw [Function.update_self]
          exact hlt rfl
        | _ => cases hmem
    · by_cases huw : u = w
      · subst huw
        rw [Function.update_self] at hu
        rcases entered_local hl hu with hu | ⟨rfl, rfl⟩
        · exact List.mem_append_left _ (henter u k hu)
        · exact List.mem_append_right _ (List.mem_singleton_self _)
      · rw [Function.update_of_ne huw] at hu
        exact List.mem_append_left _ (henter u k hu)

variable {B : Backend} {holds : B.State → (Side → List (List Word)) → Prop}

/-- **The tree barrier is safe.**  On every tree, over every backend that is a FIFO, for every
number of rounds and every interleaving: when a node has returned from its `k`-th
`smlt_barrier_wait`, every node has entered its own `k`-th; and on no edge, in neither direction,
is more than one notification outstanding. -/
theorem barrier_safe (hB : B.IsFifo holds) {chan : ι → B.State}
    (hinit : ∀ c, c ≠ t.root → holds (chan c) fun _ => []) {rounds : ℕ}
    (hsc : sc.calls = List.replicate rounds .barrierWait) {tr : List (Ev ι)} {s : Sys ι B}
    (hrun : Run (Step t sc) (Sys.init chan) tr s) :
    (∀ u k buf, Ev.ret u k buf ∈ tr → ∀ v, Ev.enter v k ∈ tr) ∧
      ∀ u v, Adj t u v → (Fifo.sends (tr.filterMap (Ev.see u v))).length ≤
        (Fifo.recvs (tr.filterMap (Ev.see u v))).length + 1 := by
  obtain ⟨a, -, hnet⟩ := reachable_net hB hinit hrun
  have hinv := reachable_netInv hnet
  obtain ⟨hret, henter⟩ := reachable_calls hnet
  constructor
  · intro u k buf hmem v
    have hdone := hret u k buf hmem
    have hle := (hinv.ok u).done
    have hk : sc.calls[k]? = some .barrierWait := by
      rw [hsc, List.length_replicate] at hle
      rw [hsc, List.getElem?_replicate, if_pos (by omega)]
    exact henter v k (entered_of_fallen hinv hk (.inl hdone) v)
  · intro u v hadj
    have hlen := (Fifo.run_spec (reachable_reads hnet u v)).2
    have hone := queue_length_le_one hinv hsc hadj
    omega

/-- One barrier over one edge. -/
def meetScript : Script Bool where
  calls := [.barrierWait]
  msg _ _ := []
  input _ _ := []
  fits _ _ := by decide

def meetTurns : List Bool :=
  [true, true, true, false, false, false, false, false, false, false, true, true, true]

def meetTrace : List (Ev Bool) :=
  [.enter true 0, .quiet true, .put true false 0 [], .enter false 0, .got false true 0 [],
    .quiet false, .quiet false, .put false true 0 [], .quiet false, .ret false 0 [],
    .got true false 0 [], .quiet true, .ret true 0 []]

theorem barrier_safe_meet :
    ∃ w s, Ump.queuepairInit (fun _ => some 4096) 2 = .ok w ∧
      Run.drive (Sys.turn .pair meetScript) (Sys.init (B := Ump.backend) fun _ => w) meetTurns =
        some (meetTrace, s) ∧
      (∀ u k buf, Ev.ret u k buf ∈ meetTrace → ∀ v, Ev.enter v k ∈ meetTrace) ∧
      ∀ u v, Adj WiredTree.pair u v →
        (Fifo.sends (meetTrace.filterMap (Ev.see u v))).length ≤
          (Fifo.recvs (meetTrace.filterMap (Ev.see u v))).length + 1 := by
  obtain ⟨w, s, hinit, hdrive⟩ : ∃ w s, Ump.queuepairInit (fun _ => some 4096) 2 = .ok w ∧
      Run.drive (Sys.turn .pair meetScript) (Sys.init (B := Ump.backend) fun _ => w) meetTurns =
        some (meetTrace, s) := ⟨_, _, rfl, rfl⟩
  have hcalls : meetScript.calls = List.replicate 1 .barrierWait := rfl
  exact ⟨w, s, hinit, hdrive, barrier_safe Ump.backend_isFifo (fun _ _ => Ump.holds_init hinit)
    hcalls (Run.of_drive (fun s u s' e h => ⟨u, h⟩) hdrive)⟩

end Smelt.Collective
