/-
# Collectives, access by access

`Machine.lean` takes each attempt of a send or a receive as one step.  On the machine an attempt is
a series of accesses to the slots of a queue, and between two of them every other node may make
accesses of its own.  Here the nodes run over `Line`s, one for each direction of each channel, and a
turn is ONE access: `polled` remembers that `smlt_channel_can_recv` has answered yes, so that the
node is inside the receive after it.

The step relation is finer, but what passes between the nodes is not: `micro_turn` says that each
access is a step of the same network as before (`Net.lean`), or does not show.  The half of a line
that is inside a call belongs to the node whose place says so (`Stand`).

For UMP there is a condition on the accesses: no sender reads an acknowledgement while the receiver
is still copying the slot it has acknowledged (`Ump.Ready`).  In a sequence of calls that go up AND
down the tree nobody does (`TwoWay`, `ready_of_twoWay`): when a node sends again to a neighbour, it
has heard from it since, so the neighbour has finished its receive.  So barriers are safe over UMP
access by access, whatever the rings (`barrier_safe_access`).
-/
import Smelt.Collective.Barrier
import Smelt.Ump.Line

namespace Smelt.Collective

variable {ι : Type} [DecidableEq ι] {L : Line}

/-! ## 1. The system -/

/-- The nodes, with their calls in progress, and the two directions of each channel, named by the
end that transmits. -/
structure Micro (ι : Type) (L : Line) where
  node : ι → Node
  polled : ι → Bool
  line : ι → Side → L.State

def Micro.setNode (s : Micro ι L) (u : ι) (nd : Node) : Micro ι L :=
  { s with node := Function.update s.node u nd, polled := Function.update s.polled u false }

def Micro.setPolled (s : Micro ι L) (u : ι) : Micro ι L :=
  { s with polled := Function.update s.polled u true }

def Micro.setLine (s : Micro ι L) (c : ι) (d : Side) (l : L.State) : Micro ι L :=
  { s with line := Function.update s.line c (Function.update (s.line c) d l) }

/-- The direction of the channel of `c` that a call by `u` works on. -/
def wayOf (t : WiredTree ι) (c u : ι) (call : Call) : Side := call.way (side t c u)

/-- The next access of a blocking send by `u` to `v` on the channel of `c`. -/
def Micro.sendAccess (t : WiredTree ι) (s : Micro ι L) (c u v : ι) (kind : Kind)
    (next onFail : Pc) : Option (Micro ι L × Ev ι) :=
  let nd := s.node u
  let call := kind.send nd.buf
  match L.access (s.line c (wayOf t c u call)) call with
  | none => none
  | some (l, none) => some (s.setLine c (wayOf t c u call) l, .quiet u)
  | some (l, some r) =>
    let s' := s.setLine c (wayOf t c u call) l
    match call.put? r with
    | some xs => some (s'.setNode u { nd with pc := next }, .put u v nd.done xs)
    | none =>
      if call.blocks r then some (s', .quiet u)
      else some (s'.setNode u { nd with pc := onFail }, .quiet u)

/-- The next access of a blocking receive by `u` from `v` on the channel of `c`. -/
def Micro.recvAccess (t : WiredTree ι) (s : Micro ι L) (c u v : ι) (kind : Kind) (next : Pc) :
    Option (Micro ι L × Ev ι) :=
  let nd := s.node u
  let call := kind.recv nd.buf
  match L.access (s.line c (wayOf t c u call)) call with
  | none => none
  | some (l, none) => some (s.setLine c (wayOf t c u call) l, .quiet u)
  | some (l, some r) =>
    let s' := s.setLine c (wayOf t c u call) l
    match call.got? r with
    | some ys =>
      some (s'.setNode u { nd with pc := next, buf := kind.store nd.buf ys }, .got u v nd.done ys)
    | none =>
      if call.blocks r then some (s', .quiet u)
      else some (s'.setNode u { nd with pc := .failed }, .quiet u)

/-- One access, or one step between accesses, of the node `u`. -/
def Micro.turn (t : WiredTree ι) (sc : Script ι) (s : Micro ι L) (u : ι) :
    Option (Micro ι L × Ev ι) :=
  let nd := s.node u
  let count := (t.children u).length
  match nd.pc with
  | .idle =>
    match sc.calls[nd.done]? with
    | none => none
    | some call =>
      some (s.setNode u { nd with
        pc := call.entry t u
        buf := call.firstBuf (sc.input u nd.done) (sc.msg u nd.done) }, .enter u nd.done)
  | .gather kind recv num i =>
    if num < count then
      match (t.children u)[i]? with
      | none => none
      | some c =>
        if s.polled u then
          s.recvAccess t c u c kind
            (.gather kind (recv.set i true) (num + 1) (nextChild count i))
        else if recv[i]? = some false ∧ L.canRecv (s.line c (side t c u).other) = true then
          some (s.setPolled u, .quiet u)
        else some (s.setNode u { nd with pc := .gather kind recv num (nextChild count i) },
          .quiet u)
    else some (s.setNode u { nd with pc := .sendUp kind }, .quiet u)
  | .sendUp kind =>
    match sc.calls[nd.done]? with
    | none => none
    | some call =>
      match t.parent u with
      | none => some (s.setNode u { nd with pc := call.afterReduce t u }, .quiet u)
      | some p => s.sendAccess t u u p kind (call.afterReduce t u) (call.afterReduce t u)
  | .recvDown kind =>
    match t.parent u with
    | none => none
    | some p => s.recvAccess t u u p kind (.sendDown kind 0)
  | .sendDown kind i =>
    match (t.children u)[i]? with
    | none => some (s.setNode u { nd with pc := .ret }, .quiet u)
    | some c => s.sendAccess t c u c kind (.sendDown kind (i + 1)) .failed
  | .ret => some (s.setNode u { nd with done := nd.done + 1, pc := .idle }, .ret u nd.done nd.buf)
  | .failed => none

/-- The call that `u` is in, with its channel. -/
def Micro.inCall (t : WiredTree ι) (s : Micro ι L) (u : ι) : Option (ι × Call) :=
  match (s.node u).pc with
  | .gather kind _ _ i =>
    if s.polled u then (t.children u)[i]?.map fun c => (c, kind.recv (s.node u).buf) else none
  | .sendUp kind => (t.parent u).map fun _ => (u, kind.send (s.node u).buf)
  | .recvDown kind => some (u, kind.recv (s.node u).buf)
  | .sendDown kind i => (t.children u)[i]?.map fun c => (c, kind.send (s.node u).buf)
  | _ => none

/-- An access that finds its line ready for the call. -/
def ReadyStep (Ready : L.State → Call → Prop) (t : WiredTree ι) (sc : Script ι) (s : Micro ι L)
    (e : Ev ι) (s' : Micro ι L) : Prop :=
  ∃ u, s.turn t sc u = some (s', e) ∧ ∀ c call, s.inCall t u = some (c, call) →
    Ready (s.line c (wayOf t c u call)) call

/-- The same, to be run. -/
def Micro.readyTurn (Ready : L.State → Call → Prop) [∀ l call, Decidable (Ready l call)]
    (t : WiredTree ι) (sc : Script ι) (s : Micro ι L) (u : ι) : Option (Micro ι L × Ev ι) :=
  match s.inCall t u with
  | none => s.turn t sc u
  | some (c, call) =>
    if Ready (s.line c (wayOf t c u call)) call then s.turn t sc u else none

theorem readyStep_of_readyTurn {Ready : L.State → Call → Prop} [∀ l call, Decidable (Ready l call)]
    {t : WiredTree ι} {sc : Script ι} (s : Micro ι L) (u : ι) (s' : Micro ι L) (e : Ev ι)
    (h : s.readyTurn Ready t sc u = some (s', e)) : ReadyStep Ready t sc s e s' := by
  unfold Micro.readyTurn at h
  split at h
  · rename_i hnone
    exact ⟨u, h, fun c call hin => by rw [hnone] at hin; cases hin⟩
  · rename_i c call hin
    split at h
    · rename_i hready
      refine ⟨u, h, fun c' call' hin' => ?_⟩
      obtain ⟨rfl, rfl⟩ := Prod.mk.inj (Option.some.inj (hin.symm.trans hin'))
      exact hready
    · cases h

/-- The start: nobody has called anything. -/
def Micro.init (line : ι → Side → L.State) : Micro ι L :=
  { node := fun _ => { done := 0, pc := .idle, buf := [] }, polled := fun _ => false, line := line }

/-! ## 2. Who is inside which line -/

/-- An end of a channel stands in the call of its node, or for any call of a half that the node is
not in. -/
def Stand (stands : L.State → Call → Prop) (t : WiredTree ι) (s : Micro ι L) : Prop :=
  ∀ c u v, Joins t c u v → ∀ call,
    (∀ call₀, s.inCall t u = some (c, call₀) → call₀.transmits = call.transmits → call = call₀) →
    stands (s.line c (wayOf t c u call)) call

section Stand

variable {stands : L.State → Call → Prop} {t : WiredTree ι} {s s' : Micro ι L} {c u v : ι}
  {call : Call}

omit [DecidableEq ι] in
/-- A channel has two ends. -/
theorem Joins.eq_or_eq {c u v u' v' : ι} (h : Joins t c u v) (h' : Joins t c u' v') :
    u' = u ∧ v' = v ∨ u' = v ∧ v' = u := by
  rcases h with ⟨hp, rfl⟩ | ⟨hp, rfl⟩ <;> rcases h' with ⟨hp', rfl⟩ | ⟨hp', rfl⟩
  all_goals
    obtain rfl := Option.some.inj (hp.symm.trans hp')
    simp

theorem way_eq_iff {d : Side} {call call' : Call} :
    call'.way d = call.way d ↔ call'.transmits = call.transmits := by
  rw [← not_iff_not]
  exact way_ne_iff

/-- A step between accesses of a node that is in no call. -/
theorem Stand.local (h : Stand stands t s) (hline : s'.line = s.line) (hin : s.inCall t u = none)
    (hother : ∀ w, w ≠ u → s'.inCall t w = s.inCall t w) : Stand stands t s' := by
  intro c' u' v' hj call' hcall
  rw [hline]
  refine h c' u' v' hj call' fun call₀ h₀ htr => ?_
  by_cases hu : u' = u
  · rw [hu, hin] at h₀
    cases h₀
  · exact hcall call₀ (by rw [hother u' hu, h₀]) htr

/-- An access of the call that `u` is in. -/
theorem Stand.access (h : Stand stands t s) (hj : Joins t c u v)
    (hin : s.inCall t u = some (c, call)) {l : L.State} {r : Option Ret}
    (hnext : ∀ c', c'.transmits = call.transmits → (r = none → c' = call) → stands l c')
    (hframe : ∀ c', c'.transmits ≠ call.transmits →
      stands (s.line c (wayOf t c u call)) c' → stands l c')
    (hline : s'.line = Function.update s.line c
      (Function.update (s.line c) (wayOf t c u call) l))
    (hsame : r = none → s'.inCall t u = s.inCall t u)
    (hother : ∀ w, w ≠ u → s'.inCall t w = s.inCall t w) : Stand stands t s' := by
  intro c' u' v' hj' call' hcall
  rw [hline]
  by_cases hc : c' = c
  · subst hc
    rw [Function.update_self]
    rcases hj.eq_or_eq hj' with ⟨rfl, -⟩ | ⟨rfl, rfl⟩
    · -- the end of `u`
      by_cases htr : call'.transmits = call.transmits
      · rw [show wayOf t c' u' call' = wayOf t c' u' call from way_eq_iff.mpr htr,
          Function.update_self]
        exact hnext call' htr fun hr => hcall call (by rw [hsame hr, hin]) htr.symm
      · rw [Function.update_of_ne (show wayOf t c' u' call' ≠ wayOf t c' u' call from
          way_ne_iff.mpr htr)]
        refine h c' u' v' hj' call' fun call₀ h₀ htr₀ => ?_
        obtain ⟨-, rfl⟩ := Prod.mk.inj (Option.some.inj (hin.symm.trans h₀))
        exact absurd htr₀.symm htr
    · -- the other end
      have hne : u' ≠ v' := by
        rintro rfl
        rcases hj with ⟨hp, hv⟩ | ⟨hp, hv⟩
        · exact WiredTree.ne_parent (hv ▸ hp) rfl
        · exact WiredTree.ne_parent (hv ▸ hp) rfl
      have hstood := h c' u' v' hj' call' fun call₀ h₀ =>
        hcall call₀ (by rw [hother u' hne, h₀])
      have hside : side t c' u' = (side t c' v').other := (side_other hj).symm
      by_cases htr : call'.transmits = call.transmits
      · have hway : wayOf t c' u' call' ≠ wayOf t c' v' call := by
          unfold wayOf
          rw [hside]
          exact fun heq => way_other_iff.mp heq htr
        rw [Function.update_of_ne hway]
        exact hstood
      · have hway : wayOf t c' u' call' = wayOf t c' v' call := by
          unfold wayOf
          rw [hside]
          exact way_other_iff.mpr htr
        rw [hway] at hstood ⊢
        rw [Function.update_self]
        exact hframe call' htr hstood
  · rw [Function.update_of_ne hc]
    refine h c' u' v' hj' call' fun call₀ h₀ htr₀ => ?_
    by_cases hu : u' = u
    · subst hu
      exact absurd (Prod.mk.inj (Option.some.inj (hin.symm.trans h₀))).1.symm hc
    · exact hcall call₀ (by rw [hother u' hu, h₀]) htr₀

end Stand

/-! ## 3. The system is the network -/

/-- The lines hold what the queues hold. -/
def LineOk (holds : L.State → List (List Word) → Prop) (t : WiredTree ι) (line : ι → Side → L.State)
    (q : ι × ι → List Item) : Prop :=
  ∀ p c, t.parent c = some p → ∀ d, holds (line c d) (contents q p c d)

/-- The system stands for the network. -/
structure MRep (holds : L.State → List (List Word) → Prop) (stands : L.State → Call → Prop)
    (t : WiredTree ι) (sc : Script ι) (s : Micro ι L) (a : Net ι) : Prop where
  node : s.node = a.node
  ok : ∀ u, NodeOk t sc u (a.node u)
  line : LineOk holds t s.line a.queue
  stand : Stand stands t s
  /-- inside a receive of the polling loop -/
  polled : ∀ u, s.polled u = true →
    ∃ kind recv num i, (a.node u).pc = .gather kind recv num i ∧ recv[i]? = some false

section Simulation

variable {Ready : L.State → Call → Prop} {holds : L.State → List (List Word) → Prop}
  {stands : L.State → Call → Prop} {t : WiredTree ι} {sc : Script ι} {s s' : Micro ι L}
  {a : Net ι} {c u v : ι} {e : Ev ι} {kind : Kind}

/-- A new state of the line from `u` to `v`, with the other lines as they were. -/
theorem LineOk.set {q : ι × ι → List Item} {items : List Item} {l : L.State}
    (h : LineOk holds t s.line q) (hj : Joins t c u v) (hl : holds l (items.map Prod.snd)) :
    LineOk holds t (Function.update s.line c (Function.update (s.line c) (side t c u) l))
      (Function.update q (u, v) items) := by
  intro p c' hp d
  by_cases hc : c' = c
  · subst hc
    rw [Function.update_self, contents_update hj hp]
    by_cases hd : d = side t c' u
    · subst hd
      rw [Function.update_self, Function.update_self]
      exact hl
    · rw [Function.update_of_ne hd, Function.update_of_ne hd]
      exact h p c' hp d
  · rw [Function.update_of_ne hc, contents_update_other hj hp hc]
    exact h p c' hp d

theorem inCall_setNode {w : ι} (nd : Node) (h : w ≠ u) :
    (s.setNode u nd).inCall t w = s.inCall t w := by
  simp only [Micro.inCall, Micro.setNode, Function.update_of_ne h]

omit [DecidableEq ι] in
theorem polled_node {w : ι} {nd : Node} (h : ∀ u, s.polled u = true →
      ∃ kind recv num i, (a.node u).pc = .gather kind recv num i ∧ recv[i]? = some false)
    [DecidableEq ι] (u : ι) (hu : Function.update s.polled w false u = true) :
    ∃ kind recv num i, (Function.update a.node w nd u).pc = .gather kind recv num i ∧
      recv[i]? = some false := by
  by_cases hw : u = w
  · subst hw
    rw [Function.update_self] at hu
    cases hu
  · rw [Function.update_of_ne hw] at hu ⊢
    exact h u hu

/-- A step between accesses. -/
theorem MRep.local (h : MRep holds stands t sc s a) {nd : Node} {act : Act ι}
    (hl : Local t sc u (a.node u) act nd) (hin : s.inCall t u = none) :
    MRep holds stands t sc (s.setNode u nd) (a.setNode u nd) where
  node := by rw [Net.setNode_node, Micro.setNode, h.node]
  ok := ok_update h.ok hl
  line := h.line
  stand := h.stand.local rfl hin fun _ hw => inCall_setNode nd hw
  polled := polled_node h.polled

/-- An access that does not show. -/
theorem MRep.quiet (h : MRep holds stands t sc s a) {l : L.State} {d : Side}
    (hline : LineOk holds t (s.setLine c d l).line a.queue)
    (hstand : Stand stands t (s.setLine c d l)) : MRep holds stands t sc (s.setLine c d l) a where
  node := h.node
  ok := h.ok
  line := hline
  stand := hstand
  polled := h.polled

/-- **An access of a send.** -/
theorem MRep.send (hL : L.IsFifo (fun c => c.words ≤ 7) Ready holds stands)
    (h : MRep holds stands t sc s a) {next onFail : Pc} (hj : Joins t c u v)
    (hpc : (a.node u).pc ≠ .idle)
    (hl : Local t sc u (a.node u) (.put v (kind.words (a.node u).buf)) { a.node u with pc := next })
    (hin : s.inCall t u = some (c, kind.send (a.node u).buf))
    (hready : Ready (s.line c (wayOf t c u (kind.send (a.node u).buf))) (kind.send (a.node u).buf))
    (haccess : s.sendAccess t c u v kind next onFail = some (s', e)) :
    ∃ a', MRep holds stands t sc s' a' ∧ NStep t sc a e a' := by
  obtain ⟨p, hp⟩ := hj.parent
  obtain ⟨hwords, htrans, hput⟩ := send_words kind ((h.ok u).buf_le hpc)
  have hway : wayOf t c u (kind.send (a.node u).buf) = side t c u := if_pos htrans
  have hstands := h.stand c u v hj (kind.send (a.node u).buf) fun call₀ h₀ _ =>
    (Prod.mk.inj (Option.some.inj (hin.symm.trans h₀))).2
  simp only [Micro.sendAccess, h.node] at haccess
  cases hacc : L.access (s.line c (wayOf t c u (kind.send (a.node u).buf)))
      (kind.send (a.node u).buf) with
  | none => simp [hacc] at haccess
  | some lr =>
    obtain ⟨l, r⟩ := lr
    obtain ⟨q', hq', hout, hnext, hframe⟩ :=
      hL.access (h.line p c hp _) hstands hwords hready hacc
    rw [hway, contents_side hj hp] at hout
    have hkeep : holds l ((a.queue (u, v)).map Prod.snd) →
        LineOk holds t (s.setLine c (wayOf t c u (kind.send (a.node u).buf)) l).line a.queue := by
      intro hl
      have := h.line.set hj hl
      rwa [Function.update_eq_self, ← hway] at this
    cases r with
    | none =>
      obtain rfl : q' = _ := hout
      simp only [hacc, Option.some.injEq, Prod.mk.injEq] at haccess
      obtain ⟨rfl, rfl⟩ := haccess
      exact ⟨a, h.quiet (hkeep hq') (h.stand.access hj hin hnext hframe rfl (fun _ => rfl)
        fun _ _ => rfl), .stay⟩
    | some r =>
      simp only [hacc] at haccess
      rcases hout with ⟨xs, hxs, rfl⟩ | ⟨xs, ys, hys, -⟩ | ⟨hblocks, rfl⟩
      · simp only [hxs, Option.some.injEq, Prod.mk.injEq] at haccess
        obtain ⟨rfl, rfl⟩ := haccess
        obtain rfl := hput _ _ hxs
        refine ⟨(a.setNode u { a.node u with pc := next }).setQueue u v
          (a.queue (u, v) ++ [((a.node u).done, kind.words (a.node u).buf)]), ⟨?_, ?_, ?_, ?_, ?_⟩,
          .put hl⟩
        · simp only [Micro.setNode, Micro.setLine, h.node, Net.setQueue_node, Net.setNode_node]
        · exact ok_update h.ok hl
        · have hitems : holds l ((a.queue (u, v) ++
              [((a.node u).done, kind.words (a.node u).buf)]).map Prod.snd) := by
            rw [List.map_append, List.map_singleton]
            exact hq'
          have hline := h.line.set hj hitems
          rwa [← hway] at hline
        · exact h.stand.access hj hin hnext hframe rfl (fun hr => by cases hr)
            fun w hw => inCall_setNode _ hw
        · exact polled_node h.polled
      · rw [got?_of_transmits htrans] at hys
        cases hys
      · have hnone : (kind.send (a.node u).buf).put? r = none := by
          rw [Option.eq_none_iff_forall_ne_some]
          intro xs hxs
          rw [not_blocks_of_put? hxs] at hblocks
          cases hblocks
        simp only [hnone, hblocks, if_true, Option.some.injEq, Prod.mk.injEq] at haccess
        obtain ⟨rfl, rfl⟩ := haccess
        exact ⟨a, h.quiet (hkeep hq') (h.stand.access hj hin hnext hframe rfl (fun _ => rfl)
          fun _ _ => rfl), .stay⟩

/-- **An access of a receive.** -/
theorem MRep.recv (hL : L.IsFifo (fun c => c.words ≤ 7) Ready holds stands)
    (h : MRep holds stands t sc s a) {next : Pc} (hj : Joins t c u v)
    (hpc : (a.node u).pc ≠ .idle)
    (hl : ∀ ys, ys.length = (kind.words (a.node u).buf).length →
      Local t sc u (a.node u) (.got v ys)
        { a.node u with pc := next, buf := kind.store (a.node u).buf ys })
    (hin : s.inCall t u = some (c, kind.recv (a.node u).buf))
    (hready : Ready (s.line c (wayOf t c u (kind.recv (a.node u).buf))) (kind.recv (a.node u).buf))
    (haccess : s.recvAccess t c u v kind next = some (s', e)) :
    ∃ a', MRep holds stands t sc s' a' ∧ NStep t sc a e a' := by
  obtain ⟨p, hp⟩ := hj.parent
  obtain ⟨hwords, hle, htrans⟩ := recv_words kind ((h.ok u).buf_le hpc)
  have hway : wayOf t c u (kind.recv (a.node u).buf) = side t c v := by
    rw [← side_other hj]
    exact if_neg (by rw [htrans]; exact Bool.false_ne_true)
  have hstands := h.stand c u v hj (kind.recv (a.node u).buf) fun call₀ h₀ _ =>
    (Prod.mk.inj (Option.some.inj (hin.symm.trans h₀))).2
  simp only [Micro.recvAccess, h.node] at haccess
  cases hacc : L.access (s.line c (wayOf t c u (kind.recv (a.node u).buf)))
      (kind.recv (a.node u).buf) with
  | none => simp [hacc] at haccess
  | some lr =>
    obtain ⟨l, r⟩ := lr
    obtain ⟨q', hq', hout, hnext, hframe⟩ :=
      hL.access (h.line p c hp _) hstands hle hready hacc
    rw [hway, contents_side hj.symm hp] at hout
    have hkeep : holds l ((a.queue (v, u)).map Prod.snd) →
        LineOk holds t (s.setLine c (wayOf t c u (kind.recv (a.node u).buf)) l).line a.queue := by
      intro hl
      have := h.line.set hj.symm hl
      rwa [Function.update_eq_self, ← hway] at this
    cases r with
    | none =>
      obtain rfl : q' = _ := hout
      simp only [hacc, Option.some.injEq, Prod.mk.injEq] at haccess
      obtain ⟨rfl, rfl⟩ := haccess
      exact ⟨a, h.quiet (hkeep hq') (h.stand.access hj hin hnext hframe rfl (fun _ => rfl)
        fun _ _ => rfl), .stay⟩
    | some r =>
      simp only [hacc] at haccess
      rcases hout with ⟨xs, hxs, -⟩ | ⟨xs, ys, hys, hlen, hag, hq⟩ | ⟨hblocks, rfl⟩
      · rw [put?_of_receives htrans] at hxs
        cases hxs
      · simp only [hys, Option.some.injEq, Prod.mk.injEq] at haccess
        obtain ⟨rfl, rfl⟩ := haccess
        obtain ⟨x, rest, hx, rfl, rfl⟩ := List.map_eq_cons_iff.mp hq
        have hlocal := hl ys (by rw [hlen, hwords])
        refine ⟨(a.setNode u { a.node u with pc := next, buf := kind.store (a.node u).buf ys
          }).setQueue v u rest, ⟨?_, ?_, ?_, ?_, ?_⟩, .got hlocal hx hag⟩
        · simp only [Micro.setNode, Micro.setLine, h.node, Net.setQueue_node, Net.setNode_node]
        · exact ok_update h.ok hlocal
        · have := h.line.set hj.symm hq'
          rwa [← hway] at this
        · exact h.stand.access hj hin hnext hframe rfl (fun hr => by cases hr)
            fun w hw => inCall_setNode _ hw
        · exact polled_node h.polled
      · have hnone : (kind.recv (a.node u).buf).got? r = none := by
          rw [Option.eq_none_iff_forall_ne_some]
          intro ys hys
          rw [not_blocks_of_got? hys] at hblocks
          cases hblocks
        simp only [hnone, hblocks, if_true, Option.some.injEq, Prod.mk.injEq] at haccess
        obtain ⟨rfl, rfl⟩ := haccess
        exact ⟨a, h.quiet (hkeep hq') (h.stand.access hj hin hnext hframe rfl (fun _ => rfl)
          fun _ _ => rfl), .stay⟩

/-- **Every access of the system is a step of the network**, or does not show. -/
theorem micro_turn (hL : L.IsFifo (fun c => c.words ≤ 7) Ready holds stands)
    (h : MRep holds stands t sc s a) (hturn : s.turn t sc u = some (s', e))
    (hready : ∀ c call, s.inCall t u = some (c, call) →
      Ready (s.line c (wayOf t c u call)) call) :
    ∃ a', MRep holds stands t sc s' a' ∧ NStep t sc a e a' := by
  have hok := (h.ok u).pc
  simp only [Micro.turn, h.node] at hturn
  have hin : s.inCall t u = s.inCall t u := rfl
  conv at hin => rhs; simp only [Micro.inCall, h.node]
  rcases hnd : a.node u with ⟨done, pc, buf⟩
  have hbuf : buf = (a.node u).buf := by rw [hnd]
  rw [hnd] at hok
  simp only [hnd] at hturn hin
  cases pc with
  | idle =>
    cases hcall : sc.calls[done]? with
    | none => simp [hcall] at hturn
    | some call =>
      simp only [hcall, Option.some.injEq, Prod.mk.injEq] at hturn
      obtain ⟨rfl, rfl⟩ := hturn
      have hl : Local t sc u (a.node u) .enter _ := hnd ▸ Local.enter hcall
      exact ⟨_, h.local hl hin, by simpa only [hnd] using NStep.enter hl⟩
  | gather kind recv num i =>
    by_cases hnum : num < (t.children u).length
    · cases hc : (t.children u)[i]? with
      | none => simp [hnum, hc] at hturn
      | some c =>
        simp only [hnum, if_true, hc] at hturn
        simp only [hc, Option.map_some] at hin
        have hj : Joins t c u c := .inl ⟨WiredTree.parent_of_getElem? hc, rfl⟩
        cases hpolled : s.polled u with
        | true =>
          simp only [hpolled, if_true] at hturn hin
          obtain ⟨kind', recv', num', i', hpc', hflag⟩ := h.polled u hpolled
          rw [hnd] at hpc'
          obtain ⟨-, rfl, -, rfl⟩ := Pc.gather.inj hpc'
          rw [hbuf] at hin
          exact h.recv hL hj (by simp [hnd])
            (fun ys hys => by rw [hnd] at hys ⊢; exact .take hc hflag hys) hin
            (hready _ _ hin) hturn
        | false =>
          simp only [hpolled, Bool.false_eq_true, if_false] at hturn hin
          split at hturn
          · -- the poll has found something
            rename_i hpoll
            simp only [Option.some.injEq, Prod.mk.injEq] at hturn
            obtain ⟨rfl, rfl⟩ := hturn
            refine ⟨a, ⟨h.node, h.ok, h.line, h.stand.local rfl hin fun w hw => ?_,
              fun w hw => ?_⟩, .stay⟩
            · simp only [Micro.inCall, Micro.setPolled, Function.update_of_ne hw]
            · by_cases hwu : w = u
              · subst hwu
                exact ⟨kind, recv, num, i, by rw [hnd], hpoll.1⟩
              · simp only [Micro.setPolled, Function.update_of_ne hwu] at hw
                exact h.polled w hw
          · simp only [Option.some.injEq, Prod.mk.injEq] at hturn
            obtain ⟨rfl, rfl⟩ := hturn
            have hl : Local t sc u (a.node u) .quiet _ := hnd ▸ Local.poll hc
            exact ⟨_, h.local hl hin, .quiet hl⟩
    · simp only [hnum, if_false, Option.some.injEq, Prod.mk.injEq] at hturn
      obtain ⟨rfl, rfl⟩ := hturn
      have hl : Local t sc u (a.node u) .quiet _ := hnd ▸ Local.gathered (Nat.le_of_not_lt hnum)
      -- all flags are set, so it is in no receive
      have hpolled : ¬ s.polled u = true := by
        intro hpolled
        obtain ⟨kind', recv', num', i', hpc', hflag⟩ := h.polled u hpolled
        rw [hnd] at hpc'
        obtain ⟨-, rfl, -, rfl⟩ := Pc.gather.inj hpc'
        obtain ⟨-, hlen, hcount, -⟩ := hok
        obtain ⟨hi, hfalse⟩ := List.getElem?_eq_some_iff.mp hflag
        have htrue := getElem?_of_count recv i hi (by omega)
        rw [hflag] at htrue
        cases htrue
      exact ⟨_, h.local hl (by rw [hin]; exact if_neg hpolled), .quiet hl⟩
  | sendUp kind =>
    cases hcall : sc.calls[done]? with
    | none => simp [hcall] at hturn
    | some call =>
      cases hp : t.parent u with
      | none =>
        simp only [hcall, hp, Option.some.injEq, Prod.mk.injEq] at hturn
        obtain ⟨rfl, rfl⟩ := hturn
        have hl : Local t sc u (a.node u) .quiet _ := hnd ▸ Local.skipUp hp hcall
        exact ⟨_, h.local hl (by rw [hin]; simp only [hp, Option.map_none]), .quiet hl⟩
      | some p =>
        simp only [hcall, hp] at hturn
        simp only [hp, Option.map_some] at hin
        rw [hbuf] at hin
        exact h.send hL (.inr ⟨hp, rfl⟩) (by simp [hnd])
          (by rw [hnd]; exact .putUp hp hcall) hin (hready _ _ hin) hturn
  | recvDown kind =>
    cases hp : t.parent u with
    | none => simp [hp] at hturn
    | some p =>
      simp only [hp] at hturn
      rw [hbuf] at hin
      exact h.recv hL (.inr ⟨hp, rfl⟩) (by simp [hnd])
        (fun ys hys => by rw [hnd] at hys ⊢; exact .gotDown hp hys) hin (hready _ _ hin) hturn
  | sendDown kind i =>
    cases hc : (t.children u)[i]? with
    | none =>
      simp only [hc, Option.some.injEq, Prod.mk.injEq] at hturn
      obtain ⟨rfl, rfl⟩ := hturn
      have hl : Local t sc u (a.node u) .quiet _ := hnd ▸ Local.sentDown hc
      exact ⟨_, h.local hl (by rw [hin]; simp only [hc, Option.map_none]), .quiet hl⟩
    | some c =>
      simp only [hc] at hturn
      simp only [hc, Option.map_some] at hin
      rw [hbuf] at hin
      exact h.send hL (.inl ⟨WiredTree.parent_of_getElem? hc, rfl⟩) (by simp [hnd])
        (by rw [hnd]; exact .putDown hc) hin (hready _ _ hin) hturn
  | ret =>
    simp only [Option.some.injEq, Prod.mk.injEq] at hturn
    obtain ⟨rfl, rfl⟩ := hturn
    have hl : Local t sc u (a.node u) .ret _ := hnd ▸ Local.ret
    exact ⟨_, h.local hl hin, by simpa only [hnd] using NStep.ret hl⟩
  | failed => exact hok.elim

/-- Every line is new: empty, and outside all calls. -/
def NewLines (holds : L.State → List (List Word) → Prop) (stands : L.State → Call → Prop)
    (t : WiredTree ι) (line : ι → Side → L.State) : Prop :=
  ∀ c, c ≠ t.root → ∀ d, holds (line c d) [] ∧ ∀ call, stands (line c d) call

theorem mrep_init {line : ι → Side → L.State} (h : NewLines holds stands t line) :
    MRep holds stands t sc (Micro.init line) Net.init where
  node := rfl
  ok u := nodeOk_init t sc u
  line := by
    intro p c hp d
    have hc : c ≠ t.root := fun hc => by simp [(t.parent_eq_none c).mpr hc] at hp
    have hnil : contents (Net.init (ι := ι)).queue p c d = [] := by cases d <;> rfl
    rw [hnil]
    exact (h c hc d).1
  stand := by
    intro c u v hj call _
    obtain ⟨p, hp⟩ := hj.parent
    exact (h c (fun hc => by simp [(t.parent_eq_none c).mpr hc] at hp) _).2 call
  polled u hu := by cases hu

/-- **Every run of accesses that find their lines ready is a run of the network.** -/
theorem reachable_micro (hL : L.IsFifo (fun c => c.words ≤ 7) Ready holds stands)
    {line : ι → Side → L.State} (hnew : NewLines holds stands t line) {tr : List (Ev ι)}
    (hrun : Run (ReadyStep Ready t sc) (Micro.init line) tr s) :
    ∃ a, MRep holds stands t sc s a ∧ Run (NStep t sc) Net.init tr a := by
  refine Run.induct
    (fun tr s => ∃ a, MRep holds stands t sc s a ∧ Run (NStep t sc) Net.init tr a)
    ⟨_, mrep_init hnew, .nil⟩ ?_ hrun
  rintro tr s e s' ⟨a, hrep, hnet⟩ ⟨u, hturn, hready⟩
  obtain ⟨a', hrep', hstep⟩ := micro_turn hL hrep hturn hready
  exact ⟨a', hrep', hnet.snoc hstep⟩

end Simulation

/-! ## 4. Calls that go up and down -/

/-- The call is a reduction and a broadcast. -/
def Coll.TwoWay (call : Coll) : Prop := call.up?.isSome = true ∧ call.down?.isSome = true

section TwoWay

variable {t : WiredTree ι} {sc : Script ι} {a : Net ι} {u v : ι} {k : ℕ} {call : Coll}

theorem Coll.TwoWay.uses (h : call.TwoWay) (u v : ι) : uses t u v call = true := by
  unfold Collective.uses
  split
  · exact h.1
  · exact h.2

end TwoWay

/-! ## 5. Over UMP -/

section Ump

variable {t : WiredTree ι} {sc : Script ι} {s : Micro ι Ump.line} {a : Net ι} {u : ι}

omit [DecidableEq ι] in
/-- The directions of new UMP queue pairs. -/
theorem newLines_ump {alloc : ι → Side → Option Nat} {numSlots : ι → UInt16}
    {chan : ι → Ump.World}
    (hinit : ∀ c, c ≠ t.root → Ump.queuepairInit (alloc c) (numSlots c) = .ok (chan c)) :
    NewLines (L := Ump.line) Ump.Carries Ump.Stands t fun c => Ump.Micro.init (chan c) :=
  fun c hc d => ⟨(Ump.line_init (hinit c hc)).1 d, (Ump.line_init (hinit c hc)).2 d⟩

end Ump

/-- **Collectives meet by call number access by access**, for every sequence of calls and every
interleaving in which no sender reads an acknowledgement while the receiver is still copying the
slot it has acknowledged: each receive gets just what was sent; and then every broadcast returns the
words the root passed to its own call of that number. -/
theorem collectives_match_access {t : WiredTree ι} {sc : Script ι} {alloc : ι → Side → Option Nat}
    {numSlots : ι → UInt16} {chan : ι → Ump.World}
    (hinit : ∀ c, c ≠ t.root → Ump.queuepairInit (alloc c) (numSlots c) = .ok (chan c)) {len : ℕ}
    (hlen : ∀ u k, (sc.msg u k).length = len) {tr : List (Ev ι)} {s : Micro ι Ump.line}
    (hrun : Run (ReadyStep Ump.Ready t sc) (Micro.init fun c => Ump.Micro.init (chan c)) tr s) :
    (∀ (u v : ι) (j k : ℕ) (ys : List Word),
        (Fifo.recvs (tr.filterMap (Ev.see u v)))[j]? = some (k, ys) →
        (Fifo.sends (tr.filterMap (Ev.see u v)))[j]? = some (k, ys)) ∧
      ∀ u k buf, Ev.ret u k buf ∈ tr → sc.calls[k]? = some .broadcast → buf = sc.msg t.root k := by
  obtain ⟨a, -, hnet⟩ := reachable_micro Ump.line_isFifo (newLines_ump hinit) hrun
  exact ⟨net_match_exact hlen hnet, (reachable_bcast hlen hnet).2⟩

instance (l : Ump.line.State) (call : Call) : Decidable (Ump.Ready l call) :=
  Ump.decidableReady l call

theorem collectives_match_access_hello :
    ∃ w tr s, Ump.queuepairInit (fun _ => some 4096) 3 = .ok w ∧
      Run.drive (Micro.readyTurn Ump.Ready .pair helloScript)
        (Micro.init (L := Ump.line) fun _ => Ump.Micro.init w)
        (List.replicate 6 false ++ List.replicate 7 true) = some (tr, s) ∧
      Ev.ret true 0 [7] ∈ tr ∧
      ∀ u k buf, Ev.ret u k buf ∈ tr → helloScript.calls[k]? = some .broadcast →
        buf = helloScript.msg false k := by
  obtain ⟨w, tr, s, hinit, hdrive, hmem⟩ : ∃ w tr s,
      Ump.queuepairInit (fun _ => some 4096) 3 = .ok w ∧
      Run.drive (Micro.readyTurn Ump.Ready .pair helloScript)
        (Micro.init (L := Ump.line) fun _ => Ump.Micro.init w)
        (List.replicate 6 false ++ List.replicate 7 true) = some (tr, s) ∧
      Ev.ret true 0 [7] ∈ tr := ⟨_, _, _, rfl, rfl, by decide⟩
  have hone : ∀ u k, (helloScript.msg u k).length = 1 := fun u _ => by cases u <;> rfl
  exact ⟨w, tr, s, hinit, hdrive, hmem, (collectives_match_access (fun _ _ => hinit) hone
    (Run.of_drive readyStep_of_readyTurn hdrive)).2⟩

/-- Two broadcasts of one word. -/
def twiceScript : Script Bool where
  calls := [.broadcast, .broadcast]
  msg u k := if u then [0] else [7 + k.toUInt64]
  input _ _ := []
  fits u _ := by cases u <;> simp

/-- **The condition is needed**: the root sends its second word into the slot that the child has
acknowledged and not read yet, and the child's first broadcast returns it. -/
theorem broadcast_overwritten :
    ∃ w tr s, Ump.queuepairInit (fun _ => some 4096) 2 = .ok w ∧
      Run.drive (Micro.turn .pair twiceScript)
        (Micro.init (L := Ump.line) fun _ => Ump.Micro.init w)
        (List.replicate 6 false ++ List.replicate 3 true ++ List.replicate 3 false ++
          List.replicate 4 true) = some (tr, s) ∧
      twiceScript.msg false 0 = [7] ∧ Ev.ret true 0 [8] ∈ tr :=
  ⟨_, _, _, rfl, rfl, rfl, by decide⟩

end Smelt.Collective
