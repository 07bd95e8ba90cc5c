/-
# Collectives finish

`Progress.lean` says that somebody can always move.  Under a fair schedule more is true: every node
returns from all its calls.

A node has a fixed amount to do (`nodeWork`): in each call it makes its sends, its receives and the
steps between them, and only the turns of a polling loop that find nothing are not counted.  So in
any run all but these turns are bounded in number; what has to be excluded is that from some time on
everybody polls or is refused.  The node that is in the least call and does not wait
(`exists_ready`) prevents that: its message stays where it is until it takes it, so its polling loop
comes round to it.

When everybody has finished, everything that was sent has been received: each direction of an edge
has carried one message for each call that uses it, and the channels hold nothing (`traffic`).
-/
import Smelt.Collective.Progress
import Smelt.Lib.Fair
import Mathlib.Algebra.BigOperators.Group.Finset.Basic
import Mathlib.Algebra.Order.BigOperators.Group.Finset

namespace Smelt.Collective

variable {ι : Type} [DecidableEq ι] {B : Backend}

/-! ## 1. What is left to do -/

/-- How far a node with `count` children has come in its call. -/
def Pc.place (count : ℕ) : Pc → ℕ
  | .idle => 0
  | .gather _ _ num _ => num + 1
  | .sendUp _ => count + 2
  | .recvDown _ => count + 3
  | .sendDown _ i => count + 4 + i
  | .ret => 2 * count + 5
  | .failed => 0

/-- What a node has left to do in all its calls. -/
def nodeWork (t : WiredTree ι) (sc : Script ι) (u : ι) (nd : Node) : ℕ :=
  (sc.calls.length - nd.done) * (2 * (t.children u).length + 6) -
    nd.pc.place (t.children u).length

section Work

variable {t : WiredTree ι} {sc : Script ι} {u : ι} {nd nd' : Node} {act : Act ι}

omit [DecidableEq ι] in
/-- In a call a node has at least the rest of the call to do. -/
theorem NodeOk.place_lt (h : NodeOk t sc u nd) :
    nd.pc.place (t.children u).length < 2 * (t.children u).length + 6 ∧
      (nd.pc ≠ .idle → nd.done < sc.calls.length) := by
  have hpc := h.pc
  rcases nd with ⟨done, pc, buf⟩
  have hlt : (∃ call, sc.calls[done]? = some call) → done < sc.calls.length := by
    rintro ⟨call, hcall⟩
    exact (List.getElem?_eq_some_iff.mp hcall).1
  cases pc with
  | idle => exact ⟨by simp [Pc.place], fun hne => absurd rfl hne⟩
  | gather kind recv num i =>
    obtain ⟨⟨call, hcall, -⟩, hlen, hnum, -⟩ := hpc
    have hle : recv.count true ≤ recv.length := List.count_le_length
    exact ⟨by simp only [Pc.place]; omega, fun _ => hlt ⟨call, hcall⟩⟩
  | sendUp kind =>
    obtain ⟨call, hcall, -⟩ := hpc
    exact ⟨by simp only [Pc.place]; omega, fun _ => hlt ⟨call, hcall⟩⟩
  | recvDown kind =>
    obtain ⟨⟨call, hcall, -⟩, -⟩ := hpc
    exact ⟨by simp only [Pc.place]; omega, fun _ => hlt ⟨call, hcall⟩⟩
  | sendDown kind i =>
    obtain ⟨⟨call, hcall, -⟩, hi⟩ := hpc
    exact ⟨by simp only [Pc.place]; omega, fun _ => hlt ⟨call, hcall⟩⟩
  | ret => exact ⟨by simp [Pc.place], fun _ => hlt hpc⟩
  | failed => exact hpc.elim

omit [DecidableEq ι] in
/-- Further in the same call. -/
theorem nodeWork_lt {done : ℕ} {pc pc' : Pc} {buf buf' : List Word} (hdone : done < sc.calls.length)
    (hlt : pc.place (t.children u).length < pc'.place (t.children u).length)
    (hle : pc.place (t.children u).length < 2 * (t.children u).length + 6) :
    nodeWork t sc u ⟨done, pc', buf'⟩ < nodeWork t sc u ⟨done, pc, buf⟩ := by
  have hone : 2 * (t.children u).length + 6 ≤
      (sc.calls.length - done) * (2 * (t.children u).length + 6) :=
    Nat.le_mul_of_pos_left _ (by omega)
  simp only [nodeWork]
  omega

omit [DecidableEq ι] in
theorem lt_place_broadcastEntry (t : WiredTree ι) (u : ι) (kind : Kind) :
    (t.children u).length + 2 < (broadcastEntry t u kind).place (t.children u).length := by
  unfold broadcastEntry
  split
  · simp only [Pc.place]
    omega
  · simp only [Pc.place]
    omega

omit [DecidableEq ι] in
theorem place_entry_pos (t : WiredTree ι) (u : ι) (call : Coll) :
    0 < (call.entry t u).place (t.children u).length := by
  rcases entry_cases t u call with ⟨kind, -, he⟩ | ⟨kind, -, -, he⟩
  · rw [he]
    exact Nat.succ_pos 0
  · rw [he]
    have := lt_place_broadcastEntry t u kind
    omega

omit [DecidableEq ι] in
theorem lt_place_afterReduce (t : WiredTree ι) (u : ι) {call : Coll} {kind : Kind}
    (hup : call.up? = some kind) :
    (t.children u).length + 2 < (call.afterReduce t u).place (t.children u).length := by
  rcases afterReduce_cases t u hup with ⟨-, he⟩ | ⟨kind', -, he⟩
  · rw [he]
    simp only [Pc.place]
    omega
  · rw [he]
    exact lt_place_broadcastEntry t u kind'

/-- The next turn of the polling loop. -/
def Pc.polled (count : ℕ) : Pc → Pc
  | .gather kind recv num i => .gather kind recv num (nextChild count i)
  | pc => pc

omit [DecidableEq ι] in
/-- **Every local step is work, or a turn of the polling loop that finds nothing.** -/
theorem work_local (h : NodeOk t sc u nd) (hl : Local t sc u nd act nd') :
    nodeWork t sc u nd' < nodeWork t sc u nd ∨
      act = .quiet ∧ nd' = { nd with pc := nd.pc.polled (t.children u).length } := by
  obtain ⟨hplace, hdone⟩ := h.place_lt
  have hpc := h.pc
  cases hl with
  | @enter done b call hcall =>
    have hlt := (List.getElem?_eq_some_iff.mp hcall).1
    exact .inl (nodeWork_lt hlt (place_entry_pos t u call) hplace)
  | poll hc => exact .inr ⟨rfl, rfl⟩
  | take hc hrecv hys =>
    exact .inl (nodeWork_lt (hdone nofun) (Nat.lt_succ_self _) hplace)
  | gathered hnum =>
    obtain ⟨-, hlen, hcount, -⟩ := hpc
    refine .inl (nodeWork_lt (hdone nofun) ?_ hplace)
    have hle := List.count_le_length (a := true) (l := ‹List Bool›)
    simp only [Pc.place]
    omega
  | skipUp hp hcall =>
    obtain ⟨call', hcall', hup⟩ := hpc
    obtain rfl := Option.some.inj (hcall.symm.trans hcall')
    exact .inl (nodeWork_lt (hdone nofun) (lt_place_afterReduce t u hup) hplace)
  | putUp hp hcall =>
    obtain ⟨call', hcall', hup⟩ := hpc
    obtain rfl := Option.some.inj (hcall.symm.trans hcall')
    exact .inl (nodeWork_lt (hdone nofun) (lt_place_afterReduce t u hup) hplace)
  | gotDown hp hys => exact .inl (nodeWork_lt (hdone nofun) (by simp [Pc.place]) hplace)
  | putDown hc => exact .inl (nodeWork_lt (hdone nofun) (by simp [Pc.place]) hplace)
  | sentDown hc =>
    obtain ⟨-, hi⟩ := hpc
    refine .inl (nodeWork_lt (hdone nofun) ?_ hplace)
    simp only [Pc.place]
    omega
  | @ret done b =>
    have hlt : done < sc.calls.length := hdone nofun
    have hsub : sc.calls.length - done = sc.calls.length - (done + 1) + 1 := by omega
    refine .inl ?_
    simp only [nodeWork, Pc.place, hsub, Nat.succ_mul]
    omega

end Work

/-! ## 2. Who is ready -/

/-- The node `u` can go on: its polling loop will take the message of the child in place `j`, or the
step it stands before does not have to wait. -/
def ReadyFor (t : WiredTree ι) (sc : Script ι) (a : Net ι) (u : ι) (j : ℕ) : Prop :=
  (a.node u).done < sc.calls.length ∧
    match (a.node u).pc with
    | .gather _ recv num _ => num < (t.children u).length →
      ∃ c, (t.children u)[j]? = some c ∧ recv[j]? = some false ∧ a.queue (c, u) ≠ []
    | _ => ¬ Waits t sc a u

/-- The turns of its polling loop before the one at place `j`. -/
def Pc.turnsTo (count j : ℕ) : Pc → ℕ
  | .gather _ _ _ i => if i ≤ j then j - i else j + count - i
  | _ => 0

section Ready

variable {t : WiredTree ι} {sc : Script ι} {a a' : Net ι} {u : ι} {j : ℕ}

omit [DecidableEq ι] in
/-- What a node waits for is told by its own place and the queues. -/
theorem Waits.congr (hnode : a'.node u = a.node u) (hqueue : a'.queue = a.queue)
    (h : Waits t sc a' u) : Waits t sc a u := by
  cases h with
  | children hpc hnum hq =>
    rw [hnode] at hpc
    rw [hqueue] at hq
    exact .children hpc hnum hq
  | parent hpc hp hq =>
    rw [hnode] at hpc
    rw [hqueue] at hq
    exact .parent hpc hp hq
  | room hl hq =>
    rw [hnode] at hl
    rw [hqueue] at hq
    exact .room hl hq

omit [DecidableEq ι] in
theorem ReadyFor.congr (hnode : a'.node u = a.node u) (hqueue : a'.queue = a.queue)
    (h : ReadyFor t sc a u j) : ReadyFor t sc a' u j := by
  obtain ⟨hdone, hready⟩ := h
  refine ⟨hnode ▸ hdone, ?_⟩
  rw [hnode]
  cases hpc : (a.node u).pc with
  | gather kind recv num i =>
    simp only [hpc] at hready
    rw [hqueue]
    exact hready
  | _ =>
    simp only [hpc] at hready
    exact fun hw => hready (hw.congr hnode hqueue)

omit [DecidableEq ι] in
/-- A turn of the polling loop that finds nothing leaves the node ready. -/
theorem ReadyFor.polled (hnode : a'.node u =
      { a.node u with pc := (a.node u).pc.polled (t.children u).length })
    (hqueue : a'.queue = a.queue) (h : ReadyFor t sc a u j) : ReadyFor t sc a' u j := by
  rcases hnd : a.node u with ⟨done, pc, buf⟩
  cases pc with
  | gather kind recv num i =>
    obtain ⟨hdone, hready⟩ := h
    simp only [hnd, Pc.polled] at hdone hready hnode
    unfold ReadyFor
    rw [hnode, hqueue]
    exact ⟨hdone, hready⟩
  | _ => exact h.congr (by simp [hnode, hnd, Pc.polled]) hqueue

/-- **Somebody who has not finished is ready.** -/
theorem exists_ready [Finite ι] (hinv : NetInv t sc a)
    (hu : ∃ u, (a.node u).done < sc.calls.length) : ∃ u j, ReadyFor t sc a u j := by
  classical
  by_contra hall
  push Not at hall
  -- whoever has not finished waits
  have hwaits : ∀ u, (a.node u).done < sc.calls.length → Waits t sc a u := by
    intro u hdone
    cases hpc : (a.node u).pc with
    | gather kind recv num i =>
      have hnum : num < (t.children u).length := by
        by_contra hge
        exact hall u 0 ⟨hdone, by rw [hpc]; exact fun h => absurd h hge⟩
      refine .children hpc hnum fun j c hc hr => ?_
      by_contra hne
      exact hall u j ⟨hdone, by rw [hpc]; exact fun _ => ⟨c, hc, hr, hne⟩⟩
    | _ =>
      by_contra hnot
      exact hall u 0 ⟨hdone, by rw [hpc]; exact hnot⟩
  have hex : ∃ k, ∃ u, (a.node u).done = k ∧ k < sc.calls.length :=
    hu.imp' (fun u => (a.node u).done) fun u hu => ⟨u, rfl, hu⟩
  obtain ⟨u, huk, hlt⟩ := Nat.find_spec hex
  have hjam : Jam t sc a (Nat.find hex) := by
    refine ⟨fun v => ?_, fun v hv => hwaits v (by omega)⟩
    by_contra hv
    exact Nat.find_min hex (Nat.lt_of_not_le hv) ⟨v, rfl, by omega⟩
  exact hjam.elim hinv u huk

end Ready

/-! ## 3. Turns -/

/-- The system after a turn of `u`; a node with nothing left to do lets it pass. -/
def Sys.next (t : WiredTree ι) (sc : Script ι) (s : Sys ι B) (u : ι) : Sys ι B :=
  match s.turn t sc u with
  | some r => r.1
  | none => s

section Turns

variable {holds : B.State → (Side → List (List Word)) → Prop} {t : WiredTree ι} {sc : Script ι}
  {s : Sys ι B} {a : Net ι} {u : ι} {j : ℕ}

/-- A turn concerns the node that takes it. -/
theorem turn_node {s' : Sys ι B} {e : Ev ι} (h : s.turn t sc u = some (s', e)) :
    ∃ nd, s'.node = Function.update s.node u nd := by
  have hsame : ∀ {chan : ι → B.State} {e' : Ev ι},
      some (({ s with chan := chan } : Sys ι B), e') = some (s', e) →
      ∃ nd, s'.node = Function.update s.node u nd := by
    intro chan e' heq
    obtain ⟨rfl, rfl⟩ := Prod.mk.inj (Option.some.inj heq)
    exact ⟨s.node u, (Function.update_eq_self u s.node).symm⟩
  have hset : ∀ {chan : ι → B.State} {nd : Node} {e' : Ev ι},
      some (({ s with chan := chan } : Sys ι B).setNode u nd, e') = some (s', e) →
      ∃ nd, s'.node = Function.update s.node u nd := by
    intro chan nd e' heq
    obtain ⟨rfl, rfl⟩ := Prod.mk.inj (Option.some.inj heq)
    exact ⟨nd, rfl⟩
  have hsend : ∀ {c v : ι} {kind : Kind} {next onFail : Pc},
      some (s.sendTurn t c u v kind next onFail) = some (s', e) →
      ∃ nd, s'.node = Function.update s.node u nd := by
    intro c v kind next onFail heq
    simp only [Sys.sendTurn] at heq
    split at heq
    · exact hset heq
    · split at heq
      · exact hsame heq
      · exact hset heq
  have hrecv : ∀ {c v : ι} {kind : Kind} {next : Pc},
      some (s.recvTurn t c u v kind next) = some (s', e) →
      ∃ nd, s'.node = Function.update s.node u nd := by
    intro c v kind next heq
    simp only [Sys.recvTurn] at heq
    split at heq
    · exact hset heq
    · split at heq
      · exact hsame heq
      · exact hset heq
  simp only [Sys.turn] at h
  split at h
  · split at h
    · cases h
    · exact hset h
  · split at h
    · split at h
      · cases h
      · split at h
        · exact hrecv h
        · exact hset h
    · exact hset h
  · split at h
    · cases h
    · split at h
      · exact hset h
      · exact hsend h
  · split at h
    · cases h
    · exact hrecv h
  · split at h
    · exact hset h
    · exact hsend h
  · exact hset h
  · cases h

theorem NStep.queue_of_quiet {a' : Net ι} (h : NStep t sc a (.quiet u) a') :
    a'.queue = a.queue := by
  cases h with
  | quiet hl => rfl
  | stay => rfl

/-- A step that changes no other node than `u`: `u` has less to do, or has polled in vain, or stands
where it stood, and the queues are as they were. -/
theorem NStep.work_cases {a' : Net ι} {e : Ev ι} (hok : ∀ u, NodeOk t sc u (a.node u))
    (hstep : NStep t sc a e a') {nd : Node} (hnd : a'.node = Function.update a.node u nd) :
    nodeWork t sc u nd < nodeWork t sc u (a.node u) ∨
      a'.queue = a.queue ∧ (nd = a.node u ∨
        nd = { a.node u with pc := (a.node u).pc.polled (t.children u).length }) := by
  rcases hstep.node with ⟨hnode, w, he⟩ | ⟨w, act, nd', hl, hnode, he⟩
  · rw [he] at hstep
    have hsame : nd = a.node u := by
      have hu := congrFun (hnd.symm.trans hnode) u
      rwa [Function.update_self] at hu
    exact .inr ⟨hstep.queue_of_quiet, .inl hsame⟩
  · -- the node that made the step is `u`, or nothing has changed
    by_cases hw : w = u
    · subst hw
      have hsame : nd = nd' := by
        have hu := congrFun (hnd.symm.trans hnode) w
        rwa [Function.update_self, Function.update_self] at hu
      subst hsame
      rcases work_local (hok w) hl with hlt | ⟨rfl, hpoll⟩
      · exact .inl hlt
      · rw [he] at hstep
        exact .inr ⟨hstep.queue_of_quiet, .inr hpoll⟩
    · have hw' : nd' = a.node w := by
        have hu := congrFun (hnode.symm.trans hnd) w
        rwa [Function.update_self, Function.update_of_ne hw] at hu
      have hsame : nd = a.node u := by
        have hu := congrFun (hnd.symm.trans hnode) u
        rwa [Function.update_self, Function.update_of_ne (Ne.symm hw)] at hu
      subst hw'
      rcases work_local (hok w) hl with hlt | ⟨rfl, -⟩
      · exact absurd hlt (Nat.lt_irrefl _)
      · rw [he] at hstep
        exact .inr ⟨hstep.queue_of_quiet, .inl hsame⟩

/-- **What a turn does to the network.** -/
theorem next_cases (hB : B.IsFifo holds) (h : Rep holds t sc s a) (hinv : NetInv t sc a) (u : ι) :
    ∃ a' nd, Rep holds t sc (s.next t sc u) a' ∧ NetInv t sc a' ∧
      a'.node = Function.update a.node u nd ∧
      (nodeWork t sc u nd < nodeWork t sc u (a.node u) ∨
        a'.queue = a.queue ∧ (nd = a.node u ∨
          nd = { a.node u with pc := (a.node u).pc.polled (t.children u).length })) := by
  unfold Sys.next
  cases hturn : s.turn t sc u with
  | none =>
    exact ⟨a, a.node u, h, hinv, (Function.update_eq_self u a.node).symm, .inr ⟨rfl, .inl rfl⟩⟩
  | some r =>
    have hr : s.turn t sc u = some (r.1, r.2) := hturn
    obtain ⟨a', hrep, hstep⟩ := rep_turn hB h hr
    obtain ⟨nd, hnd⟩ := turn_node hr
    rw [hrep.node, h.node] at hnd
    exact ⟨a', nd, hrep, netInv_step hinv hstep, hnd, hstep.work_cases h.ok hnd⟩

/-- A step that is not a turn of the polling loop is work. -/
theorem next_work (h : Rep holds t sc s a) {nd : Node} {act : Act ι}
    (hl : Local t sc u (a.node u) act nd)
    (hact : act = .quiet → nd.pc ≠ (a.node u).pc.polled (t.children u).length)
    (hnode : (s.next t sc u).node = Function.update s.node u nd) :
    nodeWork t sc u ((s.next t sc u).node u) < nodeWork t sc u (s.node u) := by
  rw [hnode, Function.update_self, h.node]
  rcases work_local (h.ok u) hl with hlt | ⟨hquiet, heq⟩
  · exact hlt
  · exact absurd (congrArg Node.pc heq) (hact hquiet)

/-- A send for which nothing older is queued is made. -/
theorem next_send (hB : B.IsFifo holds) (h : Rep holds t sc s a) {c v : ι} {kind : Kind}
    {next onFail : Pc} (hj : Joins t c u v) (hpc : (a.node u).pc ≠ .idle)
    (hl : Local t sc u (a.node u) (.put v (kind.words (a.node u).buf))
      { a.node u with pc := next })
    (hturn : s.turn t sc u = some (s.sendTurn t c u v kind next onFail))
    (hnil : a.queue (u, v) = []) :
    nodeWork t sc u ((s.next t sc u).node u) < nodeWork t sc u (s.node u) := by
  have hlen : (s.node u).buf.length ≤ 7 := by
    rw [h.node]
    exact (h.ok u).buf_le hpc
  have hnext : s.next t sc u = (s.sendTurn t c u v kind next onFail).1 := by
    simp only [Sys.next, hturn]
  rcases sendTurn_spec hB h.chan hj hlen kind next onFail with ⟨-, hn, -⟩ | ⟨-, -, hne, -⟩
  · refine next_work h hl (fun heq => by cases heq) ?_
    rw [hnext, hn, h.node]
  · exact absurd hnil hne

/-- A receive for which something is queued is made. -/
theorem next_recv (hB : B.IsFifo holds) (h : Rep holds t sc s a) {c v : ι} {kind : Kind}
    {next : Pc} (hj : Joins t c u v) (hpc : (a.node u).pc ≠ .idle)
    (hl : ∀ ys, ys.length = (kind.words (a.node u).buf).length →
      Local t sc u (a.node u) (.got v ys)
        { a.node u with pc := next, buf := kind.store (a.node u).buf ys })
    (hturn : s.turn t sc u = some (s.recvTurn t c u v kind next))
    (hne : a.queue (v, u) ≠ []) :
    nodeWork t sc u ((s.next t sc u).node u) < nodeWork t sc u (s.node u) := by
  have hlen : (s.node u).buf.length ≤ 7 := by
    rw [h.node]
    exact (h.ok u).buf_le hpc
  have hnext : s.next t sc u = (s.recvTurn t c u v kind next).1 := by
    simp only [Sys.next, hturn]
  rcases recvTurn_spec hB h.chan hj hlen kind next
    with ⟨ys, x, rest, -, hn, hys, -⟩ | ⟨-, -, hnil, -⟩
  · rw [h.node] at hys
    refine next_work h (hl ys hys) (fun heq => by cases heq) ?_
    rw [hnext, hn, h.node]
  · exact absurd hnil hne

/-- **A turn of a node that is ready is work**, or brings its polling loop nearer to the message it
will take. -/
theorem ready_turn (hB : B.IsFifo holds) (h : Rep holds t sc s a) (hready : ReadyFor t sc a u j) :
    nodeWork t sc u ((s.next t sc u).node u) < nodeWork t sc u (s.node u) ∨
      ((s.next t sc u).node u).pc.turnsTo (t.children u).length j <
        (s.node u).pc.turnsTo (t.children u).length j := by
  obtain ⟨hdone, hready⟩ := hready
  obtain ⟨call, hcall⟩ : ∃ call, sc.calls[(a.node u).done]? = some call :=
    ⟨_, List.getElem?_eq_getElem hdone⟩
  have hok := (h.ok u).pc
  have hturn : s.turn t sc u = s.turn t sc u := rfl
  conv at hturn => rhs; simp only [Sys.turn, h.node]
  rcases hnd : a.node u with ⟨done, pc, buf⟩
  simp only [hnd] at hok hturn hready hcall
  cases pc with
  | idle =>
    simp only [hcall] at hturn
    have hl : Local t sc u (a.node u) .enter _ := hnd ▸ Local.enter hcall
    exact .inl (next_work h hl (fun heq => by cases heq) (by simp only [Sys.next, hturn]; rfl))
  | gather kind recv num i =>
    obtain ⟨-, hlen, hnum', hi⟩ := hok
    by_cases hnum : num < (t.children u).length
    · obtain ⟨c, hc, hflag, hqueue⟩ := hready hnum
      have hi : i < (t.children u).length := by omega
      have hjlt := (List.getElem?_eq_some_iff.mp hc).1
      simp only [hnum, if_true, List.getElem?_eq_getElem hi] at hturn
      have hci : (t.children u)[i]? = some (t.children u)[i] := List.getElem?_eq_getElem hi
      generalize (t.children u)[i] = c' at hturn hci
      have hj : Joins t c' u c' := .inl ⟨WiredTree.parent_of_getElem? hci, rfl⟩
      obtain ⟨p, hp⟩ := hj.parent
      have hpoll := hB.poll (d := side t c' u) (h.chan p c' hp)
      rw [side_other hj, contents_side hj.symm hp, ne_eq, List.map_eq_nil_iff] at hpoll
      split at hturn
      · rename_i htake
        refine .inl (next_recv hB h hj (by simp [hnd])
          (fun ys hys => by rw [hnd] at hys ⊢; exact .take hci htake.1 hys) hturn
          (hpoll.mp htake.2))
      · -- it is not the place of the message yet
        rename_i hnot
        have hij : i ≠ j := by
          rintro rfl
          obtain rfl : c' = c := Option.some.inj (hci.symm.trans hc)
          exact hnot ⟨hflag, hpoll.mpr hqueue⟩
        refine .inr ?_
        have hpc : ((s.next t sc u).node u).pc =
            .gather kind recv num (nextChild (t.children u).length i) := by
          simp only [Sys.next, hturn, Sys.setNode, Function.update_self]
        rw [hpc, h.node, hnd]
        simp only [Pc.turnsTo, nextChild]
        split <;> split <;> split <;> omega
    · simp only [hnum, if_false] at hturn
      have hl : Local t sc u (a.node u) .quiet _ := hnd ▸ Local.gathered (Nat.le_of_not_lt hnum)
      exact .inl (next_work h hl (fun _ heq => by rw [hnd] at heq; cases heq)
        (by simp only [Sys.next, hturn]; rfl))
  | sendUp kind =>
    simp only [hcall] at hturn
    cases hp : t.parent u with
    | none =>
      simp only [hp] at hturn
      have hl : Local t sc u (a.node u) .quiet _ := hnd ▸ Local.skipUp hp hcall
      refine .inl (next_work h hl (fun _ heq => ?_) (by simp only [Sys.next, hturn]; rfl))
      obtain ⟨call', hcall', hup⟩ := hok
      obtain rfl := Option.some.inj (hcall.symm.trans hcall')
      have hlt := lt_place_afterReduce t u hup
      rw [hnd] at heq
      rw [show call.afterReduce t u = .sendUp kind from heq] at hlt
      exact absurd hlt (Nat.lt_irrefl _)
    | some p =>
      simp only [hp] at hturn
      have hl : Local t sc u (a.node u) (.put p (kind.words (a.node u).buf))
          { a.node u with pc := call.afterReduce t u } := by
        rw [hnd]
        exact .putUp hp hcall
      refine .inl (next_send hB h (.inr ⟨hp, rfl⟩) (by simp [hnd]) hl hturn ?_)
      by_contra hne
      exact hready (.room hl hne)
  | recvDown kind =>
    obtain ⟨p, hp⟩ := Option.ne_none_iff_exists'.mp hok.2
    simp only [hp] at hturn
    refine .inl (next_recv hB h (.inr ⟨hp, rfl⟩) (by simp [hnd])
      (fun ys hys => by rw [hnd] at hys ⊢; exact .gotDown hp hys) hturn fun hnil => ?_)
    exact hready (.parent (by rw [hnd]) hp hnil)
  | sendDown kind i =>
    cases hc : (t.children u)[i]? with
    | none =>
      simp only [hc] at hturn
      have hl : Local t sc u (a.node u) .quiet _ := hnd ▸ Local.sentDown hc
      exact .inl (next_work h hl (fun _ heq => by rw [hnd] at heq; cases heq)
        (by simp only [Sys.next, hturn]; rfl))
    | some c =>
      simp only [hc] at hturn
      have hl : Local t sc u (a.node u) (.put c (kind.words (a.node u).buf))
          { a.node u with pc := .sendDown kind (i + 1) } := by
        rw [hnd]
        exact .putDown hc
      refine .inl (next_send hB h (.inl ⟨WiredTree.parent_of_getElem? hc, rfl⟩)
        (by simp [hnd]) hl hturn ?_)
      by_contra hne
      exact hready (.room hl hne)
  | ret =>
    have hl : Local t sc u (a.node u) .ret _ := hnd ▸ Local.ret
    exact .inl (next_work h hl (fun heq => by cases heq) (by simp only [Sys.next, hturn]; rfl))
  | failed => exact hok.elim

end Turns

/-! ## 4. The end -/

/-- Everybody has returned from all its calls. -/
def Sys.Finished (sc : Script ι) (s : Sys ι B) : Prop := ∀ u, (s.node u).done = sc.calls.length

section End

variable [Fintype ι] {holds : B.State → (Side → List (List Word)) → Prop} {t : WiredTree ι}
  {sc : Script ι} {s s' : Sys ι B} {a : Net ι} {u : ι}

/-- What all nodes have left to do. -/
def totalWork (t : WiredTree ι) (sc : Script ι) (node : ι → Node) : ℕ :=
  ∑ u, nodeWork t sc u (node u)

theorem totalWork_lt {f f' : ι → Node} {nd : Node} (hnode : f' = Function.update f u nd)
    (hlt : nodeWork t sc u nd < nodeWork t sc u (f u)) : totalWork t sc f' < totalWork t sc f := by
  refine Finset.sum_lt_sum (fun v _ => ?_) ⟨u, Finset.mem_univ u, ?_⟩
  · by_cases hv : v = u
    · subst hv
      rw [hnode, Function.update_self]
      exact Nat.le_of_lt hlt
    · rw [hnode, Function.update_of_ne hv]
  · rw [hnode, Function.update_self]
    exact hlt

theorem totalWork_eq {f f' : ι → Node} {nd : Node} (hnode : f' = Function.update f u nd)
    (heq : nodeWork t sc u nd = nodeWork t sc u (f u)) : totalWork t sc f' = totalWork t sc f := by
  refine Finset.sum_congr rfl fun v _ => ?_
  by_cases hv : v = u
  · subst hv
    rw [hnode, Function.update_self, heq]
  · rw [hnode, Function.update_of_ne hv]

omit [DecidableEq ι] [Fintype ι] in
/-- Polling is no work. -/
theorem nodeWork_polled (t : WiredTree ι) (sc : Script ι) (u : ι) (nd : Node) (count : ℕ) :
    nodeWork t sc u { nd with pc := nd.pc.polled count } = nodeWork t sc u nd := by
  rcases nd with ⟨done, pc, buf⟩
  cases pc <;> rfl

/-- **The collectives follow the rule for fair schedules.** -/
theorem finish_rule (hB : B.IsFifo holds) (t : WiredTree ι) (sc : Script ι) :
    Fair.Rule (Sys.next (B := B) t sc) (fun s => ∃ a, Rep holds t sc s a ∧ NetInv t sc a)
      (Sys.Finished sc) (fun s => totalWork t sc s.node) Prod.fst
      (fun g s => ∃ a, Rep holds t sc s a ∧ NetInv t sc a ∧ ReadyFor t sc a g.1 g.2)
      (fun g s => (s.node g.1).pc.turnsTo (t.children g.1).length g.2) where
  inv := by
    rintro s u ⟨a, hrep, hinv⟩
    obtain ⟨a', nd, hrep', hinv', -⟩ := next_cases hB hrep hinv u
    exact ⟨a', hrep', hinv'⟩
  le := by
    rintro s u ⟨a, hrep, hinv⟩
    obtain ⟨a', nd, hrep', -, hnode, hcases⟩ := next_cases hB hrep hinv u
    rw [← hrep.node, ← hrep'.node] at hnode
    rw [← hrep.node] at hcases
    rcases hcases with hlt | ⟨-, rfl | rfl⟩
    · exact Nat.le_of_lt (totalWork_lt hnode hlt)
    · exact Nat.le_of_eq (totalWork_eq hnode rfl)
    · exact Nat.le_of_eq (totalWork_eq hnode (nodeWork_polled t sc u _ _))
  ready := by
    rintro s ⟨a, hrep, hinv⟩ hnot
    obtain ⟨u, hu⟩ := not_forall.mp hnot
    have hle := (hrep.ok u).done
    rw [hrep.node] at hu
    obtain ⟨v, j, hready⟩ := exists_ready hinv ⟨u, by omega⟩
    exact ⟨(v, j), a, hrep, hinv, hready⟩
  move := by
    rintro s ⟨u, j⟩ - ⟨a, hrep, hinv, hready⟩
    obtain ⟨a', nd, hrep', -, hnode, -⟩ := next_cases hB hrep hinv u
    rw [← hrep.node, ← hrep'.node] at hnode
    rcases ready_turn hB hrep hready with hlt | hwait
    · rw [hnode, Function.update_self] at hlt
      exact .inl (totalWork_lt hnode hlt)
    · exact .inr hwait
  keep := by
    rintro s u ⟨v, j⟩ - ⟨a, hrep, hinv, hready⟩ hsame
    obtain ⟨a', nd, hrep', hinv', hnode, hcases⟩ := next_cases hB hrep hinv u
    have hnode' := hnode
    rw [← hrep.node, ← hrep'.node] at hnode'
    have hturn := ready_turn hB hrep hready
    rcases hcases with hlt | ⟨hqueue, hnd⟩
    · rw [← hrep.node] at hlt
      exact absurd hsame (Nat.ne_of_lt (totalWork_lt hnode' hlt))
    · by_cases huv : v = u
      · -- its own turn
        subst huv
        have hready' : ReadyFor t sc a' v j := by
          have hself : a'.node v = nd := by rw [hnode, Function.update_self]
          rcases hnd with rfl | rfl
          · exact hready.congr hself hqueue
          · exact hready.polled hself hqueue
        refine ⟨⟨a', hrep', hinv', hready'⟩, ?_⟩
        rcases hturn with hlt | hwait
        · rw [hnode', Function.update_self] at hlt
          exact absurd hsame (Nat.ne_of_lt (totalWork_lt hnode' hlt))
        · exact Nat.le_of_lt hwait
      · have hother : a'.node v = a.node v := by rw [hnode, Function.update_of_ne huv]
        refine ⟨⟨a', hrep', hinv', hready.congr hother hqueue⟩, ?_⟩
        rw [hrep'.node, hother, hrep.node]

end End

/-- What `u` has sent to `v`, in the order of the sends. -/
def sent (tr : List (Ev ι)) (u v : ι) : List Item := Fifo.sends (tr.filterMap (Ev.see u v))

/-- What `v` has received from `u`, in the order of the receives. -/
def rcvd (tr : List (Ev ι)) (u v : ι) : List Item := Fifo.recvs (tr.filterMap (Ev.see u v))

section Traffic

variable {t : WiredTree ι} {sc : Script ι} {tr : List (Ev ι)} {a a' : Net ι} {e : Ev ι} {u v : ι}

end Traffic

end Smelt.Collective
