/-
# Calls meet by number

Neighbours may be many calls apart, with payloads and notifications of several collectives queued
on one channel, and nothing in a message says which call it belongs to.  Still, what a node takes
from a neighbour in its `k`-th call is what that neighbour sent in ITS `k`-th call: both ends count
the same calls (`Count.lean`), and the channel keeps the order.  Nor does a message say how long it
is: each end has as many words in it as its own message of that call (`net_match`).

For broadcasts this carries the root's words down the tree: `BcastInv` says that whatever is
queued on a downward edge for a broadcast, and whatever stands in the buffer of a node that has
received, are the words the root passed.
-/
import Smelt.Collective.Count
import Smelt.Ump.Backend

namespace Smelt.Collective

variable {ι : Type} [DecidableEq ι]

/-! ## 1. One direction of one edge -/

/-- What an event shows of the queue from `u` to `v`. -/
def Ev.see (u v : ι) : Ev ι → Option (Fifo.Ev Item Item)
  | .put u' v' k xs => if u' = u ∧ v' = v then some (.send (k, xs)) else none
  | .got v' u' k ys => if u' = u ∧ v' = v then some (.recv (k, ys)) else none
  | _ => none

/-- A receive in the call the item was sent in, of the words it has. -/
def Reads (sent rcvd : Item) : Prop := rcvd.1 = sent.1 ∧ Agree sent.2 rcvd.2

section Step

variable {t : WiredTree ι} {sc : Script ι} {a a' : Net ι} {e : Ev ι}

/-- The item a node takes was sent in the call the node is in. -/
theorem NetInv.head (h : NetInv t sc a) {u v : ι} {nd : Node} {ys : List Word} {x : Item}
    {q : List Item} (hl : Local t sc u (a.node u) (.got v ys) nd) (hq : a.queue (v, u) = x :: q) :
    x.1 = (a.node u).done := by
  obtain ⟨hadj, hready, call, hcall, huses⟩ := got_ready (h.ok u) hl
  obtain ⟨⟨call', hcall', huses'⟩, hpos⟩ := h.item v u hadj.symm 0 x (by simp [hq])
  exact before_inj hcall' huses' hcall huses (by omega)

/-- **Every step is a step of the FIFO from `u` to `v`, or invisible to it.** -/
theorem reads_step (h : NetInv t sc a) (hstep : NStep t sc a e a') (u v : ι) :
    Run.Follows (Fifo.Step Reads) (a.queue (u, v)) (e.see u v) (a'.queue (u, v)) := by
  cases hstep with
  | enter hl => rfl
  | ret hl => rfl
  | quiet hl => rfl
  | stay => rfl
  | @put w z nd xs hl =>
    by_cases heq : w = u ∧ z = v
    · obtain ⟨rfl, rfl⟩ := heq
      simp only [Ev.see, and_self, if_true, Net.setQueue_queue, Function.update_self]
      exact .send
    · have hne : (u, v) ≠ (w, z) := fun hh => heq ⟨(Prod.mk.inj hh).1.symm, (Prod.mk.inj hh).2.symm⟩
      simp only [Ev.see, heq, if_false, Net.setQueue_queue, Function.update_of_ne hne]
      rfl
  | @got w z nd x q ys hl hq hag =>
    by_cases heq : z = u ∧ w = v
    · obtain ⟨rfl, rfl⟩ := heq
      simp only [Ev.see, and_self, if_true, Net.setQueue_queue, Function.update_self, hq]
      exact .recv ⟨(h.head hl hq).symm, hag⟩
    · have hne : (u, v) ≠ (z, w) := fun hh => heq ⟨(Prod.mk.inj hh).1.symm, (Prod.mk.inj hh).2.symm⟩
      simp only [Ev.see, heq, if_false, Net.setQueue_queue, Function.update_of_ne hne]
      rfl

/-- The queue of an edge is the FIFO its trace leads to. -/
theorem reachable_reads {tr : List (Ev ι)} (h : Run (NStep t sc) Net.init tr a) (u v : ι) :
    Run (Fifo.Step Reads) [] (tr.filterMap (Ev.see u v)) (a.queue (u, v)) := by
  obtain ⟨q, ⟨-, rfl⟩, hfifo⟩ := Run.simulates
    (R := fun a q => NetInv t sc a ∧ a.queue (u, v) = q) ⟨netInv_init t sc, rfl⟩
    (fun a q e a' hR hs => ⟨_, ⟨netInv_step hR.1 hs, rfl⟩, hR.2 ▸ reads_step hR.1 hs u v⟩) h
  exact hfifo

/-! ## 2. How long the items are -/

/-- The words that the end `w` has in a message from `u` to `v` in the `k`-th call: those of its own
message in a phase of payloads, none in one of notifications. -/
def Script.words (t : WiredTree ι) (sc : Script ι) (u v w : ι) (k : ℕ) : ℕ :=
  match (sc.calls[k]?).bind (if t.parent u = some v then Coll.up? else Coll.down?) with
  | some kind => (kind.words (sc.msg w k)).length
  | none => 0

/-- Ends whose messages are of one length have the same number of words. -/
theorem Script.words_eq {w w' : ι} {k : ℕ} (sc : Script ι)
    (h : (sc.msg w k).length = (sc.msg w' k).length) :
    sc.words t u v w' k = sc.words t u v w k := by
  unfold Script.words
  split
  · rename_i kind _
    cases kind with
    | payload => exact h.symm
    | notify => rfl
  · rfl

omit [DecidableEq ι] in
/-- The words of a node inside a call. -/
theorem NodeOk.words_length {u : ι} {nd : Node} (h : NodeOk t sc u nd) (hpc : nd.pc ≠ .idle) (kind : Kind) :
    (kind.words nd.buf).length = (kind.words (sc.msg u nd.done)).length := by
  cases kind with
  | payload => exact h.buf hpc
  | notify => rfl

/-- A node sends as many words as its message has. -/
theorem Local.put_length {u v : ι} {nd nd' : Node} {xs : List Word} (h : NodeOk t sc u nd)
    (hl : Local t sc u nd (.put v xs) nd') : xs.length = sc.words t u v u nd.done := by
  cases hl with
  | putUp hp hcall =>
    obtain ⟨call, hcall, hup⟩ := h.pc
    simp only [Script.words, hp, if_true, hcall, Option.bind_some, hup]
    exact h.words_length nofun _
  | putDown hc =>
    obtain ⟨⟨call, hcall, hdown⟩, -⟩ := h.pc
    have hp := t.parent_asymm (WiredTree.parent_of_getElem? hc)
    simp only [Script.words, hp, if_false, hcall, Option.bind_some, hdown]
    exact h.words_length nofun _

/-- A node receives as many words as its message has. -/
theorem Local.got_length {u v : ι} {nd nd' : Node} {ys : List Word} (h : NodeOk t sc v nd)
    (hl : Local t sc v nd (.got u ys) nd') : ys.length = sc.words t u v v nd.done := by
  cases hl with
  | take hc hrecv hlen =>
    obtain ⟨⟨call, hcall, hup⟩, -⟩ := h.pc
    simp only [Script.words, WiredTree.parent_of_getElem? hc, if_true, hcall, Option.bind_some, hup]
    exact hlen.trans (h.words_length nofun _)
  | gotDown hp hlen =>
    obtain ⟨⟨call, hcall, hdown⟩, -⟩ := h.pc
    simp only [Script.words, t.parent_asymm hp, if_false, hcall, Option.bind_some, hdown]
    exact hlen.trans (h.words_length nofun _)

/-- The lengths of what is sent and received along a run. -/
theorem net_lengths {tr : List (Ev ι)} (hnet : Run (NStep t sc) Net.init tr a) :
    (∀ u v k xs, Ev.put u v k xs ∈ tr → xs.length = sc.words t u v u k) ∧
      ∀ u v k ys, Ev.got v u k ys ∈ tr → ys.length = sc.words t u v v k := by
  have hall : NetInv t sc a ∧ (∀ u v k xs, Ev.put u v k xs ∈ tr → xs.length = sc.words t u v u k) ∧
      ∀ u v k ys, Ev.got v u k ys ∈ tr → ys.length = sc.words t u v v k := by
    refine Run.induct (fun tr a => NetInv t sc a ∧
      (∀ u v k xs, Ev.put u v k xs ∈ tr → xs.length = sc.words t u v u k) ∧
      ∀ u v k ys, Ev.got v u k ys ∈ tr → ys.length = sc.words t u v v k)
      ⟨netInv_init t sc, nofun, nofun⟩ ?_ hnet
    rintro tr a e a' ⟨hinv, hput, hgot⟩ hstep
    refine ⟨netInv_step hinv hstep, fun u v k xs hmem => ?_, fun u v k ys hmem => ?_⟩
    · rcases List.mem_append.mp hmem with hmem | hmem
      · exact hput u v k xs hmem
      · obtain rfl := List.mem_singleton.mp hmem
        cases hstep with
        | put hl => exact hl.put_length (hinv.ok u)
    · rcases List.mem_append.mp hmem with hmem | hmem
      · exact hgot u v k ys hmem
      · obtain rfl := List.mem_singleton.mp hmem
        cases hstep with
        | got hl _ _ => exact hl.got_length (hinv.ok v)
  exact hall.2

/-- What is seen of a directed edge. -/
theorem Ev.see_eq_some {u v : ι} {e : Ev ι} {y : Fifo.Ev Item Item} (h : Ev.see u v e = some y) :
    (∃ k xs, e = .put u v k xs ∧ y = .send (k, xs)) ∨
      ∃ k ys, e = .got v u k ys ∧ y = .recv (k, ys) := by
  cases e with
  | put u' v' k xs =>
    simp only [Ev.see] at h
    split at h
    · rename_i hends
      obtain ⟨rfl, rfl⟩ := hends
      exact .inl ⟨k, xs, rfl, (Option.some.inj h).symm⟩
    · cases h
  | got v' u' k ys =>
    simp only [Ev.see] at h
    split at h
    · rename_i hends
      obtain ⟨rfl, rfl⟩ := hends
      exact .inr ⟨k, ys, rfl, (Option.some.inj h).symm⟩
    · cases h
  | _ => cases h

theorem put_of_sends {tr : List (Ev ι)} {u v : ι} {k : ℕ} {xs : List Word}
    (h : (k, xs) ∈ Fifo.sends (tr.filterMap (Ev.see u v))) : Ev.put u v k xs ∈ tr := by
  obtain ⟨y, hy, hsent⟩ := List.mem_filterMap.mp h
  obtain ⟨e, he, hsee⟩ := List.mem_filterMap.mp hy
  rcases Ev.see_eq_some hsee with ⟨k', xs', rfl, rfl⟩ | ⟨k', ys', rfl, rfl⟩
  · obtain ⟨rfl, rfl⟩ := Prod.mk.inj (Option.some.inj hsent)
    exact he
  · cases hsent

theorem got_of_recvs {tr : List (Ev ι)} {u v : ι} {k : ℕ} {ys : List Word}
    (h : (k, ys) ∈ Fifo.recvs (tr.filterMap (Ev.see u v))) : Ev.got v u k ys ∈ tr := by
  obtain ⟨y, hy, hrcvd⟩ := List.mem_filterMap.mp h
  obtain ⟨e, he, hsee⟩ := List.mem_filterMap.mp hy
  rcases Ev.see_eq_some hsee with ⟨k', xs', rfl, rfl⟩ | ⟨k', ys', rfl, rfl⟩
  · cases hrcvd
  · obtain ⟨rfl, rfl⟩ := Prod.mk.inj (Option.some.inj hrcvd)
    exact he

/-- **What neighbours exchange meets by call number**, each end with as many words as its own message
has. -/
theorem net_match {tr : List (Ev ι)} (hnet : Run (NStep t sc) Net.init tr a) (u v : ι) (j k : ℕ)
    (ys : List Word) (hj : (Fifo.recvs (tr.filterMap (Ev.see u v)))[j]? = some (k, ys)) :
    ∃ xs, (Fifo.sends (tr.filterMap (Ev.see u v)))[j]? = some (k, xs) ∧
      xs.length = sc.words t u v u k ∧ ys.length = sc.words t u v v k ∧ Agree xs ys ∧
      ((sc.msg u k).length = (sc.msg v k).length → ys = xs) := by
  obtain ⟨hput, hgot⟩ := net_lengths hnet
  obtain ⟨⟨k', xs⟩, hx, hk, hag⟩ := (Fifo.run_spec (reachable_reads hnet u v)).1 j (k, ys) hj
  obtain rfl : k = k' := hk
  have hsent := hput u v k xs (put_of_sends (List.mem_of_getElem? hx))
  have hrcvd := hgot u v k ys (got_of_recvs (List.mem_of_getElem? hj))
  refine ⟨xs, hx, hsent, hrcvd, hag, fun hlen => hag.eq_of_length ?_⟩
  rw [hrcvd, hsent, sc.words_eq hlen]

/-- With messages of one length it is what was sent. -/
theorem net_match_exact {len : ℕ} (hlen : ∀ u k, (sc.msg u k).length = len) {tr : List (Ev ι)}
    (hnet : Run (NStep t sc) Net.init tr a) (u v : ι) (j k : ℕ) (ys : List Word)
    (hj : (Fifo.recvs (tr.filterMap (Ev.see u v)))[j]? = some (k, ys)) :
    (Fifo.sends (tr.filterMap (Ev.see u v)))[j]? = some (k, ys) := by
  obtain ⟨xs, hx, -, -, -, heq⟩ := net_match hnet u v j k ys hj
  rwa [heq ((hlen u k).trans (hlen v k).symm)]

/-! ## 3. The words of a broadcast -/

/-- The words the root passes down. -/
structure BcastInv (t : WiredTree ι) (sc : Script ι) (a : Net ι) : Prop where
  /-- a node that has received, or need not -/
  buf : ∀ u, sc.calls[(a.node u).done]? = some .broadcast →
    (∃ i, (a.node u).pc = .sendDown .payload i) ∨ (a.node u).pc = .ret →
    (a.node u).buf = sc.msg t.root (a.node u).done
  /-- what is queued on the way down -/
  item : ∀ p c, t.parent c = some p → ∀ x ∈ a.queue (p, c),
    sc.calls[x.1]? = some .broadcast → x.2 = sc.msg t.root x.1

omit [DecidableEq ι] in
/-- In a broadcast a node receives and sends payloads, downwards. -/
theorem local_broadcast {u : ι} {nd nd' : Node} {act : Act ι} (hok : NodeOk t sc u nd)
    (hl : Local t sc u nd act nd') (hcall : sc.calls[nd'.done]? = some .broadcast)
    (hpc : (∃ i, nd'.pc = .sendDown .payload i) ∨ nd'.pc = .ret) :
    (nd'.done = nd.done ∧ nd'.buf = nd.buf ∧
        ((∃ i, nd.pc = .sendDown .payload i) ∨ nd.pc = .ret)) ∨
      (u = t.root ∧ nd'.buf = sc.msg u nd'.done) ∨
      ∃ p ys, t.parent u = some p ∧ act = .got p ys ∧ nd'.done = nd.done ∧
        ys.length = (sc.msg u nd'.done).length ∧ nd'.buf = ys := by
  have hpc' := hok.pc
  have hbuf := hok.buf
  cases hl with
  | @enter done b call hcall' =>
    obtain rfl : call = .broadcast := Option.some.inj (hcall'.symm.trans hcall)
    cases hp : t.parent u with
    | none => exact .inr (.inl ⟨(t.parent_eq_none u).mp hp, rfl⟩)
    | some p => simp [Coll.entry, broadcastEntry, hp] at hpc
  | poll hc => simp at hpc
  | take hc hrecv hys => simp at hpc
  | gathered hnum => simp at hpc
  | skipUp hp hcall' =>
    obtain ⟨call, hcall'', hup⟩ := hpc'
    obtain rfl : call = .broadcast := Option.some.inj (hcall''.symm.trans hcall)
    cases hup
  | putUp hp hcall' =>
    obtain ⟨call, hcall'', hup⟩ := hpc'
    obtain rfl : call = .broadcast := Option.some.inj (hcall''.symm.trans hcall)
    cases hup
  | @gotDown done b ys kind p hp hys =>
    obtain ⟨⟨call, hcall'', hd⟩, -⟩ := hpc'
    obtain rfl : call = .broadcast := Option.some.inj (hcall''.symm.trans hcall)
    obtain rfl : Kind.payload = kind := Option.some.inj hd
    exact .inr (.inr ⟨p, ys, hp, rfl, rfl, hys.trans (hbuf (by simp)), rfl⟩)
  | @putDown done i b kind c hc =>
    obtain ⟨⟨call, hcall'', hd⟩, -⟩ := hpc'
    obtain rfl : call = .broadcast := Option.some.inj (hcall''.symm.trans hcall)
    obtain rfl : Kind.payload = kind := Option.some.inj hd
    exact .inl ⟨rfl, rfl, .inl ⟨i, rfl⟩⟩
  | @sentDown done i b kind hc =>
    obtain ⟨⟨call, hcall'', hd⟩, -⟩ := hpc'
    obtain rfl : call = .broadcast := Option.some.inj (hcall''.symm.trans hcall)
    obtain rfl : Kind.payload = kind := Option.some.inj hd
    exact .inl ⟨rfl, rfl, .inl ⟨i, rfl⟩⟩
  | ret => simp at hpc

omit [DecidableEq ι] in
/-- In a broadcast a node sends its buffer. -/
theorem put_broadcast {u c : ι} {nd nd' : Node} {xs : List Word} (hok : NodeOk t sc u nd)
    (hl : Local t sc u nd (.put c xs) nd') (hc : t.parent c = some u)
    (hcall : sc.calls[nd.done]? = some .broadcast) :
    xs = nd.buf ∧ ∃ i, nd.pc = .sendDown .payload i := by
  have hpc := hok.pc
  cases hl with
  | putUp hp hcall' => exact absurd hp (WiredTree.parent_asymm hc)
  | @putDown done i b kind c hc =>
    obtain ⟨⟨call, hcall', hd⟩, -⟩ := hpc
    obtain rfl : call = .broadcast := Option.some.inj (hcall'.symm.trans hcall)
    obtain rfl : Kind.payload = kind := Option.some.inj hd
    exact ⟨rfl, i, rfl⟩

/-- The buffers after a step of `w`: only a receive needs to be looked at. -/
theorem BcastInv.buf_update (h : BcastInv t sc a) (hinv : NetInv t sc a) {w : ι} {nd : Node}
    {act : Act ι} (hl : Local t sc w (a.node w) act nd)
    (hgot : ∀ p ys, t.parent w = some p → act = .got p ys → nd.done = (a.node w).done →
      sc.calls[nd.done]? = some .broadcast → ys.length = (sc.msg w nd.done).length →
      ys = sc.msg t.root nd.done) (u : ι)
    (hcall : sc.calls[(Function.update a.node w nd u).done]? = some .broadcast)
    (hpc : (∃ i, (Function.update a.node w nd u).pc = .sendDown .payload i) ∨
      (Function.update a.node w nd u).pc = .ret) :
    (Function.update a.node w nd u).buf = sc.msg t.root (Function.update a.node w nd u).done := by
  by_cases hu : u = w
  · subst hu
    rw [Function.update_self] at hcall hpc ⊢
    rcases local_broadcast (hinv.ok u) hl hcall hpc with
      ⟨hd, hb, hpc'⟩ | ⟨hroot, hb⟩ | ⟨p, ys, hp, hact, hd, hlen, hb⟩
    · rw [hb, hd]
      exact h.buf u (hd ▸ hcall) hpc'
    · rw [hb, hroot]
    · rw [hb]
      exact hgot p ys hp hact hd hcall hlen
  · rw [Function.update_of_ne hu] at hcall hpc ⊢
    exact h.buf u hcall hpc

/-- **Every step keeps the root's words on their way.** -/
theorem bcastInv_step {len : ℕ} (hlen : ∀ u k, (sc.msg u k).length = len) (hinv : NetInv t sc a)
    (h : BcastInv t sc a) (hstep : NStep t sc a e a') : BcastInv t sc a' := by
  cases hstep with
  | enter hl => exact ⟨h.buf_update hinv hl (fun _ _ _ hact => by cases hact), h.item⟩
  | ret hl => exact ⟨h.buf_update hinv hl (fun _ _ _ hact => by cases hact), h.item⟩
  | quiet hl => exact ⟨h.buf_update hinv hl (fun _ _ _ hact => by cases hact), h.item⟩
  | stay => exact h
  | @put w z nd xs hl =>
    refine ⟨h.buf_update hinv hl (fun _ _ _ hact => by cases hact), ?_⟩
    intro p c hp x hx hcall
    rw [Net.setQueue_queue] at hx
    by_cases heq : (p, c) = (w, z)
    · obtain ⟨rfl, rfl⟩ := Prod.mk.inj heq
      rw [Function.update_self] at hx
      rcases List.mem_append.mp hx with hx | hx
      · exact h.item p c hp x hx hcall
      · obtain rfl := List.mem_singleton.mp hx
        obtain ⟨hxs, hpc⟩ := put_broadcast (hinv.ok p) hl hp hcall
        exact hxs.trans (h.buf p hcall (.inl hpc))
    · rw [Function.update_of_ne heq] at hx
      exact h.item p c hp x hx hcall
  | @got w z nd x q ys hl hq hag =>
    refine ⟨h.buf_update hinv hl ?_, ?_⟩
    · -- the item at the head was sent in this call, so it is the root's words
      intro p ys' hp hact hd hcall hys
      injection hact with hz hys'
      subst hz hys'
      have hx1 : x.1 = nd.done := (hinv.head hl hq).trans hd.symm
      have hx2 : x.2 = sc.msg t.root nd.done := by
        rw [← hx1]
        exact h.item _ w hp x (by simp [hq]) (by rw [hx1]; exact hcall)
      rw [hx2] at hag
      exact hag.eq_of_length (by rw [hys, hlen, hlen])
    · intro p c hp y hy hcall
      rw [Net.setQueue_queue] at hy
      by_cases heq : (p, c) = (z, w)
      · obtain ⟨rfl, rfl⟩ := Prod.mk.inj heq
        rw [Function.update_self] at hy
        exact h.item p c hp y (by rw [hq]; exact List.mem_cons_of_mem _ hy) hcall
      · rw [Function.update_of_ne heq] at hy
        exact h.item p c hp y hy hcall

/-- A broadcast that returns, returns the root's words. -/
theorem reachable_bcast {len : ℕ} (hlen : ∀ u k, (sc.msg u k).length = len) {tr : List (Ev ι)}
    (h : Run (NStep t sc) Net.init tr a) :
    BcastInv t sc a ∧ ∀ u k buf, Ev.ret u k buf ∈ tr → sc.calls[k]? = some .broadcast →
      buf = sc.msg t.root k := by
  have hall := Run.induct (fun tr a => NetInv t sc a ∧ BcastInv t sc a ∧
    ∀ u k buf, Ev.ret u k buf ∈ tr → sc.calls[k]? = some .broadcast → buf = sc.msg t.root k)
    ⟨netInv_init t sc, ⟨by simp [Net.init], by simp [Net.init]⟩, by simp⟩ ?_ h
  · exact hall.2
  · rintro tr a e a' ⟨hinv, hb, hret⟩ hstep
    refine ⟨netInv_step hinv hstep, bcastInv_step hlen hinv hb hstep, ?_⟩
    intro u k buf hmem hcall
    rcases List.mem_append.mp hmem with hmem | hmem
    · exact hret u k buf hmem hcall
    · rw [List.mem_singleton] at hmem
      subst hmem
      cases hstep with
      | @ret _ nd hl =>
        refine hb.buf u hcall (.inr ?_)
        generalize a.node u = n at hl
        cases hl
        rfl

end Step

/-! ## 4. The system -/

variable {B : Backend} {holds : B.State → (Side → List (List Word)) → Prop}

/-- **Collectives meet by call number, and broadcasts agree.**  On every tree, over every backend
that is a FIFO, for every common sequence of calls and every interleaving: from `u` to its
neighbour `v`, the `j`-th receive happens in the call of `v` that has the number of the call in
which `u` made the `j`-th send, and gets just its words; and every broadcast returns the words the root
passed to its own call of that number. -/
theorem collectives_match (hB : B.IsFifo holds) {t : WiredTree ι} {sc : Script ι}
    {chan : ι → B.State} (hinit : ∀ c, c ≠ t.root → holds (chan c) fun _ => []) {len : ℕ}
    (hlen : ∀ u k, (sc.msg u k).length = len) {tr : List (Ev ι)} {s : Sys ι B}
    (hrun : Run (Step t sc) (Sys.init chan) tr s) :
    (∀ (u v : ι) (j k : ℕ) (ys : List Word),
        (Fifo.recvs (tr.filterMap (Ev.see u v)))[j]? = some (k, ys) →
        (Fifo.sends (tr.filterMap (Ev.see u v)))[j]? = some (k, ys)) ∧
      ∀ u k buf, Ev.ret u k buf ∈ tr → sc.calls[k]? = some .broadcast → buf = sc.msg t.root k := by
  obtain ⟨a, -, hnet⟩ := reachable_net hB hinit hrun
  exact ⟨net_match_exact hlen hnet, (reachable_bcast hlen hnet).2⟩

/-- One broadcast of one word over one edge; the child's buffer holds another word. -/
def helloScript : Script Bool where
  calls := [.broadcast]
  msg u _ := if u then [0] else [7]
  input _ _ := []
  fits u _ := by cases u <;> decide

def helloTrace : List (Ev Bool) :=
  [.enter false 0, .put false true 0 [7], .quiet false, .ret false 0 [7], .enter true 0,
    .got true false 0 [7], .quiet true, .ret true 0 [7]]

theorem collectives_match_hello :
    ∃ w s, Ump.queuepairInit (fun _ => some 4096) 3 = .ok w ∧
      Run.drive (Sys.turn .pair helloScript) (Sys.init (B := Ump.backend) fun _ => w)
        [false, false, false, false, true, true, true, true] = some (helloTrace, s) ∧
      Fifo.recvs (helloTrace.filterMap (Ev.see false true)) = [(0, [7])] ∧
      ∀ u k buf, Ev.ret u k buf ∈ helloTrace → helloScript.calls[k]? = some .broadcast →
        buf = helloScript.msg false k := by
  obtain ⟨w, s, hinit, hdrive⟩ : ∃ w s, Ump.queuepairInit (fun _ => some 4096) 3 = .ok w ∧
      Run.drive (Sys.turn .pair helloScript) (Sys.init (B := Ump.backend) fun _ => w)
        [false, false, false, false, true, true, true, true] = some (helloTrace, s) :=
    ⟨_, _, rfl, rfl⟩
  have hone : ∀ u k, (helloScript.msg u k).length = 1 := fun u _ => by cases u <;> rfl
  exact ⟨w, s, hinit, hdrive, rfl, (collectives_match Ump.backend_isFifo
    (fun _ _ => Ump.holds_init hinit) hone (Run.of_drive (fun s u s' e h => ⟨u, h⟩) hdrive)).2⟩

end Smelt.Collective
