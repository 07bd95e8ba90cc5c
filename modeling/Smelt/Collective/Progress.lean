/-
# Collectives do not get stuck on bounded channels

A send can be refused, and over UMP it can be refused although part of the ring has been consumed.
So back pressure runs down the tree in broadcasts and up it in reductions, and one might fear a
cycle of nodes each waiting for the next.  There is none.

Take the smallest call number `k` that some unfinished node is in.

* No node in call `k` is refused a send: a refusal means that something older is still queued
  (`Backend.IsFifo.refuse`), and its receiver, being in call `k` or later, has received everything
  older (`queue_nil_of_least`).
* So whoever waits in call `k` waits for a message, and the node it waits for is in call `k` too.
  Waiting for children leads DOWN the tree and ends at a leaf, which waits for no child; waiting
  for the parent leads UP the tree and ends at the root, which has none.
-/
import Smelt.Collective.Match

namespace Smelt.Collective

variable {ι : Type} [DecidableEq ι] {B : Backend}

/-! ## 1. Waiting -/

/-- `u` waits for a message that is not there, or for room in a full queue. -/
def Sys.Blocked (t : WiredTree ι) (s : Sys ι B) (u : ι) : Prop :=
  match (s.node u).pc with
  | .idle => False
  | .gather _ recv num _ =>
    num < (t.children u).length ∧ ∀ (i : ℕ) (c : ι), (t.children u)[i]? = some c →
      recv[i]? = some false → B.canRecv (s.chan c) (side t c u) = false
  | .sendUp kind =>
    ∃ p, t.parent u = some p ∧ (kind.send (s.node u).buf).blocks
      (B.call (s.chan u) (side t u u) (kind.send (s.node u).buf)).2 = true
  | .recvDown kind =>
    (kind.recv (s.node u).buf).blocks
      (B.call (s.chan u) (side t u u) (kind.recv (s.node u).buf)).2 = true
  | .sendDown kind i =>
    ∃ c, (t.children u)[i]? = some c ∧ (kind.send (s.node u).buf).blocks
      (B.call (s.chan c) (side t c u) (kind.send (s.node u).buf)).2 = true
  | .ret => False
  | .failed => True

/-- What a waiting node waits for, in the network. -/
inductive Waits (t : WiredTree ι) (sc : Script ι) (a : Net ι) (u : ι) : Prop
  | children {kind : Kind} {recv : List Bool} {num i : ℕ} :
      (a.node u).pc = .gather kind recv num i → num < (t.children u).length →
      (∀ (i : ℕ) (c : ι), (t.children u)[i]? = some c → recv[i]? = some false →
        a.queue (c, u) = []) → Waits t sc a u
  | parent {kind : Kind} {p : ι} :
      (a.node u).pc = .recvDown kind → t.parent u = some p → a.queue (p, u) = [] → Waits t sc a u
  | room {v : ι} {xs : List Word} {nd : Node} :
      Local t sc u (a.node u) (.put v xs) nd → a.queue (u, v) ≠ [] → Waits t sc a u

section Waits

variable {holds : B.State → (Side → List (List Word)) → Prop} {t : WiredTree ι} {sc : Script ι}
  {s : Sys ι B} {a : Net ι}

/-- A refused send has something older before it. -/
theorem queue_ne_nil_of_blocks (hB : B.IsFifo holds) (h : Rep holds t sc s a) {c u v : ι}
    {kind : Kind} (hj : Joins t c u v) (hpc : (a.node u).pc ≠ .idle)
    (hblocks : (kind.send (a.node u).buf).blocks
      (B.call (s.chan c) (side t c u) (kind.send (a.node u).buf)).2 = true) :
    a.queue (u, v) ≠ [] := by
  obtain ⟨p, hp⟩ := hj.parent
  obtain ⟨hwords, htrans, -⟩ := send_words kind ((h.ok u).buf_le hpc)
  have hnone : (kind.send (a.node u).buf).put?
      (B.call (s.chan c) (side t c u) (kind.send (a.node u).buf)).2 = none := by
    rw [Option.eq_none_iff_forall_ne_some]
    intro xs hxs
    rw [not_blocks_of_put? hxs] at hblocks
    cases hblocks
  have := (hB.refuse (h.chan p c hp) hwords htrans hnone).2.1
  rw [contents_side hj hp] at this
  simpa using this

/-- A receive that has to turn again has nothing to receive. -/
theorem queue_nil_of_blocks (hB : B.IsFifo holds) (h : Rep holds t sc s a) {c u v : ι}
    {kind : Kind} (hj : Joins t c u v) (hpc : (a.node u).pc ≠ .idle)
    (hblocks : (kind.recv (a.node u).buf).blocks
      (B.call (s.chan c) (side t c u) (kind.recv (a.node u).buf)).2 = true) :
    a.queue (v, u) = [] := by
  obtain ⟨p, hp⟩ := hj.parent
  obtain ⟨-, hle, htrans⟩ := recv_words kind ((h.ok u).buf_le hpc)
  have hnone : (kind.recv (a.node u).buf).got?
      (B.call (s.chan c) (side t c u) (kind.recv (a.node u).buf)).2 = none := by
    rw [Option.eq_none_iff_forall_ne_some]
    intro ys hys
    rw [not_blocks_of_got? hys] at hblocks
    cases hblocks
  have := (hB.empty (h.chan p c hp) hle htrans hnone).2.1
  rwa [side_other hj, contents_side hj.symm hp, List.map_eq_nil_iff] at this

/-- A poll that finds nothing has nothing to find. -/
theorem queue_nil_of_canRecv (hB : B.IsFifo holds) (h : Rep holds t sc s a) {c u v : ι}
    (hj : Joins t c u v) (hcan : B.canRecv (s.chan c) (side t c u) = false) :
    a.queue (v, u) = [] := by
  obtain ⟨p, hp⟩ := hj.parent
  have hiff := hB.poll (d := side t c u) (h.chan p c hp)
  rw [hcan, side_other hj, contents_side hj.symm hp] at hiff
  simpa using hiff

/-- **A blocked node waits for something.** -/
theorem waits_of_blocked (hB : B.IsFifo holds) (h : Rep holds t sc s a) {u : ι}
    (hb : s.Blocked t u) : Waits t sc a u := by
  have hok := (h.ok u).pc
  simp only [Sys.Blocked, h.node] at hb
  rcases hnd : a.node u with ⟨done, pc, buf⟩
  simp only [hnd] at hb hok
  have hbuf : buf = (a.node u).buf := by rw [hnd]
  cases pc with
  | idle => exact hb.elim
  | gather kind recv num i =>
    refine .children (by rw [hnd]) hb.1 fun i c hc hr => ?_
    exact queue_nil_of_canRecv hB h (.inl ⟨WiredTree.parent_of_getElem? hc, rfl⟩) (hb.2 i c hc hr)
  | sendUp kind =>
    obtain ⟨p, hp, hblocks⟩ := hb
    obtain ⟨call, hcall, hup⟩ := hok
    rw [hbuf] at hblocks
    refine .room (v := p) (by rw [hnd]; exact .putUp hp hcall) ?_
    exact queue_ne_nil_of_blocks hB h (.inr ⟨hp, rfl⟩) (by rw [hnd]; simp) hblocks
  | recvDown kind =>
    obtain ⟨p, hp⟩ := Option.ne_none_iff_exists'.mp hok.2
    rw [hbuf] at hb
    refine .parent (by rw [hnd]) hp ?_
    exact queue_nil_of_blocks hB h (.inr ⟨hp, rfl⟩) (by rw [hnd]; simp) hb
  | sendDown kind i =>
    obtain ⟨c, hc, hblocks⟩ := hb
    rw [hbuf] at hblocks
    refine .room (v := c) (by rw [hnd]; exact .putDown hc) ?_
    exact queue_ne_nil_of_blocks hB h (.inl ⟨WiredTree.parent_of_getElem? hc, rfl⟩)
      (by rw [hnd]; simp) hblocks
  | ret => exact hb.elim
  | failed => exact hok.elim

/-- A node that has not finished always has a turn to take. -/
theorem turn_isSome (h : Rep holds t sc s a) {u : ι} (hu : (s.node u).done < sc.calls.length) :
    (s.turn t sc u).isSome := by
  have hok := (h.ok u).pc
  have hcall : ∃ call, sc.calls[(s.node u).done]? = some call :=
    ⟨_, List.getElem?_eq_getElem hu⟩
  obtain ⟨call, hcall⟩ := hcall
  rw [h.node] at hcall
  simp only [Sys.turn, h.node]
  rcases hnd : a.node u with ⟨done, pc, buf⟩
  simp only [hnd] at hok hcall ⊢
  cases pc with
  | idle => simp [hcall]
  | gather kind recv num i =>
    obtain ⟨-, -, -, hi⟩ := hok
    by_cases hnum : num < (t.children u).length
    · have hi : i < (t.children u).length := by omega
      simp only [hnum, if_true, List.getElem?_eq_getElem hi]
      split <;> rfl
    · simp [hnum]
  | sendUp kind => cases hp : t.parent u <;> simp [hcall]
  | recvDown kind =>
    obtain ⟨p, hp⟩ := Option.ne_none_iff_exists'.mp hok.2
    simp [hp]
  | sendDown kind i => cases hc : (t.children u)[i]? <;> simp [hc]
  | ret => simp
  | failed => exact hok.elim

/-! ## 2. The least call -/

/-- Whoever stands in the least call has room for its next send: what it has sent before belongs to
older calls, and everybody has received those. -/
theorem queue_nil_of_least (hinv : NetInv t sc a) {u v : ι} (hadj : Adj t u v)
    (hready : sentCount t sc u v (a.node u) = before t sc u v (a.node u).done)
    (hle : (a.node u).done ≤ (a.node v).done) : a.queue (u, v) = [] := by
  by_contra hne
  obtain ⟨x, q, hq⟩ := List.exists_cons_of_ne_nil hne
  obtain ⟨⟨call, hcall, huses⟩, hpos⟩ := hinv.item u v hadj 0 x (by simp [hq])
  have hcount := hinv.count u v hadj
  rw [hq, List.length_cons] at hcount
  have hlt : x.1 < (a.node u).done := by
    by_contra hge
    have := before_mono t sc u v (Nat.le_of_not_lt hge)
    omega
  have hgot : Got t v u x.1 (a.node v) := .inl (by omega)
  have := (before_lt_gotCount_iff hcall huses (a.node v)).mpr hgot
  omega

/-- The situation to be excluded: `k` is the least call somebody is in, and whoever is in it
waits. -/
structure Jam (t : WiredTree ι) (sc : Script ι) (a : Net ι) (k : ℕ) : Prop where
  le : ∀ v, k ≤ (a.node v).done
  waits : ∀ u, (a.node u).done = k → Waits t sc a u

section Jam

variable {k : ℕ}

theorem Jam.not_room (hj : Jam t sc a k) (hinv : NetInv t sc a) {u v : ι} {xs : List Word}
    {nd : Node} (hu : (a.node u).done = k) (hl : Local t sc u (a.node u) (.put v xs) nd) :
    a.queue (u, v) = [] := by
  obtain ⟨hadj, hready, -⟩ := put_ready (hinv.ok u) hl
  exact queue_nil_of_least hinv hadj hready (hu ▸ hj.le v)

/-- A neighbour that has not sent what is waited for is in the least call too. -/
theorem Jam.done_eq (hj : Jam t sc a k) {u v : ι} (h : ¬ Sent t v u k (a.node v)) :
    (a.node v).done = k := by
  have hle := hj.le v
  rcases Nat.lt_or_ge k (a.node v).done with hlt | hge
  · exact absurd (.inl hlt) h
  · omega

/-- What is waited for has not been sent. -/
theorem not_sent (hinv : NetInv t sc a) {u v : ι} {call : Coll} (hadj : Adj t v u)
    (hcall : sc.calls[k]? = some call) (huses : uses t v u call = true)
    (hgot : ¬ Got t u v k (a.node u)) (hq : a.queue (v, u) = []) : ¬ Sent t v u k (a.node v) :=
  fun hs => hinv.queue_ne_nil hadj hcall huses hs hgot hq

/-- Somebody waits for children only if a child does, and so on down to a leaf. -/
theorem Jam.not_gather [Finite ι] (hj : Jam t sc a k) (hinv : NetInv t sc a) (u : ι) :
    (a.node u).done = k → ∀ kind recv num i, (a.node u).pc ≠ .gather kind recv num i := by
  refine t.induct_up (P := fun u => (a.node u).done = k →
    ∀ kind recv num i, (a.node u).pc ≠ .gather kind recv num i) ?_ u
  intro u ih hu kind recv num i hpc
  have hok := (hinv.ok u).pc
  rw [hpc] at hok
  obtain ⟨⟨call, hcall, hup⟩, hlen, hnum, -⟩ := hok
  rw [hu] at hcall
  cases hj.waits u hu with
  | parent hpc' hp hq => rw [hpc] at hpc'; cases hpc'
  | room hl hq => exact hq (hj.not_room hinv hu hl)
  | @children kind' recv' num' i' hpc' hlt hq =>
    obtain ⟨rfl, rfl, rfl, rfl⟩ : kind = kind' ∧ recv = recv' ∧ num = num' ∧ i = i' := by
      simpa using hpc.symm.trans hpc'
    -- a flag that is not set
    obtain ⟨j, hj', hfalse⟩ : ∃ j, ∃ h : j < recv.length, recv[j] = false := by
      by_contra hall
      push Not at hall
      have : recv.count true = recv.length := by
        rw [List.count_eq_length]
        intro b hb
        obtain ⟨j, hjl, rfl⟩ := List.getElem_of_mem hb
        simpa using (hall j hjl).symm
      omega
    have hjc : j < (t.children u).length := by omega
    have hc : (t.children u)[j]? = some (t.children u)[j] := List.getElem?_eq_getElem hjc
    have hp := WiredTree.parent_of_getElem? hc
    generalize (t.children u)[j] = c at hc hp
    have hqc := hq j c hc (by rw [List.getElem?_eq_getElem hj', hfalse])
    have hngot : ¬ Got t u c k (a.node u) := by
      rintro (h | ⟨-, h⟩)
      · omega
      · simp [hpc, hasGot, WiredTree.idxOf_children hc, hj', hfalse] at h
    have huses : uses t c u call = true := by simp [uses_up hp, hup]
    have hnsent := not_sent hinv (.inl hp) hcall huses hngot hqc
    have hdone := hj.done_eq hnsent
    -- the child has not sent, so it is in its own loop
    cases hj.waits c hdone with
    | children hpcc _ _ => exact ih c hp hdone _ _ _ _ hpcc
    | parent hpcc _ _ => exact hnsent (.inr ⟨hdone.symm, by simp [hpcc, hasSent, hp]⟩)
    | room hl hqr => exact hqr (hj.not_room hinv hdone hl)

/-- Somebody waits for its parent only if the parent does, and so on up to the root. -/
theorem Jam.not_recvDown [Finite ι] (hj : Jam t sc a k) (hinv : NetInv t sc a) (u : ι) :
    (a.node u).done = k → ∀ kind, (a.node u).pc ≠ .recvDown kind := by
  refine t.induct_down (P := fun u => (a.node u).done = k →
    ∀ kind, (a.node u).pc ≠ .recvDown kind) ?_ ?_ u
  · intro _ kind hpc
    have hok := (hinv.ok t.root).pc
    rw [hpc] at hok
    exact hok.2 ((t.parent_eq_none _).mpr rfl)
  · intro p c hp ih hc kind hpc
    have hok := (hinv.ok c).pc
    rw [hpc] at hok
    obtain ⟨⟨call, hcall, hd⟩, -⟩ := hok
    rw [hc] at hcall
    cases hj.waits c hc with
    | children hpc' _ _ => rw [hpc] at hpc'; cases hpc'
    | room hl hq => exact hq (hj.not_room hinv hc hl)
    | @parent _ p' hpc' hp' hq =>
      obtain rfl : p = p' := Option.some.inj (hp.symm.trans hp')
      have hne : ¬ t.parent p = some c := WiredTree.parent_asymm hp
      have hngot : ¬ Got t c p k (a.node c) := by
        rintro (h | ⟨-, h⟩)
        · omega
        · simp [hpc, hasGot, hne] at h
      have huses : uses t p c call = true := by simp [uses_down hp, hd]
      have hdone := hj.done_eq (not_sent hinv (.inr hp) hcall huses hngot hq)
      cases hj.waits p hdone with
      | children hpcp _ _ => exact hj.not_gather hinv p hdone _ _ _ _ hpcp
      | parent hpcp _ _ => exact ih hdone _ hpcp
      | room hl hqr => exact hqr (hj.not_room hinv hdone hl)

/-- **There is no jam.** -/
theorem Jam.elim [Finite ι] (hj : Jam t sc a k) (hinv : NetInv t sc a) (u : ι) :
    (a.node u).done ≠ k := by
  intro hu
  cases hj.waits u hu with
  | children hpc _ _ => exact hj.not_gather hinv u hu _ _ _ _ hpc
  | parent hpc _ _ => exact hj.not_recvDown hinv u hu _ hpc
  | room hl hq => exact hq (hj.not_room hinv hu hl)

end Jam

/-! ## 3. The system -/

/-- Over any backend that is a FIFO, somebody who has not finished can move. -/
theorem exists_not_blocked [Finite ι] (hB : B.IsFifo holds) (h : Rep holds t sc s a)
    (hinv : NetInv t sc a) (hu : ∃ u, (s.node u).done < sc.calls.length) :
    ∃ u, (s.node u).done < sc.calls.length ∧ ¬ s.Blocked t u := by
  classical
  by_contra hall
  push Not at hall
  simp only [h.node] at hu hall
  have hex : ∃ k, ∃ u, (a.node u).done = k ∧ k < sc.calls.length :=
    hu.imp' (fun u => (a.node u).done) fun u hu => ⟨u, rfl, hu⟩
  obtain ⟨u, huk, hlt⟩ := Nat.find_spec hex
  have hjam : Jam t sc a (Nat.find hex) := by
    refine ⟨fun v => ?_, fun v hv => waits_of_blocked hB h (hall v (by omega))⟩
    by_contra hv
    exact Nat.find_min hex (Nat.lt_of_not_le hv) ⟨v, rfl, by omega⟩
  exact hjam.elim hinv u huk

end Waits

end Smelt.Collective
