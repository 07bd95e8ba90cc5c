/-
# The two ways to receive from a channel

`smlt_channel_recv` and `smlt_channel_recv_index` differ in the 1:n case only.  A receiver is found
by a search through `dst` in the one, and named by `index` in the other.  The owner takes one
message from each return queue in both, but the first does it with `smlt_queuepair_recv0`, which
copies nothing: it returns with the message of the caller as it was.

The programs are run here over the contents of the queues (`Contents`), as FIFOs.  A channel whose
queues have those contents (`Channel.Holds`) answers the same calls with the same words, so a
program that receives does on it what it does on the contents (`run_of_contents`).
`recv_agrees_iff` is then the comparison of the two, for every content.
-/
import Smelt.Channel.Calls

namespace Smelt

/-! ## 1. The contents of the queues -/

/-- What is in the queues of a channel: `qp i d` is what the end `d` of the `i`-th pair has sent and
the other end has not received, and `readers i` what the `i`-th destination of a 1:n channel has
before it. -/
@[ext] structure Contents where
  qp : ℕ → Side → List (List Word)
  readers : ℕ → List (List Word)

/-- Without the oldest message that `d` has sent on the `i`-th pair. -/
def Contents.dropPair (f : Contents) (i : ℕ) (d : Side) : Contents :=
  { f with qp := Function.update f.qp i (Function.update (f.qp i) d (f.qp i d).tail) }

/-- Without the oldest message before the `i`-th reader. -/
def Contents.dropReader (f : Contents) (i : ℕ) : Contents :=
  { f with readers := Function.update f.readers i (f.readers i).tail }

/-- The end `d` of the `i`-th pair takes its oldest message. -/
def Contents.pop (f : Contents) (i : ℕ) (d : Side) : Option (Contents × List Word) :=
  (f.qp i d.other).head?.map fun xs => (f.dropPair i d.other, xs)

/-- The `i`-th reader takes its oldest message. -/
def Contents.popReader (f : Contents) (i : ℕ) : Option (Contents × List Word) :=
  (f.readers i).head?.map fun xs => (f.dropReader i, xs)

/-- The receiving calls on a channel whose queues are FIFOs.  A receive that finds nothing does not
return, and a reader always copies the seven words of its slot. -/
def fifoHandle (ch : Channel) : (q : ChanCall) → Contents → Option (Contents × q.Resp)
  | .recv p words, f =>
    if p.isShm = ch.useShm ∧ p.index < ch.numChan ∧ words ≤ 7 then
      (f.pop p.index p.side).map fun r => (r.1, success, some (r.2.take words.toNat))
    else none
  | .recv0 p, f =>
    if p.isShm = ch.useShm ∧ p.index < ch.numChan then
      (f.pop p.index p.side).map fun r => (r.1, success)
    else none
  | .canRecv p, f =>
    if p.isShm = ch.useShm ∧ p.index < ch.numChan then
      some (f, !(f.qp p.index p.side.other).isEmpty)
    else none
  | .loadDst i, f => if ch.useShm then ch.dst[i]?.map fun dst => (f, dst) else none
  | .swmrRecv i words, f =>
    if ch.useShm = true ∧ i < ch.numChan then
      if words ≤ 7 then (f.popReader i).map fun r => (r.1, success, some r.2)
      else some (f, success, none)
    else none
  | _, _ => none

/-- `smlt_channel_recv` into a message of seven words. -/
def recvOn (fuel self : ℕ) (ch : Channel) (f : Contents) :
    Option (Contents × Errval × Option (List Word)) :=
  (recvProg fuel self ch 7).run (fifoHandle ch) f

/-- `smlt_channel_recv_index` into a message of seven words. -/
def recvIndexOn (self : ℕ) (ch : Channel) (index : ℕ) (f : Contents) :
    Option (Contents × Errval × Option (List Word)) :=
  (recvIndexProg self ch 7 index).run (fifoHandle ch) f

/-! ## 2. The loops -/

theorem le_numChan {ch : Channel} : ch.m ≤ ch.numChan := by
  unfold Channel.numChan
  split <;> omega

section Loops

variable {ch : Channel} {self : ℕ} {f : Contents}

theorem seven_toNat : (7 : UInt32).toNat = 7 := rfl

/-- A message taken from a queue that has one. -/
theorem pop_eq {i : ℕ} {d : Side} (h : f.qp i d.other ≠ []) :
    ∃ xs, (f.qp i d.other).head? = some xs ∧ f.pop i d = some (f.dropPair i d.other, xs) := by
  obtain ⟨xs, rest, hq⟩ := List.exists_cons_of_ne_nil h
  have hhead : (f.qp i d.other).head? = some xs := by rw [hq, List.head?_cons]
  exact ⟨xs, hhead, by rw [Contents.pop, hhead, Option.map_some]⟩

theorem popReader_eq {i : ℕ} (h : f.readers i ≠ []) :
    ∃ xs, (f.readers i).head? = some xs ∧ f.popReader i = some (f.dropReader i, xs) := by
  obtain ⟨xs, rest, hq⟩ := List.exists_cons_of_ne_nil h
  have hhead : (f.readers i).head? = some xs := by rw [hq, List.head?_cons]
  exact ⟨xs, hhead, by rw [Contents.popReader, hhead, Option.map_some]⟩

/-- A receive that was answered took the oldest message. -/
theorem pop_map_eq_some {β : Type} {i : ℕ} {d : Side} {g : Contents × List Word → β} {b : β}
    (h : (f.pop i d).map g = some b) :
    ∃ xs rest, f.qp i d.other = xs :: rest ∧ g (f.dropPair i d.other, xs) = b := by
  obtain ⟨r, hpop, hb⟩ := Option.map_eq_some_iff.mp h
  obtain ⟨xs, hhead, rfl⟩ := Option.map_eq_some_iff.mp hpop
  obtain ⟨rest, hq⟩ := List.head?_eq_some_iff.mp hhead
  exact ⟨xs, rest, hq, hb⟩

theorem popReader_map_eq_some {β : Type} {i : ℕ} {g : Contents × List Word → β} {b : β}
    (h : (f.popReader i).map g = some b) :
    ∃ xs rest, f.readers i = xs :: rest ∧ g (f.dropReader i, xs) = b := by
  obtain ⟨r, hpop, hb⟩ := Option.map_eq_some_iff.mp h
  obtain ⟨xs, hhead, rfl⟩ := Option.map_eq_some_iff.mp hpop
  obtain ⟨rest, hq⟩ := List.head?_eq_some_iff.mp hhead
  exact ⟨xs, rest, hq, hb⟩

theorem dropPair_of_ne {i j : ℕ} (d : Side) (h : j ≠ i) : (f.dropPair i d).qp j = f.qp j :=
  Function.update_of_ne h _ _

theorem dropPair_self (i : ℕ) (d d' : Side) :
    (f.dropPair i d).qp i d' = if d' = d then (f.qp i d).tail else f.qp i d' := by
  simp [Contents.dropPair, Function.update_apply]

theorem dropReader_of_ne {i j : ℕ} (h : j ≠ i) : (f.dropReader i).readers j = f.readers j :=
  Function.update_of_ne h _ _

theorem dropReader_self (i : ℕ) : (f.dropReader i).readers i = (f.readers i).tail :=
  Function.update_self i _ _

/-- The search through `dst` takes one message at each place that is the caller's, and the last of
them stays in the message. -/
theorem recvOwn_spec (hshm : ch.useShm = true) {is : List ℕ} (hnd : is.Nodup)
    (hplace : ∀ i ∈ is, i < ch.dst.length ∧ i < ch.numChan)
    (hfull : ∀ i ∈ is, ch.dst[i]? = some self → f.readers i ≠ []) (ws : Option (List Word)) :
    ∃ f' ws', (recvProg.recvOwn self 7 ws is).run (fifoHandle ch) f = some (f', success, ws') ∧
      f'.qp = f.qp ∧
      (∀ i, f'.readers i =
        if i ∈ is ∧ ch.dst[i]? = some self then (f.readers i).tail else f.readers i) ∧
      ((∃ i ∈ is, ch.dst[i]? = some self ∧ ws' = (f.readers i).head?) ∨
        (∀ i ∈ is, ch.dst[i]? ≠ some self) ∧ ws' = ws) := by
  induction is generalizing f ws with
  | nil => exact ⟨f, ws, rfl, rfl, by simp, .inr ⟨by simp, rfl⟩⟩
  | cons i is ih =>
    obtain ⟨hi, hnd⟩ := List.nodup_cons.mp hnd
    obtain ⟨hdst, hnum⟩ := hplace i List.mem_cons_self
    have hrest : ∀ j ∈ is, j < ch.dst.length ∧ j < ch.numChan :=
      fun j hj => hplace j (List.mem_cons_of_mem _ hj)
    have hget := List.getElem?_eq_getElem hdst
    have hload : fifoHandle ch (.loadDst i) f = some (f, ch.dst[i]) := by
      simp only [fifoHandle, hshm, if_true, hget, Option.map_some]
    rw [recvProg.recvOwn, Prog.run_call hload]
    by_cases hself : ch.dst[i] = self
    · have hmine : ch.dst[i]? = some self := hget.trans (congrArg some hself)
      obtain ⟨xs, hhead, hpop⟩ := popReader_eq (hfull i List.mem_cons_self hmine)
      have hcall : fifoHandle ch (.swmrRecv i 7) f = some (f.dropReader i, success, some xs) := by
        have hle : (7 : UInt32) ≤ 7 := by decide
        simp only [fifoHandle, hshm, hnum, and_self, if_true, hle, hpop, Option.map_some]
      rw [if_pos hself, Prog.run_call hcall]
      have hne : ∀ j ∈ is, j ≠ i := fun j hj he => hi (he ▸ hj)
      obtain ⟨f', ws', hrun, hqp, hreaders, hlast⟩ := @ih (f.dropReader i) hnd hrest
        (fun j hj hdst => by
          rw [dropReader_of_ne (hne j hj)]
          exact hfull j (List.mem_cons_of_mem _ hj) hdst) (some xs)
      refine ⟨f', ws', hrun, hqp, fun j => ?_, .inl ?_⟩
      · rw [hreaders j]
        by_cases hj : j = i
        · subst hj
          simp [hi, hmine, dropReader_self]
        · simp [hj, dropReader_of_ne hj]
      · rcases hlast with ⟨j, hj, hdst, hws⟩ | ⟨-, hws⟩
        · rw [dropReader_of_ne (hne j hj)] at hws
          exact ⟨j, List.mem_cons_of_mem _ hj, hdst, hws⟩
        · exact ⟨i, List.mem_cons_self, hmine, hws.trans hhead.symm⟩
    · have hother : ch.dst[i]? ≠ some self := fun he => hself (Option.some.inj (hget.symm.trans he))
      rw [if_neg hself]
      obtain ⟨f', ws', hrun, hqp, hreaders, hlast⟩ := ih hnd hrest
        (fun j hj => hfull j (List.mem_cons_of_mem _ hj)) ws
      refine ⟨f', ws', hrun, hqp, fun j => ?_, ?_⟩
      · rw [hreaders j]
        by_cases hj : j = i
        · subst hj
          simp [hi, hother]
        · simp [hj]
      · rcases hlast with ⟨j, hj, hdst, hws⟩ | ⟨hnone, hws⟩
        · exact .inl ⟨j, List.mem_cons_of_mem _ hj, hdst, hws⟩
        · refine .inr ⟨fun j hj => ?_, hws⟩
          rcases List.mem_cons.mp hj with rfl | hj
          · exact hother
          · exact hnone j hj

/-- The owner polls the return queues from the first to the last, and takes one message from each;
when all have one, the loop ends after one turn for each. -/
theorem recvAll_spec (hshm : ch.useShm = true) {m i k : ℕ} (hk : i + k = m)
    (hnum : m ≤ ch.numChan) (hfull : ∀ j, i ≤ j → j < m → f.qp j .src ≠ []) {got : ℕ → Bool}
    (hgot : ∀ j, i ≤ j → got j = false) {fuel : ℕ} (hfuel : k < fuel) :
    ∃ f', (recvAll m fuel success got i (if i = m then 0 else i)).run (fifoHandle ch) f =
        some (f', success) ∧
      f'.readers = f.readers ∧
      ∀ j d, f'.qp j d =
        if i ≤ j ∧ j < m ∧ d = .src then (f.qp j d).tail else f.qp j d := by
  obtain ⟨fuel, rfl⟩ : ∃ n, fuel = n + 1 := ⟨fuel - 1, by omega⟩
  induction k generalizing i f got fuel with
  | zero =>
    obtain rfl : i = m := hk
    refine ⟨f, ?_, rfl, fun j d => (if_neg fun h => by omega).symm⟩
    simp only [recvAll, Nat.lt_irrefl, if_false]
    rfl
  | succ k ih =>
    have hi : i < m := by omega
    have hplace : (true = ch.useShm ∧ i < ch.numChan) = True := by
      simp only [hshm, true_and, eq_iff_iff, iff_true]
      omega
    have hne := hfull i (Nat.le_refl i) hi
    obtain ⟨xs, -, hpop⟩ := pop_eq (d := .dst) (show f.qp i Side.dst.other ≠ [] from hne)
    have hcan : fifoHandle ch (.canRecv (.shmRecvOwner i)) f = some (f, true) := by
      simp only [fifoHandle, QpPlace.isShm, QpPlace.index, QpPlace.side, Side.other, hplace,
        if_true]
      simp [hne]
    have htake :
        fifoHandle ch (.recv0 (.shmRecvOwner i)) f = some (f.dropPair i .src, success) := by
      simp only [fifoHandle, QpPlace.isShm, QpPlace.index, QpPlace.side, hplace, if_true, hpop,
        Option.map_some, Side.other]
    obtain ⟨fuel, rfl⟩ : ∃ n, fuel = n + 1 := ⟨fuel - 1, by omega⟩
    rw [recvAll, if_pos hi, if_neg (by omega : ¬ i = m), hgot i (Nat.le_refl i)]
    simp only [Bool.not_false, if_true]
    rw [Prog.run_call hcan]
    simp only [if_true]
    rw [Prog.run_call htake]
    simp only [errIsFail, success, List.isEmpty_nil, Bool.not_true, Bool.false_eq_true, if_false]
    obtain ⟨f', hrun, hreaders, hqp⟩ := @ih (f.dropPair i .src) (i + 1) (by omega)
      (fun j hj hjm => by
        rw [dropPair_of_ne _ (by omega : j ≠ i)]
        exact hfull j (by omega) hjm)
      (Function.update got i true)
      (fun j hj => by
        rw [Function.update_of_ne (by omega : j ≠ i)]
        exact hgot j (by omega)) fuel (by omega)
    refine ⟨f', hrun, hreaders, fun j d => (hqp j d).trans ?_⟩
    by_cases hj : j = i
    · subst hj
      cases d <;> simp [hi, dropPair_self]
    · rw [dropPair_of_ne _ hj]
      have hiff : i + 1 ≤ j ↔ i ≤ j := by omega
      simp only [hiff]

/-- In `smlt_channel_recv_index` it takes one message from each as well, and the last of them stays
in the message. -/
theorem recvEach_spec (hshm : ch.useShm = true) {is : List ℕ} (hnd : is.Nodup)
    (hplace : ∀ i ∈ is, i < ch.numChan) (hfull : ∀ i ∈ is, f.qp i .src ≠ [])
    (ws : Option (List Word)) :
    ∃ f' ws', (recvIndexProg.recvEach 7 success ws is).run (fifoHandle ch) f =
        some (f', success, ws') ∧
      f'.readers = f.readers ∧
      (∀ j d, f'.qp j d = if j ∈ is ∧ d = .src then (f.qp j d).tail else f.qp j d) ∧
      ((∃ i ∈ is, ws' = (f.qp i .src).head?.map (List.take 7)) ∨ is = [] ∧ ws' = ws) := by
  induction is generalizing f ws with
  | nil => exact ⟨f, ws, rfl, rfl, by simp, .inr ⟨rfl, rfl⟩⟩
  | cons i is ih =>
    obtain ⟨hi, hnd⟩ := List.nodup_cons.mp hnd
    have hplace' : (true = ch.useShm ∧ i < ch.numChan ∧ (7 : UInt32) ≤ 7) = True := by
      simp [hshm, hplace i List.mem_cons_self]
    obtain ⟨xs, hhead, hpop⟩ :=
      pop_eq (d := .dst) (show f.qp i Side.dst.other ≠ [] from hfull i List.mem_cons_self)
    have htake : fifoHandle ch (.recv (.shmRecvOwner i) 7) f =
        some (f.dropPair i .src, success, some (xs.take 7)) := by
      simp only [fifoHandle, QpPlace.isShm, QpPlace.index, QpPlace.side, hplace', if_true, hpop,
        Option.map_some, Side.other, seven_toNat]
    have hne : ∀ j ∈ is, j ≠ i := fun j hj he => hi (he ▸ hj)
    rw [recvIndexProg.recvEach, Prog.run_call htake]
    obtain ⟨f', ws', hrun, hreaders, hqp, hlast⟩ := @ih (f.dropPair i .src) hnd
      (fun j hj => hplace j (List.mem_cons_of_mem _ hj))
      (fun j hj => by
        rw [dropPair_of_ne _ (hne j hj)]
        exact hfull j (List.mem_cons_of_mem _ hj))
      (some (xs.take 7))
    refine ⟨f', ws', hrun, hreaders, fun j d => (hqp j d).trans ?_, .inl ?_⟩
    · by_cases hj : j = i
      · subst hj
        cases d <;> simp [hi, dropPair_self]
      · simp [hj, dropPair_of_ne _ hj]
    · rcases hlast with ⟨j, hj, hws⟩ | ⟨-, hws⟩
      · rw [dropPair_of_ne _ (hne j hj)] at hws
        exact ⟨j, List.mem_cons_of_mem _ hj, hws⟩
      · refine ⟨i, List.mem_cons_self, hws.trans ?_⟩
        rw [show f.qp i .src = f.qp i Side.dst.other from rfl, hhead]
        rfl

end Loops

/-! ## 3. The contents of a channel -/

/-- `ch` is `ch₀` with other messages in its queues, and `f` is what is in them.  Every message has
the seven words of its slot. -/
structure Channel.Holds (ch₀ ch : Channel) (f : Contents) : Prop where
  same : ∃ qp sendOwner, ch = { ch₀ with qp := qp, sendOwner := sendOwner }
  pair : ∀ i < ch₀.numChan, ∃ w, ch.qp i = some w ∧ Ump.Holds w (f.qp i)
  seven : ∀ i < ch₀.numChan, ∀ d, ∀ xs ∈ f.qp i d, xs.length = 7
  queue : ch₀.useShm = true → ∃ N w, ch.sendOwner = some w ∧ w.Ok N ch₀.numChan ∧
    ∀ i < ch₀.numChan, f.readers i =
      Swmr.announced N (w.dst i).lPos.toNat (w.dst i).nextSeq w.shm.slots

section Sim

variable {ch₀ ch : Channel} {f f' : Contents} {i : ℕ} {d : Side} {xs : List Word}
  {rest : List (List Word)}

/-- The calls look at the members that do not change. -/
theorem Channel.Holds.members (h : ch₀.Holds ch f) :
    ch.useShm = ch₀.useShm ∧ ch.numChan = ch₀.numChan ∧ ch.dst = ch₀.dst := by
  obtain ⟨qp, sendOwner, rfl⟩ := h.same
  exact ⟨rfl, rfl, rfl⟩

/-- A message is taken from a queue pair. -/
theorem Channel.Holds.dropPair (h : ch₀.Holds ch f) (hq : f.qp i d = xs :: rest) {w : Ump.World}
    (hw : Ump.Holds w (Function.update (f.qp i) d rest)) :
    ch₀.Holds { ch with qp := Function.update ch.qp i (some w) } (f.dropPair i d) where
  same := by
    obtain ⟨qp, sendOwner, rfl⟩ := h.same
    exact ⟨_, _, rfl⟩
  pair := by
    intro j hj
    by_cases hji : j = i
    · subst hji
      refine ⟨w, Function.update_self j _ _, ?_⟩
      simp only [Contents.dropPair, Function.update_self, hq, List.tail_cons]
      exact hw
    · obtain ⟨v, hv, hold⟩ := h.pair j hj
      refine ⟨v, (Function.update_of_ne hji _ _).trans hv, ?_⟩
      rw [dropPair_of_ne d hji]
      exact hold
  seven := by
    intro j hj d' ys hys
    by_cases hji : j = i
    · subst hji
      rw [dropPair_self] at hys
      split at hys
      · exact h.seven j hj d ys (List.mem_of_mem_tail hys)
      · exact h.seven j hj d' ys hys
    · rw [dropPair_of_ne d hji] at hys
      exact h.seven j hj d' ys hys
  queue := h.queue

/-- A receiving call on a queue pair of the channel. -/
theorem Channel.Holds.onPair (h : ch₀.Holds ch f) {p : QpPlace} (hshm : p.isShm = ch₀.useShm)
    (hi : p.index < ch₀.numChan) {β : Type} {g : Ump.World → Side → Option (Ump.World × β)} {b : β}
    (hq : f.qp p.index p.side.other = xs :: rest)
    (hg : ∀ w, Ump.Holds w (f.qp p.index) → ∃ w', g w p.side = some (w', b) ∧
      Ump.Holds w' (Function.update (f.qp p.index) p.side.other rest)) :
    ∃ ch', ch.onPair p g = some (ch', b) ∧ ch₀.Holds ch' (f.dropPair p.index p.side.other) := by
  obtain ⟨w, hw, hold⟩ := h.pair p.index hi
  obtain ⟨w', hcall, hold'⟩ := hg w hold
  refine ⟨_, ?_, h.dropPair hq hold'⟩
  rw [Channel.onPair, if_pos (hshm.trans h.members.1.symm), hw]
  simp only [hcall, Option.map_some]

/-- A message is taken from the queue of a 1:n channel. -/
theorem Channel.Holds.popReader (h : ch₀.Holds ch f) (hshm : ch₀.useShm = true)
    (hi : i < ch₀.numChan) (hq : f.readers i = xs :: rest) :
    ∃ w c shm, ch.sendOwner = some w ∧
      Swmr.receiveNonBlocking (w.dst i) w.shm true = some (c, shm, some xs) ∧
      ch₀.Holds { ch with
        sendOwner := some { w with dst := Function.update w.dst i c, shm := shm } }
        (f.dropReader i) := by
  obtain ⟨N, w, hw, hok, hreaders⟩ := h.queue hshm
  obtain ⟨c, pos, hraw, hrest⟩ := hok.recv hi true ((hreaders i hi).symm.trans hq)
  have hok' := Swmr.ok_recv hok hi
    (show w.recvRaw i true = some _ by rw [Swmr.World.recvRaw, hraw, Option.map_some])
  refine ⟨w, c, _, hw, hraw, ?_, h.pair, h.seven, fun _ => ⟨N, _, rfl, hok', fun j hj => ?_⟩⟩
  · obtain ⟨qp, sendOwner, rfl⟩ := h.same
    exact ⟨_, _, rfl⟩
  · by_cases hji : j = i
    · subst hji
      rw [dropReader_self, hq, List.tail_cons, ← hrest]
      simp only [Function.update_self]
    · rw [dropReader_of_ne hji, hreaders j hj]
      simp only [Function.update_of_ne hji]

/-- **A channel answers as its contents do**: every call that is answered on the contents is
answered in the same way on the channel. -/
theorem contents_sim (q : ChanCall) {r : q.Resp} (h : ch₀.Holds ch f)
    (hcall : fifoHandle ch₀ q f = some (f', r)) :
    ∃ ch', Channel.handle q ch = some (ch', r) ∧ ch₀.Holds ch' f' := by
  obtain ⟨huse, hnum, hdst⟩ := h.members
  cases q with
  | recv p words =>
    simp only [fifoHandle] at hcall
    split at hcall
    · rename_i hplace
      obtain ⟨xs, rest, hq, heq⟩ := pop_map_eq_some hcall
      obtain ⟨rfl, rfl⟩ := Prod.mk.inj heq
      have hwords : words.toNat ≤ 7 := UInt32.le_iff_toNat_le.mp hplace.2.2
      have hseven : xs.length = 7 := h.seven _ hplace.2.1 _ _ (hq ▸ List.mem_cons_self)
      show ∃ ch', ch.onPair p (fun w d => Ump.backend.recv w d words) =
        some (ch', success, some (xs.take words.toNat)) ∧ _
      refine h.onPair hplace.1 hplace.2.1 hq fun w hold => ?_
      obtain ⟨w', ys, hrecv, hlen, hag, hold'⟩ := Ump.backend_isFifo.recv hold hwords hq
      refine ⟨w', ?_, hold'⟩
      -- a reading of as many words as were asked for, none of them past the end of the message
      have hys : ys = xs.take words.toNat := by
        unfold Agree at hag
        rwa [List.take_of_length_le (by omega), hlen] at hag
      rw [← hys]
      exact hrecv
    · cases hcall
  | recv0 p =>
    simp only [fifoHandle] at hcall
    split at hcall
    · rename_i hplace
      obtain ⟨xs, rest, hq, heq⟩ := pop_map_eq_some hcall
      obtain ⟨rfl, rfl⟩ := Prod.mk.inj heq
      exact h.onPair hplace.1 hplace.2 hq fun w hold => Ump.backend_isFifo.recv0 hold hq
    · cases hcall
  | canRecv p =>
    simp only [fifoHandle] at hcall
    split at hcall
    · rename_i hplace
      obtain ⟨rfl, rfl⟩ := Prod.mk.inj (Option.some.inj hcall)
      obtain ⟨w, hw, hold⟩ := h.pair p.index hplace.2
      have hpoll : Ump.backend.canRecv w p.side = !(f.qp p.index p.side.other).isEmpty := by
        rw [Bool.eq_iff_iff, Ump.backend_isFifo.poll hold]
        simp
      refine ⟨ch, ?_, h⟩
      have hsame : { ch with qp := Function.update ch.qp p.index (some w) } = ch := by
        rw [← hw, Function.update_eq_self]
      rw [Channel.handle, Channel.onPair, if_pos (hplace.1.trans huse.symm), hw]
      simp only [Option.map_some, hsame, hpoll]
    · cases hcall
  | loadDst i =>
    simp only [fifoHandle] at hcall
    split at hcall
    · rename_i hshm
      obtain ⟨dst, hget, heq⟩ := Option.map_eq_some_iff.mp hcall
      obtain ⟨rfl, rfl⟩ := Prod.mk.inj heq
      refine ⟨ch, ?_, h⟩
      simp only [Channel.handle, huse, hshm, if_true, hdst, hget, Option.map_some]
    · cases hcall
  | swmrRecv i words =>
    simp only [fifoHandle] at hcall
    split at hcall
    · rename_i hplace
      split at hcall
      · rename_i hwords
        obtain ⟨xs, rest, hq, heq⟩ := popReader_map_eq_some hcall
        obtain ⟨rfl, rfl⟩ := Prod.mk.inj heq
        obtain ⟨w, c, shm, hw, hraw, hold⟩ := h.popReader hplace.1 hplace.2 hq
        refine ⟨_, ?_, hold⟩
        simp only [Channel.handle, Channel.onQueue, huse, hplace.1, if_true, hw, hnum, hplace.2,
          hwords, hraw, Option.map_some]
      · rename_i hwords
        obtain ⟨rfl, rfl⟩ := Prod.mk.inj (Option.some.inj hcall)
        obtain ⟨N, w, hw, -⟩ := h.queue hplace.1
        refine ⟨ch, ?_, h⟩
        have hsame : { ch with sendOwner := some w } = ch := by rw [← hw]
        rw [Channel.handle, Channel.onQueue, if_pos (huse.trans hplace.1), hw]
        simp only [hnum, hplace.2, hwords, if_true, if_false, Option.map_some, hsame]
    · cases hcall
  | send p msg => cases hcall
  | notify p => cases hcall
  | canSend p => cases hcall
  | destroy p => cases hcall
  | free p => cases hcall
  | swmrSend msg => cases hcall
  | swmrSend0 => cases hcall
  | swmrRecv0 i => cases hcall

/-- **A program that receives runs on a channel as on its contents.** -/
theorem run_of_contents {α : Type} {x : ChanProg α} {a : α} (h : ch₀.Holds ch f)
    (hrun : x.run (fifoHandle ch₀) f = some (f', a)) :
    ∃ ch', x.run Channel.handle ch = some (ch', a) ∧ ch₀.Holds ch' f' :=
  Prog.run_sim (fun q _ _ _ _ hq hcall => contents_sim q hq hcall) h hrun

end Sim

/-! ## 4. The calls -/

/-- A channel with one source and one destination. -/
def Channel.OneToOne (ch : Channel) : Prop := ch.n = 1 ∧ ch.m = 1 ∧ ch.useShm = false

/-- A channel with one source and several destinations. -/
def Channel.OneToMany (ch : Channel) : Prop :=
  ch.n = 1 ∧ 2 ≤ ch.m ∧ ch.useShm = true ∧ ch.dst.length = ch.m

/-- Who may call: the owner, the other end of a 1:1 channel, and the receiver at the position
`index` of `dst`. -/
def Channel.Caller (ch : Channel) (self index : ℕ) : Prop :=
  ch.owner = self ∨ ch.useShm = false ∨ ch.dst[index]? = some self

/-- Every queue that `self` reads from holds a message. -/
def Contents.Filled (f : Contents) (ch : Channel) (self : ℕ) : Prop :=
  if ch.useShm = false then f.qp 0 (if ch.owner = self then Side.dst else Side.src) ≠ []
  else if ch.owner = self then ∀ i < ch.m, f.qp i .src ≠ []
  else ∀ i, ch.dst[i]? = some self → f.readers i ≠ []

/-- Seven words of a message that was taken between the two contents. -/
def Contents.Took (f f' : Contents) (ws : List Word) : Prop :=
  (∃ i d xs rest, f.qp i d = xs :: rest ∧ f'.qp i d = rest ∧ ws = xs.take 7) ∨
    ∃ i rest, f.readers i = ws :: rest ∧ f'.readers i = rest

/-- **The two calls agree**: both return, take the same messages (for the owner of a 1:n channel one
from each return queue) and leave a message that was taken, the same one if all return queues begin
with equal messages. -/
def RecvAgrees (ch : Channel) (self index : ℕ) (f : Contents) : Prop :=
  ∀ fuel, ch.m < fuel → ∃ f' err err' ws ws',
    recvOn fuel self ch f = some (f', err, some ws) ∧
    recvIndexOn self ch index f = some (f', err', some ws') ∧
    f.Took f' ws ∧ f.Took f' ws' ∧
    (ch.n ≠ ch.m ∧ ch.owner = self → ∀ i < ch.m, f'.qp i .src = (f.qp i .src).tail) ∧
    ((∀ i < ch.m, ∀ j < ch.m, (f.qp i .src).head? = (f.qp j .src).head?) → ws = ws')

section Agreement

variable {ch : Channel} {self index : ℕ} {f : Contents}

theorem Contents.Filled.owner (h : f.Filled ch self) (hshm : ch.useShm = true)
    (howner : ch.owner = self) : ∀ i < ch.m, f.qp i .src ≠ [] := by
  rwa [Contents.Filled, if_neg (by simp [hshm]), if_pos howner] at h

theorem Contents.Filled.reader (h : f.Filled ch self) (hshm : ch.useShm = true)
    (howner : ch.owner ≠ self) : ∀ i, ch.dst[i]? = some self → f.readers i ≠ [] := by
  rwa [Contents.Filled, if_neg (by simp [hshm]), if_neg howner] at h

/-- A 1:1 channel: both are the one receive of its queue pair. -/
theorem recv_single (h : ch.OneToOne) (hfull : f.Filled ch self) :
    RecvAgrees ch self index f := by
  obtain ⟨hn, hm, hshm⟩ := h
  rw [Contents.Filled, if_pos hshm] at hfull
  have hnum : ch.numChan = 1 := by simp [Channel.numChan, hn, hm]
  have hother : (ch.mpPlace self 0).side.other = if ch.owner = self then .dst else .src := by
    rw [mpPlace_side]
    split <;> rfl
  rw [← hother] at hfull
  obtain ⟨xs, hhead, hpop⟩ := pop_eq hfull
  have hcall : fifoHandle ch (.recv (ch.mpPlace self 0) 7) f =
      some (f.dropPair 0 (ch.mpPlace self 0).side.other, success, some (xs.take 7)) := by
    have hle : (7 : UInt32) ≤ 7 := by decide
    simp only [fifoHandle, mpPlace_isShm, mpPlace_index, hshm, hnum, Nat.one_pos, hle, and_self,
      if_true, hpop, Option.map_some, seven_toNat]
  intro fuel _
  have hrecv : recvOn fuel self ch f =
      some (f.dropPair 0 (ch.mpPlace self 0).side.other, success, some (xs.take 7)) := by
    rw [recvOn, recvProg, if_pos (hn.trans hm.symm), Prog.run_call hcall]
    rfl
  have hindex : recvIndexOn self ch index f =
      some (f.dropPair 0 (ch.mpPlace self 0).side.other, success, some (xs.take 7)) := by
    rw [recvIndexOn, recvIndexProg, if_pos (hn.trans hm.symm), Prog.run_call hcall]
    rfl
  have htook : f.Took (f.dropPair 0 (ch.mpPlace self 0).side.other) (xs.take 7) := by
    obtain ⟨rest, hq⟩ := List.head?_eq_some_iff.mp hhead
    refine .inl ⟨0, _, xs, rest, hq, ?_, rfl⟩
    rw [dropPair_self, if_pos rfl, hq, List.tail_cons]
  exact ⟨_, _, _, _, _, hrecv, hindex, htook, htook,
    fun hmany => absurd (hn.trans hm.symm) hmany.1, fun _ => rfl⟩

/-- The owner of a 1:n channel: `smlt_channel_recv` takes one message from each return queue, and
leaves none of them in the message. -/
theorem recv_owner (h : ch.OneToMany) (howner : ch.owner = self) (hfull : f.Filled ch self)
    {fuel : ℕ} (hfuel : ch.m < fuel) :
    ∃ f', recvOn fuel self ch f = some (f', success, none) ∧ f'.readers = f.readers ∧
      ∀ j d, f'.qp j d = if j < ch.m ∧ d = .src then (f.qp j d).tail else f.qp j d := by
  obtain ⟨hn, hm, hshm, -⟩ := h
  have hfull := hfull.owner hshm howner
  obtain ⟨f', hrun, hreaders, hqp⟩ := recvAll_spec hshm (Nat.zero_add ch.m) le_numChan
    (fun j _ hj => hfull j hj) (fun _ _ => rfl) hfuel
  rw [if_neg (by omega : ¬ 0 = ch.m)] at hrun
  refine ⟨f', ?_, hreaders, by simpa using hqp⟩
  rw [recvOn, recvProg, if_neg (by omega : ¬ ch.n = ch.m), if_pos howner, Prog.run_bind, hrun]
  rfl

/-- `smlt_channel_recv_index` takes the same messages, and leaves one of them. -/
theorem recvIndex_owner (h : ch.OneToMany) (howner : ch.owner = self) (hfull : f.Filled ch self) :
    ∃ f' i, i < ch.m ∧
      recvIndexOn self ch index f =
        some (f', success, (f.qp i .src).head?.map (List.take 7)) ∧ f'.readers = f.readers ∧
      ∀ j d, f'.qp j d = if j < ch.m ∧ d = .src then (f.qp j d).tail else f.qp j d := by
  obtain ⟨hn, hm, hshm, -⟩ := h
  have hfull := hfull.owner hshm howner
  obtain ⟨f', ws', hrun, hreaders, hqp, hlast⟩ := recvEach_spec hshm (List.nodup_range (n := ch.m))
    (fun i hi => Nat.lt_of_lt_of_le (List.mem_range.mp hi) le_numChan)
    (fun i hi => hfull i (List.mem_range.mp hi)) none
  rcases hlast with ⟨i, hi, rfl⟩ | ⟨hnil, -⟩
  · refine ⟨f', i, List.mem_range.mp hi, ?_, hreaders, by simpa using hqp⟩
    rw [recvIndexOn, recvIndexProg, if_neg (by omega : ¬ ch.n = ch.m), if_pos howner]
    exact hrun
  · have : ch.m = 0 := by simpa using hnil
    omega

/-- A receiver of a 1:n channel: `smlt_channel_recv` takes one message at each of its places. -/
theorem recv_reader (h : ch.OneToMany) (howner : ch.owner ≠ self)
    (hindex : ch.dst[index]? = some self)
    (hfull : f.Filled ch self) (fuel : ℕ) :
    ∃ f' i, ch.dst[i]? = some self ∧
      recvOn fuel self ch f = some (f', success, (f.readers i).head?) ∧ f'.qp = f.qp ∧
      ∀ j, f'.readers j = if ch.dst[j]? = some self then (f.readers j).tail else f.readers j := by
  obtain ⟨hn, hm, hshm, hdst⟩ := h
  have hfull := hfull.reader hshm howner
  have hlt : ∀ {i}, ch.dst[i]? = some self → i < ch.m := fun hi =>
    hdst ▸ (List.getElem?_eq_some_iff.mp hi).1
  obtain ⟨f', ws', hrun, hqp, hreaders, hlast⟩ := recvOwn_spec hshm (List.nodup_range (n := ch.m))
    (fun i hi => ⟨hdst ▸ List.mem_range.mp hi,
      Nat.lt_of_lt_of_le (List.mem_range.mp hi) le_numChan⟩)
    (fun i _ hi => hfull i hi) none
  rcases hlast with ⟨i, -, hi, rfl⟩ | ⟨hnone, -⟩
  · refine ⟨f', i, hi, ?_, hqp, fun j => (hreaders j).trans ?_⟩
    · rw [recvOn, recvProg, if_neg (by omega : ¬ ch.n = ch.m), if_neg howner]
      exact hrun
    · by_cases hj : ch.dst[j]? = some self
      · simp [hj, hlt hj]
      · simp [hj]
  · exact absurd hindex (hnone index (List.mem_range.mpr (hlt hindex)))

/-- And `smlt_channel_recv_index` takes one at the place it is given. -/
theorem recvIndex_reader (h : ch.OneToMany) (howner : ch.owner ≠ self)
    (hindex : ch.dst[index]? = some self) (hfull : f.Filled ch self) :
    recvIndexOn self ch index f = some (f.dropReader index, success, (f.readers index).head?) := by
  obtain ⟨hn, hm, hshm, hdst⟩ := h
  have hfull := hfull.reader hshm howner
  obtain ⟨xs, hhead, hpop⟩ := popReader_eq (hfull index hindex)
  have hlt : index < ch.numChan :=
    Nat.lt_of_lt_of_le (hdst ▸ (List.getElem?_eq_some_iff.mp hindex).1) le_numChan
  have hle : (7 : UInt32) ≤ 7 := by decide
  have hcall : fifoHandle ch (.swmrRecv index 7) f =
      some (f.dropReader index, success, some xs) := by
    simp only [fifoHandle, hshm, hlt, and_self, if_true, hle, hpop, Option.map_some]
  rw [recvIndexOn, recvIndexProg, if_neg (by omega : ¬ ch.n = ch.m), if_neg howner,
    Prog.run_call hcall, hhead]
  rfl

/-- **The two payload receives of a channel agree exactly when** the channel is 1:1, or the caller
is not its owner and stands in `dst` at the position `index` only.  The owner of a 1:n channel
gets no payload from `smlt_channel_recv`, and a receiver with several places takes a message at
each of them. -/
theorem recv_agrees_iff (hch : ch.OneToOne ∨ ch.OneToMany) (hcaller : ch.Caller self index)
    (hfull : f.Filled ch self) :
    RecvAgrees ch self index f ↔
      ch.n = ch.m ∨ ch.owner ≠ self ∧ ∀ i, ch.dst[i]? = some self → i = index := by
  rcases hch with hone | hmany
  · exact iff_of_true (recv_single hone hfull) (.inl (hone.1.trans hone.2.1.symm))
  · have hne : ch.n ≠ ch.m := by
      obtain ⟨hn, hm, -⟩ := hmany
      omega
    by_cases howner : ch.owner = self
    · refine iff_of_false (fun hagree => ?_) (fun hh => hh.elim hne fun hr => hr.1 howner)
      obtain ⟨f', err, err', ws, ws', hrecv, -⟩ := hagree (ch.m + 1) (Nat.lt_succ_self _)
      obtain ⟨f'', hnone, -⟩ := recv_owner hmany howner hfull (Nat.lt_succ_self ch.m)
      rw [hnone] at hrecv
      cases hrecv
    · have hindex : ch.dst[index]? = some self := by
        rcases hcaller with h | h | h
        · exact absurd h howner
        · exact absurd (h.symm.trans hmany.2.2.1) (by decide)
        · exact h
      have hread := recvIndex_reader hmany howner hindex hfull
      constructor
      · intro hagree
        refine .inr ⟨howner, fun i hi => ?_⟩
        obtain ⟨f', err, err', ws, ws', hrecv, hrecv', -⟩ := hagree (ch.m + 1) (Nat.lt_succ_self _)
        obtain ⟨f'', _, -, hrun, -, hreaders⟩ := recv_reader hmany howner hindex hfull (ch.m + 1)
        -- Both calls stop at the same content, and there the reader `i` has lost a message.
        obtain rfl : f'' = f' := congrArg Prod.fst (Option.some.inj (hrun.symm.trans hrecv))
        obtain rfl : f.dropReader index = f'' :=
          congrArg Prod.fst (Option.some.inj (hread.symm.trans hrecv'))
        by_contra hi_ne
        have htail := hreaders i
        rw [if_pos hi, dropReader_of_ne hi_ne] at htail
        obtain ⟨xs, rest, hq⟩ :=
          List.exists_cons_of_ne_nil (hfull.reader hmany.2.2.1 howner i hi)
        rw [hq, List.tail_cons] at htail
        exact absurd htail (List.cons_ne_self xs rest)
      · rintro (heq | ⟨-, honly⟩)
        · exact absurd heq hne
        · intro fuel _
          obtain ⟨f', i, hi, hrun, hqp, hreaders⟩ := recv_reader hmany howner hindex hfull fuel
          obtain rfl := honly i hi
          have hcontents : f' = f.dropReader i := by
            refine Contents.ext hqp (funext fun j => (hreaders j).trans ?_)
            by_cases hj : j = i
            · subst hj
              rw [if_pos hi, dropReader_self]
            · rw [if_neg fun hj' => hj (honly j hj'), dropReader_of_ne hj]
          obtain ⟨xs, rest, hq⟩ :=
            List.exists_cons_of_ne_nil (hfull.reader hmany.2.2.1 howner i hi)
          rw [hcontents, hq, List.head?_cons] at hrun
          rw [hq, List.head?_cons] at hread
          have htook : f.Took (f.dropReader i) xs :=
            .inr ⟨i, rest, hq, by rw [dropReader_self, hq, List.tail_cons]⟩
          exact ⟨_, _, _, _, _, hrun, hread, htook, htook,
            fun hmine => absurd hmine.2 howner, fun _ => rfl⟩

end Agreement

/-- A channel from the node 0 to the nodes 1 and 2. -/
def fanOut : Channel :=
  { Channel.zero with owner := 0, m := 2, n := 1, useShm := true, dst := [1, 2] }

/-- One and the same message in every queue. -/
def fanContents : Contents where
  qp _ _ := [[1, 2, 3, 4, 5, 6, 7]]
  readers _ := [[1, 2, 3, 4, 5, 6, 7]]

theorem fanOut_oneToMany : fanOut.OneToMany := ⟨rfl, Nat.le_refl 2, rfl, rfl⟩

/-- The second receiver. -/
theorem recv_agrees_iff_reader : RecvAgrees fanOut 2 1 fanContents := by
  have hself : ∀ i, fanOut.dst[i]? = some 2 → i = 1 := by
    intro i hi
    rcases i with _ | _ | i
    · exact absurd hi (by decide)
    · rfl
    · cases hi
  refine (recv_agrees_iff (.inr fanOut_oneToMany) (.inr (.inr rfl)) ?_).mpr
    (.inr ⟨by decide, hself⟩)
  rw [Contents.Filled, if_neg (by decide), if_neg (by decide)]
  intro i _
  exact List.cons_ne_nil _ _

/-- **The owner finds a message in every return queue and gets none of them.** -/
theorem owner_recv_no_payload :
    ¬ ∀ ch self index f, ch.OneToOne ∨ ch.OneToMany → ch.Caller self index → f.Filled ch self →
      RecvAgrees ch self index f := by
  intro hall
  have howner : fanOut.owner = 0 := rfl
  have hfull : fanContents.Filled fanOut 0 := by
    rw [Contents.Filled, if_neg (by decide), if_pos howner]
    intro i _
    exact List.cons_ne_nil _ _
  obtain ⟨f', err, err', ws, ws', hrecv, -⟩ :=
    hall fanOut 0 0 fanContents (.inr fanOut_oneToMany) (.inl rfl) hfull 3 (by decide)
  obtain ⟨f'', hnone, -⟩ := recv_owner fanOut_oneToMany howner hfull
    (by decide : fanOut.m < 3)
  rw [hnone] at hrecv
  cases hrecv

end Smelt
