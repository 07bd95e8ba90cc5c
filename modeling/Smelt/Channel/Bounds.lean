/-
# What the operations of a channel touch

`smlt_channel_create` makes one queue pair when there is one destination, and a queue with one queue
pair for each destination otherwise.  The operations do not all go by that.

* `smlt_channel_can_send` and `smlt_channel_destroy` take the member `mp` on a 1:n channel too.
* On an n:1 channel the loops of `smlt_channel_send`, `smlt_channel_notify`, `smlt_channel_can_send`
  and `smlt_channel_can_recv` go over `max(m, n)` queue pairs, of which the first exists; and the
  receiving functions, which compare `n` with `m`, take the member `shm`.

`in_bounds_iff` says for which operations and shapes the calls stay inside the channel.  The one
operation that does on an n:1 channel is `smlt_channel_destroy`: `smlt_queuepair_destroy` fails for
UMP, so its loop ends at the first queue pair.
-/
import Smelt.Channel.Calls

namespace Smelt

/-! ## 1. Places that are there -/

/-- The channel has what a call goes to: the member of the union is the one that was written, and
the index is one that was initialised. -/
def Channel.Has (ch : Channel) : ChanCall → Prop
  | .send p _ | .notify p | .canSend p | .recv p _ | .recv0 p | .canRecv p | .destroy p | .free p =>
    p.isShm = ch.useShm ∧ ch.qp p.index ≠ none
  | .loadDst i => ch.useShm = true ∧ i < ch.dst.length
  | .swmrSend _ | .swmrSend0 => ch.useShm = true ∧ ch.sendOwner ≠ none
  | .swmrRecv i _ | .swmrRecv0 i => ch.useShm = true ∧ ch.sendOwner ≠ none ∧ i < ch.numChan

/-- An answer that a call can have, on some channel. -/
def ChanCall.CanAnswer (q : ChanCall) (r : q.Resp) : Prop :=
  ∃ ch ch' : Channel, Channel.handle q ch = some (ch', r)

/-- Every call of the program goes to a place of the channel. -/
abbrev Channel.Keeps {α : Type} (ch : Channel) (x : ChanProg α) : Prop :=
  x.Only ChanCall.CanAnswer ch.Has

/-- The operations. -/
inductive ChanOp
  | send (msg : Msg)
  | notify
  | canSend
  | recv (words : UInt32)
  | recvIndex (words : UInt32) (index : ℕ)
  | canRecv
  | recvNotification
  | destroy

/-- The operation, called by the node `self`, touches nothing but what is there. -/
def ChanOp.InBounds (self : ℕ) (ch : Channel) : ChanOp → Prop
  | .send msg => ch.Keeps (sendProg self ch msg)
  | .notify => ch.Keeps (notifyProg self ch)
  | .canSend => ch.Keeps (canSendProg self ch)
  | .recv words => ∀ fuel, ch.Keeps (recvProg fuel self ch words)
  | .recvIndex words index => ch.Keeps (recvIndexProg self ch words index)
  | .canRecv => ch.Keeps (canRecvProg self ch)
  | .recvNotification => ∀ fuel, ch.Keeps (recvNotificationProg fuel self ch)
  | .destroy => ch.Keeps (destroyProg ch)

/-- The shapes an operation is made for, as it turns out. -/
def ChanOp.Supports (countSrc countDst : ℕ) : ChanOp → Prop
  | .canSend => countSrc = 1 ∧ countDst = 1
  | .destroy => countDst = 1
  | _ => countSrc = 1

/-! ## 2. What is created -/

/-- A channel that was created, with its counts. -/
structure Created (ch : Channel) (countSrc countDst : ℕ) : Prop where
  m : ch.m = countDst
  n : ch.n = countSrc
  shape : countSrc = 1 ∧ countDst = 1 ∨ countSrc = 1 ∧ 2 ≤ countDst ∨ 2 ≤ countSrc ∧ countDst = 1
  single : countDst = 1 → ch.useShm = false ∧
    (∃ w, ch.qp 0 = some w ∧ Ump.Holds w fun _ => []) ∧ ∀ i, i ≠ 0 → ch.qp i = none
  several : countDst ≠ 1 → ch.useShm = true ∧ ch.sendOwner ≠ none ∧ ch.dst.length = countDst ∧
    ∀ i, i < countDst → ch.qp i ≠ none

/-- **What `smlt_channel_create` leaves**, when it succeeds. -/
theorem channelCreate_created {alloc : ℕ → Side → Option ℕ} {src dst : List ℕ} {ch : Channel}
    (hsrc : src ≠ []) (hdst : dst ≠ []) (h : channelCreate alloc src dst = some (ch, success)) :
    Created ch src.length dst.length := by
  have hs := List.length_pos_iff.mpr hsrc
  have hd := List.length_pos_iff.mpr hdst
  unfold channelCreate at h
  simp only at h
  split at h
  · cases h
  · rename_i hboth
    have hshape : src.length = 1 ∧ dst.length = 1 ∨ src.length = 1 ∧ 2 ≤ dst.length ∨
        2 ≤ src.length ∧ dst.length = 1 := by omega
    split at h
    · rename_i hone
      cases hqp : Ump.queuepairInit (alloc 0) umpDefaultSlots with
      | error e =>
        rw [hqp] at h
        cases h
      | ok w =>
        rw [hqp] at h
        obtain ⟨rfl, -⟩ := Prod.mk.inj (Option.some.inj h)
        refine ⟨rfl, rfl, hshape, fun _ => ⟨rfl, ⟨w, rfl, Ump.holds_init hqp⟩, ?_⟩, ?_⟩
        · intro i hi
          exact Function.update_of_ne hi _ _
        · intro hne
          exact absurd hone hne
    · rename_i hmany
      obtain ⟨qp, rfl, -, hin⟩ := createPairs_spec (Option.some.inj h)
      refine ⟨rfl, rfl, hshape, fun hone => absurd hone hmany, fun _ => ⟨rfl, ?_, rfl, ?_⟩⟩
      · exact Option.some_ne_none _
      · intro i hi
        refine hin rfl i (List.mem_range.mpr ?_)
        split <;> omega

/-! ## 3. Answers -/

section Answers

variable {w : Ump.World} {d : Side}

/-- An empty queue pair takes a notification. -/
theorem notify_empty (h : Ump.Holds w fun _ => []) :
    ∃ w', Ump.backend.notify w d = some (w', success) := by
  rcases hcall : Ump.backend.call w d .notify with ⟨w', r⟩
  cases hput : Call.notify.put? r with
  | none =>
    obtain ⟨-, hne, -⟩ := Ump.backend_isFifo.refuse (d := d) (c := .notify) h (Nat.zero_le _) rfl
      (by rw [hcall]; exact hput)
    exact absurd rfl hne
  | some xs =>
    rcases r with (_ | _) | _ | _
    · exact ⟨w', by simp [Backend.notify, hcall, success]⟩
    all_goals simp [Call.put?] at hput

/-- A queue pair that takes a notification takes a message, of any size. -/
theorem send_of_notify {w' : Ump.World} (h : Ump.backend.notify w d = some (w', success))
    (msg : Msg) : ∃ w', Ump.backend.send w d msg = some (w', success) := by
  have hroom : (Ump.canSendRaw (w.qp d) (w.mem (w.qp d).tx.buf)).1 = true := by
    cases hcan : Ump.canSendRaw (w.qp d) (w.mem (w.qp d).tx.buf) with
    | mk b qp =>
      cases b with
      | true => rfl
      | false =>
        simp [Backend.notify, Ump.backend, Ump.World.call, Ump.exec, Ump.region, Call.transmits,
          Ump.queuepairNotify, hcan] at h
  cases hcan : Ump.canSendRaw (w.qp d) (w.mem (w.qp d).tx.buf) with
  | mk b qp =>
    rw [hcan] at hroom
    obtain rfl : b = true := hroom
    have hret : (Ump.backend.call w d (.trySend msg)).2 = .err success := by
      simp only [Ump.backend, Ump.World.call, Ump.exec, Ump.region, Call.transmits, if_true,
        Ump.queuepairTrySend, Ump.prepareSend, hcan]
    exact ⟨(Ump.backend.call w d (.trySend msg)).1,
      Backend.send_eq_some.mpr ⟨Prod.ext rfl hret, fun h => by cases h⟩⟩

variable {ch : Channel} {p : QpPlace}

/-- A call on an end that is there is answered as the queue pair answers it. -/
theorem onPair_eq {β : Type} {f : Ump.World → Side → Option (Ump.World × β)} {w' : Ump.World}
    {b : β} (hp : p.isShm = ch.useShm) (hw : ch.qp p.index = some w)
    (hf : f w p.side = some (w', b)) : ∃ ch', ch.onPair p f = some (ch', b) := by
  simp only [Channel.onPair, hp, if_true, hw, hf, Option.map_some]
  exact ⟨_, rfl⟩

theorem canAnswer_destroy {r : Errval} (h : ChanCall.CanAnswer (.destroy p) r) :
    r = queuepairDestroy := by
  obtain ⟨ch, ch', h⟩ := h
  simp only [Channel.handle, Channel.onPair] at h
  split at h
  · split at h
    · cases h
    · simp only [Option.map_some, Option.some.injEq, Prod.mk.injEq] at h
      exact h.2.symm
  · cases h

end Answers

/-! ## 4. Loops that stay inside -/

section Loops

variable {ch : Channel}

theorem keeps_eachPair {act : ℕ → (Errval → ChanProg Errval) → ChanProg Errval} {is : List ℕ}
    (hact : ∀ i ∈ is, ∀ k, (∀ e, ch.Keeps (k e)) → ch.Keeps (act i k)) :
    ch.Keeps (eachPair act is) := by
  induction is with
  | nil => trivial
  | cons i is ih =>
    exact hact i List.mem_cons_self _ fun e =>
      Prog.only_ite trivial (ih fun j hj => hact j (List.mem_cons_of_mem _ hj))

theorem keeps_allPairs {act : ℕ → (Bool → ChanProg Bool) → ChanProg Bool} {is : List ℕ}
    (hact : ∀ i ∈ is, ∀ k, (∀ b, ch.Keeps (k b)) → ch.Keeps (act i k)) (result : Bool) :
    ch.Keeps (allPairs act result is) := by
  induction is generalizing result with
  | nil => trivial
  | cons i is ih =>
    exact hact i List.mem_cons_self _ fun b => ih (fun j hj => hact j (List.mem_cons_of_mem _ hj)) _

theorem keeps_eachOwn {α : Type} {self : ℕ} {act : ℕ → ChanProg α → ChanProg α} {done : ChanProg α}
    {is : List ℕ} (hdst : ∀ i ∈ is, ch.Has (.loadDst i))
    (hact : ∀ i ∈ is, ∀ k, ch.Keeps k → ch.Keeps (act i k)) (hdone : ch.Keeps done) :
    ch.Keeps (eachOwn self act done is) := by
  induction is with
  | nil => exact hdone
  | cons i is ih =>
    have hrest := ih (fun j hj => hdst j (List.mem_cons_of_mem _ hj))
      fun j hj => hact j (List.mem_cons_of_mem _ hj)
    exact Prog.only_call (hdst i List.mem_cons_self) fun dst _ =>
      Prog.only_ite (hact i List.mem_cons_self _ hrest) hrest

/-- The waiting loop stays below `m`. -/
theorem keeps_recvAll {m : ℕ} (hplace : ∀ i, i < m → ch.Has (.recv0 (.shmRecvOwner i))) (fuel : ℕ)
    {err : Errval} {got : ℕ → Bool} {numRecv i : ℕ} (hi : i < m) :
    ch.Keeps (recvAll m fuel err got numRecv i) := by
  induction fuel generalizing err got numRecv i with
  | zero => trivial
  | succ fuel ih =>
    have hnext : (if i + 1 = m then 0 else i + 1) < m := by
      split <;> omega
    by_cases hmore : numRecv < m
    · by_cases hgot : got i = true
      · simp only [recvAll, hmore, hgot, if_true, Bool.not_true, Bool.false_eq_true, if_false]
        exact ih hnext
      · simp only [recvAll, hmore, hgot, if_true, Bool.not_false]
        refine Prog.only_call (hplace i hi) fun b _ => Prog.only_ite ?_ (ih hnext)
        exact Prog.only_call (hplace i hi) fun e _ => Prog.only_ite trivial (ih hnext)
    · simp only [recvAll, hmore, if_false]
      trivial

theorem keeps_recvOwn {self : ℕ} {words : UInt32} {is : List ℕ}
    (hdst : ∀ i ∈ is, ch.Has (.loadDst i)) (hreader : ∀ i ∈ is, ch.Has (.swmrRecv i words))
    (ws : Option (List Word)) : ch.Keeps (recvProg.recvOwn self words ws is) := by
  induction is generalizing ws with
  | nil => trivial
  | cons i is ih =>
    have hrest := ih (fun j hj => hdst j (List.mem_cons_of_mem _ hj))
      fun j hj => hreader j (List.mem_cons_of_mem _ hj)
    refine Prog.only_call (hdst i List.mem_cons_self) fun dst _ => Prog.only_ite ?_ (hrest _)
    exact Prog.only_call (hreader i List.mem_cons_self) fun r _ => hrest _

theorem keeps_recvEach {words : UInt32} {is : List ℕ}
    (hplace : ∀ i ∈ is, ch.Has (.recv (.shmRecvOwner i) words)) (err : Errval)
    (ws : Option (List Word)) : ch.Keeps (recvIndexProg.recvEach words err ws is) := by
  induction is generalizing err ws with
  | nil => trivial
  | cons i is ih =>
    exact Prog.only_call (hplace i List.mem_cons_self)
      fun r _ => ih (fun j hj => hplace j (List.mem_cons_of_mem _ hj)) _ _

end Loops

/-! ## 5. The shapes -/

section Shapes

variable {ch : Channel} {countSrc countDst self : ℕ} (h : Created ch countSrc countDst)

include h

theorem Created.numChan : ch.numChan = max countSrc countDst := by
  rw [Channel.numChan, h.m, h.n]
  split <;> omega

/-- Without shared memory there is the first pair, and no other. -/
theorem Created.has_mp (hone : countDst = 1) {p : QpPlace} (hp : p.isShm = false) :
    p.isShm = ch.useShm ∧ ch.qp p.index ≠ none ↔ p.index = 0 := by
  obtain ⟨hshm, ⟨w, hw, -⟩, hrest⟩ := h.single hone
  constructor
  · rintro ⟨-, hne⟩
    by_contra hidx
    exact hne (hrest _ hidx)
  · intro hidx
    rw [hp, hshm, hidx, hw]
    exact ⟨rfl, Option.some_ne_none w⟩

/-- With one destination the member `shm` is not there. -/
theorem Created.not_shm (hone : countDst = 1) {p : QpPlace} (hp : p.isShm = true) :
    ¬ (p.isShm = ch.useShm ∧ ch.qp p.index ≠ none) := by
  rintro ⟨hsel, -⟩
  rw [hp, (h.single hone).1] at hsel
  cases hsel

/-- With several destinations the member `mp` is not there. -/
theorem Created.not_mp (hmany : countDst ≠ 1) {p : QpPlace} (hp : p.isShm = false) :
    ¬ (p.isShm = ch.useShm ∧ ch.qp p.index ≠ none) := by
  rintro ⟨hsel, -⟩
  rw [hp, (h.several hmany).1] at hsel
  cases hsel

/-- With several destinations there is a pair for each. -/
theorem Created.has_shm (hmany : countDst ≠ 1) {p : QpPlace} (hp : p.isShm = true)
    (hidx : p.index < countDst) : p.isShm = ch.useShm ∧ ch.qp p.index ≠ none := by
  obtain ⟨hshm, -, -, hqp⟩ := h.several hmany
  exact ⟨hp.trans hshm.symm, hqp _ hidx⟩

/-- The first end of a channel with one destination is there. -/
theorem Created.has_first (hone : countDst = 1) :
    (ch.mpPlace self 0).isShm = ch.useShm ∧ ch.qp (ch.mpPlace self 0).index ≠ none :=
  (h.has_mp hone (mpPlace_isShm 0)).mpr (mpPlace_index 0)

/-- The second is not. -/
theorem Created.not_second (hone : countDst = 1) (self : ℕ) :
    ¬ ((ch.mpPlace self 1).isShm = ch.useShm ∧ ch.qp (ch.mpPlace self 1).index ≠ none) := by
  rw [h.has_mp hone (mpPlace_isShm 1), mpPlace_index]
  exact Nat.one_ne_zero

/-- A destination of a 1:n channel. -/
theorem Created.has_dst (hmany : countDst ≠ 1) {i : ℕ} (hi : i < countDst) :
    ch.Has (.loadDst i) := by
  obtain ⟨hshm, -, hlen, -⟩ := h.several hmany
  exact ⟨hshm, hlen ▸ hi⟩

/-- A reader of a 1:n channel. -/
theorem Created.has_reader (hmany : countDst ≠ 1) {i : ℕ} (hi : i < countDst) :
    ch.useShm = true ∧ ch.sendOwner ≠ none ∧ i < ch.numChan := by
  obtain ⟨hshm, hqueue, -, -⟩ := h.several hmany
  refine ⟨hshm, hqueue, ?_⟩
  rw [h.numChan]
  omega

end Shapes

/-! ## 6. The operations that stay inside -/

section Inside

variable {ch : Channel} {countDst self : ℕ} (h : Created ch 1 countDst)

include h

theorem Created.range_single (hone : countDst = 1) : List.range ch.numChan = [0] := by
  rw [h.numChan, hone]
  rfl

theorem Created.sending {pair : ℕ → (Errval → ChanProg Errval) → ChanProg Errval}
    {queue : ChanProg Errval} {own : ℕ → ChanProg Errval → ChanProg Errval}
    (hpair : countDst = 1 → ∀ k, (∀ e, ch.Keeps (k e)) → ch.Keeps (pair 0 k))
    (hqueue : countDst ≠ 1 → ch.Keeps queue)
    (hown : countDst ≠ 1 → ∀ i, i < countDst → ∀ k, ch.Keeps k → ch.Keeps (own i k)) :
    ch.Keeps (sendingProg self ch pair queue own) := by
  unfold sendingProg
  by_cases hone : countDst = 1
  · rw [(h.single hone).1, h.range_single hone]
    refine keeps_eachPair fun i hi => ?_
    rw [List.mem_singleton.mp hi]
    exact hpair hone
  · rw [(h.several hone).1, Bool.not_true, if_neg Bool.false_ne_true, h.m]
    refine Prog.only_ite (hqueue hone) (keeps_eachOwn ?_ ?_ trivial)
    · exact fun i hi => h.has_dst hone (List.mem_range.mp hi)
    · exact fun i hi => hown hone i (List.mem_range.mp hi)

theorem Created.send_inside (msg : Msg) : ch.Keeps (sendProg self ch msg) := by
  refine h.sending ?_ ?_ ?_
  · exact fun hone k hk => Prog.only_call (h.has_first hone) fun e _ => hk e
  · intro hmany
    obtain ⟨hshm, hqueue, -⟩ := h.several hmany
    exact Prog.only_call ⟨hshm, hqueue⟩ fun _ _ => trivial
  · exact fun hmany i hi k hk =>
      Prog.only_call (h.has_shm (p := .shmRecv i) hmany rfl hi) fun _ _ => hk

theorem Created.notify_inside : ch.Keeps (notifyProg self ch) := by
  refine h.sending ?_ ?_ ?_
  · exact fun hone k hk => Prog.only_call (h.has_first hone) fun e _ => hk e
  · intro hmany
    obtain ⟨hshm, hqueue, -⟩ := h.several hmany
    exact Prog.only_call ⟨hshm, hqueue⟩ fun _ _ => trivial
  · exact fun hmany i hi k hk =>
      Prog.only_call (h.has_shm (p := .shmRecv i) hmany rfl hi) fun _ _ => hk

theorem Created.canSend_inside (hone : countDst = 1) : ch.Keeps (canSendProg self ch) := by
  rw [canSendProg, h.range_single hone]
  refine keeps_allPairs (fun i hi k hk => ?_) true
  rw [List.mem_singleton.mp hi]
  exact Prog.only_call (h.has_first hone) fun b _ => hk b

theorem Created.canRecv_inside : ch.Keeps (canRecvProg self ch) := by
  rw [canRecvProg]
  by_cases hone : countDst = 1
  · rw [h.range_single hone]
    refine keeps_allPairs (fun i hi k hk => ?_) true
    rw [List.mem_singleton.mp hi]
    exact Prog.only_ite (Prog.only_call (h.has_first hone) fun b _ => hk b) trivial
  · refine keeps_allPairs (fun i hi k hk => ?_) true
    rw [(h.several hone).1]
    trivial

/-- The receiving functions take the queue pair when there is one, and otherwise look at who
calls. -/
theorem Created.receiving {α : Type} {pair owner other : ChanProg α}
    (hpair : countDst = 1 → ch.Keeps pair) (howner : countDst ≠ 1 → ch.Keeps owner)
    (hother : countDst ≠ 1 → ch.Keeps other) :
    ch.Keeps (if ch.n = ch.m then pair else if ch.owner = self then owner else other) := by
  rw [h.m, h.n]
  by_cases hone : countDst = 1
  · rw [if_pos hone.symm]
    exact hpair hone
  · rw [if_neg (Ne.symm hone)]
    exact Prog.only_ite (howner hone) (hother hone)

theorem Created.waiting (hmany : countDst ≠ 1) (fuel : ℕ) :
    ch.Keeps (recvAll ch.m fuel success (fun _ => false) 0 0) := by
  have hpos : 0 < countDst := by
    have := h.shape
    omega
  rw [h.m]
  exact keeps_recvAll (fun i hi => h.has_shm (p := .shmRecvOwner i) hmany rfl hi) fuel hpos

theorem Created.recv_inside (fuel : ℕ) (words : UInt32) :
    ch.Keeps (recvProg fuel self ch words) := by
  refine h.receiving ?_ ?_ ?_
  · exact fun hone => Prog.only_call (h.has_first hone) fun _ _ => trivial
  · exact fun hmany => Prog.only_bind (h.waiting hmany fuel) fun _ => trivial
  · intro hmany
    rw [h.m]
    exact keeps_recvOwn (fun i hi => h.has_dst hmany (List.mem_range.mp hi))
      (fun i hi => h.has_reader hmany (List.mem_range.mp hi)) none

theorem Created.recvIndex_inside (words : UInt32) {index : ℕ} (hindex : index < countDst) :
    ch.Keeps (recvIndexProg self ch words index) := by
  refine h.receiving ?_ ?_ ?_
  · exact fun hone => Prog.only_call (h.has_first hone) fun _ _ => trivial
  · intro hmany
    rw [h.m]
    exact keeps_recvEach (fun i hi => h.has_shm (p := .shmRecvOwner i) hmany rfl
      (List.mem_range.mp hi)) success none
  · exact fun hmany => Prog.only_call (h.has_reader hmany hindex) fun _ _ => trivial

theorem Created.recvNotification_inside (fuel : ℕ) :
    ch.Keeps (recvNotificationProg fuel self ch) := by
  refine h.receiving ?_ ?_ ?_
  · exact fun hone => Prog.only_call (h.has_first hone) fun _ _ => trivial
  · exact fun hmany => h.waiting hmany fuel
  · intro hmany
    rw [h.m]
    refine keeps_eachOwn (fun i hi => h.has_dst hmany (List.mem_range.mp hi)) ?_ trivial
    exact fun i hi k hk =>
      Prog.only_call (h.has_reader hmany (List.mem_range.mp hi)) fun _ _ => hk

end Inside

theorem range_eq_cons {n : ℕ} (hn : 1 ≤ n) : ∃ is, List.range n = 0 :: is := by
  obtain ⟨k, rfl⟩ := Nat.exists_eq_add_of_le' hn
  exact ⟨_, List.range_succ_eq_map⟩

theorem range_eq_cons_cons {n : ℕ} (hn : 2 ≤ n) : ∃ is, List.range n = 0 :: 1 :: is := by
  obtain ⟨k, rfl⟩ := Nat.exists_eq_add_of_le' hn
  refine ⟨(List.range k).map fun i => i + 1 + 1, ?_⟩
  rw [List.range_succ_eq_map, List.range_succ_eq_map, List.map_cons, List.map_map]
  rfl

/-- `smlt_channel_destroy` does not get past the first queue pair. -/
theorem Created.destroy_inside {ch : Channel} {countSrc countDst : ℕ}
    (h : Created ch countSrc countDst) (hone : countDst = 1) : ch.Keeps (destroyProg ch) := by
  obtain ⟨is, his⟩ := range_eq_cons (n := ch.numChan) (by rw [h.numChan]; omega)
  rw [destroyProg, his]
  refine Prog.only_call ((h.has_mp (p := .mpSend 0) hone rfl).mpr rfl) fun r hr => ?_
  rw [canAnswer_destroy hr]
  trivial

/-! ## 7. The operations that do not -/

section Outside

variable {ch : Channel} {countSrc self : ℕ} (h : Created ch countSrc 1) (htwo : 2 ≤ countSrc)

include h htwo

theorem Created.range_two : ∃ is, List.range ch.numChan = 0 :: 1 :: is :=
  range_eq_cons_cons (by rw [h.numChan]; omega)

/-- The loop of the sending functions goes on to the second queue pair. -/
theorem Created.sending_outside {pair : ℕ → (Errval → ChanProg Errval) → ChanProg Errval}
    {queue : ChanProg Errval} {own : ℕ → ChanProg Errval → ChanProg Errval}
    (hfirst : ∀ k, ch.Keeps (pair 0 k) → ch.Keeps (k success))
    (hsecond : ∀ k, ¬ ch.Keeps (pair 1 k)) :
    ¬ ch.Keeps (sendingProg self ch pair queue own) := by
  obtain ⟨is, his⟩ := h.range_two htwo
  rw [sendingProg, (h.single rfl).1, his]
  exact fun hk => hsecond _ (hfirst _ hk)

/-- So does the loop of the testing functions. -/
theorem Created.testing_outside {act : ℕ → (Bool → ChanProg Bool) → ChanProg Bool}
    (hfirst : ∀ k, ch.Keeps (act 0 k) → ∃ b, ch.Keeps (k b)) (hsecond : ∀ k, ¬ ch.Keeps (act 1 k)) :
    ¬ ch.Keeps (allPairs act true (List.range ch.numChan)) := by
  obtain ⟨is, his⟩ := h.range_two htwo
  rw [his]
  intro hk
  obtain ⟨b, hk⟩ := hfirst _ hk
  exact hsecond _ hk

/-- The receiving functions go to the queue of a 1:n channel. -/
theorem Created.receiving_outside {α : Type} {pair owner other : ChanProg α}
    (howner : ¬ ch.Keeps owner) (hother : ¬ ch.Keeps other) :
    ¬ ch.Keeps (if ch.n = ch.m then pair else if ch.owner = self then owner else other) := by
  have hne : ¬ ch.n = ch.m := by
    rw [h.m, h.n]
    omega
  rw [if_neg hne]
  split
  · exact howner
  · exact hother

omit htwo in
/-- The first queue pair of a new channel takes a message. -/
theorem Created.canAnswer_first (self : ℕ) (msg : Msg) :
    ChanCall.CanAnswer (.send (ch.mpPlace self 0) msg) success ∧
      ChanCall.CanAnswer (.notify (ch.mpPlace self 0)) success := by
  obtain ⟨hshm, ⟨w, hw, hempty⟩, -⟩ := h.single rfl
  have hp : (ch.mpPlace self 0).isShm = ch.useShm := (mpPlace_isShm 0).trans hshm.symm
  have hw : ch.qp (ch.mpPlace self 0).index = some w := by rw [mpPlace_index, hw]
  obtain ⟨w', hnotify⟩ := notify_empty (d := (ch.mpPlace self 0).side) hempty
  obtain ⟨w'', hsend⟩ := send_of_notify hnotify msg
  exact ⟨⟨ch, onPair_eq (f := fun w d => Ump.backend.send w d msg) hp hw hsend⟩,
    ⟨ch, onPair_eq (f := fun w d => Ump.backend.notify w d) hp hw hnotify⟩⟩

omit htwo in
theorem Created.canAnswer_tests (self : ℕ) :
    (∃ b, ChanCall.CanAnswer (.canSend (ch.mpPlace self 0)) b) ∧
      ∃ b, ChanCall.CanAnswer (.canRecv (ch.mpPlace self 0)) b := by
  obtain ⟨hshm, ⟨w, hw, -⟩, -⟩ := h.single rfl
  have hp : (ch.mpPlace self 0).isShm = ch.useShm := (mpPlace_isShm 0).trans hshm.symm
  have hw : ch.qp (ch.mpPlace self 0).index = some w := by rw [mpPlace_index, hw]
  constructor
  · exact ⟨_, ch, onPair_eq (f := fun w d =>
      some ({ w with qp := Function.update w.qp d _ },
        (Ump.queuepairCanSend (w.qp d) (w.mem (w.qp d).tx.buf)).1)) hp hw rfl⟩
  · exact ⟨_, ch, onPair_eq (f := fun w d => some (w, Ump.backend.canRecv w d)) hp hw rfl⟩

/-- **On an n:1 channel everything but destroying it leaves the channel.** -/
theorem Created.outside {op : ChanOp} (hop : op ≠ .destroy) : ¬ op.InBounds self ch := by
  have hdst : ¬ ch.Has (.loadDst 0) := by
    rintro ⟨hshm, -⟩
    rw [(h.single rfl).1] at hshm
    cases hshm
  have hreader : ∀ i, ¬ (ch.useShm = true ∧ ch.sendOwner ≠ none ∧ i < ch.numChan) := by
    rintro i ⟨hshm, -⟩
    rw [(h.single rfl).1] at hshm
    cases hshm
  have howner := h.not_shm (p := .shmRecvOwner 0) rfl rfl
  have hsecond := h.not_second rfl self
  cases op with
  | send msg =>
    refine h.sending_outside htwo (fun k hk => ?_) fun k hk => hsecond hk.1
    exact hk.2 success (h.canAnswer_first self msg).1
  | notify =>
    refine h.sending_outside htwo (fun k hk => ?_) fun k hk => hsecond hk.1
    exact hk.2 success (h.canAnswer_first self { words := 0, data := fun _ => 0 }).2
  | canSend =>
    refine h.testing_outside htwo (fun k hk => ?_) fun k hk => hsecond hk.1
    obtain ⟨⟨b, hb⟩, -⟩ := h.canAnswer_tests self
    exact ⟨b, hk.2 b hb⟩
  | canRecv =>
    rw [ChanOp.InBounds, canRecvProg, (h.single rfl).1]
    refine h.testing_outside htwo (fun k hk => ?_) fun k hk => hsecond hk.1
    obtain ⟨-, b, hb⟩ := h.canAnswer_tests self
    exact ⟨b, hk.2 b hb⟩
  | recv words =>
    intro hall
    refine h.receiving_outside htwo ?_ ?_ (hall 1)
    · rw [h.m]
      exact fun hk => howner hk.1
    · rw [h.m]
      exact fun hk => hdst hk.1
  | recvIndex words index =>
    refine h.receiving_outside htwo ?_ ?_
    · rw [h.m]
      exact fun hk => howner hk.1
    · exact fun hk => hreader index hk.1
  | recvNotification =>
    intro hall
    refine h.receiving_outside htwo ?_ ?_ (hall 1)
    · rw [h.m]
      exact fun hk => howner hk.1
    · rw [h.m]
      exact fun hk => hdst hk.1
  | destroy => exact absurd rfl hop

end Outside

/-- On a 1:n channel `smlt_channel_can_send` and `smlt_channel_destroy` take the wrong member. -/
theorem Created.wrong_member {ch : Channel} {countSrc countDst : ℕ}
    (h : Created ch countSrc countDst) (hmany : 2 ≤ countDst) (self : ℕ) :
    ¬ ChanOp.canSend.InBounds self ch ∧ ¬ ChanOp.destroy.InBounds self ch := by
  obtain ⟨is, his⟩ := range_eq_cons (n := ch.numChan) (by rw [h.numChan]; omega)
  rw [ChanOp.InBounds, ChanOp.InBounds, canSendProg, destroyProg, his]
  constructor
  · exact fun hk => h.not_mp (by omega) (mpPlace_isShm 0) hk.1
  · exact fun hk => h.not_mp (p := .mpSend 0) (by omega) rfl hk.1

/-! ## 8. The bounds -/

/-- `index` is below the number of receivers. -/
def ChanOp.IndexBelow (count : ℕ) : ChanOp → Prop
  | .recvIndex _ index => index < count
  | _ => True

/-- **Which operations stay inside the channel**: `smlt_channel_can_send` on 1:1 channels,
`smlt_channel_destroy` on those with one destination, and all others on those with one source,
whoever calls them and whatever the counts. -/
theorem in_bounds_iff {alloc : ℕ → Side → Option ℕ} {src dst : List ℕ} {ch : Channel}
    (hsrc : src ≠ []) (hdst : dst ≠ []) (hcreate : channelCreate alloc src dst = some (ch, success))
    {op : ChanOp} (hindex : op.IndexBelow dst.length) (self : ℕ) :
    op.InBounds self ch ↔ op.Supports src.length dst.length := by
  have h := channelCreate_created hsrc hdst hcreate
  generalize src.length = countSrc at h ⊢
  generalize hcount : dst.length = countDst at h hindex ⊢
  rcases h.shape with ⟨rfl, rfl⟩ | ⟨rfl, hmany⟩ | ⟨hmany, rfl⟩
  · refine iff_of_true ?_ (by cases op <;> simp [ChanOp.Supports])
    cases op with
    | send msg => exact h.send_inside msg
    | notify => exact h.notify_inside
    | canSend => exact h.canSend_inside rfl
    | recv words => exact fun fuel => h.recv_inside fuel words
    | recvIndex words index => exact h.recvIndex_inside words hindex
    | canRecv => exact h.canRecv_inside
    | recvNotification => exact h.recvNotification_inside
    | destroy => exact h.destroy_inside rfl
  · have hne : countDst ≠ 1 := by omega
    obtain ⟨hcan, hdestroy⟩ := h.wrong_member hmany self
    cases op with
    | send msg => exact iff_of_true (h.send_inside msg) rfl
    | notify => exact iff_of_true h.notify_inside rfl
    | canSend => exact iff_of_false hcan fun hs => hne hs.2
    | recv words => exact iff_of_true (fun fuel => h.recv_inside fuel words) rfl
    | recvIndex words index => exact iff_of_true (h.recvIndex_inside words hindex) rfl
    | canRecv => exact iff_of_true h.canRecv_inside rfl
    | recvNotification => exact iff_of_true h.recvNotification_inside rfl
    | destroy => exact iff_of_false hdestroy hne
  · have hne : countSrc ≠ 1 := by omega
    cases op with
    | canSend => exact iff_of_false (h.outside hmany nofun) fun hs => hne hs.1
    | destroy => exact iff_of_true (h.destroy_inside rfl) rfl
    | send msg => exact iff_of_false (h.outside hmany nofun) hne
    | notify => exact iff_of_false (h.outside hmany nofun) hne
    | recv words => exact iff_of_false (h.outside hmany nofun) hne
    | recvIndex words index => exact iff_of_false (h.outside hmany nofun) hne
    | canRecv => exact iff_of_false (h.outside hmany nofun) hne
    | recvNotification => exact iff_of_false (h.outside hmany nofun) hne

/-- Receiving at index 1 of a channel from node 0 to the nodes 1 and 2. -/
theorem in_bounds_iff_receive :
    ∃ ch, channelCreate (fun _ _ => some 0) [0] [1, 2] = some (ch, success) ∧
      (ChanOp.recvIndex 7 1).InBounds 2 ch := by
  obtain ⟨ch, hch⟩ : ∃ ch, channelCreate (fun _ _ => some 0) [0] [1, 2] = some (ch, success) :=
    ⟨_, rfl⟩
  have hindex : (ChanOp.recvIndex 7 1).IndexBelow 2 := Nat.one_lt_two
  exact ⟨ch, hch, (in_bounds_iff (by decide) (by decide) hch hindex 2).mpr rfl⟩

/-- **Operations that leave the channel.**  On the channel from node 0 to the nodes 1 and 2, asking
whether one can send reads the queue pair of the other member of the union; on the channel from the
nodes 0 and 1 to node 2, sending goes on to a second queue pair. -/
theorem leaves_channel :
    (∃ ch, channelCreate (fun _ _ => some 0) [0] [1, 2] = some (ch, success) ∧
      ¬ ChanOp.canSend.InBounds 0 ch) ∧
    ∃ ch, channelCreate (fun _ _ => some 0) [0, 1] [2] = some (ch, success) ∧
      ¬ (ChanOp.send { words := 1, data := fun _ => 7 }).InBounds 0 ch := by
  constructor
  · obtain ⟨ch, hch⟩ : ∃ ch, channelCreate (fun _ _ => some 0) [0] [1, 2] = some (ch, success) :=
      ⟨_, rfl⟩
    have h := channelCreate_created (by decide) (by decide) hch
    exact ⟨ch, hch, (h.wrong_member (by decide) 0).1⟩
  · obtain ⟨ch, hch⟩ : ∃ ch, channelCreate (fun _ _ => some 0) [0, 1] [2] = some (ch, success) :=
      ⟨_, rfl⟩
    have h := channelCreate_created (by decide) (by decide) hch
    exact ⟨ch, hch, h.outside (by decide) nofun⟩

end Smelt
