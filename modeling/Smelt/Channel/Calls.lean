/-
# The operations of a channel

`inc/smlt_channel.h` and `smlt_channel_destroy`, as programs over the calls they make (`ChanCall`).
A channel holds a UNION: `c.mp` has the ends of one queue pair, `c.shm` the queue of a 1:n channel
with one queue pair for each destination, and nothing but `use_shm` says which of them was written.
A call therefore names the place it goes to as the source does, by member and index, and the
operations decide on that place in three ways: by `use_shm`, by comparing `m` with `n`, or not at
all.

`Channel.handle` answers the calls on a channel.  A call to a place that is not there has no answer.
`fuel` bounds the turns of the loop in which the owner of a 1:n channel waits for all of its
destinations.
-/
import Smelt.Channel
import Smelt.Lib.Prog

namespace Smelt

/-! ## 1. Calls -/

/-- The places of queue-pair ends: `&c.mp.send[i]`, `&c.mp.recv[i]`, `c.shm.recv[i]` and
`c.shm.recv_owner[i]`. -/
inductive QpPlace
  | mpSend (i : ℕ)
  | mpRecv (i : ℕ)
  | shmRecv (i : ℕ)
  | shmRecvOwner (i : ℕ)

/-- The member of the union. -/
def QpPlace.isShm : QpPlace → Bool
  | .mpSend _ => false
  | .mpRecv _ => false
  | .shmRecv _ => true
  | .shmRecvOwner _ => true

/-- The index in the array. -/
def QpPlace.index : QpPlace → ℕ
  | .mpSend i => i
  | .mpRecv i => i
  | .shmRecv i => i
  | .shmRecvOwner i => i

/-- The end of the queue pair that `smlt_channel_create` puts there. -/
def QpPlace.side : QpPlace → Side
  | .mpSend _ => .src
  | .mpRecv _ => .dst
  | .shmRecv _ => .src
  | .shmRecvOwner _ => .dst

/-- What a channel operation calls: the queue-pair interface, `smlt_platform_free` on the array an
end is in, a load of `c.shm.dst[i]`, and the functions of the queue `c.shm.send_owner` and of its
reader `c.shm.send_owner.dst[i]`. -/
inductive ChanCall
  | send (p : QpPlace) (msg : Msg)
  | notify (p : QpPlace)
  | canSend (p : QpPlace)
  | recv (p : QpPlace) (words : UInt32)
  | recv0 (p : QpPlace)
  | canRecv (p : QpPlace)
  | destroy (p : QpPlace)
  | free (p : QpPlace)
  | loadDst (i : ℕ)
  | swmrSend (msg : Msg)
  | swmrSend0
  | swmrRecv (i : ℕ) (words : UInt32)
  | swmrRecv0 (i : ℕ)

/-- What comes back; a receive may leave words in the message. -/
abbrev ChanCall.Resp : ChanCall → Type
  | .send _ _ => Errval
  | .notify _ => Errval
  | .canSend _ => Bool
  | .recv _ _ => Errval × Option (List Word)
  | .recv0 _ => Errval
  | .canRecv _ => Bool
  | .destroy _ => Errval
  | .free _ => Unit
  | .loadDst _ => ℕ
  | .swmrSend _ => Errval
  | .swmrSend0 => Errval
  | .swmrRecv _ _ => Errval × Option (List Word)
  | .swmrRecv0 _ => Errval

/-- A program over the calls of a channel. -/
abbrev ChanProg (α : Type) := Prog ChanCall ChanCall.Resp α

/-- `num_chan` of the operations. -/
def Channel.numChan (ch : Channel) : ℕ := if ch.m > ch.n then ch.m else ch.n

/-- The end of the `i`-th pair that a caller uses without shared memory. -/
def Channel.mpPlace (ch : Channel) (self i : ℕ) : QpPlace :=
  if ch.owner = self then .mpSend i else .mpRecv i

section Place

variable {ch : Channel} {self : ℕ}

@[simp] theorem mpPlace_isShm (i : ℕ) : (ch.mpPlace self i).isShm = false := by
  unfold Channel.mpPlace
  split <;> rfl

@[simp] theorem mpPlace_index (i : ℕ) : (ch.mpPlace self i).index = i := by
  unfold Channel.mpPlace
  split <;> rfl

@[simp] theorem mpPlace_side (i : ℕ) :
    (ch.mpPlace self i).side = if ch.owner = self then .src else .dst := by
  unfold Channel.mpPlace
  split <;> rfl

end Place

/-! ## 2. Sending -/

/-- The loop of `smlt_channel_send` and `smlt_channel_notify` without shared memory; `act` makes the
call on the `i`-th end. -/
def eachPair (act : ℕ → (Errval → ChanProg Errval) → ChanProg Errval) : List ℕ → ChanProg Errval
  | [] => .ret success
  | i :: is => act i fun err =>
      if errIsFail err then .ret (errPush err .send) else eachPair act is

/-- The loop over the destinations of a 1:n channel by a caller that does not own it: `act` is done
at the places that are the caller's. -/
def eachOwn {α : Type} (self : ℕ) (act : ℕ → ChanProg α → ChanProg α) (done : ChanProg α) :
    List ℕ → ChanProg α
  | [] => done
  | i :: is => .call (.loadDst i) fun (dst : ℕ) =>
      if dst = self then act i (eachOwn self act done is) else eachOwn self act done is

/-- The body of `smlt_channel_send` and `smlt_channel_notify`: on the pairs without shared memory,
on the queue by the owner of a 1:n channel, and on the caller's own pair by the others. -/
def sendingProg (self : ℕ) (ch : Channel)
    (pair : ℕ → (Errval → ChanProg Errval) → ChanProg Errval) (queue : ChanProg Errval)
    (own : ℕ → ChanProg Errval → ChanProg Errval) : ChanProg Errval :=
  if !ch.useShm then eachPair pair (List.range ch.numChan)
  else if ch.owner = self then queue
  else eachOwn self own (.ret success) (List.range ch.m)

/-- `smlt_channel_send`. -/
def sendProg (self : ℕ) (ch : Channel) (msg : Msg) : ChanProg Errval :=
  sendingProg self ch (fun i k => .call (.send (ch.mpPlace self i) msg) k)
    (.call (.swmrSend msg) fun _ => .ret success)
    fun i k => .call (.send (.shmRecv i) msg) fun _ => k

/-- `smlt_channel_notify`. -/
def notifyProg (self : ℕ) (ch : Channel) : ChanProg Errval :=
  sendingProg self ch (fun i k => .call (.notify (ch.mpPlace self i)) k)
    (.call .swmrSend0 fun _ => .ret success)
    fun i k => .call (.notify (.shmRecv i)) fun _ => k

/-- The loop of `smlt_channel_can_send` and `smlt_channel_can_recv`: it does not stop at the first
end that cannot. -/
def allPairs (act : ℕ → (Bool → ChanProg Bool) → ChanProg Bool) (result : Bool) :
    List ℕ → ChanProg Bool
  | [] => .ret result
  | i :: is => act i fun b => allPairs act (if !b then false else result) is

/-- `smlt_channel_can_send`: `use_shm` is not looked at. -/
def canSendProg (self : ℕ) (ch : Channel) : ChanProg Bool :=
  allPairs (fun i k => .call (.canSend (ch.mpPlace self i)) k) true (List.range ch.numChan)

/-! ## 3. Receiving -/

/-- The loop in which the owner of a 1:n channel waits for a notification from each destination, in
`smlt_channel_recv` and `smlt_channel_recv_notification`.  `got` is the array `recv`. -/
def recvAll (m : ℕ) : ℕ → Errval → (ℕ → Bool) → ℕ → ℕ → ChanProg Errval
  | 0, _, _, _, _ => .spin
  | fuel + 1, err, got, numRecv, i =>
    if numRecv < m then
      let next := if i + 1 = m then 0 else i + 1
      if !got i then
        .call (.canRecv (.shmRecvOwner i)) fun (b : Bool) =>
          if b then
            .call (.recv0 (.shmRecvOwner i)) fun err =>
              if errIsFail err then .ret err
              else recvAll m fuel err (Function.update got i true) (numRecv + 1) next
          else recvAll m fuel err got numRecv next
      else recvAll m fuel err got numRecv next
    else .ret err

/-- `smlt_channel_recv` into a message of `words` words: the error value, and the words
it stores. -/
def recvProg (fuel self : ℕ) (ch : Channel) (words : UInt32) :
    ChanProg (Errval × Option (List Word)) :=
  if ch.n = ch.m then .call (.recv (ch.mpPlace self 0) words) .ret
  else if ch.owner = self then
    (recvAll ch.m fuel success (fun _ => false) 0 0).bind fun err => .ret (err, none)
  else recvOwn self words none (List.range ch.m)
where
  /-- The loop of a caller that does not own the channel; `ws` is in the message so far. -/
  recvOwn (self : ℕ) (words : UInt32) (ws : Option (List Word)) :
      List ℕ → ChanProg (Errval × Option (List Word))
    | [] => .ret (success, ws)
    | i :: is => .call (.loadDst i) fun (dst : ℕ) =>
        if dst = self then .call (.swmrRecv i words) fun r => recvOwn self words (r.2.or ws) is
        else recvOwn self words ws is

/-- `smlt_channel_recv_index`: `index` takes the place of the search through `dst`. -/
def recvIndexProg (self : ℕ) (ch : Channel) (words : UInt32) (index : ℕ) :
    ChanProg (Errval × Option (List Word)) :=
  if ch.n = ch.m then .call (.recv (ch.mpPlace self 0) words) .ret
  else if ch.owner = self then recvEach words success none (List.range ch.m)
  else .call (.swmrRecv index words) fun r => .ret (success, r.2)
where
  /-- The loop of the owner: the last error stays, and the last message that came. -/
  recvEach (words : UInt32) (err : Errval) (ws : Option (List Word)) :
      List ℕ → ChanProg (Errval × Option (List Word))
    | [] => .ret (err, ws)
    | i :: is => .call (.recv (.shmRecvOwner i) words) fun r => recvEach words r.1 (r.2.or ws) is

/-- `smlt_channel_can_recv`: on a 1:n channel it is `true` at the first turn. -/
def canRecvProg (self : ℕ) (ch : Channel) : ChanProg Bool :=
  allPairs (fun i k =>
    if !ch.useShm then .call (.canRecv (ch.mpPlace self i)) k else .ret true) true
    (List.range ch.numChan)

/-- `smlt_channel_recv_notification`. -/
def recvNotificationProg (fuel self : ℕ) (ch : Channel) : ChanProg Errval :=
  if ch.n = ch.m then .call (.recv0 (ch.mpPlace self 0)) .ret
  else if ch.owner = self then recvAll ch.m fuel success (fun _ => false) 0 0
  else
    eachOwn self (fun i k => .call (.swmrRecv0 i) fun _ => k) (.ret success) (List.range ch.m)

/-! ## 4. Destruction -/

/-- `smlt_queuepair_destroy` on a UMP queue pair, which cannot be destroyed. -/
def queuepairDestroy : Errval := [.destroyUmp]

/-- `smlt_channel_destroy`. -/
def destroyProg (ch : Channel) : ChanProg Errval :=
  each (List.range ch.numChan)
where
  /-- Its loop. -/
  each : List ℕ → ChanProg Errval
    | [] => .ret success
    | i :: is => .call (.destroy (.mpSend i)) fun err =>
        if errIsFail err then .ret (errPush err .chanDestroy)
        else .call (.free (.mpSend 0)) fun _ => .call (.free (.mpRecv 0)) fun _ => each is

/-! ## 5. The answers -/

/-- A call on a queue-pair end of the channel. -/
def Channel.onPair {β : Type} (ch : Channel) (p : QpPlace)
    (f : Ump.World → Side → Option (Ump.World × β)) : Option (Channel × β) :=
  if p.isShm = ch.useShm then
    match ch.qp p.index with
    | none => none
    | some w => (f w p.side).map fun r =>
        ({ ch with qp := Function.update ch.qp p.index (some r.1) }, r.2)
  else none

/-- A call on the queue of a 1:n channel. -/
def Channel.onQueue {β : Type} (ch : Channel) (f : Swmr.World → Option (Swmr.World × β)) :
    Option (Channel × β) :=
  if ch.useShm then
    match ch.sendOwner with
    | none => none
    | some w => (f w).map fun r => ({ ch with sendOwner := some r.1 }, r.2)
  else none

/-- The calls on a channel: one turn of each of their waiting loops. -/
def Channel.handle : (q : ChanCall) → Channel → Option (Channel × q.Resp)
  | .send p msg, ch => ch.onPair p fun w d => Ump.backend.send w d msg
  | .notify p, ch => ch.onPair p fun w d => Ump.backend.notify w d
  | .canSend p, ch => ch.onPair p fun w d =>
      let r := Ump.queuepairCanSend (w.qp d) (w.mem (w.qp d).tx.buf)
      some ({ w with qp := Function.update w.qp d r.2 }, r.1)
  | .recv p words, ch => ch.onPair p fun w d => Ump.backend.recv w d words
  | .recv0 p, ch => ch.onPair p fun w d => Ump.backend.recv0 w d
  | .canRecv p, ch => ch.onPair p fun w d => some (w, Ump.backend.canRecv w d)
  | .destroy p, ch => ch.onPair p fun w _ => some (w, queuepairDestroy)
  | .free p, ch => (ch.onPair p fun w _ => some (w, ())).map fun r =>
      ({ r.1 with qp := fun _ => none }, ())
  | .loadDst i, ch => if ch.useShm then ch.dst[i]?.map fun dst => (ch, dst) else none
  | .swmrSend msg, ch => ch.onQueue fun w => w.send msg
  | .swmrSend0, ch => ch.onQueue fun w => (w.sendRaw none).map fun w => (w, success)
  | .swmrRecv i words, ch => ch.onQueue fun w =>
      if i < ch.numChan then
        if words ≤ 7 then
          (Swmr.receiveNonBlocking (w.dst i) w.shm true).map fun r =>
            ({ w with dst := Function.update w.dst i r.1, shm := r.2.1 }, success, r.2.2)
        else some (w, success, none)
      else none
  | .swmrRecv0 i, ch => ch.onQueue fun w =>
      if i < ch.numChan then (w.recvRaw i false).map fun w => (w, success) else none

/-- `smlt_channel_notify` by the node `self`. -/
def channelNotify (self : ℕ) (ch : Channel) : Option (Channel × Errval) :=
  (notifyProg self ch).run Channel.handle ch

/-- `smlt_channel_recv` by the node `self`. -/
def channelRecv (fuel self : ℕ) (ch : Channel) (words : UInt32) :
    Option (Channel × Errval × Option (List Word)) :=
  (recvProg fuel self ch words).run Channel.handle ch

/-! ## 6. The programs on a channel -/

/-- A call that was answered went to an end that is there. -/
theorem onPair_some {β : Type} {ch ch' : Channel} {p : QpPlace}
    {f : Ump.World → Side → Option (Ump.World × β)} {b : β}
    (h : ch.onPair p f = some (ch', b)) : ∃ w w', ch.qp p.index = some w ∧
      f w p.side = some (w', b) ∧
      ch' = { ch with qp := Function.update ch.qp p.index (some w') } := by
  unfold Channel.onPair at h
  split at h
  · split at h
    · cases h
    · rename_i w hw
      obtain ⟨⟨w', b'⟩, hf, heq⟩ := Option.map_eq_some_iff.mp h
      obtain ⟨rfl, rfl⟩ := Prod.mk.inj heq
      exact ⟨w, w', hw, hf, rfl⟩
  · cases h

theorem handle_send {ch : Channel} {p : QpPlace} (hp : p.isShm = ch.useShm) (msg : Msg) :
    Channel.handle (.send p msg) ch = ch.qpSend p.index p.side msg := by
  simp only [Channel.handle, Channel.onPair, hp, if_true, Channel.qpSend]
  rfl

theorem mpSend_eq_run {self : ℕ} {ch₀ : Channel} {msg : Msg} (hshm : ch₀.useShm = false)
    (is : List ℕ) {ch : Channel} (howner : ch.owner = ch₀.owner) (huse : ch.useShm = ch₀.useShm) :
    ch.mpSend self msg is =
      (eachPair (fun i k => .call (.send (ch₀.mpPlace self i) msg) k) is).run
        Channel.handle ch := by
  induction is generalizing ch with
  | nil => rfl
  | cons i is ih =>
    have hplace : Channel.handle (.send (ch₀.mpPlace self i) msg) ch =
        ch.qpSend i (if ch.owner = self then .src else .dst) msg := by
      rw [handle_send ((mpPlace_isShm i).trans (huse.trans hshm).symm) msg, mpPlace_index,
        mpPlace_side, howner]
    rw [Channel.mpSend, eachPair]
    cases hsend : ch.qpSend i (if ch.owner = self then .src else .dst) msg with
    | none => rw [Prog.run_call_none (hplace.trans hsend)]
    | some r =>
      obtain ⟨ch', err⟩ := r
      rw [Prog.run_call (hplace.trans hsend)]
      obtain ⟨w, w', -, -, rfl⟩ := qpSend_spec hsend
      by_cases herr : errIsFail err = true
      · simp only [herr, if_true]
        rfl
      · simp only [herr]
        exact @ih { ch with qp := Function.update ch.qp i (some w') } howner huse

theorem shmSend_eq_run {self : ℕ} {msg : Msg} (is : List ℕ) {ch : Channel}
    (hshm : ch.useShm = true) (his : ∀ i ∈ is, i < ch.dst.length) :
    (ch.shmSend self msg is).map (fun ch => (ch, success)) =
      (eachOwn self (fun i k => .call (.send (.shmRecv i) msg) fun _ => k) (.ret success) is).run
        Channel.handle ch := by
  induction is generalizing ch with
  | nil => rfl
  | cons i is ih =>
    have hlt := his i List.mem_cons_self
    have hi := List.getElem?_eq_getElem hlt
    have hrest : ∀ j ∈ is, j < ch.dst.length := fun j hj => his j (List.mem_cons_of_mem _ hj)
    have hload : Channel.handle (.loadDst i) ch = some (ch, ch.dst[i]) := by
      simp only [Channel.handle, hshm, if_true, hi, Option.map_some]
    rw [eachOwn, Prog.run_call hload, Channel.shmSend, hi]
    by_cases hself : ch.dst[i] = self
    · rw [if_pos (congrArg some hself), if_pos hself]
      have hplace := handle_send (p := .shmRecv i) hshm.symm msg
      cases hsend : ch.qpSend i .src msg with
      | none =>
        rw [Prog.run_call_none (hplace.trans hsend)]
        rfl
      | some r =>
        obtain ⟨ch', err⟩ := r
        rw [Prog.run_call (hplace.trans hsend)]
        obtain ⟨w, w', -, -, rfl⟩ := qpSend_spec hsend
        exact @ih { ch with qp := Function.update ch.qp i (some w') } hshm hrest
    · rw [if_neg fun he => hself (Option.some.inj he), if_neg hself]
      exact ih hshm hrest

/-- **The program is the function**: `channelSend` is `smlt_channel_send` on the handler. -/
theorem channelSend_eq_run {self : ℕ} {ch : Channel} {msg : Msg}
    (hdst : ch.useShm = true → ch.m = ch.dst.length) :
    channelSend self ch msg = (sendProg self ch msg).run Channel.handle ch := by
  cases hshm : ch.useShm with
  | false =>
    simp only [channelSend, sendProg, sendingProg, hshm, Bool.not_false, if_true]
    exact mpSend_eq_run hshm _ rfl rfl
  | true =>
    simp only [channelSend, sendProg, sendingProg, hshm, Bool.not_true, Bool.false_eq_true,
      if_false]
    by_cases howner : ch.owner = self
    · simp only [howner, if_true, Prog.run, Channel.handle, Channel.onQueue, hshm]
      cases ch.sendOwner with
      | none => rfl
      | some w =>
        show (w.send msg).map _ = (Option.map _ (w.send msg)).bind _
        cases w.send msg <;> rfl
    · simp only [howner, if_false]
      exact shmSend_eq_run _ hshm fun i hi => hdst hshm ▸ List.mem_range.mp hi

end Smelt
