/-
# Who owns a slot while it is being read

`Refine.lean` takes each call as one step.  Here `smlt_ump_queuepair_try_send` and
`smlt_ump_queuepair_try_recv` are taken apart into their accesses to shared memory, and the two
ends interleave access by access:

* the sender checks for room, stores the payload words one at a time, and publishes the message
  by storing its control word;
* the receiver observes the control word, writes the acknowledgement and moves on
  (`smlt_ump_queue_recv_raw`), and only THEN copies the payload words out, one at a time
  (`smlt_ump_queuepair_try_recv`).

So at the two places of a lap where the receiver acknowledges, the acknowledgement covers a
message that has not been copied yet.  A sender that reads it there may be sent back to the
slot still being read.  `window_overwrites` is such a run on a ring of one message: the receive
observes one message and returns the words of the next.

The comment on `smlt_ump_queuepair_recv_raw` puts the acknowledgement after the copy.
`window_safe` says how much of that survives: in every run in which the sender does not refresh
its copy of the acknowledgement inside such a window, reader and writer never share a slot and
every receive returns the message it observed.
-/
import Smelt.Ump.Refine

namespace Smelt.Ump

open Ring

/-! ## 1. The two calls, access by access -/

/-- Where `smlt_ump_queuepair_try_send` stands. -/
inductive SendPc
  | idle
  /-- room was found; `data[0 .. i-1]` of the slot are stored -/
  | store (msg : Msg) (slot i : Nat)

/-- Where `smlt_ump_queuepair_try_recv` stands. -/
inductive RecvPc
  | idle
  /-- the control word was read and has the receiver's epoch -/
  | observed (words : UInt32) (ctrl : Ctrl)
  /-- acknowledged and moved on; `got` is what has been copied from the slot -/
  | copy (words : UInt32) (ctrl : Ctrl) (slot : Nat) (got : List Word)

/-- One direction with both its calls in progress. -/
structure Micro where
  snd : Queuepair
  rcv : Queuepair
  shm : Shm
  spc : SendPc
  rpc : RecvPc

/-- The next access of one of the two ends. -/
inductive Act
  | check (msg : Msg)
  | store
  | publish
  | observe (words : UInt32)
  | ack
  | load
  | finish

/-- What a step did: a publication with the control word and the payload it put in, the end of a
receive with the control word it had OBSERVED and the words it returns. -/
inductive MEvent
  | check (msg : Msg) (room : Bool)
  | store
  | publish (ctrl : Ctrl) (xs : List Word)
  | observe (found : Bool)
  | ack
  | load
  | finish (ctrl : Ctrl) (ys : List Word)

/-- One access.  `none`: the end that would make it is somewhere else. -/
def Micro.act (s : Micro) : Act → Option (Micro × MEvent)
  | .check msg =>
    match s.spc with
    | .idle =>
      match canSendRaw s.snd s.shm with
      | (false, snd) => some ({ s with snd := snd }, .check msg false)
      | (true, snd) =>
        some ({ s with snd := snd, spc := .store msg (queueGetNext snd.tx) 0 }, .check msg true)
    | _ => none
  | .store =>
    match s.spc with
    | .store msg slot i =>
      if i < msg.words.toNat then
        some ({ s with
          shm := s.shm.storeData slot i (msg.data i)
          spc := .store msg slot (i + 1) }, .store)
      else none
    | _ => none
  | .publish =>
    match s.spc with
    | .store msg slot i =>
      if i < msg.words.toNat then none
      else
        some ({ s with
          snd := (sendRaw s.snd s.shm slot).1
          shm := (sendRaw s.snd s.shm slot).2
          spc := .idle },
          .publish { epoch := epochWord s.snd.tx.epoch, lastAck := s.snd.seqId } msg.payload)
    | _ => none
  | .observe words =>
    match s.rpc with
    | .idle =>
      if (s.shm.buf s.rcv.rx.pos.toNat).ctrl.epoch = epochWord s.rcv.rx.epoch then
        some ({ s with rpc := .observed words (s.shm.buf s.rcv.rx.pos.toNat).ctrl },
          .observe true)
      else some (s, .observe false)
    | _ => none
  | .ack =>
    match s.rpc with
    | .observed words ctrl =>
      some ({ s with
        rcv := { s.rcv with rx := s.rcv.rx.advance }
        shm := ackStore s.rcv.rx s.shm ctrl
        rpc := .copy words ctrl s.rcv.rx.pos.toNat [] }, .ack)
    | _ => none
  | .load =>
    match s.rpc with
    | .copy words ctrl slot got =>
      if got.length < words.toNat then
        some ({ s with rpc := .copy words ctrl slot (got ++ [s.shm.loadData slot got.length]) },
          .load)
      else none
    | _ => none
  | .finish =>
    match s.rpc with
    | .copy words ctrl _ got =>
      if got.length < words.toNat then none else some ({ s with rpc := .idle }, .finish ctrl got)
    | _ => none

/-- The interleaved accesses of the two ends. -/
def MStep (s : Micro) (e : MEvent) (s' : Micro) : Prop := ∃ a, s.act a = some (s', e)

/-- A direction of a new queue pair, both ends outside their calls. -/
def Micro.init (w : World) (d : Side) : Micro :=
  { snd := w.qp d, rcv := w.qp d.other, shm := w.mem d, spc := .idle, rpc := .idle }

/-- The first `k` stores of the payload loop, one by one. -/
theorem run_store (s : Micro) (msg : Msg) (slot k : ℕ) (hk : k ≤ msg.words.toNat) :
    Run MStep { s with spc := .store msg slot 0 } (List.replicate k .store)
      { s with
        shm := (List.range k).foldl (fun shm i => shm.storeData slot i (msg.data i)) s.shm
        spc := .store msg slot k } := by
  induction k with
  | zero => exact .nil
  | succ k ih =>
    rw [List.replicate_succ']
    refine .snoc (ih (by omega)) ⟨.store, ?_⟩
    have hlt : k < msg.words.toNat := by omega
    simp [Micro.act, hlt, List.range_succ]

/-- **Uninterrupted, the sender's accesses are `smlt_ump_queuepair_try_send`.** -/
theorem run_trySend {s : Micro} (hidle : s.spc = .idle) (msg : Msg)
    (hroom : (canSendRaw s.snd s.shm).1 = true) :
    ∃ tr ctrl, Run MStep s (tr ++ [.publish ctrl msg.payload])
      { s with
        snd := (queuepairTrySend s.snd s.shm msg).1
        shm := (queuepairTrySend s.snd s.shm msg).2.1 } := by
  rcases hcs : canSendRaw s.snd s.shm with ⟨b, snd⟩
  obtain rfl : b = true := by rw [hcs] at hroom; exact hroom
  have hcheck : MStep s (.check msg true)
      { s with snd := snd, spc := .store msg (queueGetNext snd.tx) 0 } :=
    ⟨.check msg, by simp [Micro.act, hidle, hcs]⟩
  have hstores := run_store { s with snd := snd } msg (queueGetNext snd.tx) msg.words.toNat
    (Nat.le_refl _)
  refine ⟨_, { epoch := epochWord snd.tx.epoch, lastAck := snd.seqId },
    (Run.append (.snoc .nil hcheck) hstores).snoc ⟨.publish, ?_⟩⟩
  simp only [Micro.act, Nat.lt_irrefl, if_false, queuepairTrySend, prepareSend, hcs, storePayload,
    hidle]

/-- The first `k` loads of the copying loop, one by one. -/
theorem run_load (s : Micro) (words : UInt32) (ctrl : Ctrl) (slot k : ℕ) (hk : k ≤ words.toNat) :
    Run MStep { s with rpc := .copy words ctrl slot [] } (List.replicate k .load)
      { s with rpc := .copy words ctrl slot ((List.range k).map (s.shm.loadData slot)) } := by
  induction k with
  | zero => exact .nil
  | succ k ih =>
    rw [List.replicate_succ']
    refine .snoc (ih (by omega)) ⟨.load, ?_⟩
    have hlt : k < words.toNat := by omega
    simp [Micro.act, hlt, List.range_succ]

/-- **Uninterrupted, the receiver's accesses are `smlt_ump_queuepair_try_recv`.** -/
theorem run_tryRecv {s : Micro} (hidle : s.rpc = .idle) {words : UInt32} {ys : List Word}
    (hok : (queuepairTryRecv s.rcv s.shm words).2.2 = .ok ys) :
    ∃ tr ctrl, Run MStep s (tr ++ [.finish ctrl ys])
      { s with
        rcv := (queuepairTryRecv s.rcv s.shm words).1
        shm := (queuepairTryRecv s.rcv s.shm words).2.1 } := by
  obtain ⟨snd, rcv, shm, spc, rpc⟩ := s
  obtain rfl : rpc = .idle := hidle
  by_cases hep : (shm.buf rcv.rx.pos.toNat).ctrl.epoch = epochWord rcv.rx.epoch
  · have hrecv : recvRaw rcv shm = .ok ({ rcv with rx := rcv.rx.advance },
        ackStore rcv.rx shm (shm.buf rcv.rx.pos.toNat).ctrl, rcv.rx.pos.toNat) := by
      simp [recvRaw, canRecvRaw, queueCanRecv, queueRecvRaw_eq, hep]
    simp only [queuepairTryRecv, hrecv, Except.ok.injEq] at hok ⊢
    subst hok
    have hobs : MStep ⟨snd, rcv, shm, spc, .idle⟩ (.observe true)
        ⟨snd, rcv, shm, spc, .observed words (shm.buf rcv.rx.pos.toNat).ctrl⟩ :=
      ⟨.observe words, by simp [Micro.act, hep]⟩
    have hack := (Run.snoc .nil hobs).snoc ⟨.ack, rfl⟩
    have hloads := hack.append (run_load
      ⟨snd, { rcv with rx := rcv.rx.advance },
        ackStore rcv.rx shm (shm.buf rcv.rx.pos.toNat).ctrl, spc, .idle⟩
      words (shm.buf rcv.rx.pos.toNat).ctrl rcv.rx.pos.toNat words.toNat (Nat.le_refl _))
    exact ⟨_, (shm.buf rcv.rx.pos.toNat).ctrl, hloads.snoc ⟨.finish, by simp [Micro.act]⟩⟩
  · have hempty : recvRaw rcv shm = .error [.queueEmpty] := by
      simp [recvRaw, canRecvRaw, queueCanRecv, hep]
    simp [queuepairTryRecv, hempty] at hok

/-! ## 2. What is claimed of them, and when it holds -/

/-- The slot the sender has been allowed to write. -/
def SendPc.slot? : SendPc → Option Nat
  | .idle => none
  | .store _ slot _ => some slot

/-- The slot the receiver has not finished reading. -/
def RecvPc.slot? (rx : Queue) : RecvPc → Option Nat
  | .idle => none
  | .observed _ _ => some rx.pos.toNat
  | .copy _ _ slot _ => some slot

/-- Nobody writes what is being read. -/
def Exclusive (s : Micro) : Prop :=
  ∀ slot, s.rpc.slot? s.rcv.rx = some slot → s.spc.slot? ≠ some slot

/-- A slot the receiver has acknowledged and is still copying. -/
def RecvPc.Acked (rx : Queue) : RecvPc → Prop
  | .copy _ _ slot _ => slot = (rx.numMsg >>> 1).toNat ∨ slot + 1 = rx.numMsg.toNat
  | _ => False

instance (rx : Queue) : DecidablePred (RecvPc.Acked rx)
  | .idle => inferInstanceAs (Decidable False)
  | .observed _ _ => inferInstanceAs (Decidable False)
  | .copy _ _ _ _ => inferInstanceAs (Decidable (_ ∨ _))

/-- The window: the receiver has acknowledged the slot it is still copying. -/
def InWindow (s : Micro) : Prop := s.rpc.Acked s.rcv.rx

instance : DecidablePred InWindow := fun s => inferInstanceAs (Decidable (s.rpc.Acked s.rcv.rx))

/-- The check answers from the cached acknowledgement, without reading the shared word. -/
def FromCache (s : Micro) : Prop := s.snd.seqId - s.snd.lastAck ≤ s.snd.tx.numMsg

instance : DecidablePred FromCache := fun s =>
  inferInstanceAs (Decidable (s.snd.seqId - s.snd.lastAck ≤ s.snd.tx.numMsg))

/-- The condition on a step: messages fit a slot, and a check made inside the window answers from
the cache. -/
def Careful (s : Micro) (e : MEvent) : Prop :=
  match e with
  | .check msg _ => msg.words.toNat ≤ 7 ∧ (InWindow s → FromCache s)
  | _ => True

instance (s : Micro) : DecidablePred (Careful s)
  | .check _ _ => inferInstanceAs (Decidable (_ ∧ (_ → _)))
  | .store | .publish _ _ | .observe _ | .ack | .load | .finish _ _ =>
    inferInstanceAs (Decidable True)

/-- A step that meets the condition. -/
def CarefulStep (s : Micro) (e : MEvent) (s' : Micro) : Prop := MStep s e s' ∧ Careful s e

/-- A message as the two ends see it: its control word and words. -/
abbrev Item := Ctrl × List Word

/-- A receive that observed the control word of the item and returns words of it. -/
def Reads (sent rcvd : Item) : Prop := rcvd.1 = sent.1 ∧ Agree sent.2 rcvd.2

/-- What a step shows of the queue: a publication puts a message in, a finished receive takes
one out. -/
def MEvent.see : MEvent → Option (Fifo.Ev Item Item)
  | .publish ctrl xs => some (.send (ctrl, xs))
  | .finish ctrl ys => some (.recv (ctrl, ys))
  | _ => none

/-- The `k`-th receive returns the words of the `k`-th message, the one it observed. -/
def ReturnsObserved (tr : List MEvent) : Prop :=
  ∀ (k : ℕ) (y : Item), (Fifo.recvs (tr.filterMap MEvent.see))[k]? = some y →
    ∃ x, (Fifo.sends (tr.filterMap MEvent.see))[k]? = some x ∧ Reads x y

/-! ## 3. The invariant -/

/-- The sender's half: a slot it was allowed to write is the next one, with room by the cached
acknowledgement alone. -/
def SendOk (n S C : ℕ) (shm : Shm) : SendPc → Prop
  | .idle => True
  | .store msg slot i =>
    slot = S % n ∧ S < C + n ∧ i ≤ msg.words.toNat ∧ msg.words.toNat ≤ 7 ∧
      ∀ j, j < i → (shm.buf slot).data j = msg.data j

/-- The receiver's half.  `p` are the messages it has not moved past and `full` those it has not
finished.  While it copies message `r` it is already at `r + 1`, but the cached acknowledgement
is not: `C ≤ r`. -/
def RecvOk (n R C : ℕ) (shm : Shm) (p full : List Item) : RecvPc → Prop
  | .idle => full = p
  | .observed _ ctrl => full = p ∧ ∃ xs p', p = (ctrl, xs) :: p'
  | .copy _ ctrl slot got =>
    ∃ xs r, R = r + 1 ∧ full = (ctrl, xs) :: p ∧ xs.length ≤ 7 ∧ slot = r % n ∧ C ≤ r ∧
      (∀ (j : ℕ) (x : Word), xs[j]? = some x → (shm.buf slot).data j = x) ∧
      ∀ (j : ℕ) (x y : Word), xs[j]? = some x → got[j]? = some y → y = x

/-- A direction between two accesses, with the items `full` queued. -/
structure MInv (n S R C : ℕ) (p full : List Item) (s : Micro) : Prop where
  base : Inv n S R C (p.map Prod.snd) (.of s.snd s.rcv s.shm)
  ctrls : ∀ (k : ℕ) (x : Item), p[k]? = some x → (s.shm.buf ((R + k) % n)).ctrl = x.1
  short : ∀ x ∈ p, x.2.length ≤ 7
  send : SendOk n S C s.shm s.spc
  recv : RecvOk n R C s.shm p full s.rpc

theorem MInv.count {n S R C : ℕ} {p full : List Item} {s : Micro} (h : MInv n S R C p full s) :
    S = R + p.length := by
  simpa using h.base.count

theorem MInv.cache_le {n S R C : ℕ} {p full : List Item} {s : Micro}
    (h : MInv n S R C p full s) : C ≤ R :=
  Nat.le_trans h.base.cache_le (ackOf_le R)

/-- The messages the receiver has not finished are all past the cached acknowledgement. -/
theorem MInv.add_length_le {n S R C : ℕ} {p full : List Item} {s : Micro}
    (h : MInv n S R C p full s) : C + full.length ≤ S := by
  have hcount := h.count
  have hCR := h.cache_le
  have hrecv := h.recv
  cases hpc : s.rpc with
  | idle =>
    rw [hpc] at hrecv
    obtain rfl : full = p := hrecv
    omega
  | observed words ctrl =>
    rw [hpc] at hrecv
    obtain rfl : full = p := hrecv.1
    omega
  | copy words ctrl slot got =>
    rw [hpc] at hrecv
    obtain ⟨xs, r, hR, rfl, -, -, hC, -⟩ := hrecv
    simp only [List.length_cons]
    omega

/-- **The invariant excludes sharing**: the slot being read belongs to a message less than a lap
behind the one being written. -/
theorem MInv.exclusive {n S R C : ℕ} {p full : List Item} {s : Micro}
    (h : MInv n S R C p full s) : Exclusive s := by
  intro slot hr hw
  have hcount := h.count
  have hCR := h.cache_le
  have hsend := h.send
  have hrecv := h.recv
  cases hspc : s.spc with
  | idle => simp [hspc, SendPc.slot?] at hw
  | store msg slot' i =>
    rw [hspc] at hsend hw
    obtain ⟨rfl, hroom, -⟩ := hsend
    obtain rfl : S % n = slot := by simpa [SendPc.slot?] using hw
    cases hrpc : s.rpc with
    | idle => simp [hrpc, RecvPc.slot?] at hr
    | observed words ctrl =>
      rw [hrpc] at hrecv hr
      obtain ⟨-, xs, p', rfl⟩ := hrecv
      have hpos : s.rcv.rx.pos.toNat = R % n := h.base.posRx
      simp only [RecvPc.slot?, Option.some.injEq, hpos] at hr
      simp only [List.length_cons] at hcount
      exact mod_ne_mod (by omega) (by omega) hr
    | copy words ctrl slot got =>
      rw [hrpc] at hrecv hr
      obtain ⟨xs, r, hR, -, -, hslot, hC, -⟩ := hrecv
      simp only [RecvPc.slot?, Option.some.injEq] at hr
      exact mod_ne_mod (by omega) (by omega) (hslot.symm.trans hr)

/-! ## 4. Every access keeps it -/

section Steps

variable {n S R C : ℕ} {p full : List Item} {s s' : Micro} {e : MEvent}

/-- The places of a lap where the receiver acknowledges. -/
theorem inWindow_iff {words : UInt32} {ctrl : Ctrl} {slot : ℕ} {got : List Word}
    (h : MInv n S R C p full s) (hpc : s.rpc = .copy words ctrl slot got) :
    InWindow s ↔ slot = n / 2 ∨ slot + 1 = n := by
  have hnum : s.rcv.rx.numMsg.toNat = n := h.base.numRx
  rw [InWindow, hpc, RecvPc.Acked, UInt16.toNat_shiftRight, hnum]
  simp [Nat.shiftRight_eq_div_pow]

/-- A careful check may move the cached acknowledgement, but not past what is being read. -/
theorem RecvOk.refresh {C' : ℕ} (h : MInv n S R C p full s) (hC' : C' ≤ ackOf n R)
    (hcache : FromCache s → C' = C) (hcare : InWindow s → FromCache s) :
    RecvOk n R C' s.shm p full s.rpc := by
  have hrecv := h.recv
  cases hpc : s.rpc with
  | idle =>
    rw [hpc] at hrecv
    exact hrecv
  | observed words ctrl =>
    rw [hpc] at hrecv
    exact hrecv
  | copy words ctrl slot got =>
    rw [hpc] at hrecv
    obtain ⟨xs, r, rfl, hfull, hlen, rfl, hC, hdata, hgot⟩ := hrecv
    refine ⟨xs, r, rfl, hfull, hlen, rfl, ?_, hdata, hgot⟩
    by_cases hwin : r % n = n / 2 ∨ r % n + 1 = n
    · rw [hcache (hcare ((inWindow_iff h hpc).mpr hwin))]
      exact hC
    · -- outside the window the shared word does not cover message `r` yet
      push Not at hwin
      rw [ackOf_succ_of_not_ack h.base.pos hwin.1 hwin.2] at hC'
      exact Nat.le_trans hC' (ackOf_le r)

theorem minv_check {msg : Msg} (h : MInv n S R C p full s)
    (ha : s.act (.check msg) = some (s', e)) (hcare : Careful s e) :
    e.see = none ∧ ∃ C', MInv n S R C' p full s' := by
  obtain ⟨-, C', hinv, hroom, hcache⟩ := canSendRaw_spec h.base
  have hkeep : (InWindow s → FromCache s) → RecvOk n R C' s.shm p full s.rpc :=
    RecvOk.refresh h hinv.cache_le hcache
  simp only [Micro.act] at ha
  cases hspc : s.spc with
  | store msg' slot i => simp [hspc] at ha
  | idle =>
    rcases hcs : canSendRaw s.snd s.shm with ⟨b, snd⟩
    rw [hcs] at hinv hroom
    rw [hspc] at ha
    simp only [hcs] at ha
    have hpos : snd.tx.pos.toNat = S % n := hinv.posTx
    cases b with
    | false =>
      simp only [Option.some.injEq, Prod.mk.injEq] at ha
      obtain ⟨rfl, rfl⟩ := ha
      refine ⟨rfl, C', hinv, h.ctrls, h.short, ?_, hkeep hcare.2⟩
      trivial
    | true =>
      simp only [Option.some.injEq, Prod.mk.injEq] at ha
      obtain ⟨rfl, rfl⟩ := ha
      refine ⟨rfl, C', hinv, h.ctrls, h.short, ?_, hkeep hcare.2⟩
      exact ⟨hpos, hroom rfl, Nat.zero_le _, hcare.1, fun j hj => absurd hj (Nat.not_lt_zero j)⟩

/-- The receiver does not notice a change to a slot it is not reading. -/
theorem RecvOk.frame {shm shm' : Shm} {pc : RecvPc} (h : RecvOk n R C shm p full pc)
    (hsame : ∀ r, R = r + 1 → C ≤ r → (shm'.buf (r % n)).data = (shm.buf (r % n)).data) :
    RecvOk n R C shm' p full pc := by
  cases pc with
  | idle => exact h
  | observed words ctrl => exact h
  | copy words ctrl slot got =>
    obtain ⟨xs, r, hR, hfull, hlen, rfl, hC, hdata, hgot⟩ := h
    refine ⟨xs, r, hR, hfull, hlen, rfl, hC, ?_, hgot⟩
    rw [hsame r hR hC]
    exact hdata

/-- A message published behind the ones being read changes none of them. -/
theorem RecvOk.append {shm : Shm} {pc : RecvPc} (h : RecvOk n R C shm p full pc) (x : Item) :
    RecvOk n R C shm (p ++ [x]) (full ++ [x]) pc := by
  cases pc with
  | idle =>
    obtain rfl : full = p := h
    rfl
  | observed words ctrl =>
    obtain ⟨rfl, xs, p', rfl⟩ := h
    exact ⟨rfl, xs, p' ++ [x], rfl⟩
  | copy words ctrl slot got =>
    obtain ⟨xs, r, hR, rfl, hrest⟩ := h
    exact ⟨xs, r, hR, rfl, hrest⟩

theorem minv_store (h : MInv n S R C p full s) (ha : s.act .store = some (s', e)) :
    e.see = none ∧ MInv n S R C p full s' := by
  have hcount := h.count
  have hCR := h.cache_le
  have hsend := h.send
  simp only [Micro.act] at ha
  cases hspc : s.spc with
  | idle => simp [hspc] at ha
  | store msg slot i =>
    rw [hspc] at ha hsend
    obtain ⟨rfl, hroom, hi, hw, hdone⟩ := hsend
    by_cases hlt : i < msg.words.toNat
    · simp only [hlt, if_true, Option.some.injEq, Prod.mk.injEq] at ha
      obtain ⟨rfl, rfl⟩ := ha
      obtain ⟨hack, hctrl, hdata⟩ := storeData_spec s.shm (S % n) (msg.data i) (by omega : i < 7)
      have hother : ∀ t, t ≠ S % n →
          ((s.shm.storeData (S % n) i (msg.data i)).buf t).data = (s.shm.buf t).data := by
        intro t ht
        funext j
        simp [hdata, ht]
      refine ⟨rfl, h.base.scribble hroom hack hctrl hother, ?_, h.short, ?_, ?_⟩
      · intro k x hx
        rw [hctrl]
        exact h.ctrls k x hx
      · refine ⟨rfl, hroom, hlt, hw, fun j hj => ?_⟩
        rw [hdata]
        by_cases hji : j = i
        · simp [hji]
        · rw [if_neg (fun hh => hji hh.2)]
          exact hdone j (by omega)
      · refine h.recv.frame fun r hR hC => hother _ (mod_ne_mod (by omega) (by omega))
    · simp [hlt] at ha

theorem minv_publish (h : MInv n S R C p full s) (ha : s.act .publish = some (s', e)) :
    ∃ x, e.see = some (.send x) ∧ full.length < n ∧
      MInv n (S + 1) R C (p ++ [x]) (full ++ [x]) s' := by
  have hcount := h.count
  have hCR := h.cache_le
  have hlen := h.add_length_le
  have hsend := h.send
  simp only [Micro.act] at ha
  cases hspc : s.spc with
  | idle => simp [hspc] at ha
  | store msg slot i =>
    rw [hspc] at ha hsend
    obtain ⟨rfl, hroom, hi, hw, hdone⟩ := hsend
    by_cases hlt : i < msg.words.toNat
    · simp [hlt] at ha
    · simp only [hlt, if_false, Option.some.injEq, Prod.mk.injEq] at ha
      obtain ⟨rfl, rfl⟩ := ha
      have hpayload : ∀ (j : ℕ) (x : Word), msg.payload[j]? = some x →
          (s.shm.buf (S % n)).data j = x := by
        intro j x hx
        obtain ⟨hj, hjx⟩ := List.getElem?_eq_some_iff.mp hx
        rw [Msg.length_payload] at hj
        rw [Msg.getElem_payload] at hjx
        rw [hdone j (by omega), hjx]
      have hsent := h.base.send msg.payload hroom hpayload
      refine ⟨_, rfl, by omega, ?_, ?_, ?_, trivial, ?_⟩
      · simpa [sendRaw, queueSend] using hsent
      · intro k x hx
        simp only [sendRaw, queueSend, Shm.storeCtrl]
        by_cases hk : k < p.length
        · rw [List.getElem?_append_left hk] at hx
          rw [if_neg (mod_ne_mod (by omega) (by omega))]
          exact h.ctrls k x hx
        · have hkeq : k = p.length := by
            have := (List.getElem?_eq_some_iff.mp hx).1
            simp only [List.length_append, List.length_singleton] at this
            omega
          subst hkeq
          have hS : R + p.length = S := hcount.symm
          rw [hS, if_pos rfl]
          rw [List.getElem?_concat_length, Option.some.injEq] at hx
          rw [← hx]
      · intro x hx
        rcases List.mem_append.mp hx with hx | hx
        · exact h.short x hx
        · rw [List.mem_singleton.mp hx, Msg.length_payload]
          exact hw
      · refine (h.recv.frame fun r hR hC => ?_).append _
        simp only [sendRaw, queueSend, Shm.storeCtrl]
        split <;> rfl

theorem minv_observe {words : UInt32} (h : MInv n S R C p full s)
    (ha : s.act (.observe words) = some (s', e)) : e.see = none ∧ MInv n S R C p full s' := by
  have hcan : queueCanRecv s.rcv.rx s.shm = decide (R < S) := queueCanRecv_spec h.base
  have hpos : s.rcv.rx.pos.toNat = R % n := h.base.posRx
  have hcount := h.count
  have hrecv := h.recv
  simp only [Micro.act] at ha
  cases hrpc : s.rpc with
  | observed words ctrl => simp [hrpc] at ha
  | copy words ctrl slot got => simp [hrpc] at ha
  | idle =>
    rw [hrpc] at ha hrecv
    obtain rfl : full = p := hrecv
    by_cases hep : (s.shm.buf s.rcv.rx.pos.toNat).ctrl.epoch = epochWord s.rcv.rx.epoch
    · simp only [hep, if_true, Option.some.injEq, Prod.mk.injEq] at ha
      obtain ⟨rfl, rfl⟩ := ha
      have hRS : R < S := by
        simp only [queueCanRecv, hep, beq_self_eq_true] at hcan
        exact of_decide_eq_true hcan.symm
      refine ⟨rfl, h.base, h.ctrls, h.short, h.send, rfl, ?_⟩
      cases hp : full with
      | nil =>
        rw [hp] at hcount
        simp only [List.length_nil] at hcount
        omega
      | cons x p' =>
        have hx := h.ctrls 0 x (by simp [hp])
        rw [Nat.add_zero] at hx
        exact ⟨x.2, p', by rw [hpos, hx]⟩
    · simp only [hep, if_false, Option.some.injEq, Prod.mk.injEq] at ha
      obtain ⟨rfl, rfl⟩ := ha
      exact ⟨rfl, h⟩

theorem minv_ack (h : MInv n S R C p full s) (ha : s.act .ack = some (s', e)) :
    e.see = none ∧ ∃ p', MInv n S (R + 1) C p' full s' := by
  have hpos : s.rcv.rx.pos.toNat = R % n := h.base.posRx
  have hcount := h.count
  have hrecv := h.recv
  simp only [Micro.act] at ha
  cases hrpc : s.rpc with
  | idle => simp [hrpc] at ha
  | copy words ctrl slot got => simp [hrpc] at ha
  | observed words ctrl =>
    rw [hrpc] at ha hrecv
    obtain ⟨rfl, xs, p', rfl⟩ := hrecv
    simp only [Option.some.injEq, Prod.mk.injEq] at ha
    obtain ⟨rfl, rfl⟩ := ha
    have hbase := h.base
    rw [List.map_cons] at hbase
    obtain ⟨hRS, -, hdata⟩ := hbase.head
    have hctrl : (s.shm.buf (R % n)).ctrl = ctrl := by simpa using h.ctrls 0 (ctrl, xs) (by simp)
    obtain ⟨hbuf, hack⟩ := ackStore_spec hbase hRS
    rw [hctrl] at hbuf hack
    refine ⟨rfl, p', hbase.recv hbuf hack, ?_, ?_, ?_, ?_⟩
    · intro k x hx
      have := h.ctrls (k + 1) x (by simpa using hx)
      rw [hbuf, Nat.add_right_comm, Nat.add_assoc]
      exact this
    · exact fun x hx => h.short x (List.mem_cons_of_mem _ hx)
    · have hsend := h.send
      cases hspc : s.spc with
      | idle => trivial
      | store msg slot i =>
        rw [hspc] at hsend
        simpa [SendOk, hbuf] using hsend
    · refine ⟨xs, R, rfl, rfl, h.short (ctrl, xs) (by simp), hpos, h.cache_le, ?_, by simp⟩
      rw [hbuf, hpos]
      exact hdata

theorem minv_load (h : MInv n S R C p full s) (ha : s.act .load = some (s', e)) :
    e.see = none ∧ MInv n S R C p full s' := by
  have hrecv := h.recv
  simp only [Micro.act] at ha
  cases hrpc : s.rpc with
  | idle => simp [hrpc] at ha
  | observed words ctrl => simp [hrpc] at ha
  | copy words ctrl slot got =>
    rw [hrpc] at ha hrecv
    obtain ⟨xs, r, hR, hfull, hlen, hslot, hC, hdata, hgot⟩ := hrecv
    by_cases hlt : got.length < words.toNat
    · simp only [hlt, if_true, Option.some.injEq, Prod.mk.injEq] at ha
      obtain ⟨rfl, rfl⟩ := ha
      refine ⟨rfl, h.base, h.ctrls, h.short, h.send, xs, r, hR, hfull, hlen, hslot, hC, hdata, ?_⟩
      intro j x y hx hy
      by_cases hj : j < got.length
      · rw [List.getElem?_append_left hj] at hy
        exact hgot j x y hx hy
      · obtain ⟨hj', hjy⟩ := List.getElem?_eq_some_iff.mp hy
        have hjx := (List.getElem?_eq_some_iff.mp hx).1
        simp only [List.length_append, List.length_singleton] at hj'
        obtain rfl : j = got.length := by omega
        -- a word the message has is in the slot's own line
        have hdiv : (got.length + 1) / 8 = 0 := by omega
        have hmod : (got.length + 1) % 8 = got.length + 1 := by omega
        rw [← hdata _ x hx, ← hjy, List.getElem_concat_length rfl, Shm.loadData, hdiv, hmod,
          Nat.add_zero]
        rfl
    · simp [hlt] at ha

theorem minv_finish (h : MInv n S R C p full s) (ha : s.act .finish = some (s', e)) :
    ∃ x y, e.see = some (.recv y) ∧ Reads x y ∧ full = x :: p ∧ MInv n S R C p p s' := by
  have hrecv := h.recv
  simp only [Micro.act] at ha
  cases hrpc : s.rpc with
  | idle => simp [hrpc] at ha
  | observed words ctrl => simp [hrpc] at ha
  | copy words ctrl slot got =>
    rw [hrpc] at ha hrecv
    obtain ⟨xs, r, hR, hfull, hlen, hslot, hC, hdata, hgot⟩ := hrecv
    by_cases hlt : got.length < words.toNat
    · simp [hlt] at ha
    · simp only [hlt, if_false, Option.some.injEq, Prod.mk.injEq] at ha
      obtain ⟨rfl, rfl⟩ := ha
      exact ⟨(ctrl, xs), (ctrl, got), rfl, ⟨rfl, agree_of_getElem? hgot⟩, hfull, h.base, h.ctrls,
        h.short, h.send, rfl⟩

/-- A direction between two accesses stands for the FIFO of the items not finished. -/
def MRel (n : ℕ) (s : Micro) (full : List Item) : Prop := ∃ S R C p, MInv n S R C p full s

/-- **Every careful access is a step of the abstract FIFO, or invisible to it.** -/
theorem mrel_step (h : MRel n s full) (hstep : CarefulStep s e s') :
    ∃ full', MRel n s' full' ∧ Run.Follows (Fifo.Bounded n Reads) full e.see full' := by
  obtain ⟨S, R, C, p, h⟩ := h
  obtain ⟨⟨a, ha⟩, hcare⟩ := hstep
  cases a with
  | check msg =>
    obtain ⟨hsee, C', h'⟩ := minv_check h ha hcare
    exact ⟨full, ⟨S, R, C', p, h'⟩, by rw [hsee]; rfl⟩
  | store =>
    obtain ⟨hsee, h'⟩ := minv_store h ha
    exact ⟨full, ⟨S, R, C, p, h'⟩, by rw [hsee]; rfl⟩
  | publish =>
    obtain ⟨x, hsee, hroom, h'⟩ := minv_publish h ha
    exact ⟨full ++ [x], ⟨S + 1, R, C, p ++ [x], h'⟩, by rw [hsee]; exact .send hroom⟩
  | observe words =>
    obtain ⟨hsee, h'⟩ := minv_observe h ha
    exact ⟨full, ⟨S, R, C, p, h'⟩, by rw [hsee]; rfl⟩
  | ack =>
    obtain ⟨hsee, p', h'⟩ := minv_ack h ha
    exact ⟨full, ⟨S, R + 1, C, p', h'⟩, by rw [hsee]; rfl⟩
  | load =>
    obtain ⟨hsee, h'⟩ := minv_load h ha
    exact ⟨full, ⟨S, R, C, p, h'⟩, by rw [hsee]; rfl⟩
  | finish =>
    obtain ⟨x, y, hsee, hreads, rfl, h'⟩ := minv_finish h ha
    have hlen := h.add_length_le
    have hroom := h.base.room
    exact ⟨p, ⟨S, R, C, p, h'⟩, by rw [hsee]; exact .recv (by omega) hreads⟩

end Steps

/-- A new direction, outside all calls. -/
theorem mrel_init {alloc : Side → Option Nat} {numSlots : UInt16} {w : World}
    (h : queuepairInit alloc numSlots = .ok w) (d : Side) :
    MRel (numSlots.toNat - 1) (Micro.init w d) [] := by
  obtain ⟨-, S, R, C, hinv⟩ := rel_init h d
  exact ⟨S, R, C, [], hinv, by simp, by simp, trivial, rfl⟩

/-! ## 5. The window -/

/-- **Outside the window the slots have one owner.**  Along every interleaving of the accesses in
which each message fits a slot and no check re-reads the acknowledgement while the receiver is
still copying the slot it has just acknowledged, the sender never holds the slot being read, and
every receive returns the words of the message it observed. -/
theorem window_safe {alloc : Side → Option Nat} {numSlots : UInt16} {w : World}
    (hinit : queuepairInit alloc numSlots = .ok w) (d : Side) {tr : List MEvent} {s : Micro}
    (hrun : Run CarefulStep (Micro.init w d) tr s) : Exclusive s ∧ ReturnsObserved tr := by
  obtain ⟨full, ⟨S, R, C, p, h⟩, hfifo⟩ :=
    Run.simulates (mrel_init hinit d) (fun _ _ _ _ hR hs => mrel_step hR hs) hrun
  exact ⟨h.exclusive, (Fifo.bounded_spec hfifo).1⟩

/-- An access, when it meets the condition. -/
def Micro.carefulAct (s : Micro) (a : Act) : Option (Micro × MEvent) :=
  (s.act a).filter fun r => Careful s r.2

theorem carefulStep_of_act (s : Micro) (a : Act) (s' : Micro) (e : MEvent)
    (h : s.carefulAct a = some (s', e)) : CarefulStep s e s' := by
  obtain ⟨ha, hcare⟩ := Option.filter_eq_some_iff.mp h
  exact ⟨⟨a, ha⟩, of_decide_eq_true hcare⟩

/-- A receive on a ring of two messages during which the sender fills the other slot. -/
def carefulActs : List Act :=
  [.check ⟨1, fun _ => 7⟩, .store, .publish, .observe 1, .ack, .check ⟨1, fun _ => 9⟩, .store,
    .load, .finish]

theorem window_safe_two_slots :
    ∃ w tr s, queuepairInit (fun _ => some 4096) 3 = .ok w ∧
      Run.drive Micro.carefulAct (Micro.init w .src) carefulActs = some (tr, s) ∧
      s.spc.slot? = some 1 ∧ Fifo.recvs (tr.filterMap MEvent.see) = [(⟨1, 1⟩, [7])] ∧
      Exclusive s ∧ ReturnsObserved tr := by
  obtain ⟨w, tr, s, hinit, hdrive, hslot, hrecvs⟩ : ∃ w tr s,
      queuepairInit (fun _ => some 4096) 3 = .ok w ∧
      Run.drive Micro.carefulAct (Micro.init w .src) carefulActs = some (tr, s) ∧
      s.spc.slot? = some 1 ∧ Fifo.recvs (tr.filterMap MEvent.see) = [(⟨1, 1⟩, [7])] :=
    ⟨_, _, _, rfl, rfl, rfl, rfl⟩
  exact ⟨w, tr, s, hinit, hdrive, hslot, hrecvs,
    window_safe hinit .src (Run.of_drive carefulStep_of_act hdrive)⟩

/-- A receive on a ring of one message, and a sender let in by its acknowledgement. -/
def racingActs : List Act :=
  [.check ⟨1, fun _ => 7⟩, .store, .publish, .observe 1, .ack, .check ⟨1, fun _ => 9⟩]

/-- **Inside the window they do not.**  With `num_slots = 2` the sender is allowed into the slot
being read, and the receive that observed the message `[7]` returns `[9]`. -/
theorem window_overwrites :
    ∃ w tr s tr' s', queuepairInit (fun _ => some 4096) 2 = .ok w ∧
      Run MStep (Micro.init w .src) tr s ∧ ¬ Exclusive s ∧
      Run MStep s tr' s' ∧ ¬ ReturnsObserved (tr ++ tr') := by
  refine ⟨_, _, _, _, _, rfl,
    Run.of_drive (fun s a s' e h => ⟨a, h⟩)
      (show Run.drive Micro.act (Micro.init _ .src) racingActs = some _ from rfl), ?_,
    Run.of_drive (fun s a s' e h => ⟨a, h⟩)
      (show Run.drive Micro.act _ [.store, .load, .finish] = some _ from rfl), ?_⟩
  · intro h
    exact h 0 rfl rfl
  · intro h
    obtain ⟨x, hx, hreads⟩ := h 0 (⟨1, 1⟩, [9]) rfl
    obtain rfl : x = (⟨1, 1⟩, [7]) := (Option.some.inj hx).symm
    exact absurd hreads.2 (by simp [Agree])

end Smelt.Ump
