/-
# Sending on a queue pair

`smlt_queuepair_send` on the three backends, against the contract of `Path.lean`.  What they do with
a message that is longer than a slot differs:

* UMP has no check at all: the words past the seventh go into the slots behind, and the eighth lands
  on the next slot's CONTROL word;
* FFQ cuts the count down to sixteen bits and then to eight words, and sends those;
* SHM sends nothing.

All three return `SMLT_SUCCESS`.  A message that fits its slot is delivered, in every state that can
be reached while all messages fit, and one that does not is not: no slot has room for all of its
words.

Calls are taken as wholes, each as one step.  The waiting loop of a send is a sequence of such
steps, so the state before the last turn is the state after the refused ones, and what the other end
has received by then.
-/
import Smelt.Send.Path
import Smelt.Ump.Backend
import Smelt.Ffq.Backend
import Smelt.Shm.Queue

namespace Smelt.Send

open Ring

/-! ## 1. Queue pairs -/

/-- A call that is not a send that succeeds: a receive, a notification, a send that is refused. -/
def quietCall (B : Backend) (w : B.State) (d : Side) (c : Call) : Option B.State :=
  match c, (B.call w d c).2 with
  | .trySend _, .err [] => none
  | _, _ => some (B.call w d c).1

theorem quietCall_eq_some {B : Backend} {w w' : B.State} {d : Side} {c : Call}
    (h : quietCall B w d c = some w') :
    w' = (B.call w d c).1 ∧ ∀ msg, c = .trySend msg → (B.call w d c).2 ≠ .err success := by
  unfold quietCall at h
  split at h
  · cases h
  · rename_i hnot
    exact ⟨(Option.some.inj h).symm, fun msg hc hr => hnot msg hc hr⟩

/-- `smlt_queuepair_send` on a backend. -/
def pairPath (B : Backend) (Init : B.State → Prop) (view : B.State → Side → View)
    (Fits : Msg → Prop) : Path where
  State := B.State
  Caller := Side
  Queue := Side
  Act := Side × Call
  Init := Init
  act w a := quietCall B w a.1 a.2
  send := B.send
  dest _ d q := q = d
  view := view
  Fits _ _ := Fits
  Few _ := True

/-- The law of a queue pair, from what one direction does. -/
theorem pairPath_law {B : Backend} {Init Good : B.State → Prop} {view : B.State → Side → View}
    {Fits : Msg → Prop} (init : ∀ {w}, Init w → Good w)
    (quiet : ∀ {w d c w'}, Good w → quietCall B w d c = some w' → Good w')
    (send : ∀ {w d msg w'}, Good w → B.send w d msg = some (w', success) →
      (Appends msg.payload (view w d) (view w' d) ↔ Fits msg) ∧
        view w' d.other = view w d.other ∧ (Fits msg → Good w')) :
    (pairPath B Init view Fits).Law Good where
  init := init
  act hgood hact := quiet hgood hact
  fits := by
    intro w d msg w' hgood hsend hfits
    obtain ⟨hiff, hother, hkeep⟩ := send hgood hsend
    refine ⟨⟨d, rfl, hiff.mpr hfits, fun q' hq' => ?_⟩, hkeep hfits⟩
    rw [Side.eq_other hq']
    exact hother
  only := by
    rintro w d msg w' hgood - hsend ⟨q, rfl, happ, -⟩
    exact (send hgood hsend).1.mp happ
  few _ _ _ := trivial

/-! ## 2. UMP -/

section Ump

open Smelt.Ump

/-- What the receiver of a direction has before it: the slots that carry the epoch it expects, which
flips at the end of the ring. -/
def dirView (d : Dir) : View where
  readers := [pending d.rx.numMsg.toNat
    (fun k => (d.shm.buf ((d.rx.pos.toNat + k) % d.rx.numMsg.toNat)).ctrl.epoch ==
      epochWord (if d.rx.pos.toNat + k < d.rx.numMsg.toNat then d.rx.epoch else !d.rx.epoch))
    fun k => (List.range payloadWords).map
      (d.shm.buf ((d.rx.pos.toNat + k) % d.rx.numMsg.toNat)).data]
  next := queueGetNext d.tx
  ctrl slot := (d.shm.buf slot).ctrl.raw

/-- The direction in which `d` transmits. -/
def umpView (w : Ump.World) (d : Side) : View := dirView (w.view d)

theorem umpView_readers_ne (w : Ump.World) (d : Side) : (umpView w d).readers ≠ [] :=
  List.cons_ne_nil _ _

/-- A message of a UMP queue is seven words. -/
theorem umpView_length {w : Ump.World} {d : Side} :
    ∀ q ∈ (umpView w d).readers, ∀ ws ∈ q, ws.length = 7 := by
  intro q hq ws hws
  rw [umpView, dirView, List.mem_singleton] at hq
  subst hq
  obtain ⟨k, -, rfl⟩ := List.mem_map.mp hws
  simp [payloadWords]

/-- A direction that has got one message more, in its next slot. -/
theorem dirView_appends {n S R C C' : ℕ} {q q' : List (List Word)} {d d' : Dir} {xs : List Word}
    (h : Inv n S R C q d) (h' : Inv n (S + 1) R C' q' d') (hrx : d'.rx = d.rx)
    (hctrl : ∀ s, s ≠ S % n → (d'.shm.buf s).ctrl = (d.shm.buf s).ctrl)
    (hdata : ∀ s, s ≠ S % n → (d'.shm.buf s).data = (d.shm.buf s).data)
    (hxs : xs <+: (List.range 7).map (d'.shm.buf (S % n)).data) :
    Appends xs (dirView d) (dirView d') := by
  have hCR : C' ≤ R := Nat.le_trans h'.cache_le (ackOf_le R)
  have hroom := h'.room
  have hRS := h.count
  obtain ⟨c, rfl⟩ : ∃ c, S = R + c := ⟨q.length, hRS⟩
  have hc : c < n := by omega
  -- what the receiver expects in the slots ahead
  have hexpect : ∀ k, k < n → (if R % n + k < n then phase n R else !phase n R) = phase n (R + k) :=
    fun k hk => (phase_ahead hk).symm
  constructor
  · refine ⟨(List.range 7).map (d'.shm.buf ((R + c) % n)).data, ?_, hxs⟩
    simp only [dirView, List.map_cons, List.map_nil, hrx, h.posRx, h.numRx, h.epochRx,
      Nat.mod_add_mod]
    congr 1
    refine pending_concat hc ?_ ?_ ?_ ?_ ?_
    · intro k hk
      rw [hexpect k (by omega), beq_iff_eq]
      exact (h.ready (by omega)).mpr (by omega)
    · rw [hexpect c hc, beq_eq_false_iff_ne]
      exact fun he => absurd ((h.ready hc).mp he) (Nat.lt_irrefl _)
    · intro k hk
      rw [hexpect k (by omega), beq_iff_eq]
      exact (h'.ready (by omega)).mpr (by omega)
    · intro hlt
      rw [hexpect (c + 1) hlt, beq_eq_false_iff_ne]
      exact fun he => absurd ((h'.ready hlt).mp he) (by omega)
    · intro k hk
      rw [hdata _ (mod_ne_mod (by omega : R + k < R + c) (by omega))]
  · intro slot hslot
    have hne : slot ≠ (R + c) % n := fun he => hslot (he.trans h.posTx.symm)
    simp only [dirView, hctrl slot hne]

/-- The memory after a send that returned `SMLT_SUCCESS`. -/
theorem exec_trySend_mem {qp : Ump.Queuepair} {shm : Ump.Shm} {msg : Msg}
    (h : (Ump.exec (.trySend msg) qp shm).2.2 = .err success) :
    ∃ ctrl, (Ump.exec (.trySend msg) qp shm).2.1 =
      (storePayload shm qp.tx.pos.toNat msg).storeCtrl qp.tx.pos.toNat ctrl := by
  obtain ⟨a, ha⟩ := canSendRaw_frame qp shm
  simp only [Ump.exec, queuepairTrySend, prepareSend] at h ⊢
  rcases hcs : canSendRaw qp shm with ⟨b, qp'⟩
  obtain rfl : qp' = { qp with lastAck := a } := by rw [hcs] at ha; exact ha
  cases b with
  | false => simp [hcs, success] at h
  | true => exact ⟨_, rfl⟩

/-- **A send of at most seven words that returns `SMLT_SUCCESS` has delivered them.** -/
theorem ump_appends {w w' : Ump.World} {q : Side → List (List Word)} {d : Side} {msg : Msg}
    (h : Ump.Holds w q) (hsend : w.call d (.trySend msg) = (w', .err success))
    (hw : msg.words.toNat ≤ 7) : Appends msg.payload (umpView w d) (umpView w' d) := by
  obtain ⟨n, hrel⟩ := h
  obtain ⟨hwired, S, R, C, hinv⟩ := hrel d
  have hview := view_call_self hwired (show (Call.trySend msg).transmits = decide (d = d) by
    simp [Call.transmits])
  rw [if_pos rfl, hsend] at hview
  have hreg : region (.trySend msg) (w.qp d) = d := by
    simp [region, Call.transmits, (hwired d).1]
  have hret : (Ump.exec (.trySend msg) (w.qp d) (w.mem d)).2.2 = .err success := by
    have := congrArg Prod.snd hsend
    simpa [World.call, hreg] using this
  have hspec := exec_transmits_spec hinv (show (Call.trySend msg).transmits = true from rfl) hw
  rw [hret] at hspec
  obtain ⟨-, C', hinv'⟩ := hspec
  obtain ⟨ctrl, hmem⟩ := exec_trySend_mem hret
  obtain ⟨-, hctrl, hdata⟩ := storePayload_spec (w.mem d) (S % n) msg hw
  have hpos : (w.qp d).tx.pos.toNat = S % n := hinv.posTx
  rw [hpos] at hmem
  rw [umpView, umpView, hview]
  refine dirView_appends hinv hinv' rfl ?_ ?_ ?_
  · intro s hs
    simp only [Dir.of, World.view, hmem, Shm.storeCtrl, if_neg hs, hctrl]
  · intro s hs
    funext j
    simp only [Dir.of, World.view, hmem, Shm.storeCtrl, hdata, hs, false_and, if_false]
  · -- the payload is the first words of its slot
    have hfirst : msg.payload = ((List.range 7).map
        ((storePayload (w.mem d) (S % n) msg).buf (S % n)).data).take msg.words.toNat := by
      rw [Msg.payload, ← List.map_take, List.take_range, Nat.min_eq_left hw]
      refine List.map_congr_left fun j hj => ?_
      rw [hdata, if_pos ⟨rfl, List.mem_range.mp hj⟩]
    simp only [Dir.of, hmem, Shm.storeCtrl, if_true]
    rw [hfirst]
    exact List.take_prefix _ _

/-- The other direction is not touched, whatever is sent. -/
theorem ump_other {w w' : Ump.World} {q : Side → List (List Word)} {d : Side} {msg : Msg} {r : Ret}
    (h : Ump.Holds w q) (hsend : w.call d (.trySend msg) = (w', r)) :
    umpView w' d.other = umpView w d.other := by
  obtain ⟨n, hrel⟩ := h
  obtain ⟨hwired, -⟩ := hrel d
  have hview := view_call_other hwired
    (show (Call.trySend msg).transmits = !decide (d = d.other) by
      simp [Call.transmits, Ne.symm d.other_ne])
  rw [umpView, umpView, ← hview, hsend]

/-- A UMP send that returns has succeeded. -/
theorem ump_send_success {w w' : Ump.World} {d : Side} {msg : Msg} {e : Errval}
    (hsend : Ump.backend.send w d msg = some (w', e)) :
    Ump.backend.send w d msg = some (w', success) := by
  obtain ⟨hcall, hfull⟩ := Backend.send_eq_some.mp hsend
  have hret : (w.call d (.trySend msg)).2 = .err e := congrArg Prod.snd hcall
  simp only [World.call, Ump.exec, queuepairTrySend, prepareSend] at hret
  rw [hsend]
  rcases hcs : canSendRaw (w.qp d) (w.mem (region (.trySend msg) (w.qp d))) with ⟨b, qp'⟩
  rw [hcs] at hret
  cases b with
  | false => exact absurd (Ret.err.inj hret).symm hfull
  | true => rw [← Ret.err.inj hret]

/-- How many words are asked for does not matter to the queue. -/
theorem call_tryRecv (w : Ump.World) (d : Side) (words : UInt32) :
    (w.call d (.tryRecv words)).1 = (w.call d (.tryRecv 0)).1 := by
  have hexec : ∀ (qp : Ump.Queuepair) (shm : Ump.Shm),
      (Ump.exec (.tryRecv words) qp shm).1 = (Ump.exec (.tryRecv 0) qp shm).1 ∧
      (Ump.exec (.tryRecv words) qp shm).2.1 = (Ump.exec (.tryRecv 0) qp shm).2.1 := by
    intro qp shm
    simp only [Ump.exec, queuepairTryRecv]
    cases recvRaw qp shm <;> exact ⟨rfl, rfl⟩
  have hreg : region (.tryRecv words) (w.qp d) = region (.tryRecv 0) (w.qp d) := rfl
  simp only [World.call, hreg, hexec]

/-- A send that is refused stores nothing, however long the message. -/
theorem call_refused {w : Ump.World} {d : Side} {msg : Msg}
    (h : (w.call d (.trySend msg)).2 ≠ .err success) :
    (w.call d (.trySend msg)).1 = (w.call d (.trySend ⟨0, msg.data⟩)).1 := by
  have hreg : region (.trySend msg) (w.qp d) = region (.trySend ⟨0, msg.data⟩) (w.qp d) := rfl
  simp only [World.call, Ump.exec, queuepairTrySend, prepareSend, hreg] at h ⊢
  rcases hcs : canSendRaw (w.qp d) (w.mem (region (.trySend ⟨0, msg.data⟩) (w.qp d))) with ⟨b, qp'⟩
  rw [hcs] at h
  cases b with
  | false => rfl
  | true => exact absurd rfl h

/-- A call keeps the contents, unless it stores a message that is too long. -/
theorem ump_call {w : Ump.World} {d : Side} {c : Call} (h : ∃ q, Ump.Holds w q)
    (hc : ∀ msg, c = .trySend msg →
      (w.call d c).2 = .err success → msg.words.toNat ≤ 7) : ∃ q, Ump.Holds (w.call d c).1 q := by
  obtain ⟨q, hq⟩ := h
  have hsmall : ∀ c : Call, c.words ≤ 7 → ∃ q, Ump.Holds (w.call d c).1 q := by
    intro c hw
    obtain ⟨q', hq', -⟩ := holds_call hq hw
    exact ⟨q', hq'⟩
  cases c with
  | trySend msg =>
    by_cases hr : (w.call d (.trySend msg)).2 = .err success
    · exact hsmall _ (hc msg rfl hr)
    · rw [call_refused hr]
      exact hsmall _ (Nat.zero_le 7)
  | notify => exact hsmall _ (Nat.zero_le 7)
  | tryRecv words =>
    rw [call_tryRecv]
    exact hsmall _ (Nat.zero_le 7)
  | recvNotify => exact hsmall _ (Nat.zero_le 7)

theorem ump_quiet {w w' : Ump.World} {d : Side} {c : Call} (h : ∃ q, Ump.Holds w q)
    (hc : quietCall Ump.backend w d c = some w') : ∃ q, Ump.Holds w' q := by
  obtain ⟨rfl, hnot⟩ := quietCall_eq_some hc
  exact ump_call h fun msg heq hr => absurd hr (hnot msg heq)

/-- A UMP send, on a queue pair that holds its contents. -/
theorem ump_send {w w' : Ump.World} {q : Side → List (List Word)} {d : Side} {msg : Msg}
    (h : Ump.Holds w q) (hsend : Ump.backend.send w d msg = some (w', success)) :
    (Appends msg.payload (umpView w d) (umpView w' d) ↔ msg.words.toNat ≤ 7) ∧
      umpView w' d.other = umpView w d.other ∧
      (msg.words.toNat ≤ 7 → ∃ q, Ump.Holds w' q) := by
  have hcall : w.call d (.trySend msg) = (w', .err success) := (Backend.send_eq_some.mp hsend).1
  refine ⟨⟨fun happ => ?_, ump_appends h hcall⟩, ump_other h hcall, fun hw => ?_⟩
  · have hlen := happ.length_le (umpView_readers_ne w d) umpView_length
    rwa [Msg.length_payload] at hlen
  · have hkeep := ump_call (d := d) (c := .trySend msg) ⟨q, h⟩
      (fun m hm _ => Call.trySend.inj hm ▸ hw)
    rwa [hcall] at hkeep

/-- `smlt_queuepair_send` on a UMP queue pair. -/
def umpPath : Path :=
  pairPath Ump.backend (fun w => ∃ alloc numSlots, Ump.queuepairInit alloc numSlots = .ok w)
    umpView fun msg => msg.words.toNat ≤ 7

theorem umpPath_law : umpPath.Law fun w => ∃ q, Ump.Holds w q :=
  pairPath_law (fun ⟨_, _, h⟩ => ⟨_, holds_init h⟩) ump_quiet fun ⟨_, hq⟩ hsend => ump_send hq hsend

end Ump

/-! ## 3. FFQ -/

section Ffq

open Smelt.Ffq

/-- What the receiver of a direction has before it: the slots whose first word is not the reserved
one.  That word is all the control a slot has. -/
def microView (s : Ffq.Micro) : View where
  readers := [pending s.rx.size.toNat
    (fun k => s.shm ((s.rx.pos.toNat + k) % s.rx.size.toNat) 0 != slotEmpty)
    fun k => (List.range 8).map (s.shm ((s.rx.pos.toNat + k) % s.rx.size.toNat))]
  next := s.tx.pos.toNat
  ctrl slot := s.shm slot 0

/-- The direction in which `d` transmits. -/
def ffqView (w : Ffq.World) (d : Side) : View := microView (Micro.init w d)

theorem ffqView_length {w : Ffq.World} {d : Side} :
    ∀ q ∈ (ffqView w d).readers, ∀ ws ∈ q, ws.length = 8 := by
  intro q hq ws hws
  rw [ffqView, microView, List.mem_singleton] at hq
  subst hq
  obtain ⟨k, -, rfl⟩ := List.mem_map.mp hws
  simp

/-- The slots ahead of the receiver are taken just as far as messages are queued. -/
theorem finv_ready {n S R : ℕ} {q : List (List Word)} {s : Ffq.Micro} (h : FInv n S R q s) {k : ℕ}
    (hk : k < n) : s.shm ((R + k) % n) 0 ≠ slotEmpty ↔ R + k < S := by
  have hcount := h.count
  constructor
  · intro htaken
    by_contra hge
    exact htaken (h.free (R + k) (by omega) (by omega))
  · intro hlt
    obtain ⟨xs, hxs⟩ : ∃ xs, q[k]? = some xs := ⟨_, List.getElem?_eq_getElem (by omega)⟩
    exact (h.taken k xs hxs).1

variable {n S R : ℕ} {q : List (List Word)} {s : Ffq.Micro} {val : Nat → Word} {num : UInt16}

/-- The direction after a send that found room. -/
theorem sendRaw_shm (h : FInv n S R q s) (hroom : q.length < n) :
    (queueSendRaw s.tx s.shm val num).2.1 =
      (storeRest s.shm (S % n) val (clamp num).toNat).store (S % n) 0 (val 0) := by
  simp only [queueSendRaw, h.canSend.mpr hroom, Bool.not_true, Bool.false_eq_true, if_false,
    h.posTx]

theorem sendRaw_other (h : FInv n S R q s) (hroom : q.length < n) {t : ℕ} (ht : t ≠ S % n) :
    (queueSendRaw s.tx s.shm val num).2.1 t = s.shm t := by
  funext j
  rw [sendRaw_shm h hroom, Slots.store_of_ne fun hs => absurd hs ht, storeRest_of_ne _ _ _ ht]

/-- What the slot then has of the payload. -/
theorem sendRaw_word (h : FInv n S R q s) (hroom : q.length < n) {j : ℕ}
    (hj : j < (clamp num).toNat) : (queueSendRaw s.tx s.shm val num).2.1 (S % n) j = val j := by
  rw [sendRaw_shm h hroom]
  by_cases hzero : j = 0
  · rw [hzero, Slots.store_self]
  · rw [Slots.store_of_ne fun _ => hzero, storeRest_word, if_pos (by omega)]

/-- **One message more**, unless it starts with the reserved word. -/
theorem microView_appends (h : FInv n S R q s) (hidle : s.spc = .idle) (hroom : q.length < n)
    (hval : val 0 ≠ slotEmpty) {xs : List Word}
    (hxs : xs <+: (List.range 8).map ((queueSendRaw s.tx s.shm val num).2.1 (S % n))) :
    Appends xs (microView s) (microView { s with
      tx := (queueSendRaw s.tx s.shm val num).1
      shm := (queueSendRaw s.tx s.shm val num).2.1 }) := by
  have h' := h.sendRaw hidle num hval hroom
  have hcount := h.count
  subst hcount
  constructor
  · refine ⟨_, ?_, hxs⟩
    simp only [microView, List.map_cons, List.map_nil, h.posRx, h.sizeRx, Nat.mod_add_mod]
    congr 1
    refine pending_concat hroom ?_ ?_ ?_ ?_ ?_
    · intro k hk
      rw [bne_iff_ne]
      exact (finv_ready h (by omega)).mpr (by omega)
    · rw [bne_eq_false_iff_eq]
      by_contra htaken
      exact absurd ((finv_ready h hroom).mp htaken) (Nat.lt_irrefl _)
    · intro k hk
      rw [bne_iff_ne]
      exact (finv_ready h' (by omega)).mpr (by omega)
    · intro hlt
      rw [bne_eq_false_iff_eq]
      by_contra htaken
      exact absurd ((finv_ready h' hlt).mp htaken) (by omega)
    · intro k hk
      rw [sendRaw_other h hroom (h.slot_ne hroom hk)]
  · intro slot hslot
    have hne : slot ≠ (R + q.length) % n := fun he => hslot (he.trans h.posTx.symm)
    simp only [microView, sendRaw_other h hroom hne]

/-- A message that starts with the reserved word does not show. -/
theorem microView_lost (h : FInv n S R q s) (hroom : q.length < n) (hval : val 0 = slotEmpty) :
    (microView { s with
      tx := (queueSendRaw s.tx s.shm val num).1
      shm := (queueSendRaw s.tx s.shm val num).2.1 }).readers = (microView s).readers := by
  have hcount := h.count
  subst hcount
  simp only [microView, h.posRx, h.sizeRx, Nat.mod_add_mod]
  congr 1
  rw [pending_eq (Nat.le_of_lt hroom), pending_eq (Nat.le_of_lt hroom)]
  · refine List.map_congr_left fun k hk => ?_
    rw [sendRaw_other h hroom (h.slot_ne hroom (List.mem_range.mp hk))]
  · intro k hk
    rw [bne_iff_ne]
    exact (finv_ready h (by omega)).mpr (by omega)
  · intro _
    rw [bne_eq_false_iff_eq]
    by_contra htaken
    exact absurd ((finv_ready h hroom).mp htaken) (Nat.lt_irrefl _)
  · intro k hk
    rw [sendRaw_other h hroom (h.slot_ne hroom hk), bne_iff_ne]
    exact (finv_ready h (by omega)).mpr (by omega)
  · intro _
    rw [sendRaw_shm h hroom, Slots.store_self, hval, bne_self_eq_false]

/-- An FFQ send, on a queue pair between its calls. -/
theorem ffq_send {w w' : Ffq.World} {d : Side} {msg : Msg} (h : Ffq.Held w)
    (hsend : Ffq.backend.send w d msg = some (w', success)) :
    (Appends msg.payload (ffqView w d) (ffqView w' d) ↔
      msg.words.toNat ≤ 8 ∧ msg.data 0 ≠ slotEmpty) ∧ ffqView w' d.other = ffqView w d.other ∧
      (msg.words.toNat ≤ 8 ∧ msg.data 0 ≠ slotEmpty → Ffq.Held w') := by
  have hheld := h
  obtain ⟨hwired, n, hinv⟩ := h
  obtain ⟨S, R, q, hd⟩ := hinv d
  have hcall : w.call d (.trySend msg) = (w', .err success) := (Backend.send_eq_some.mp hsend).1
  have hself : Micro.init (w.call d (.trySend msg)).1 d = { Micro.init w d with
      tx := (queueSendRaw (Micro.init w d).tx (Micro.init w d).shm msg.data msg.words.toUInt16).1
      shm := (queueSendRaw (Micro.init w d).tx (Micro.init w d).shm msg.data
        msg.words.toUInt16).2.1 } :=
    init_call_tx hwired (show (Call.trySend msg).transmits = true from rfl)
  have hother := init_call_other hwired
    (show (Call.trySend msg).transmits = !decide (d.other = d) by simp [Call.transmits])
  rw [hcall] at hself hother
  have hroom : q.length < n := by
    rw [← hd.canSend]
    by_contra hfull
    have hfull : queueCanSend (w.qp d).tx (w.mem d) = false := by simpa [Micro.init] using hfull
    have hret := congrArg Prod.snd hcall
    have hreg : region (.trySend msg) (w.qp d) = d := by
      simp [region, Call.transmits, (hwired d).1]
    simp only [World.call, hreg, exec, queuepairSend, queueSendRaw_full hfull] at hret
    simp [success] at hret
  refine ⟨⟨fun happ => ⟨?_, ?_⟩, fun hfits => ?_⟩, ?_, fun hfits => ?_⟩
  · have hlen := happ.length_le (List.cons_ne_nil _ _) ffqView_length
    rwa [Msg.length_payload] at hlen
  · intro hval
    obtain ⟨ws, hws, -⟩ := happ.message
    rw [ffqView, hself, microView_lost hd hroom hval] at hws
    have hlen := congrArg List.length (List.cons.inj hws).1
    simp at hlen
  · obtain ⟨hw, hval⟩ := hfits
    rw [ffqView, ffqView, hself]
    refine microView_appends hd rfl hroom hval ?_
    have hcut := clamp_words hw
    have hfirst : msg.payload = ((List.range 8).map ((queueSendRaw (w.qp d).tx (w.mem d) msg.data
        msg.words.toUInt16).2.1 (S % n))).take msg.words.toNat := by
      rw [Msg.payload, ← List.map_take, List.take_range, Nat.min_eq_left hw]
      refine List.map_congr_left fun j hj => ?_
      have hj : j < (clamp msg.words.toUInt16).toNat := by
        rw [hcut]
        exact List.mem_range.mp hj
      exact (sendRaw_word hd hroom hj).symm
    rw [hfirst]
    exact List.take_prefix _ _
  · rw [ffqView, ffqView, hother]
  · have hkeep := Ffq.held_call (d := d) hheld
      (show Ffq.Legal (.trySend msg) from hfits.2)
    rwa [hcall] at hkeep

/-- An FFQ send that is refused does nothing, whatever the message starts with. -/
theorem ffq_quiet {w w' : Ffq.World} {d : Side} {c : Call} (h : Ffq.Held w)
    (hc : quietCall Ffq.backend w d c = some w') : Ffq.Held w' := by
  obtain ⟨rfl, hnot⟩ := quietCall_eq_some hc
  cases c with
  | trySend msg =>
    have hfull : queueCanSend (w.qp d).tx (w.mem (region (.trySend msg) (w.qp d))) = false := by
      by_contra hroom
      refine hnot msg rfl ?_
      simp only [Ffq.backend, World.call, exec, queuepairSend, queueSendRaw,
        Bool.not_eq_false] at hroom ⊢
      simp [hroom, success]
    have hsame : (w.call d (.trySend msg)).1 = (w.call d (.trySend ⟨0, fun _ => 0⟩)).1 := by
      have hreg : region (.trySend msg) (w.qp d) = region (.trySend ⟨0, fun _ => 0⟩) (w.qp d) := rfl
      rw [hreg] at hfull
      simp only [World.call, exec, queuepairSend, hreg, queueSendRaw_full hfull]
    rw [show (Ffq.backend.call w d (.trySend msg)).1 = _ from hsame]
    exact Ffq.held_call h (show (0 : Word) ≠ slotEmpty by decide)
  | notify => exact Ffq.held_call h trivial
  | tryRecv words => exact Ffq.held_call h trivial
  | recvNotify => exact Ffq.held_call h trivial

/-- `smlt_queuepair_send` on an FFQ queue pair. -/
def ffqPath : Path :=
  pairPath Ffq.backend
    (fun w => ∃ alloc numSlots, 1 ≤ numSlots.toNat ∧ Ffq.queuepairInit alloc numSlots = .ok w)
    ffqView fun msg => msg.words.toNat ≤ 8 ∧ msg.data 0 ≠ slotEmpty

theorem ffqPath_law : ffqPath.Law Ffq.Held :=
  pairPath_law (fun ⟨_, _, hslots, h⟩ => Ffq.held_init hslots h) ffq_quiet ffq_send

end Ffq

/-! ## 4. SHM -/

section Shm

open Smelt.ShmQp

/-- What the receiver of a direction has before it: the slots with the numbers it waits for. -/
def shmView (w : ShmQp.World) (d : Side) : View where
  readers := [Swmr.announced (w.rx d.other).numSlots.toNat (w.rx d.other).lPos.toNat
    (w.rx d.other).nextSeq (w.mem d).slots]
  next := (w.tx d).wrap.lPos.toNat
  ctrl slot := (w.mem d).slots slot 0

/-- The stores of a send, as the words of its slot. -/
theorem words_of_stores (slots : Slots Word) (slot : ℕ) (p : ℕ → Word) (v : Word) :
    (Swmr.words fun j => (Swmr.storePayload slots slot (some p)).store slot 0 v slot (j + 1)) =
      Swmr.words p := by
  refine List.map_congr_left fun j hj => ?_
  have hj := List.mem_range.mp hj
  rw [Slots.store_of_ne fun _ => Nat.succ_ne_zero j, Swmr.storePayload, Swmr.storeFirst_word,
    if_pos (by omega)]
  rfl

/-- Only the header of that slot changes. -/
theorem header_of_stores {slots : Slots Word} {slot s : ℕ} (payload : Option (ℕ → Word)) {v : Word}
    (hs : s ≠ slot) : (Swmr.storePayload slots slot payload).store slot 0 v s 0 = slots s 0 := by
  rw [Slots.store_of_ne fun h => absurd h hs, Swmr.storePayload_of_ne payload fun h => absurd h hs]

/-- An SHM send, on a queue pair between its calls. -/
theorem shm_send {w w' : ShmQp.World} {d : Side} {msg : Msg} (h : ShmQp.Held w)
    (hsend : ShmQp.backend.send w d msg = some (w', success)) :
    (Appends msg.payload (shmView w d) (shmView w' d) ↔ msg.words.toNat ≤ 7) ∧
      shmView w' d.other = shmView w d.other ∧ (msg.words.toNat ≤ 7 → ShmQp.Held w') := by
  have hkeep := held_call h d (.trySend msg)
  obtain ⟨S, r, m, hinv⟩ := h d
  have hcall : w.call d (.trySend msg) = (w', .err success) := (Backend.send_eq_some.mp hsend).1
  rw [hcall] at hkeep
  have hne : d.other ≠ d := d.other_ne
  simp only [World.call, smltShmSend] at hcall
  by_cases hw : msg.words ≤ 7
  · have hw' : msg.words.toNat ≤ 7 := UInt32.le_iff_toNat_le.mp hw
    rw [if_pos hw] at hcall
    cases hs : qSend (w.tx d) (w.mem d) (some msg.data) with
    | none => simp [hs, World.transmit] at hcall
    | some res =>
      obtain ⟨tx', mem'⟩ := res
      simp only [hs, Option.map_some, World.transmit, Prod.mk.injEq, and_true] at hcall
      subst hcall
      obtain ⟨-, hslots⟩ := hinv.qSend hs
      obtain ⟨-, hpos⟩ := hinv.wrap
      have hann := hinv.announced hs
      rw [hslots, words_of_stores] at hann
      have hnum : (w.rx d.other).numSlots.toNat = 63 := by rw [hinv.slotsRx]; rfl
      refine ⟨⟨fun _ => hw', fun _ =>
        ⟨⟨Swmr.words msg.data, ?_, payload_prefix_words hw'⟩, ?_⟩⟩, ?_, fun _ => hkeep⟩
      · simp only [shmView, hnum, Function.update_self, hslots, hann, List.map_cons, List.map_nil]
      · intro slot hslot
        rw [shmView, hpos] at hslot
        simp only [shmView, Function.update_self, hslots]
        exact header_of_stores _ hslot
      · simp [shmView, hne]
  · -- the message is too long, and nothing happens
    rw [if_neg hw] at hcall
    simp only [World.transmit, Function.update_eq_self, Prod.mk.injEq, and_true] at hcall
    subst hcall
    refine ⟨⟨fun happ => absurd rfl (happ.ne (List.cons_ne_nil _ _)), fun hw' => ?_⟩, rfl,
      fun _ => hkeep⟩
    exact absurd (UInt32.le_iff_toNat_le.mpr hw') hw

/-- `smlt_queuepair_send` on an SHM queue pair. -/
def shmPath : Path :=
  pairPath ShmQp.backend (fun w => w = queuepairCreate) shmView
    fun msg => msg.words.toNat ≤ 7

theorem shmPath_law : shmPath.Law ShmQp.Held :=
  pairPath_law (fun h => h ▸ held_create)
    (fun h hc => (quietCall_eq_some hc).1 ▸ held_call h _ _) shm_send

end Shm

end Smelt.Send
