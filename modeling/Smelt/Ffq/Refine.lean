/-
# The FastForward queue is a bounded FIFO, access by access

The two ends never look at each other's position.  `FInv` ties both positions to the messages SENT
(`S`) and RECEIVED (`R`), and the whole ring to the queued messages `q`: the slots of `q` do not
start with the reserved word, all others do.  So the first word of the slot at a position tells its
owner everything, and the words behind it belong to the end that may not give the slot away yet.

`q` loses a message when the receiver CLEARS its slot, after the copy: until then the sender finds
the slot taken.  (The UMP queue gives the slot back first; see `Ump/Window.lean`.)
-/
import Smelt.Ffq.Queue
import Smelt.Lib.Ring

namespace Smelt.Ffq

open Ring

/-! ## 1. The invariant -/

/-- How many words a receive is to copy: as many as it was called for and a slot has, and none into
`NULL`. -/
def asked : Option UInt16 → ℕ
  | none => 0
  | some num => min num.toNat 8

theorem recvWords_eq (num : Option UInt16) : recvWords num = asked num := by
  cases num with
  | none => rfl
  | some num =>
    simp only [recvWords, clamp, asked, gt_iff_lt, UInt16.lt_iff_toNat_lt]
    have hmax : msgWords.toNat = 8 := rfl
    split <;> omega

/-- A count that fits a slot is not cut. -/
theorem clamp_of_le {num : UInt16} (hnum : num.toNat ≤ 8) : clamp num = num := by
  have hle : ¬ num > msgWords := by
    rw [gt_iff_lt, UInt16.lt_iff_toNat_lt]
    exact Nat.not_lt.mpr hnum
  rw [clamp, if_neg hle]

/-- What a send under way knows: the ring has room, and the words stored so far are in the slot. -/
def SendOk (n S : ℕ) (q : List (List Word)) (shm : Shm) : SendPc → Prop
  | .idle => True
  | .store val num i => q.length < n ∧ 1 ≤ num.toNat ∧ num.toNat ≤ 8 ∧ val 0 ≠ slotEmpty ∧ 1 ≤ i ∧
      ∀ j, 1 ≤ j → j < i → shm (S % n) j = val j
  | .notify => q.length < n

/-- What a receive under way knows: there is an oldest message, and what was copied is of it. -/
def RecvOk (q : List (List Word)) : RecvPc → Prop
  | .idle => True
  | .copy num got => ∃ xs rest, q = xs :: rest ∧ got.length ≤ asked num ∧
      ∀ (j : ℕ) (x y : Word), xs[j]? = some x → got[j]? = some y → y = x

/-- The queued messages are in their slots, and none of the slots starts with the reserved word. -/
def Taken (n R : ℕ) (q : List (List Word)) (shm : Shm) : Prop :=
  ∀ (k : ℕ) (xs : List Word), q[k]? = some xs → shm ((R + k) % n) 0 ≠ slotEmpty ∧
    ∀ (j : ℕ) (x : Word), xs[j]? = some x → shm ((R + k) % n) j = x

/-- The slots from the next send to the next lap of the receiver are free. -/
def Free (n S R : ℕ) (shm : Shm) : Prop :=
  ∀ i, S ≤ i → i < R + n → shm (i % n) 0 = slotEmpty

/-- One direction after `S` sends and `R` receives, with the messages `q` queued. -/
structure FInv (n S R : ℕ) (q : List (List Word)) (s : Micro) : Prop where
  pos : 0 < n
  sizeTx : s.tx.size.toNat = n
  sizeRx : s.rx.size.toNat = n
  dirTx : s.tx.direction = .send
  dirRx : s.rx.direction = .recv
  posTx : s.tx.pos.toNat = S % n
  posRx : s.rx.pos.toNat = R % n
  count : S = R + q.length
  room : q.length ≤ n
  taken : Taken n R q s.shm
  free : Free n S R s.shm
  send : SendOk n S q s.shm s.spc
  recv : RecvOk q s.rpc

/-- A position of sixteen bits goes around the ring. -/
theorem advance_pos {q : Queue} {n i : ℕ} (hn : 0 < n) (hsize : q.size.toNat = n)
    (hpos : q.pos.toNat = i % n) : q.advance.pos.toNat = (i + 1) % n := by
  have hlt := Nat.mod_lt i hn
  have hbound : n < 65536 := hsize ▸ q.size.toNat_lt
  have hsucc : (q.pos + 1).toNat = i % n + 1 := by
    rw [UInt16.toNat_add, hpos]
    exact Nat.mod_eq_of_lt (by change i % n + 1 < 65536; omega)
  have hiff : q.pos + 1 = q.size ↔ i % n + 1 = n := by
    rw [← UInt16.toNat_inj, hsucc, hsize]
  unfold Queue.advance
  split
  · rename_i hlast
    exact (succ_of_last (hiff.mp hlast)).1.symm
  · rename_i hlast
    exact hsucc.trans (succ_of_not_last hn (fun h => hlast (hiff.mpr h))).1.symm

@[simp] theorem advance_size (q : Queue) : q.advance.size = q.size := by
  unfold Queue.advance
  split <;> rfl

@[simp] theorem advance_direction (q : Queue) : q.advance.direction = q.direction := by
  unfold Queue.advance
  split <;> rfl

/-! ## 2. What the two ends see -/

/-- A reading by a receive that was called for `y.1`. -/
def Reads (xs : List Word) (y : Option UInt16 × List Word) : Prop := Gets xs (asked y.1, y.2)

/-- The sends and the receives of a direction. -/
def MEvent.see : MEvent → Option (Fifo.Ev (List Word) (Option UInt16 × List Word))
  | .sent xs => some (.send xs)
  | .rcvd num ys => some (.recv (num, ys))
  | _ => none

/-- The messages sent along a run of accesses, in order. -/
def sentMsgs (tr : List MEvent) : List (List Word) := Fifo.sends (tr.filterMap MEvent.see)

/-- The receives, in order: what each was called for, and the words it returned. -/
def rcvdMsgs (tr : List MEvent) : List (Option UInt16 × List Word) :=
  Fifo.recvs (tr.filterMap MEvent.see)

theorem sentMsgs_snoc (tr : List MEvent) (e : MEvent) :
    sentMsgs (tr ++ [e]) = sentMsgs tr ++ sentMsgs [e] := by
  simp [sentMsgs, Fifo.sends, List.filterMap_append]

theorem rcvdMsgs_snoc (tr : List MEvent) (e : MEvent) :
    rcvdMsgs (tr ++ [e]) = rcvdMsgs tr ++ rcvdMsgs [e] := by
  simp [rcvdMsgs, Fifo.recvs, List.filterMap_append]

/-- A call of a send or of a notification that found room, with the words of its caller. -/
def MEvent.sending? : MEvent → Option (List Word)
  | .sending xs => some xs
  | _ => none

/-- A call of a receive that found a message, with the `num` of its caller. -/
def MEvent.receiving? : MEvent → Option (Option UInt16)
  | .receiving num => some num
  | _ => none

/-- The message of the call under way. -/
def SendPc.message : SendPc → List (List Word)
  | .idle => []
  | .store val num _ => [(List.range num.toNat).map val]
  | .notify => [[slotNotify]]

/-- What the receive under way was called for. -/
def RecvPc.called : RecvPc → List (Option UInt16)
  | .idle => []
  | .copy num _ => [num]

/-- What was sent and received is what the callers passed, but for the calls under way. -/
structure Called (tr : List MEvent) (s : Micro) : Prop where
  sends : tr.filterMap MEvent.sending? = sentMsgs tr ++ s.spc.message
  recvs : tr.filterMap MEvent.receiving? = (rcvdMsgs tr).map Prod.fst ++ s.rpc.called

theorem Called.snoc {tr : List MEvent} {s s' : Micro} {e : MEvent} (h : Called tr s)
    (hs : s.spc.message ++ e.sending?.toList = sentMsgs [e] ++ s'.spc.message)
    (hr : s.rpc.called ++ e.receiving?.toList = (rcvdMsgs [e]).map Prod.fst ++ s'.rpc.called) :
    Called (tr ++ [e]) s' where
  sends := by
    rw [List.filterMap_append, h.sends, sentMsgs_snoc, List.append_assoc, List.append_assoc, ← hs]
    cases e <;> rfl
  recvs := by
    rw [List.filterMap_append, h.recvs, rcvdMsgs_snoc, List.map_append, List.append_assoc,
      List.append_assoc, ← hr]
    cases e <;> rfl

/-- **Every access keeps account of the calls.** -/
theorem called_step {tr : List MEvent} {s s' : Micro} {a : Act} {e : MEvent} (h : Called tr s)
    (ha : s.act a = some (s', e)) : Called (tr ++ [e]) s' := by
  cases a with
  | check val num =>
    cases hspc : s.spc with
    | idle =>
      simp only [Micro.act, hspc] at ha
      split at ha
      all_goals
        obtain ⟨rfl, rfl⟩ := Prod.mk.inj (Option.some.inj ha)
        exact h.snoc (by rw [hspc]; rfl) (List.append_nil _)
    | store val' num' i => simp [Micro.act, hspc] at ha
    | notify => simp [Micro.act, hspc] at ha
  | checkNotify =>
    cases hspc : s.spc with
    | idle =>
      simp only [Micro.act, hspc] at ha
      split at ha
      all_goals
        obtain ⟨rfl, rfl⟩ := Prod.mk.inj (Option.some.inj ha)
        exact h.snoc (by rw [hspc]; rfl) (List.append_nil _)
    | store val' num' i => simp [Micro.act, hspc] at ha
    | notify => simp [Micro.act, hspc] at ha
  | store =>
    cases hspc : s.spc with
    | idle => simp [Micro.act, hspc] at ha
    | notify => simp [Micro.act, hspc] at ha
    | store val num i =>
      simp only [Micro.act, hspc] at ha
      split at ha
      · obtain ⟨rfl, rfl⟩ := Prod.mk.inj (Option.some.inj ha)
        exact h.snoc (by rw [hspc]; rfl) (List.append_nil _)
      · cases ha
  | publish =>
    cases hspc : s.spc with
    | idle => simp [Micro.act, hspc] at ha
    | notify =>
      simp only [Micro.act, hspc] at ha
      obtain ⟨rfl, rfl⟩ := Prod.mk.inj (Option.some.inj ha)
      exact h.snoc (by rw [hspc]; rfl) (List.append_nil _)
    | store val num i =>
      simp only [Micro.act, hspc] at ha
      split at ha
      · cases ha
      · obtain ⟨rfl, rfl⟩ := Prod.mk.inj (Option.some.inj ha)
        exact h.snoc (by rw [hspc]; rfl) (List.append_nil _)
  | observe num =>
    cases hrpc : s.rpc with
    | copy num' got => simp [Micro.act, hrpc] at ha
    | idle =>
      simp only [Micro.act, hrpc] at ha
      split at ha
      all_goals
        obtain ⟨rfl, rfl⟩ := Prod.mk.inj (Option.some.inj ha)
        exact h.snoc (List.append_nil _) (by rw [hrpc]; rfl)
  | load =>
    cases hrpc : s.rpc with
    | idle => simp [Micro.act, hrpc] at ha
    | copy num got =>
      simp only [Micro.act, hrpc] at ha
      split at ha
      · obtain ⟨rfl, rfl⟩ := Prod.mk.inj (Option.some.inj ha)
        exact h.snoc (List.append_nil _) (by rw [hrpc]; rfl)
      · cases ha
  | clear =>
    cases hrpc : s.rpc with
    | idle => simp [Micro.act, hrpc] at ha
    | copy num got =>
      simp only [Micro.act, hrpc] at ha
      split at ha
      · cases ha
      · obtain ⟨rfl, rfl⟩ := Prod.mk.inj (Option.some.inj ha)
        exact h.snoc (List.append_nil _) (by rw [hrpc]; rfl)

/-- A send of one to eight words that does not start with the reserved word. -/
def Fit : Act → Prop
  | .check val num => 1 ≤ num.toNat ∧ num.toNat ≤ 8 ∧ val 0 ≠ slotEmpty
  | _ => True

/-- The accesses of such calls, in any order. -/
def FitStep (s : Micro) (e : MEvent) (s' : Micro) : Prop := ∃ a, Fit a ∧ s.act a = some (s', e)

/-- A direction between two accesses stands for the FIFO of the messages not cleared. -/
def FRel (n : ℕ) (s : Micro) (q : List (List Word)) : Prop := ∃ S R, FInv n S R q s

section Steps

variable {n S R : ℕ} {q : List (List Word)} {s s' : Micro} {e : MEvent}

/-- A queued message is not in the slot the next one goes to. -/
theorem FInv.slot_ne (h : FInv n S R q s) (hroom : q.length < n) {k : ℕ} (hk : k < q.length) :
    (R + k) % n ≠ S % n := by
  have hcount := h.count
  exact mod_ne_mod (by omega) (by omega)

/-- **The sender finds its slot free just when the ring has room.** -/
theorem FInv.canSend (h : FInv n S R q s) : queueCanSend s.tx s.shm = true ↔ q.length < n := by
  have hcount := h.count
  have hroom := h.room
  simp only [queueCanSend, h.dirTx, h.posTx, beq_self_eq_true, Bool.true_and, beq_iff_eq]
  constructor
  · intro hempty
    by_contra hfull
    have hlen : q.length = n := by omega
    have hpos := h.pos
    obtain ⟨xs, hxs⟩ : ∃ xs, q[0]? = some xs := ⟨q[0], List.getElem?_eq_getElem (by omega)⟩
    have hS : S % n = (R + 0) % n := by rw [hcount, hlen, Nat.add_mod_right, Nat.add_zero]
    rw [hS] at hempty
    exact (h.taken 0 xs hxs).1 hempty
  · intro hlt
    exact h.free S (Nat.le_refl S) (by omega)

/-- **The receiver finds its slot taken just when a message is queued.** -/
theorem FInv.head (h : FInv n S R q s) : s.shm s.rx.pos.toNat 0 = slotEmpty ↔ q = [] := by
  have hcount := h.count
  have hpos := h.pos
  rw [h.posRx]
  constructor
  · intro hempty
    cases q with
    | nil => rfl
    | cons xs rest => exact absurd hempty (h.taken 0 xs rfl).1
  · rintro rfl
    exact h.free R (by simp [hcount]) (by omega)

theorem FInv.canRecv (h : FInv n S R q s) : queueCanRecv s.rx s.shm = true ↔ q ≠ [] := by
  simp [queueCanRecv, h.dirRx, h.head]

/-! ## 3. One access -/

/-- A store into another slot. -/
theorem Taken.store {shm : Shm} (h : Taken n R q shm) {slot i : ℕ} {v : Word}
    (hne : ∀ k, k < q.length → (R + k) % n ≠ slot) : Taken n R q (shm.store slot i v) := by
  intro k xs hk
  have hslot := hne k (List.getElem?_eq_some_iff.mp hk).1
  obtain ⟨h0, hdata⟩ := h k xs hk
  constructor
  · rw [Slots.store_of_ne fun hs => absurd hs hslot]
    exact h0
  · intro j x hx
    rw [Slots.store_of_ne fun hs => absurd hs hslot]
    exact hdata j x hx

/-- One message more, in the next slot. -/
theorem Taken.append {shm : Shm} (h : Taken n R q shm) {xs : List Word}
    (h0 : shm ((R + q.length) % n) 0 ≠ slotEmpty)
    (hxs : ∀ (j : ℕ) (x : Word), xs[j]? = some x → shm ((R + q.length) % n) j = x) :
    Taken n R (q ++ [xs]) shm := by
  intro k ys hk
  by_cases hlt : k < q.length
  · rw [List.getElem?_append_left hlt] at hk
    exact h k ys hk
  · obtain ⟨hk', hky⟩ := List.getElem?_eq_some_iff.mp hk
    simp only [List.length_append, List.length_singleton] at hk'
    obtain rfl : k = q.length := by omega
    rw [List.getElem_concat_length rfl] at hky
    subst hky
    exact ⟨h0, hxs⟩

theorem Taken.tail {shm : Shm} {xs : List Word} (h : Taken n R (xs :: q) shm) :
    Taken n (R + 1) q shm := by
  intro k ys hk
  have := h (k + 1) ys (by simpa using hk)
  rwa [← Nat.add_assoc, Nat.add_right_comm] at this

/-- A store behind the first word of the slot under way touches no queued message. -/
theorem FInv.store (h : FInv n S R q s) (hroom : q.length < n) {i : ℕ} (hi : 1 ≤ i) {v : Word}
    {spc : SendPc} (hsend : SendOk n S q (s.shm.store (S % n) i v) spc) :
    FInv n S R q { s with shm := s.shm.store (S % n) i v, spc := spc } where
  pos := h.pos
  sizeTx := h.sizeTx
  sizeRx := h.sizeRx
  dirTx := h.dirTx
  dirRx := h.dirRx
  posTx := h.posTx
  posRx := h.posRx
  count := h.count
  room := h.room
  taken := h.taken.store fun k hk => h.slot_ne hroom hk
  free := by
    intro j hj hlt
    exact (Slots.store_of_ne fun _ => (Nat.ne_of_gt hi).symm).trans (h.free j hj hlt)
  send := hsend
  recv := h.recv

/-- Writing the first word of the slot under way queues a message. -/
theorem FInv.publish (h : FInv n S R q s) (hroom : q.length < n) {v : Word} (hv : v ≠ slotEmpty)
    {xs : List Word} (hxs : ∀ (j : ℕ) (x : Word), xs[j]? = some x →
      s.shm.store (S % n) 0 v (S % n) j = x) :
    FInv n (S + 1) R (q ++ [xs])
      { s with tx := s.tx.advance, shm := s.shm.store (S % n) 0 v, spc := .idle } where
  pos := h.pos
  sizeTx := by simpa using h.sizeTx
  sizeRx := h.sizeRx
  dirTx := by simpa using h.dirTx
  dirRx := h.dirRx
  posTx := advance_pos h.pos h.sizeTx h.posTx
  posRx := h.posRx
  count := by
    have hcount := h.count
    simp
    omega
  room := by simpa [Nat.succ_le_iff] using hroom
  taken := by
    refine (h.taken.store fun k hk => h.slot_ne hroom hk).append ?_ ?_
    · rw [← h.count, Slots.store_self]
      exact hv
    · rw [← h.count]
      exact hxs
  free := by
    intro i hi hlt
    have hcount := h.count
    have hne : S % n ≠ i % n := mod_ne_mod (by omega) (by omega)
    exact (Slots.store_of_ne fun hs => absurd hs.symm hne).trans (h.free i (by omega) hlt)
  send := trivial
  recv := by
    have hrecv := h.recv
    cases hrpc : s.rpc with
    | idle => trivial
    | copy num got =>
      rw [hrpc] at hrecv
      obtain ⟨ys, rest, rfl, hgot⟩ := hrecv
      exact ⟨ys, rest ++ [xs], rfl, hgot⟩

/-- Putting the reserved word back frees the slot of the oldest message. -/
theorem FInv.clear {xs : List Word} (h : FInv n S R (xs :: q) s) :
    FInv n S (R + 1) q
      { s with rx := s.rx.advance, shm := s.shm.store (R % n) 0 slotEmpty, rpc := .idle } where
  pos := h.pos
  sizeTx := h.sizeTx
  sizeRx := by simpa using h.sizeRx
  dirTx := h.dirTx
  dirRx := by simpa using h.dirRx
  posTx := h.posTx
  posRx := advance_pos h.pos h.sizeRx h.posRx
  count := by
    have hcount := h.count
    simp at hcount
    omega
  room := Nat.le_of_succ_le h.room
  taken := by
    refine h.taken.tail.store fun k hk => ?_
    have hroom := h.room
    simp only [List.length_cons] at hroom
    exact (mod_ne_mod (by omega) (by omega)).symm
  free := by
    intro i hi hlt
    by_cases hslot : i % n = R % n
    · rw [hslot]
      exact Slots.store_self _ _ _ _
    · refine (Slots.store_of_ne fun hs => absurd hs hslot).trans (h.free i hi ?_)
      rcases Nat.lt_or_ge i (R + n) with hlt' | hge
      · exact hlt'
      · -- the slot just freed is the last of the next lap
        obtain rfl : i = R + n := by omega
        exact absurd (Nat.add_mod_right R n) hslot
  send := by
    have hsend := h.send
    cases hspc : s.spc with
    | idle => trivial
    | store val num i =>
      rw [hspc] at hsend
      obtain ⟨hroom, hnum, hmax, hval, hi, hdata⟩ := hsend
      refine ⟨Nat.lt_of_succ_lt hroom, hnum, hmax, hval, hi, ?_⟩
      intro j hj hji
      exact (Slots.store_of_ne fun _ => Nat.ne_of_gt hj).trans (hdata j hj hji)
    | notify =>
      rw [hspc] at hsend
      exact Nat.lt_of_succ_lt hsend
  recv := trivial

/-! ## 4. Every access -/

theorem finv_check {val : Nat → Word} {num : UInt16} (h : FInv n S R q s)
    (hnum : 1 ≤ num.toNat) (hmax : num.toNat ≤ 8) (hval : val 0 ≠ slotEmpty)
    (ha : s.act (.check val num) = some (s', e)) :
    e.see = none ∧ FInv n S R q s' := by
  simp only [Micro.act] at ha
  cases hspc : s.spc with
  | idle =>
    simp only [hspc] at ha
    split at ha
    · rename_i hcan
      obtain ⟨rfl, rfl⟩ := Prod.mk.inj (Option.some.inj ha)
      exact ⟨rfl, { h with
        send := ⟨h.canSend.mp hcan, hnum, hmax, hval, Nat.le_refl 1, fun j h1 h2 => by omega⟩ }⟩
    · obtain ⟨rfl, rfl⟩ := Prod.mk.inj (Option.some.inj ha)
      exact ⟨rfl, h⟩
  | store val num i => simp [hspc] at ha
  | notify => simp [hspc] at ha

theorem finv_checkNotify (h : FInv n S R q s) (ha : s.act .checkNotify = some (s', e)) :
    e.see = none ∧ FInv n S R q s' := by
  simp only [Micro.act] at ha
  cases hspc : s.spc with
  | idle =>
    simp only [hspc] at ha
    split at ha
    · rename_i hcan
      obtain ⟨rfl, rfl⟩ := Prod.mk.inj (Option.some.inj ha)
      exact ⟨rfl, { h with send := h.canSend.mp hcan }⟩
    · obtain ⟨rfl, rfl⟩ := Prod.mk.inj (Option.some.inj ha)
      exact ⟨rfl, h⟩
  | store val num i => simp [hspc] at ha
  | notify => simp [hspc] at ha

theorem finv_store (h : FInv n S R q s) (ha : s.act .store = some (s', e)) :
    e.see = none ∧ FInv n S R q s' := by
  have hsend := h.send
  simp only [Micro.act] at ha
  cases hspc : s.spc with
  | idle => simp [hspc] at ha
  | notify => simp [hspc] at ha
  | store val num i =>
    rw [hspc] at ha hsend
    obtain ⟨hroom, hnum, hmax, hval, hi, hdata⟩ := hsend
    by_cases hlt : i < (clamp num).toNat
    · simp only [hlt, if_true, Option.some.injEq, Prod.mk.injEq, h.posTx] at ha
      obtain ⟨rfl, rfl⟩ := ha
      refine ⟨rfl, h.store hroom hi ⟨hroom, hnum, hmax, hval, Nat.le_succ_of_le hi, ?_⟩⟩
      intro j hj hji
      by_cases hij : j = i
      · rw [hij]
        exact Slots.store_self _ _ _ _
      · exact (Slots.store_of_ne fun _ => hij).trans (hdata j hj (by omega))
    · simp [hlt] at ha

theorem finv_publish (h : FInv n S R q s) (ha : s.act .publish = some (s', e)) :
    ∃ xs, e.see = some (.send xs) ∧ q.length < n ∧ FInv n (S + 1) R (q ++ [xs]) s' := by
  have hsend := h.send
  simp only [Micro.act] at ha
  cases hspc : s.spc with
  | idle => simp [hspc] at ha
  | store val num i =>
    rw [hspc] at ha hsend
    obtain ⟨hroom, hnum, hmax, hval, hi, hdata⟩ := hsend
    by_cases hlt : i < (clamp num).toNat
    · simp [hlt] at ha
    · simp only [hlt, if_false, Option.some.injEq, Prod.mk.injEq, h.posTx] at ha
      obtain ⟨rfl, rfl⟩ := ha
      rw [clamp_of_le hmax] at hlt
      refine ⟨_, rfl, hroom, h.publish hroom hval ?_⟩
      intro j x hx
      obtain ⟨hj, rfl⟩ := List.getElem?_eq_some_iff.mp hx
      simp only [List.length_map, List.length_range] at hj
      simp only [List.getElem_map, List.getElem_range]
      by_cases hzero : j = 0
      · rw [hzero]
        exact Slots.store_self _ _ _ _
      · exact (Slots.store_of_ne fun _ => hzero).trans (hdata j (by omega) (by omega))
  | notify =>
    rw [hspc] at ha hsend
    simp only [Option.some.injEq, Prod.mk.injEq, h.posTx] at ha
    obtain ⟨rfl, rfl⟩ := ha
    refine ⟨_, rfl, hsend, h.publish hsend (by decide) ?_⟩
    intro j x hx
    obtain ⟨hj, rfl⟩ := List.getElem?_eq_some_iff.mp hx
    obtain rfl : j = 0 := by simpa using hj
    exact Slots.store_self _ _ _ _

theorem finv_observe {num : Option UInt16} (h : FInv n S R q s)
    (ha : s.act (.observe num) = some (s', e)) : e.see = none ∧ FInv n S R q s' := by
  simp only [Micro.act] at ha
  cases hrpc : s.rpc with
  | idle =>
    simp only [hrpc] at ha
    split at ha
    · obtain ⟨rfl, rfl⟩ := Prod.mk.inj (Option.some.inj ha)
      exact ⟨rfl, h⟩
    · rename_i htaken
      obtain ⟨rfl, rfl⟩ := Prod.mk.inj (Option.some.inj ha)
      obtain ⟨xs, rest, hq⟩ := List.exists_cons_of_ne_nil (mt h.head.mpr htaken)
      exact ⟨rfl, { h with recv := ⟨xs, rest, hq, Nat.zero_le _, by simp⟩ }⟩
  | copy num got => simp [hrpc] at ha

theorem finv_load (h : FInv n S R q s) (ha : s.act .load = some (s', e)) :
    e.see = none ∧ FInv n S R q s' := by
  have hrecv := h.recv
  simp only [Micro.act, recvWords_eq] at ha
  cases hrpc : s.rpc with
  | idle => simp [hrpc] at ha
  | copy num got =>
    rw [hrpc] at ha hrecv
    obtain ⟨xs, rest, rfl, hlen, hgot⟩ := hrecv
    by_cases hlt : got.length < asked num
    · simp only [hlt, if_true, Option.some.injEq, Prod.mk.injEq] at ha
      obtain ⟨rfl, rfl⟩ := ha
      refine ⟨rfl, { h with recv := ⟨xs, rest, rfl, ?_, ?_⟩ }⟩
      · simpa [Nat.succ_le_iff] using hlt
      intro j x y hx hy
      by_cases hj : j < got.length
      · rw [List.getElem?_append_left hj] at hy
        exact hgot j x y hx hy
      · obtain ⟨hj', hjy⟩ := List.getElem?_eq_some_iff.mp hy
        simp only [List.length_append, List.length_singleton] at hj'
        obtain rfl : j = got.length := by omega
        rw [List.getElem_concat_length rfl] at hjy
        rw [← hjy, h.posRx]
        exact (h.taken 0 xs rfl).2 _ x hx
    · simp [hlt] at ha

theorem finv_clear (h : FInv n S R q s) (ha : s.act .clear = some (s', e)) :
    ∃ xs rest y, e.see = some (.recv y) ∧ q = xs :: rest ∧ Reads xs y ∧
      FInv n S (R + 1) rest s' := by
  have hrecv := h.recv
  simp only [Micro.act, recvWords_eq] at ha
  cases hrpc : s.rpc with
  | idle => simp [hrpc] at ha
  | copy num got =>
    rw [hrpc] at ha hrecv
    obtain ⟨xs, rest, rfl, hlen, hgot⟩ := hrecv
    by_cases hlt : got.length < asked num
    · simp [hlt] at ha
    · simp only [hlt, if_false, Option.some.injEq, Prod.mk.injEq, h.posRx] at ha
      obtain ⟨rfl, rfl⟩ := ha
      have hnum : got.length = asked num := by omega
      exact ⟨xs, rest, (num, got), rfl, rfl, ⟨hnum, agree_of_getElem? hgot⟩, h.clear⟩

/-- **Every access is a step of the bounded FIFO, or invisible to it.** -/
theorem frel_step (h : FRel n s q) (hstep : FitStep s e s') :
    ∃ q', FRel n s' q' ∧ Run.Follows (Fifo.Bounded n Reads) q e.see q' := by
  obtain ⟨S, R, h⟩ := h
  obtain ⟨a, hfit, ha⟩ := hstep
  have hkeep : e.see = none ∧ FInv n S R q s' →
      ∃ q', FRel n s' q' ∧ Run.Follows (Fifo.Bounded n Reads) q e.see q' := by
    rintro ⟨hsee, h'⟩
    exact ⟨q, ⟨S, R, h'⟩, by rw [hsee]; rfl⟩
  cases a with
  | check val num => exact hkeep (finv_check h hfit.1 hfit.2.1 hfit.2.2 ha)
  | checkNotify => exact hkeep (finv_checkNotify h ha)
  | store => exact hkeep (finv_store h ha)
  | publish =>
    obtain ⟨xs, hsee, hroom, h'⟩ := finv_publish h ha
    exact ⟨q ++ [xs], ⟨S + 1, R, h'⟩, by rw [hsee]; exact .send hroom⟩
  | observe num => exact hkeep (finv_observe h ha)
  | load => exact hkeep (finv_load h ha)
  | clear =>
    obtain ⟨xs, rest, y, hsee, rfl, hreads, h'⟩ := finv_clear h ha
    exact ⟨rest, ⟨S, R + 1, h'⟩, by rw [hsee]; exact .recv h.room hreads⟩

end Steps

/-! ## 5. The queue pair -/

/-- The slots after the loop of `smlt_ffq_queue_init_tx`. -/
theorem clearSlots_spec (shm : Shm) (slots : ℕ) {i : ℕ} (hi : i < slots) :
    clearSlots shm slots i 0 = slotEmpty := by
  induction slots with
  | zero => omega
  | succ slots ih =>
    have hlast : clearSlots shm (slots + 1) =
        (clearSlots shm slots).store slots 0 slotEmpty := by
      simp [clearSlots, List.range_succ]
    rw [hlast]
    by_cases heq : i = slots
    · rw [heq]
      exact Slots.store_self _ _ _ _
    · exact (Slots.store_of_ne fun hs => absurd hs heq).trans (ih (by omega))

/-- A new direction, outside all calls. -/
theorem finv_init {alloc : Side → Option Shm} {numSlots : UInt16} {w : World}
    (hslots : 1 ≤ numSlots.toNat) (h : queuepairInit alloc numSlots = .ok w) (d : Side) :
    FInv numSlots.toNat 0 0 [] (Micro.init w d) := by
  have hfresh : ∀ (region : Side) (shm : Shm), FInv numSlots.toNat 0 0 []
      { tx := { slots := region, size := numSlots, pos := 0, direction := .send }
        rx := { slots := region, size := numSlots, pos := 0, direction := .recv }
        shm := clearSlots shm numSlots.toNat, spc := .idle, rpc := .idle } := by
    intro region shm
    refine ⟨hslots, rfl, rfl, rfl, rfl, (Nat.zero_mod _).symm, (Nat.zero_mod _).symm, rfl,
      Nat.zero_le _, fun k xs hk => by simp at hk, fun i _ hi => ?_, trivial, trivial⟩
    rw [Nat.zero_add] at hi
    rw [Nat.mod_eq_of_lt hi]
    exact clearSlots_spec shm _ hi
  unfold queuepairInit at h
  split at h
  · cases h
  · simp only [queueInitTx, queueInitRx] at h
    split at h
    · cases h
    · obtain rfl := Except.ok.inj h
      cases d <;> exact hfresh _ _

theorem frel_init {alloc : Side → Option Shm} {numSlots : UInt16} {w : World}
    (hslots : 1 ≤ numSlots.toNat) (h : queuepairInit alloc numSlots = .ok w) (d : Side) :
    FRel numSlots.toNat (Micro.init w d) [] := ⟨0, 0, finv_init hslots h d⟩

/-- **The FastForward queue pair is a bounded FIFO.**  For every size, in each direction, along
every interleaving of the accesses of the two ends, with messages of one to eight words that do not
start with the reserved word: the messages sent and the counts received with are those the callers
passed, in order; the `k`-th receive returns as many words as it was called for, a slot having
eight, and they are those of the `k`-th send as far as both go, so its first words if it had so
many; at most `size` messages are outstanding; and `can_recv` answers whether one is, at whatever
point the two ends stand. -/
theorem ffq_refines_fifo {alloc : Side → Option Shm} {numSlots : UInt16} {w : World}
    (hslots : 1 ≤ numSlots.toNat) (hinit : queuepairInit alloc numSlots = .ok w) (d : Side)
    {tr : List MEvent} {s : Micro} (hrun : Run FitStep (Micro.init w d) tr s) :
    (sentMsgs tr <+: tr.filterMap MEvent.sending? ∧
        (rcvdMsgs tr).map Prod.fst <+: tr.filterMap MEvent.receiving?) ∧
      (∀ (k : ℕ) (num : Option UInt16) (ys : List Word), (rcvdMsgs tr)[k]? = some (num, ys) →
        ∃ xs, (sentMsgs tr)[k]? = some xs ∧ ys.length = asked num ∧ Agree xs ys ∧
          (asked num ≤ xs.length → ys = xs.take (asked num))) ∧
      (queueCanRecv s.rx s.shm = true ↔ (rcvdMsgs tr).length < (sentMsgs tr).length) ∧
      (sentMsgs tr).length ≤ (rcvdMsgs tr).length + numSlots.toNat := by
  have hcalled : Called tr s := Run.induct Called ⟨rfl, rfl⟩
    (fun _ _ _ _ h hs => called_step h hs.choose_spec.2) hrun
  obtain ⟨q, ⟨S, R, h⟩, hfifo⟩ :=
    Run.simulates (frel_init hslots hinit d) (fun _ _ _ _ hR hs => frel_step hR hs) hrun
  obtain ⟨hk, hlen, hroom⟩ := Fifo.bounded_spec
    (show Run (Fifo.Bounded numSlots.toNat Reads) [] (tr.filterMap MEvent.see) q from hfifo)
  have hlen : (sentMsgs tr).length = (rcvdMsgs tr).length + q.length := hlen
  refine ⟨⟨⟨_, hcalled.sends.symm⟩, ⟨_, hcalled.recvs.symm⟩⟩, ?_, ?_, by omega⟩
  · intro k num ys hy
    obtain ⟨xs, hxs, hgets⟩ := hk k (num, ys) hy
    exact ⟨xs, hxs, hgets.1, hgets.2, hgets.eq_take⟩
  · rw [h.canRecv, hlen, ← List.length_pos_iff_ne_nil]
    omega

instance : DecidablePred Fit
  | .check val num => inferInstanceAs (Decidable (1 ≤ num.toNat ∧ num.toNat ≤ 8 ∧
      val 0 ≠ slotEmpty))
  | .checkNotify | .store | .publish | .observe _ | .load | .clear => .isTrue trivial

/-- An access of a call that fits. -/
def Micro.fitAct (s : Micro) (a : Act) : Option (Micro × MEvent) :=
  if Fit a then s.act a else none

theorem fitStep_of_act (s : Micro) (a : Act) (s' : Micro) (e : MEvent)
    (h : s.fitAct a = some (s', e)) : FitStep s e s' := by
  unfold Micro.fitAct at h
  split at h
  · exact ⟨a, ‹_›, h⟩
  · cases h

/-- On a ring of one slot: a send of two words, a receive that comes too early, and a send that
comes before the first word is cleared. -/
def tightActs : List Act :=
  [.check (fun i => i.toUInt64 + 7) 2, .observe (some 2), .store, .publish, .observe (some 1),
    .checkNotify, .load, .clear, .checkNotify, .publish]

def tightTrace : List MEvent :=
  [.sending [7, 8], .empty, .quiet, .sent [7, 8], .receiving (some 1), .full, .quiet,
    .rcvd (some 1) [7], .sending [0], .sent [0]]

theorem ffq_refines_fifo_tight :
    ∃ w s, queuepairInit (fun _ => some fun _ _ => 0) 1 = .ok w ∧
      Run.drive Micro.fitAct (Micro.init w .src) tightActs = some (tightTrace, s) ∧
      (∀ (k : ℕ) (num : Option UInt16) (ys : List Word),
        (rcvdMsgs tightTrace)[k]? = some (num, ys) →
        ∃ xs, (sentMsgs tightTrace)[k]? = some xs ∧ ys.length = asked num ∧ Agree xs ys ∧
          (asked num ≤ xs.length → ys = xs.take (asked num))) ∧
      queueCanRecv s.rx s.shm = true := by
  obtain ⟨w, s, hinit, hdrive⟩ : ∃ w s, queuepairInit (fun _ => some fun _ _ => 0) 1 = .ok w ∧
      Run.drive Micro.fitAct (Micro.init w .src) tightActs = some (tightTrace, s) :=
    ⟨_, _, rfl, rfl⟩
  have h := ffq_refines_fifo (by decide : 1 ≤ (1 : UInt16).toNat) hinit .src
    (Run.of_drive fitStep_of_act hdrive)
  exact ⟨w, s, hinit, hdrive, h.2.1, h.2.2.1.mpr (by decide)⟩

end Smelt.Ffq
