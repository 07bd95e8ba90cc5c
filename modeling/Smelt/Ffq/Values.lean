/-
# Which payloads the FastForward queue delivers

A slot is free when its first word is `SMLT_FFQ_SLOT_EMPTY`, and that word is the message's own.
Nothing keeps a message from starting with it: `smlt_ffq_queue_send_raw` stores it, moves on and
returns `SMLT_SUCCESS`, and the slot is as free as before.

* Without such a message the queue is the FIFO of `Refine.lean`, and a receiver that keeps calling
  gets everything that is outstanding (`FInv.delivers`).
* With one, a message is gone for good.  Every receive takes a slot that a message with another
  first word has filled (`Tally`), so there are never more receives than such messages.

Together they say exactly when a queue delivers (`ffq_delivers_iff`).  The runs are of single
accesses, in any order, so the state before the send is any that the two ends can reach.
-/
import Smelt.Ffq.Backend
import Mathlib.Data.Finset.Card

namespace Smelt.Ffq

open Ring

/-! ## 1. A receiver that keeps calling -/

/-- `k` calls of `smlt_ffq_queue_recv_raw`, one after the other, and the messages they got. -/
def keepReceiving (num : Option UInt16) : ℕ → Queue → Shm → Queue × Shm × List (List Word)
  | 0, rx, shm => (rx, shm, [])
  | k + 1, rx, shm =>
    match queueRecvRaw rx shm num with
    | (rx, shm, .error _) => keepReceiving num k rx shm
    | (rx, shm, .ok ys) =>
      let r := keepReceiving num k rx shm
      (r.1, r.2.1, ys :: r.2.2)

/-- A receiver that keeps calling gets the outstanding messages, in order, and nothing else, each in
as many words as it was called for and a slot has, and stands where the sender stands. -/
def Delivers (outstanding : List (List Word)) (tx rx : Queue) (shm : Shm) : Prop :=
  ∀ (num : Option UInt16) (k : ℕ), outstanding.length ≤ k →
    List.Forall₂ (fun xs ys => Reads xs (num, ys)) outstanding
        (keepReceiving num k rx shm).2.2 ∧
      (keepReceiving num k rx shm).1.pos = tx.pos

/-- The message does not start with the reserved word. -/
def Kept (xs : List Word) : Prop := xs.head? ≠ some slotEmpty

instance : DecidablePred Kept := fun xs => inferInstanceAs (Decidable (xs.head? ≠ some slotEmpty))

theorem sentMsgs_sent (tr : List MEvent) (xs : List Word) :
    sentMsgs (tr ++ [.sent xs]) = sentMsgs tr ++ [xs] := sentMsgs_snoc _ _

theorem rcvdMsgs_sent (tr : List MEvent) (xs : List Word) :
    rcvdMsgs (tr ++ [.sent xs]) = rcvdMsgs tr := by
  rw [rcvdMsgs_snoc]
  exact List.append_nil _

theorem sentMsgs_rcvd (tr : List MEvent) (num : Option UInt16) (ys : List Word) :
    sentMsgs (tr ++ [.rcvd num ys]) = sentMsgs tr := by
  rw [sentMsgs_snoc]
  exact List.append_nil _

theorem rcvdMsgs_rcvd (tr : List MEvent) (num : Option UInt16) (ys : List Word) :
    rcvdMsgs (tr ++ [.rcvd num ys]) = rcvdMsgs tr ++ [(num, ys)] := rcvdMsgs_snoc _ _

/-- A message of at least one word is kept when its first word is not the reserved one. -/
theorem kept_map (val : Nat → Word) {num : ℕ} (hnum : 1 ≤ num) :
    Kept ((List.range num).map val) ↔ val 0 ≠ slotEmpty := by
  obtain ⟨k, rfl⟩ : ∃ k, num = k + 1 := ⟨num - 1, by omega⟩
  simp [Kept, List.range_succ_eq_map]

/-! ## 2. Without the reserved word -/

section Kept

variable {n S R : ℕ} {q : List (List Word)} {s : Micro}

/-- **The receiver gets the queued messages**, when it calls often enough. -/
theorem FInv.keepReceiving (h : FInv n S R q s) (hidle : s.rpc = .idle) (num : Option UInt16)
    {k : ℕ} (hk : q.length ≤ k) :
    List.Forall₂ (fun xs ys => Reads xs (num, ys)) q
        (keepReceiving num k s.rx s.shm).2.2 ∧
      (Ffq.keepReceiving num k s.rx s.shm).1.pos.toNat = S % n := by
  induction k generalizing q R s with
  | zero =>
    obtain rfl : q = [] := List.length_eq_zero_iff.mp (Nat.le_zero.mp hk)
    have hcount := h.count
    exact ⟨.nil, by rw [Ffq.keepReceiving, h.posRx, hcount, List.length_nil, Nat.add_zero]⟩
  | succ k ih =>
    cases q with
    | nil =>
      simp only [Ffq.keepReceiving, h.recvRaw_nil num]
      exact ih h hidle (Nat.zero_le k)
    | cons xs rest =>
      have htaken : s.shm s.rx.pos.toNat 0 ≠ slotEmpty := fun he => by simpa using h.head.mp he
      have hnext := h.recvRaw hidle num
      obtain ⟨hreads, hpos⟩ := ih hnext hidle (Nat.le_of_succ_le_succ hk)
      have hagree : Agree xs ((List.range (recvWords num)).map (s.shm s.rx.pos.toNat)) := by
        refine agree_of_getElem? fun j x y hx hy => ?_
        obtain ⟨hj, rfl⟩ := List.getElem?_eq_some_iff.mp hy
        simp only [List.getElem_map, List.getElem_range, h.posRx]
        exact (h.taken 0 xs rfl).2 j x hx
      simp only [queueRecvRaw, htaken, if_false] at hreads hpos
      simp only [Ffq.keepReceiving, queueRecvRaw, htaken, if_false]
      exact ⟨.cons ⟨by simp [recvWords_eq], hagree⟩ hreads, hpos⟩

/-- So the queue delivers. -/
theorem FInv.delivers (h : FInv n S R q s) (hidle : s.rpc = .idle) :
    Delivers q s.tx s.rx s.shm := by
  intro num k hk
  obtain ⟨hreads, hpos⟩ := h.keepReceiving hidle num hk
  exact ⟨hreads, UInt16.toNat_inj.mp (hpos.trans h.posTx.symm)⟩

end Kept

/-- The calls the queue is for: sends of one to eight words, whatever the words are. -/
def Sized : Act → Prop
  | .check _ num => 1 ≤ num.toNat ∧ num.toNat ≤ 8
  | _ => True

/-- The accesses of such calls, in any order. -/
def SizedStep (s : Micro) (e : MEvent) (s' : Micro) : Prop := ∃ a, Sized a ∧ s.act a = some (s', e)

/-- A send under way will store the reserved word. -/
def Reserved : SendPc → Prop
  | .store val num _ => 1 ≤ num.toNat ∧ val 0 = slotEmpty
  | _ => False

/-- Such a send stays under way until it is done, and then it shows. -/
theorem reserved_step {s s' : Micro} {a : Act} {e : MEvent} (h : Reserved s.spc)
    (ha : s.act a = some (s', e)) : Reserved s'.spc ∨ ∃ xs ∈ sentMsgs [e], ¬ Kept xs := by
  cases hspc : s.spc with
  | idle => simp [hspc, Reserved] at h
  | notify => simp [hspc, Reserved] at h
  | store val num i =>
    rw [hspc] at h
    obtain ⟨hnum, hval⟩ := h
    cases a with
    | check val' num' => simp [Micro.act, hspc] at ha
    | checkNotify => simp [Micro.act, hspc] at ha
    | store =>
      simp only [Micro.act, hspc] at ha
      split at ha
      · obtain ⟨rfl, -⟩ := Prod.mk.inj (Option.some.inj ha)
        exact .inl ⟨hnum, hval⟩
      · cases ha
    | publish =>
      simp only [Micro.act, hspc] at ha
      split at ha
      · cases ha
      · obtain ⟨-, rfl⟩ := Prod.mk.inj (Option.some.inj ha)
        exact .inr ⟨_, List.mem_singleton_self _, fun hkept => (kept_map _ hnum).mp hkept hval⟩
    | observe num' =>
      cases hrpc : s.rpc with
      | copy num' got => simp [Micro.act, hrpc] at ha
      | idle =>
        simp only [Micro.act, hrpc] at ha
        split at ha
        all_goals
          obtain ⟨rfl, -⟩ := Prod.mk.inj (Option.some.inj ha)
          exact .inl (by simpa [hspc] using ⟨hnum, hval⟩)
    | load =>
      cases hrpc : s.rpc with
      | idle => simp [Micro.act, hrpc] at ha
      | copy num' got =>
        simp only [Micro.act, hrpc] at ha
        split at ha
        · obtain ⟨rfl, -⟩ := Prod.mk.inj (Option.some.inj ha)
          exact .inl (by simpa [hspc] using ⟨hnum, hval⟩)
        · cases ha
    | clear =>
      cases hrpc : s.rpc with
      | idle => simp [Micro.act, hrpc] at ha
      | copy num' got =>
        simp only [Micro.act, hrpc] at ha
        split at ha
        · cases ha
        · obtain ⟨rfl, -⟩ := Prod.mk.inj (Option.some.inj ha)
          exact .inl (by simpa [hspc] using ⟨hnum, hval⟩)

/-- Any other access could be one of a send that fits. -/
theorem fitStep_or_reserved {s s' : Micro} {a : Act} {e : MEvent} (hsized : Sized a)
    (ha : s.act a = some (s', e)) : FitStep s e s' ∨ Reserved s'.spc := by
  cases a with
  | check val num =>
    by_cases hval : val 0 = slotEmpty
    · cases hspc : s.spc with
      | idle =>
        simp only [Micro.act, hspc] at ha
        split at ha
        · obtain ⟨rfl, rfl⟩ := Prod.mk.inj (Option.some.inj ha)
          exact .inr ⟨hsized.1, hval⟩
        · -- refused: the words were not looked at
          rename_i hfull
          exact .inl ⟨.check (fun _ => 0) 1, ⟨by decide, by decide, by decide⟩, by
            simpa only [Micro.act, hspc, if_neg hfull] using ha⟩
      | store val' num' i => simp [Micro.act, hspc] at ha
      | notify => simp [Micro.act, hspc] at ha
    · exact .inl ⟨.check val num, ⟨hsized.1, hsized.2, hval⟩, ha⟩
  | checkNotify => exact .inl ⟨.checkNotify, trivial, ha⟩
  | store => exact .inl ⟨.store, trivial, ha⟩
  | publish => exact .inl ⟨.publish, trivial, ha⟩
  | observe num => exact .inl ⟨.observe num, trivial, ha⟩
  | load => exact .inl ⟨.load, trivial, ha⟩
  | clear => exact .inl ⟨.clear, trivial, ha⟩

/-- **A run that sent no message with the reserved word** is a run of sends that fit, until a send
of one is under way. -/
theorem fitRun_or_reserved {s₀ s : Micro} {tr : List MEvent} (hrun : Run SizedStep s₀ tr s)
    (hkept : ∀ xs ∈ sentMsgs tr, Kept xs) : Run FitStep s₀ tr s ∨ Reserved s.spc := by
  induction hrun with
  | nil => exact .inl .nil
  | @snoc tr s s' e _ hstep ih =>
    obtain ⟨a, hsized, ha⟩ := hstep
    rw [sentMsgs_snoc] at hkept
    rcases ih fun xs hxs => hkept xs (List.mem_append_left _ hxs) with hfit | hres
    · rcases fitStep_or_reserved hsized ha with hs | hs
      · exact .inl (hfit.snoc hs)
      · exact .inr hs
    · rcases reserved_step hres ha with hs | ⟨xs, hxs, hlost⟩
      · exact .inr hs
      · exact absurd (hkept xs (List.mem_append_right _ hxs)) hlost

/-! ## 3. With it -/

/-- The slots that a receiver can take. -/
def occupied (n : ℕ) (shm : Shm) : Finset ℕ :=
  (Finset.range n).filter fun slot => shm slot 0 ≠ slotEmpty

section Occupied

variable {n slot : ℕ} {shm : Shm}

/-- A store behind the first word of a slot. -/
theorem occupied_store_rest {i : ℕ} (hi : 1 ≤ i) (v : Word) :
    occupied n (shm.store slot i v) = occupied n shm := by
  refine Finset.filter_congr fun t _ => ?_
  rw [Slots.store_of_ne fun _ => by omega]

/-- A first word stored into a free slot. -/
theorem card_occupied_fill (hslot : slot < n) (hfree : shm slot 0 = slotEmpty) (v : Word) :
    (occupied n (shm.store slot 0 v)).card =
      (occupied n shm).card + if v = slotEmpty then 0 else 1 := by
  by_cases hv : v = slotEmpty
  · rw [if_pos hv, Nat.add_zero]
    congr 1
    refine Finset.filter_congr fun t _ => ?_
    by_cases ht : t = slot
    · rw [ht, Slots.store_self, hv, hfree]
    · rw [Slots.store_of_ne fun h => absurd h ht]
  · have hnew : occupied n (shm.store slot 0 v) = insert slot (occupied n shm) := by
      ext t
      simp only [occupied, Finset.mem_filter, Finset.mem_range, Finset.mem_insert]
      by_cases ht : t = slot
      · rw [ht, Slots.store_self]
        simp [hslot, hv]
      · rw [Slots.store_of_ne fun h => absurd h ht]
        simp [ht]
    rw [hnew, if_neg hv, Finset.card_insert_of_notMem]
    simp [occupied, hfree]

/-- The reserved word put back into a taken slot. -/
theorem card_occupied_clear (hslot : slot < n) (htaken : shm slot 0 ≠ slotEmpty) :
    (occupied n (shm.store slot 0 slotEmpty)).card + 1 = (occupied n shm).card := by
  have hold : occupied n (shm.store slot 0 slotEmpty) = (occupied n shm).erase slot := by
    ext t
    simp only [occupied, Finset.mem_filter, Finset.mem_range, Finset.mem_erase]
    by_cases ht : t = slot
    · rw [ht, Slots.store_self]
      simp
    · rw [Slots.store_of_ne fun h => absurd h ht]
      simp [ht]
  rw [hold]
  exact Finset.card_erase_add_one (Finset.mem_filter.mpr ⟨Finset.mem_range.mpr hslot, htaken⟩)

end Occupied

/-- What every run of accesses keeps: the taken slots and the messages received are as many as the
messages sent that do not start with the reserved word. -/
structure Tally (n : ℕ) (tr : List MEvent) (s : Micro) : Prop where
  sizeTx : s.tx.size.toNat = n
  sizeRx : s.rx.size.toNat = n
  posTx : s.tx.pos.toNat < n
  posRx : s.rx.pos.toNat < n
  /-- a send under way has found its slot free -/
  free : s.spc ≠ .idle → s.shm s.tx.pos.toNat 0 = slotEmpty
  stores : ∀ val num i, s.spc = .store val num i → 1 ≤ num.toNat ∧ 1 ≤ i
  /-- a receive under way has found its slot taken -/
  taken : s.rpc ≠ .idle → s.shm s.rx.pos.toNat 0 ≠ slotEmpty
  count : (occupied n s.shm).card + (rcvdMsgs tr).length = (sentMsgs tr).countP Kept

/-- A position stays on the ring. -/
theorem advance_lt {q : Queue} {n : ℕ} (hsize : q.size.toNat = n) (hpos : q.pos.toNat < n) :
    q.advance.pos.toNat < n := by
  have hnext := advance_pos (i := q.pos.toNat) (by omega) hsize (Nat.mod_eq_of_lt hpos).symm
  rw [hnext]
  exact Nat.mod_lt _ (by omega)

section Tally

variable {n : ℕ} {tr : List MEvent} {s s' : Micro} {e : MEvent}

/-- An event that shows nothing. -/
theorem Tally.quiet (h : Tally n tr s) (hs : sentMsgs [e] = []) (hr : rcvdMsgs [e] = []) :
    Tally n (tr ++ [e]) s :=
  { h with count := by simpa [sentMsgs_snoc, rcvdMsgs_snoc, hs, hr] using h.count }

/-- A first word stored, whatever it is. -/
theorem Tally.publish (h : Tally n tr s) (hfree : s.shm s.tx.pos.toNat 0 = slotEmpty) {v : Word}
    {xs : List Word} (hv : Kept xs ↔ v ≠ slotEmpty) :
    Tally n (tr ++ [.sent xs])
      { s with tx := s.tx.advance, shm := s.shm.store s.tx.pos.toNat 0 v, spc := .idle } where
  sizeTx := by simpa using h.sizeTx
  sizeRx := h.sizeRx
  posTx := advance_lt h.sizeTx h.posTx
  posRx := h.posRx
  free := fun hbusy => absurd rfl hbusy
  stores := fun val num i hspc => by cases hspc
  taken := by
    intro hbusy
    have htaken := h.taken hbusy
    -- the slot just filled was free, so it is another one
    have hne : s.rx.pos.toNat ≠ s.tx.pos.toNat := fun heq => htaken (heq ▸ hfree)
    exact fun he => htaken ((Slots.store_of_ne fun hs => absurd hs hne).symm.trans he)
  count := by
    have hcount := h.count
    have hfill := card_occupied_fill h.posTx hfree v
    have hsent : (sentMsgs (tr ++ [.sent xs])).countP Kept =
        (sentMsgs tr).countP Kept + if v = slotEmpty then 0 else 1 := by
      rw [sentMsgs_sent, List.countP_append, List.countP_singleton]
      by_cases hval : v = slotEmpty <;> simp [hv, hval]
    rw [rcvdMsgs_sent, hsent]
    simp only
    omega

/-- The reserved word put back. -/
theorem Tally.clear (h : Tally n tr s) (htaken : s.shm s.rx.pos.toNat 0 ≠ slotEmpty)
    (num : Option UInt16) (ys : List Word) :
    Tally n (tr ++ [.rcvd num ys])
      { s with rx := s.rx.advance, shm := s.shm.store s.rx.pos.toNat 0 slotEmpty,
               rpc := .idle } where
  sizeTx := h.sizeTx
  sizeRx := by simpa using h.sizeRx
  posTx := h.posTx
  posRx := advance_lt h.sizeRx h.posRx
  free := by
    intro hbusy
    have hfree := h.free hbusy
    have hne : s.tx.pos.toNat ≠ s.rx.pos.toNat := fun heq => htaken (heq ▸ hfree)
    exact (Slots.store_of_ne fun hs => absurd hs hne).trans hfree
  stores := h.stores
  taken := fun hbusy => absurd rfl hbusy
  count := by
    have hcount := h.count
    have hclear := card_occupied_clear h.posRx htaken
    rw [sentMsgs_rcvd, rcvdMsgs_rcvd, List.length_append, List.length_singleton]
    simp only
    omega

/-- A send or a notification that found its slot free is under way. -/
theorem Tally.started (h : Tally n tr s) (hcan : queueCanSend s.tx s.shm = true) {spc : SendPc}
    (hstores : ∀ val num i, spc = .store val num i → 1 ≤ num.toNat ∧ 1 ≤ i) (xs : List Word) :
    Tally n (tr ++ [.sending xs]) { s with spc := spc } := by
  have hfree : s.shm s.tx.pos.toNat 0 = slotEmpty := by
    simp only [queueCanSend, Bool.and_eq_true, beq_iff_eq] at hcan
    exact hcan.2
  exact Tally.quiet { h with free := fun _ => hfree, stores := hstores } rfl rfl

/-- A store behind the first word changes no first word. -/
theorem Tally.store (h : Tally n tr s) {val : Nat → Word} {num : UInt16} {i : ℕ}
    (hspc : s.spc = .store val num i) (v : Word) :
    Tally n (tr ++ [.quiet])
      { s with shm := s.shm.store s.tx.pos.toNat i v, spc := .store val num (i + 1) } := by
  obtain ⟨hnum, hi⟩ := h.stores val num i hspc
  have hfirst : ∀ slot, s.shm.store s.tx.pos.toNat i v slot 0 = s.shm slot 0 :=
    fun slot => Slots.store_of_ne fun _ => by omega
  refine Tally.quiet { h with free := fun _ => ?_, stores := ?_, taken := ?_, count := ?_ }
    rfl rfl
  · exact (hfirst _).trans (h.free (by simp [hspc]))
  · rintro val' num' j hstore
    cases hstore
    exact ⟨hnum, Nat.le_succ_of_le hi⟩
  · exact fun hbusy he => h.taken hbusy ((hfirst _).symm.trans he)
  · rw [occupied_store_rest hi]
    exact h.count

/-- **Every access keeps the tally.** -/
theorem Tally.step (h : Tally n tr s) (hstep : SizedStep s e s') : Tally n (tr ++ [e]) s' := by
  obtain ⟨a, hsized, ha⟩ := hstep
  cases a with
  | check val num =>
    cases hspc : s.spc with
    | idle =>
      simp only [Micro.act, hspc] at ha
      split at ha
      · rename_i hcan
        obtain ⟨rfl, rfl⟩ := Prod.mk.inj (Option.some.inj ha)
        refine h.started hcan ?_ _
        rintro val' num' i hstore
        cases hstore
        exact ⟨hsized.1, Nat.le_refl 1⟩
      · obtain ⟨rfl, rfl⟩ := Prod.mk.inj (Option.some.inj ha)
        exact h.quiet rfl rfl
    | store val' num' i => simp [Micro.act, hspc] at ha
    | notify => simp [Micro.act, hspc] at ha
  | checkNotify =>
    cases hspc : s.spc with
    | idle =>
      simp only [Micro.act, hspc] at ha
      split at ha
      · rename_i hcan
        obtain ⟨rfl, rfl⟩ := Prod.mk.inj (Option.some.inj ha)
        exact h.started hcan (fun _ _ _ hnotify => by cases hnotify) _
      · obtain ⟨rfl, rfl⟩ := Prod.mk.inj (Option.some.inj ha)
        exact h.quiet rfl rfl
    | store val' num' i => simp [Micro.act, hspc] at ha
    | notify => simp [Micro.act, hspc] at ha
  | store =>
    cases hspc : s.spc with
    | idle => simp [Micro.act, hspc] at ha
    | notify => simp [Micro.act, hspc] at ha
    | store val num i =>
      simp only [Micro.act, hspc] at ha
      split at ha
      · obtain ⟨rfl, rfl⟩ := Prod.mk.inj (Option.some.inj ha)
        exact h.store hspc (val i)
      · cases ha
  | publish =>
    cases hspc : s.spc with
    | idle => simp [Micro.act, hspc] at ha
    | notify =>
      simp only [Micro.act, hspc] at ha
      obtain ⟨rfl, rfl⟩ := Prod.mk.inj (Option.some.inj ha)
      exact h.publish (h.free (by simp [hspc])) (by decide)
    | store val num i =>
      obtain ⟨hnum, hi⟩ := h.stores val num i hspc
      simp only [Micro.act, hspc] at ha
      split at ha
      · cases ha
      · obtain ⟨rfl, rfl⟩ := Prod.mk.inj (Option.some.inj ha)
        exact h.publish (h.free (by simp [hspc])) (kept_map _ hnum)
  | observe num =>
    cases hrpc : s.rpc with
    | copy num' got => simp [Micro.act, hrpc] at ha
    | idle =>
      simp only [Micro.act, hrpc] at ha
      split at ha
      · obtain ⟨rfl, rfl⟩ := Prod.mk.inj (Option.some.inj ha)
        exact h.quiet rfl rfl
      · rename_i htaken
        obtain ⟨rfl, rfl⟩ := Prod.mk.inj (Option.some.inj ha)
        exact Tally.quiet { h with taken := fun _ => htaken } rfl rfl
  | load =>
    cases hrpc : s.rpc with
    | idle => simp [Micro.act, hrpc] at ha
    | copy num got =>
      simp only [Micro.act, hrpc] at ha
      split at ha
      · obtain ⟨rfl, rfl⟩ := Prod.mk.inj (Option.some.inj ha)
        exact Tally.quiet { h with taken := fun _ => h.taken (by simp [hrpc]) } rfl rfl
      · cases ha
  | clear =>
    cases hrpc : s.rpc with
    | idle => simp [Micro.act, hrpc] at ha
    | copy num got =>
      simp only [Micro.act, hrpc] at ha
      split at ha
      · cases ha
      · obtain ⟨rfl, rfl⟩ := Prod.mk.inj (Option.some.inj ha)
        exact h.clear (h.taken (by simp [hrpc])) num got

/-- A send as a whole. -/
theorem Tally.sendRaw (h : Tally n tr s) (val : Nat → Word) {num : UInt16} (hnum : 1 ≤ num.toNat)
    (hcan : queueCanSend s.tx s.shm = true) (hidle : s.spc = .idle) :
    Tally n (tr ++ [.sent ((List.range num.toNat).map val)])
      { s with
        tx := (queueSendRaw s.tx s.shm val num).1
        shm := (queueSendRaw s.tx s.shm val num).2.1 } := by
  have hfree : s.shm s.tx.pos.toNat 0 = slotEmpty := by
    simp only [queueCanSend, Bool.and_eq_true, beq_iff_eq] at hcan
    exact hcan.2
  have hfirst : ∀ slot, storeRest s.shm s.tx.pos.toNat val (clamp num).toNat slot 0 =
      s.shm slot 0 := by
    intro slot
    by_cases hslot : slot = s.tx.pos.toNat
    · rw [hslot, storeRest_word, if_neg (by omega)]
    · rw [storeRest_of_ne s.shm val _ hslot]
  have hstored : Tally n tr
      { s with shm := storeRest s.shm s.tx.pos.toNat val (clamp num).toNat } :=
    { h with
      free := fun hbusy => absurd hidle hbusy
      taken := fun hbusy he => h.taken hbusy ((hfirst _).symm.trans he)
      count := by simpa only [occupied, hfirst] using h.count }
  have hsent := hstored.publish (v := val 0) ((hfirst _).trans hfree)
    (kept_map val hnum)
  simp only [queueSendRaw, hcan, Bool.not_true, Bool.false_eq_true, if_false]
  rw [← hidle] at hsent
  exact hsent

/-- **However often a receiver calls, it gets no more messages** than were sent with another first
word. -/
theorem Tally.keepReceiving (h : Tally n tr s) (hidle : s.rpc = .idle) (num : Option UInt16)
    (k : ℕ) :
    (keepReceiving num k s.rx s.shm).2.2.length + (rcvdMsgs tr).length ≤
      (sentMsgs tr).countP Kept := by
  induction k generalizing tr s with
  | zero =>
    have hcount := h.count
    simp only [Ffq.keepReceiving, List.length_nil]
    omega
  | succ k ih =>
    by_cases hempty : s.shm s.rx.pos.toNat 0 = slotEmpty
    · simp only [Ffq.keepReceiving, queueRecvRaw, hempty, if_true]
      exact ih h hidle
    · have hnext := h.clear hempty num
        ((List.range (recvWords num)).map (s.shm s.rx.pos.toNat))
      have hle := ih hnext rfl
      rw [sentMsgs_rcvd, rcvdMsgs_rcvd, List.length_append, List.length_singleton] at hle
      dsimp only at hle
      simp only [Ffq.keepReceiving, queueRecvRaw, hempty, if_false, List.length_cons]
      omega

end Tally

/-- A new direction. -/
theorem tally_init {alloc : Side → Option Shm} {numSlots : UInt16} {w : World}
    (hslots : 1 ≤ numSlots.toNat) (hinit : queuepairInit alloc numSlots = .ok w) (d : Side) :
    Tally numSlots.toNat [] (Micro.init w d) := by
  have h := finv_init hslots hinit d
  have hnone : occupied numSlots.toNat (Micro.init w d).shm = ∅ := by
    refine Finset.filter_eq_empty_iff.mpr fun slot hslot => ?_
    have hlt := Finset.mem_range.mp hslot
    have hfree := h.free slot (Nat.zero_le slot) (by omega)
    rw [Nat.mod_eq_of_lt hlt] at hfree
    exact not_not_intro hfree
  exact
    { sizeTx := h.sizeTx
      sizeRx := h.sizeRx
      posTx := by rw [h.posTx]; exact Nat.mod_lt _ h.pos
      posRx := by rw [h.posRx]; exact Nat.mod_lt _ h.pos
      free := fun hbusy => absurd rfl hbusy
      stores := fun val num i hspc => by cases hspc
      taken := fun hbusy => absurd rfl hbusy
      count := by rw [hnone]; rfl }

/-! ## 4. Both together -/

/-- **The FastForward queue delivers exactly when no message starts with the reserved word.**  In
every state that the accesses of the two ends lead to, outside their calls, and for every send of
one to eight words that succeeds there: a receiver that keeps calling then gets all outstanding
messages, this one included, in order, and stands where the sender stands, if and only if neither
this message nor one sent before starts with `SMLT_FFQ_SLOT_EMPTY`. -/
theorem ffq_delivers_iff {alloc : Side → Option Shm} {numSlots : UInt16} {w : World}
    (hslots : 1 ≤ numSlots.toNat) (hinit : queuepairInit alloc numSlots = .ok w) (d : Side)
    {tr : List MEvent} {s : Micro} (hrun : Run SizedStep (Micro.init w d) tr s)
    (hspc : s.spc = .idle) (hrpc : s.rpc = .idle) (val : Nat → Word) (num : UInt16)
    (hnum : 1 ≤ num.toNat) (hmax : num.toNat ≤ 8)
    (hok : (queueSendRaw s.tx s.shm val num).2.2 = success) :
    Delivers ((sentMsgs tr ++ [(List.range num.toNat).map val]).drop (rcvdMsgs tr).length)
        (queueSendRaw s.tx s.shm val num).1 s.rx (queueSendRaw s.tx s.shm val num).2.1 ↔
      ∀ xs ∈ sentMsgs tr ++ [(List.range num.toNat).map val], Kept xs := by
  have hcan : queueCanSend s.tx s.shm = true := by
    cases hfull : queueCanSend s.tx s.shm with
    | true => rfl
    | false => simp [queueSendRaw_full hfull, success] at hok
  have htally : Tally numSlots.toNat tr s :=
    Run.induct (Tally numSlots.toNat) (tally_init hslots hinit d)
      (fun _ _ _ _ h hs => h.step hs) hrun
  have hsent := htally.sendRaw val hnum hcan hspc
  constructor
  · intro hdel
    obtain ⟨hall, -⟩ := hdel none _ (Nat.le_refl _)
    have hbound := hsent.keepReceiving hrpc none
      ((sentMsgs tr ++ [(List.range num.toNat).map val]).drop (rcvdMsgs tr).length).length
    have hlen := hall.length_eq
    rw [sentMsgs_sent, rcvdMsgs_sent] at hbound
    simp only [List.length_drop] at hlen hbound
    -- as many receives as sends, and no more than sends that are kept
    have hle := List.countP_le_length (p := fun xs => decide (Kept xs))
      (l := sentMsgs tr ++ [(List.range num.toNat).map val])
    have hfull : (sentMsgs tr ++ [(List.range num.toNat).map val]).countP
        (fun xs => decide (Kept xs))
        = (sentMsgs tr ++ [(List.range num.toNat).map val]).length := by omega
    exact fun xs hxs => of_decide_eq_true (List.countP_eq_length.mp hfull xs hxs)
  · intro hkept
    rcases fitRun_or_reserved hrun fun xs hxs => hkept xs (List.mem_append_left _ hxs) with
      hfit | hres
    · obtain ⟨q, ⟨S, R, h⟩, hfifo⟩ :=
        Run.simulates (frel_init hslots hinit d) (fun _ _ _ _ hR hs => frel_step hR hs) hfit
      obtain ⟨old, hold, hread⟩ := Fifo.run_split (hfifo.mono fun _ _ _ hs => hs.1)
      have hqueued : (sentMsgs tr ++ [(List.range num.toNat).map val]).drop (rcvdMsgs tr).length =
          q ++ [(List.range num.toNat).map val] := by
        rw [sentMsgs, hold, rcvdMsgs, ← hread.length_eq, List.append_assoc, List.drop_left]
      have hval : val 0 ≠ slotEmpty :=
        (kept_map _ hnum).mp (hkept _ (List.mem_append_right _ (List.mem_singleton_self _)))
      have hsend := h.sendRaw hspc num hval (h.canSend.mp hcan)
      rw [clamp_of_le hmax] at hsend
      rw [hqueued]
      exact hsend.delivers hrpc
    · rw [hspc] at hres
      cases hres

/-- An access of a sized call. -/
def Micro.sizedAct (s : Micro) : Act → Option (Micro × MEvent)
  | .check val num => if 1 ≤ num.toNat ∧ num.toNat ≤ 8 then s.act (.check val num) else none
  | a => s.act a

theorem sizedStep_of_act (s : Micro) (a : Act) (s' : Micro) (e : MEvent)
    (h : s.sizedAct a = some (s', e)) : SizedStep s e s' := by
  cases a with
  | check val num =>
    simp only [Micro.sizedAct] at h
    split at h
    · exact ⟨.check val num, ‹_›, h⟩
    · cases h
  | checkNotify => exact ⟨.checkNotify, trivial, h⟩
  | store => exact ⟨.store, trivial, h⟩
  | publish => exact ⟨.publish, trivial, h⟩
  | observe num => exact ⟨.observe num, trivial, h⟩
  | load => exact ⟨.load, trivial, h⟩
  | clear => exact ⟨.clear, trivial, h⟩

/-- A message of two words and a notification, on a ring of three slots. -/
def plainActs : List Act :=
  [.check (fun i => i.toUInt64 + 7) 2, .store, .publish, .checkNotify, .publish]

theorem ffq_delivers_iff_plain :
    ∃ w tr s, queuepairInit (fun _ => some fun _ _ => 0) 3 = .ok w ∧
      Run.drive Micro.sizedAct (Micro.init w .src) plainActs = some (tr, s) ∧
      sentMsgs tr = [[7, 8], [slotNotify]] ∧
      Delivers [[7, 8], [slotNotify], [9]] (queueSendRaw s.tx s.shm (fun _ => 9) 1).1 s.rx
        (queueSendRaw s.tx s.shm (fun _ => 9) 1).2.1 := by
  refine ⟨_, _, _, rfl, rfl, rfl, ?_⟩
  exact (ffq_delivers_iff (by decide : 1 ≤ (3 : UInt16).toNat)
    (show queuepairInit (fun _ => some fun _ _ => 0) 3 = .ok _ from rfl) .src
    (Run.of_drive sizedStep_of_act (show Run.drive Micro.sizedAct _ plainActs = some _ from rfl))
    rfl rfl (fun _ => 9) 1 (by decide) (by decide) (by decide)).mpr (by decide)

/-- **A message that starts with the reserved word is lost**: the send succeeds and moves the
sender on, and the receiver finds the queue empty. -/
theorem reserved_word_lost :
    ∃ w, queuepairInit (fun _ => some fun _ _ => 0) 2 = .ok w ∧
      (queueSendRaw (w.qp .src).tx (w.mem .src) (fun _ => slotEmpty) 1).2.2 = success ∧
      queueCanRecv (w.qp .dst).rx
        (queueSendRaw (w.qp .src).tx (w.mem .src) (fun _ => slotEmpty) 1).2.1 = false ∧
      (queueSendRaw (w.qp .src).tx (w.mem .src) (fun _ => slotEmpty) 1).1.pos ≠
        (w.qp .dst).rx.pos ∧
      ¬ Delivers [[slotEmpty]] (queueSendRaw (w.qp .src).tx (w.mem .src) (fun _ => slotEmpty) 1).1
        (w.qp .dst).rx
        (queueSendRaw (w.qp .src).tx (w.mem .src) (fun _ => slotEmpty) 1).2.1 := by
  refine ⟨_, rfl, by decide, by decide, by decide, fun hdel => ?_⟩
  obtain ⟨hall, -⟩ := hdel (some 8) 1 (Nat.le_refl 1)
  exact absurd hall.length_eq (by decide)

end Smelt.Ffq
