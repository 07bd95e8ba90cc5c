/-
# One direction of a shared-memory queue pair, as a line

The calls of the queue-pair interface as the accesses of `Pair.lean`, through the wrappers of
`src/qp_func_wrapper.c`.  Every one of them waits inside: `shm_q_send` and `shm_q_send0` at the sync
point, `shm_q_recv` and `shm_q_recv0` for the number of their turn.  So the line is a FIFO without a
condition.

A payload always has seven words, whatever the message has: the items of the line are beginnings of
what the slots hold.
-/
import Smelt.Session
import Smelt.Shm.Pair
import Mathlib.Data.List.Forall2

namespace Smelt.ShmQp

/-! ## 1. The accesses of a call -/

/-- The next access of a send. -/
def WritePc.next (payload : Option (Nat → Word)) : WritePc → Act
  | .idle => .send payload
  | .sync _ => .sync
  | .store payload i => if i < Swmr.storeWords payload then .store else .publish

/-- The next access of a receive. -/
def readNext (payload : Bool) : Swmr.ReadPc → Act
  | .idle => .observe payload
  | .copy payload got => if payload = true ∧ got.length < 7 then .load else .finish

/-- `smlt_shm_send`, `smlt_shm_send0`, `smlt_shm_recv` and `smlt_shm_recv0`. -/
def Micro.next (s : Micro) : Call → Act
  | .trySend msg => s.wpc.next (some msg.data)
  | .notify => s.wpc.next none
  | .tryRecv _ => readNext true s.rpc
  | .recvNotify => readNext false s.rpc

/-- The result of a call, when the access was its last. -/
def MEvent.returns (c : Call) : MEvent → Option Ret
  | .quiet => none
  | .miss => none
  | .sent _ => some (.err success)
  | .rcvd y =>
    match c with
    | .tryRecv words => some (.msg ((y.data.getD []).take words.toNat))
    | _ => some (.err success)

/-- A message that `smlt_shm_send` does not send. -/
def tooLong : Call → Bool
  | .trySend msg => !decide (msg.words ≤ 7)
  | _ => false

/-- A direction of a shared-memory queue pair. -/
def line : Line where
  State := Micro
  access s c :=
    if tooLong c then some (s, some (.err success))
    else (s.act (s.next c)).map fun r => (r.1, r.2.returns c)
  canRecv s := qCanRecv s.dst s.mem
  receiving s :=
    match s.rpc with
    | .idle => false
    | .copy _ _ => true

/-- The half of the direction that makes a send is outside all calls, or in this one. -/
def Writes (s : Micro) (payload : Option (Nat → Word)) : Prop :=
  s.wpc = .idle ∨ s.wpc = .sync payload ∨ ∃ i, s.wpc = .store payload i

/-- The half that makes a receive. -/
def Receives (s : Micro) (payload : Bool) : Prop := s.rpc = .idle ∨ ∃ got, s.rpc = .copy payload got

def Stands (s : Micro) : Call → Prop
  | .trySend msg => Writes s (some msg.data)
  | .notify => Writes s none
  | .tryRecv _ => Receives s true
  | .recvNotify => Receives s false

/-- The items `q`, each the beginning of a message. -/
def Carries (s : Micro) (q : List (List Word)) : Prop :=
  ∃ m ms r, MInv m ms r s ∧ List.Forall₂ (fun xs (x : Item) => xs <+: x.data.getD []) q (ms.drop r)

/-! ## 2. A FIFO -/

section Accesses

variable {s s' : Micro} {c : Call} {r : Option Ret} {e : MEvent} {q : List (List Word)}

theorem access_eq_some (hc : c.words ≤ 7) : line.access s c = some (s', r) ↔
    ∃ e, s.act (s.next c) = some (s', e) ∧ e.returns c = r := by
  have hshort : tooLong c = false := by
    cases c with
    | trySend msg =>
      have hle : msg.words ≤ 7 := UInt32.le_iff_toNat_le.mpr hc
      simp [tooLong, hle]
    | _ => rfl
  simp [line, hshort]

/-- An end can always make its next access. -/
theorem access_isSome (s : Micro) (c : Call) : ∃ s' r, line.access s c = some (s', r) := by
  have hsend : ∀ payload, ∃ s' e, s.act (s.wpc.next payload) = some (s', e) := by
    intro payload
    cases hwpc : s.wpc with
    | idle => by_cases hsync : s.src.wrap.nextSeq = s.src.wrap.nextSync <;>
        simp [WritePc.next, Micro.act, hwpc, hsync]
    | sync payload => by_cases hnext : s.src.nextSeq = getNextSync s.src s.mem <;>
        simp [WritePc.next, Micro.act, hwpc, hnext]
    | store payload i =>
      by_cases hlt : i < Swmr.storeWords payload
      · cases payload with
        | none => exact absurd hlt (Nat.not_lt_zero i)
        | some p =>
          have hseven : i < 7 := hlt
          simp [WritePc.next, Micro.act, hwpc, hseven, Swmr.storeWords]
      · simp [WritePc.next, Micro.act, hwpc, hlt]
  have hrecv : ∀ payload, ∃ s' e, s.act (readNext payload s.rpc) = some (s', e) := by
    intro payload
    cases hrpc : s.rpc with
    | idle => by_cases hnum : s.dst.nextSeq = s.mem.slots s.dst.lPos.toNat 0 <;>
        simp [readNext, Micro.act, hrpc, hnum]
    | copy payload got =>
      by_cases hlt : payload = true ∧ got.length < 7
      · obtain ⟨rfl, hseven⟩ := hlt
        simp [readNext, Micro.act, hrpc, hseven]
      · simp only [readNext, Micro.act, hrpc, hlt, if_false]
        exact ⟨_, _, rfl⟩
  have hact : ∃ s' e, s.act (s.next c) = some (s', e) := by
    cases c with
    | trySend msg => exact hsend _
    | notify => exact hsend _
    | tryRecv words => exact hrecv _
    | recvNotify => exact hrecv _
  obtain ⟨s', e, ha⟩ := hact
  by_cases hlong : tooLong c
  · exact ⟨_, _, if_pos hlong⟩
  · exact ⟨s', e.returns c, by simp [line, hlong, ha]⟩

theorem stands_of_wpc (h : s.wpc = .idle) (hc : c.transmits = true) : Stands s c := by
  cases c with
  | trySend msg => exact .inl h
  | notify => exact .inl h
  | tryRecv words => cases hc
  | recvNotify => cases hc

theorem stands_of_rpc (h : s.rpc = .idle) (hc : c.transmits = false) : Stands s c := by
  cases c with
  | trySend msg => cases hc
  | notify => cases hc
  | tryRecv words => exact .inl h
  | recvNotify => exact .inl h

/-- A send, which is done with its last store. -/
theorem access_write {payload : Option (Nat → Word)} {m r : ℕ} {ms : List Item}
    (h : MInv m ms r s) (hs : Writes s payload)
    (ha : s.act (s.wpc.next payload) = some (s', e)) :
    s'.rpc = s.rpc ∧
      ((e = .quiet ∧ (∃ m', MInv m' ms r s') ∧ Writes s' payload) ∨
        (∃ x, e = .sent x ∧ x.data = payload.map Swmr.words ∧ MInv m (ms ++ [x]) r s' ∧
          s'.wpc = .idle)) := by
  rcases hs with hidle | hsync | ⟨i, hstore⟩
  · rw [hidle, WritePc.next] at ha
    obtain ⟨rfl, h'⟩ := minv_send h ha
    simp only [Micro.act, hidle] at ha
    split at ha
    · obtain ⟨rfl, -⟩ := Prod.mk.inj (Option.some.inj ha)
      exact ⟨rfl, .inl ⟨rfl, ⟨m, h'⟩, .inr (.inl rfl)⟩⟩
    · obtain ⟨rfl, -⟩ := Prod.mk.inj (Option.some.inj ha)
      exact ⟨rfl, .inl ⟨rfl, ⟨m, h'⟩, .inr (.inr ⟨0, rfl⟩)⟩⟩
  · rw [hsync, WritePc.next] at ha
    obtain ⟨rfl, h'⟩ := minv_sync h ha
    simp only [Micro.act, hsync] at ha
    split at ha
    · obtain ⟨rfl, -⟩ := Prod.mk.inj (Option.some.inj ha)
      exact ⟨rfl, .inl ⟨rfl, h', .inr (.inl hsync)⟩⟩
    · obtain ⟨rfl, -⟩ := Prod.mk.inj (Option.some.inj ha)
      exact ⟨rfl, .inl ⟨rfl, h', .inr (.inr ⟨0, rfl⟩)⟩⟩
  · rw [hstore, WritePc.next] at ha
    by_cases hlt : i < Swmr.storeWords payload
    · rw [if_pos hlt] at ha
      obtain ⟨rfl, h'⟩ := minv_store h ha
      cases payload with
      | none => exact absurd hlt (Nat.not_lt_zero i)
      | some p =>
        have hseven : i < 7 := hlt
        simp only [Micro.act, hstore, hseven, if_true, Option.some.injEq, Prod.mk.injEq,
          and_true] at ha
        subst ha
        exact ⟨rfl, .inl ⟨rfl, ⟨m, h'⟩, .inr (.inr ⟨i + 1, rfl⟩)⟩⟩
    · rw [if_neg hlt] at ha
      obtain ⟨x, rfl, h'⟩ := minv_publish h ha
      simp only [Micro.act, hstore, hlt, if_false, Option.some.injEq, Prod.mk.injEq,
        MEvent.sent.injEq] at ha
      obtain ⟨rfl, rfl⟩ := ha
      exact ⟨rfl, .inr ⟨_, rfl, rfl, h', rfl⟩⟩

/-- A receive, which is done when it has published its position. -/
theorem access_read {payload : Bool} {m r : ℕ} {ms : List Item} (h : MInv m ms r s)
    (hs : Receives s payload) (ha : s.act (readNext payload s.rpc) = some (s', e)) :
    s'.wpc = s.wpc ∧
      (((e = .quiet ∨ e = .miss) ∧ MInv m ms r s' ∧ Receives s' payload) ∨
        (∃ x y, e = .rcvd y ∧ ms[r]? = some x ∧ Reads x y ∧ MInv m ms (r + 1) s' ∧
          (payload = true → ∃ ys, y.data = some ys ∧ ys.length = 7) ∧ s'.rpc = .idle)) := by
  rcases hs with hidle | ⟨got, hcopy⟩
  · rw [hidle, readNext] at ha
    obtain ⟨he, h'⟩ := minv_observe h ha
    simp only [Micro.act, hidle] at ha
    split at ha
    · obtain ⟨rfl, rfl⟩ := Prod.mk.inj (Option.some.inj ha)
      exact ⟨rfl, .inl ⟨he, h', .inr ⟨[], rfl⟩⟩⟩
    · obtain ⟨rfl, rfl⟩ := Prod.mk.inj (Option.some.inj ha)
      exact ⟨rfl, .inl ⟨he, h', .inl hidle⟩⟩
  · rw [hcopy, readNext] at ha
    by_cases hlt : payload = true ∧ got.length < 7
    · rw [if_pos hlt] at ha
      obtain ⟨rfl, h'⟩ := minv_load h ha
      obtain ⟨rfl, hseven⟩ := hlt
      simp only [Micro.act, hcopy, hseven, if_true, Option.some.injEq, Prod.mk.injEq,
        and_true] at ha
      subst ha
      exact ⟨rfl, .inl ⟨.inl rfl, h', .inr ⟨_, rfl⟩⟩⟩
    · rw [if_neg hlt] at ha
      obtain ⟨x, y, rfl, hx, hxy, h'⟩ := minv_finish h ha
      have hrpc := h.rpc
      rw [hcopy] at hrpc
      obtain ⟨-, -, hle, -⟩ := hrpc
      simp only [Micro.act, hcopy, hlt, if_false, Option.some.injEq, Prod.mk.injEq,
        MEvent.rcvd.injEq] at ha
      obtain ⟨rfl, rfl⟩ := ha
      refine ⟨rfl, .inr ⟨x, _, rfl, hx, hxy, h', fun hpay => ⟨got, by rw [hpay]; rfl, ?_⟩, rfl⟩⟩
      have : ¬ got.length < 7 := fun hlt7 => hlt ⟨hpay, hlt7⟩
      omega

/-- The calls of the other end stand where they stood. -/
theorem stands_frame_rpc (h : s'.rpc = s.rpc) (c : Call) (hc : c.transmits ≠ true)
    (hs : Stands s c) : Stands s' c := by
  cases c with
  | trySend msg => exact absurd rfl hc
  | notify => exact absurd rfl hc
  | tryRecv words => simpa only [Stands, Receives, h] using hs
  | recvNotify => simpa only [Stands, Receives, h] using hs

theorem stands_frame_wpc (h : s'.wpc = s.wpc) (c : Call) (hc : c.transmits ≠ false)
    (hs : Stands s c) : Stands s' c := by
  cases c with
  | trySend msg => simpa only [Stands, Writes, h] using hs
  | notify => simpa only [Stands, Writes, h] using hs
  | tryRecv words => exact absurd rfl hc
  | recvNotify => exact absurd rfl hc

/-- A message more. -/
theorem Carries.concat {m r : ℕ} {ms : List Item} {x : Item} {xs : List Word}
    (h : MInv m (ms ++ [x]) r s)
    (hq : List.Forall₂ (fun xs (x : Item) => xs <+: x.data.getD []) q (ms.drop r))
    (hle : r ≤ ms.length) (hx : xs <+: x.data.getD []) : Carries s (q ++ [xs]) := by
  refine ⟨m, _, r, h, ?_⟩
  rw [List.drop_append_of_le_length hle]
  exact List.rel_append hq (.cons hx .nil)

/-- The oldest message. -/
theorem carries_head {r : ℕ} {ms : List Item} {x : Item}
    (hq : List.Forall₂ (fun xs (x : Item) => xs <+: x.data.getD []) q (ms.drop r))
    (hx : ms[r]? = some x) : ∃ xs rest, q = xs :: rest ∧ xs <+: x.data.getD [] ∧
      List.Forall₂ (fun xs (x : Item) => xs <+: x.data.getD []) rest (ms.drop (r + 1)) := by
  obtain ⟨hlt, rfl⟩ := List.getElem?_eq_some_iff.mp hx
  rw [List.drop_eq_getElem_cons hlt] at hq
  cases hq with
  | cons hxs hrest => exact ⟨_, _, rfl, hxs, hrest⟩

/-- The words of a message, in a reading of seven. -/
theorem agree_take {x y : Item} {xs ys : List Word} {k : ℕ} (hxs : xs <+: x.data.getD [])
    (hxy : Reads x y) (hys : y.data = some ys) : Agree xs (ys.take k) := by
  cases hdata : x.data with
  | none =>
    rw [hdata] at hxs
    obtain rfl : xs = [] := List.prefix_nil.mp hxs
    simp [Agree]
  | some ws =>
    obtain rfl := hxy.2.2 ws ys hdata hys
    rw [hdata] at hxs
    refine Agree.of_prefix ?_ hxs
    simp [Agree, List.take_take, Nat.min_comm]

/-! ## 3. The line -/

/-- **A direction of a shared-memory queue pair is a FIFO**, whatever state it is in. -/
theorem line_isFifo : line.IsFifo (fun c => c.words ≤ 7) (fun _ _ => True) Carries Stands where
  access := by
    rintro s q c s' r ⟨m, ms, k, h, hq⟩ hs hwords - hl
    obtain ⟨e, ha, rfl⟩ := (access_eq_some hwords).mp hl
    have hle := h.pair.le_sent
    cases c with
    | trySend msg =>
      obtain ⟨hrpc, hcases⟩ := access_write h hs ha
      have hframe := stands_frame_rpc hrpc
      rcases hcases with ⟨rfl, ⟨m', h'⟩, hs'⟩ | ⟨x, rfl, hx, h', hidle⟩
      · exact ⟨q, ⟨m', ms, k, h', hq⟩, rfl, fun c' _ hc' => by rw [hc' rfl]; exact hs', hframe⟩
      · refine ⟨_, .concat h' hq hle ?_, .inl ⟨msg.payload, rfl, rfl⟩,
          fun c' hc' _ => stands_of_wpc hidle hc', hframe⟩
        rw [hx]
        exact payload_prefix_words hwords
    | notify =>
      obtain ⟨hrpc, hcases⟩ := access_write h hs ha
      have hframe := stands_frame_rpc hrpc
      rcases hcases with ⟨rfl, ⟨m', h'⟩, hs'⟩ | ⟨x, rfl, hx, h', hidle⟩
      · exact ⟨q, ⟨m', ms, k, h', hq⟩, rfl, fun c' _ hc' => by rw [hc' rfl]; exact hs', hframe⟩
      · exact ⟨_, .concat h' hq hle List.nil_prefix, .inl ⟨[], rfl, rfl⟩,
          fun c' hc' _ => stands_of_wpc hidle hc', hframe⟩
    | tryRecv words =>
      obtain ⟨hwpc, hcases⟩ := access_read h hs ha
      have hframe := stands_frame_wpc hwpc
      rcases hcases with ⟨he, h', hs'⟩ | ⟨x, y, rfl, hx, hxy, h', hseven, hidle⟩
      · refine ⟨q, ⟨m, ms, k, h', hq⟩, ?_, fun c' _ hc' => ?_, hframe⟩
        · rcases he with rfl | rfl <;> rfl
        · rw [hc' (by rcases he with rfl | rfl <;> rfl)]
          exact hs'
      · obtain ⟨xs, rest, rfl, hxs, hrest⟩ := carries_head hq hx
        obtain ⟨ys, hys, hlen⟩ := hseven rfl
        refine ⟨rest, ⟨m, ms, k + 1, h', hrest⟩,
          .inr (.inl ⟨xs, ys.take words.toNat, ?_, ?_, agree_take hxs hxy hys, rfl⟩),
          fun c' hc' _ => stands_of_rpc hidle hc', hframe⟩
        · simp [Call.got?, hys]
        · rw [List.length_take, hlen]
          exact Nat.min_eq_left hwords
    | recvNotify =>
      obtain ⟨hwpc, hcases⟩ := access_read h hs ha
      have hframe := stands_frame_wpc hwpc
      rcases hcases with ⟨he, h', hs'⟩ | ⟨x, y, rfl, hx, hxy, h', -, hidle⟩
      · refine ⟨q, ⟨m, ms, k, h', hq⟩, ?_, fun c' _ hc' => ?_, hframe⟩
        · rcases he with rfl | rfl <;> rfl
        · rw [hc' (by rcases he with rfl | rfl <;> rfl)]
          exact hs'
      · obtain ⟨xs, rest, rfl, -, hrest⟩ := carries_head hq hx
        exact ⟨rest, ⟨m, ms, k + 1, h', hrest⟩, .inr (.inl ⟨xs, [], rfl, rfl, List.take_nil, rfl⟩),
          fun c' hc' _ => stands_of_rpc hidle hc', hframe⟩
  poll := by
    rintro s q ⟨m, ms, k, h, hq⟩ -
    show qCanRecv s.dst s.mem = true ↔ q ≠ []
    have hlen := hq.length_eq
    rw [List.length_drop] at hlen
    rw [qCanRecv, beq_iff_eq, h.pair.canRecv, ← List.length_pos_iff, hlen]
    omega

/-- A direction of a new queue pair. -/
theorem line_init : Carries Micro.init [] ∧ ∀ c, Stands Micro.init c := by
  refine ⟨⟨0, [], 0, minv_init, .nil⟩, fun c => ?_⟩
  cases htr : c.transmits with
  | true => exact stands_of_wpc rfl htr
  | false => exact stands_of_rpc rfl htr

end Accesses

end Smelt.ShmQp
