/-
# One direction of a UMP queue pair, as a line

The calls of the queue-pair interface as the accesses of `Window.lean`.  The loop of
`smlt_queuepair_send` turns on `SMLT_ERR_QUEUE_FULL` and that of `smlt_queuepair_recv` on
`SMLT_ERR_QUEUE_EMPTY`; `smlt_ump_queuepair_notify` and `smlt_ump_queuepair_recv_notify` have loops
of their own.  A notification makes the accesses of a message of no words, and `recv_notify` those
of a receive of none.

So every call waits.  But a receive acknowledges before it has copied, and a sender that reads that
acknowledgement may be let into the slot being copied (`window_overwrites`).  The line is a FIFO for
the sessions in which no sender reads it there (`Ready`).
-/
import Smelt.Session
import Smelt.Ump.Window

namespace Smelt.Ump

/-! ## 1. The accesses of a call -/

/-- A notification, as a message. -/
def noWords : Msg := { words := 0, data := fun _ => 0 }

/-- The next access of a send. -/
def SendPc.next (msg : Msg) : SendPc → Act
  | .idle => .check msg
  | .store msg _ i => if i < msg.words.toNat then .store else .publish

/-- The next access of a receive. -/
def RecvPc.next (words : UInt32) : RecvPc → Act
  | .idle => .observe words
  | .observed _ _ => .ack
  | .copy words _ _ got => if got.length < words.toNat then .load else .finish

/-- `smlt_ump_queuepair_try_send`, `smlt_ump_queuepair_notify`, `smlt_ump_queuepair_try_recv` and
`smlt_ump_queuepair_recv_notify`. -/
def Micro.next (s : Micro) : Call → Act
  | .trySend msg => s.spc.next msg
  | .notify => s.spc.next noWords
  | .tryRecv words => s.rpc.next words
  | .recvNotify => s.rpc.next 0

/-- The result of a call, when the access was its last. -/
def MEvent.returns (c : Call) : MEvent → Option Ret
  | .check _ room =>
    match c with
    | .trySend _ => if room then none else some (.err [.queueFull])
    | _ => none
  | .observe found =>
    match c with
    | .tryRecv _ => if found then none else some (.err [.queueEmpty])
    | _ => none
  | .publish _ _ => some (.err success)
  | .finish _ ys =>
    match c with
    | .tryRecv _ => some (.msg ys)
    | _ => some (.err success)
  | _ => none

/-- A direction of a UMP queue pair. -/
def line : Line where
  State := Micro
  access s c := (s.act (s.next c)).map fun r => (r.1, r.2.returns c)
  canRecv s := queueCanRecv s.rcv.rx s.shm
  receiving s :=
    match s.rpc with
    | .idle => false
    | _ => true

/-- A sender that looks for room while the receiver is copying a slot it has acknowledged does not
read the acknowledgement. -/
def Ready (s : Micro) (c : Call) : Prop :=
  c.transmits = true → s.spc = .idle → InWindow s → FromCache s

instance : DecidablePred (· = SendPc.idle)
  | .idle => .isTrue rfl
  | .store _ _ _ => .isFalse nofun

instance decidableReady (s : Micro) (c : Call) : Decidable (Ready s c) :=
  inferInstanceAs (Decidable (_ → _ → _ → _))

/-- The half of the direction that makes a send is outside all calls, or in this one. -/
def Sends (s : Micro) (msg : Msg) : Prop := s.spc = .idle ∨ ∃ slot i, s.spc = .store msg slot i

/-- The half that makes a receive. -/
def Receives (s : Micro) (words : UInt32) : Prop :=
  s.rpc = .idle ∨ (∃ ctrl, s.rpc = .observed words ctrl) ∨
    ∃ ctrl slot got, s.rpc = .copy words ctrl slot got ∧ got.length ≤ words.toNat

def Stands (s : Micro) : Call → Prop
  | .trySend msg => Sends s msg
  | .notify => Sends s noWords
  | .tryRecv words => Receives s words
  | .recvNotify => Receives s 0

/-- The messages that are not completely received. -/
def Carries (s : Micro) (q : List (List Word)) : Prop :=
  ∃ n S R C p full, MInv n S R C p full s ∧ q = full.map Prod.snd

/-! ## 2. A FIFO, outside the window -/

section Accesses

variable {s s' : Micro} {c : Call} {r : Option Ret} {e : MEvent} {q : List (List Word)}
  {n S R C : ℕ} {p full : List Item} {msg : Msg} {words : UInt32}

theorem access_eq_some : line.access s c = some (s', r) ↔
    ∃ e, s.act (s.next c) = some (s', e) ∧ e.returns c = r := by
  simp [line]

/-- An end can always make its next access. -/
theorem access_isSome (s : Micro) (c : Call) : ∃ s' r, line.access s c = some (s', r) := by
  have hsend : ∀ msg, ∃ s' e, s.act (s.spc.next msg) = some (s', e) := by
    intro msg
    cases hspc : s.spc with
    | idle =>
      rcases hcs : canSendRaw s.snd s.shm with ⟨_ | _, snd⟩ <;>
        simp [SendPc.next, Micro.act, hspc, hcs]
    | store msg slot i =>
      by_cases hlt : i < msg.words.toNat <;> simp [SendPc.next, Micro.act, hspc, hlt]
  have hrecv : ∀ words, ∃ s' e, s.act (s.rpc.next words) = some (s', e) := by
    intro words
    cases hrpc : s.rpc with
    | idle =>
      by_cases hep : (s.shm.buf s.rcv.rx.pos.toNat).ctrl.epoch = epochWord s.rcv.rx.epoch <;>
        simp [RecvPc.next, Micro.act, hrpc, hep]
    | observed words ctrl => simp [RecvPc.next, Micro.act, hrpc]
    | copy words ctrl slot got =>
      by_cases hlt : got.length < words.toNat <;> simp [RecvPc.next, Micro.act, hrpc, hlt]
  have hact : ∃ s' e, s.act (s.next c) = some (s', e) := by
    cases c with
    | trySend msg => exact hsend _
    | notify => exact hsend _
    | tryRecv words => exact hrecv _
    | recvNotify => exact hrecv _
  obtain ⟨s', e, ha⟩ := hact
  exact ⟨s', e.returns c, access_eq_some.mpr ⟨e, ha, rfl⟩⟩

theorem stands_of_spc (h : s.spc = .idle) (hc : c.transmits = true) : Stands s c := by
  cases c with
  | trySend msg => exact .inl h
  | notify => exact .inl h
  | tryRecv words => cases hc
  | recvNotify => cases hc

theorem stands_of_rpc (h : s.rpc = .idle) (hc : c.transmits = false) : Stands s c := by
  cases c with
  | trySend msg => cases hc
  | notify => cases hc
  | tryRecv words => exact .inl h
  | recvNotify => exact .inl h

/-- The calls of the other end stand where they stood. -/
theorem stands_frame_rpc (h : s'.rpc = s.rpc) (c : Call) (hc : c.transmits ≠ true)
    (hs : Stands s c) : Stands s' c := by
  cases c with
  | trySend msg => exact absurd rfl hc
  | notify => exact absurd rfl hc
  | tryRecv words => simpa only [Stands, Receives, h] using hs
  | recvNotify => simpa only [Stands, Receives, h] using hs

theorem stands_frame_spc (h : s'.spc = s.spc) (c : Call) (hc : c.transmits ≠ false)
    (hs : Stands s c) : Stands s' c := by
  cases c with
  | trySend msg => simpa only [Stands, Sends, h] using hs
  | notify => simpa only [Stands, Sends, h] using hs
  | tryRecv words => exact absurd rfl hc
  | recvNotify => exact absurd rfl hc

/-- A send, which is done when it publishes. -/
theorem access_send (h : MInv n S R C p full s) (hs : Sends s msg) (hw : msg.words.toNat ≤ 7)
    (hcare : s.spc = .idle → InWindow s → FromCache s)
    (ha : s.act (s.spc.next msg) = some (s', e)) :
    s'.rpc = s.rpc ∧
      (((e = .check msg true ∨ e = .store) ∧ Carries s' (full.map Prod.snd) ∧ Sends s' msg) ∨
        (e = .check msg false ∧ Carries s' (full.map Prod.snd) ∧ s'.spc = .idle) ∨
        (∃ ctrl, e = .publish ctrl msg.payload ∧
          Carries s' (full.map Prod.snd ++ [msg.payload]) ∧ s'.spc = .idle)) := by
  rcases hs with hidle | ⟨slot, i, hspc⟩
  · rw [hidle, SendPc.next] at ha
    have hcareful : ∀ b, Careful s (.check msg b) := fun _ => ⟨hw, hcare hidle⟩
    have hcheck : ∀ b, e = .check msg b → ∃ C', MInv n S R C' p full s' := by
      rintro b rfl
      exact (minv_check h ha (hcareful b)).2
    rcases hcs : canSendRaw s.snd s.shm with ⟨_ | _, snd⟩
    · simp only [Micro.act, hidle, hcs, Option.some.injEq, Prod.mk.injEq] at ha
      obtain ⟨rfl, rfl⟩ := ha
      obtain ⟨C', h'⟩ := hcheck false rfl
      exact ⟨rfl, .inr (.inl ⟨rfl, ⟨n, S, R, C', p, full, h', rfl⟩, rfl⟩)⟩
    · simp only [Micro.act, hidle, hcs, Option.some.injEq, Prod.mk.injEq] at ha
      obtain ⟨rfl, rfl⟩ := ha
      obtain ⟨C', h'⟩ := hcheck true rfl
      exact ⟨rfl, .inl ⟨.inl rfl, ⟨n, S, R, C', p, full, h', rfl⟩, .inr ⟨_, 0, rfl⟩⟩⟩
  · rw [hspc, SendPc.next] at ha
    by_cases hlt : i < msg.words.toNat
    · rw [if_pos hlt] at ha
      obtain ⟨-, h'⟩ := minv_store h ha
      simp only [Micro.act, hspc, hlt, if_true, Option.some.injEq, Prod.mk.injEq] at ha
      obtain ⟨rfl, rfl⟩ := ha
      exact ⟨rfl, .inl ⟨.inr rfl, ⟨n, S, R, C, p, full, h', rfl⟩, .inr ⟨slot, i + 1, rfl⟩⟩⟩
    · rw [if_neg hlt] at ha
      obtain ⟨x, hsee, -, h'⟩ := minv_publish h ha
      simp only [Micro.act, hspc, hlt, if_false, Option.some.injEq, Prod.mk.injEq] at ha
      obtain ⟨rfl, rfl⟩ := ha
      obtain rfl := Fifo.Ev.send.inj (Option.some.inj hsee)
      refine ⟨rfl, .inr (.inr ⟨_, rfl, ⟨n, S + 1, R, C, _, _, h', ?_⟩, rfl⟩)⟩
      rw [List.map_append, List.map_singleton]

/-- A receive, which is done when it has copied. -/
theorem access_receive (h : MInv n S R C p full s) (hs : Receives s words)
    (ha : s.act (s.rpc.next words) = some (s', e)) :
    s'.spc = s.spc ∧
      (((e = .observe true ∨ e = .ack ∨ e = .load) ∧ Carries s' (full.map Prod.snd) ∧
          Receives s' words) ∨
        (e = .observe false ∧ s.rpc = .idle ∧ s' = s) ∨
        (∃ ctrl xs rest ys, e = .finish ctrl ys ∧ full.map Prod.snd = xs :: rest ∧
          ys.length = words.toNat ∧ Agree xs ys ∧ Carries s' rest ∧ s'.rpc = .idle)) := by
  rcases hs with hidle | ⟨ctrl, hobs⟩ | ⟨ctrl, slot, got, hcopy, hle⟩
  · rw [hidle, RecvPc.next] at ha
    obtain ⟨-, h'⟩ := minv_observe h ha
    simp only [Micro.act, hidle] at ha
    split at ha
    · obtain ⟨rfl, rfl⟩ := Prod.mk.inj (Option.some.inj ha)
      exact ⟨rfl, .inl ⟨.inl rfl, ⟨n, S, R, C, p, full, h', rfl⟩, .inr (.inl ⟨_, rfl⟩)⟩⟩
    · obtain ⟨rfl, rfl⟩ := Prod.mk.inj (Option.some.inj ha)
      exact ⟨rfl, .inr (.inl ⟨rfl, hidle, rfl⟩)⟩
  · rw [hobs, RecvPc.next] at ha
    obtain ⟨-, p', h'⟩ := minv_ack h ha
    simp only [Micro.act, hobs, Option.some.injEq, Prod.mk.injEq] at ha
    obtain ⟨rfl, rfl⟩ := ha
    exact ⟨rfl, .inl ⟨.inr (.inl rfl), ⟨n, S, R + 1, C, p', full, h', rfl⟩,
      .inr (.inr ⟨ctrl, _, [], rfl, Nat.zero_le _⟩)⟩⟩
  · rw [hcopy, RecvPc.next] at ha
    by_cases hlt : got.length < words.toNat
    · rw [if_pos hlt] at ha
      obtain ⟨-, h'⟩ := minv_load h ha
      simp only [Micro.act, hcopy, hlt, if_true, Option.some.injEq, Prod.mk.injEq] at ha
      obtain ⟨rfl, rfl⟩ := ha
      refine ⟨rfl, .inl ⟨.inr (.inr rfl), ⟨n, S, R, C, p, full, h', rfl⟩,
        .inr (.inr ⟨ctrl, slot, _, rfl, ?_⟩)⟩⟩
      rw [List.length_append]
      exact hlt
    · rw [if_neg hlt] at ha
      obtain ⟨x, y, hsee, ⟨-, hag⟩, rfl, h'⟩ := minv_finish h ha
      simp only [Micro.act, hcopy, hlt, if_false, Option.some.injEq, Prod.mk.injEq] at ha
      obtain ⟨rfl, rfl⟩ := ha
      obtain rfl := Fifo.Ev.recv.inj (Option.some.inj hsee)
      refine ⟨rfl, .inr (.inr ⟨ctrl, x.2, p.map Prod.snd, got, rfl, rfl, ?_, hag,
        ⟨n, S, R, C, p, p, h', rfl⟩, rfl⟩)⟩
      omega

/-! ## 3. The line -/

/-- **A direction of a UMP queue pair is a FIFO**, for senders that are ready. -/
theorem line_isFifo : line.IsFifo (fun c => c.words ≤ 7) Ready Carries Stands where
  access := by
    rintro s q c s' r ⟨n, S, R, C, p, full, h, rfl⟩ hs hwords hready hl
    obtain ⟨e, ha, rfl⟩ := access_eq_some.mp hl
    cases c with
    | trySend msg =>
      obtain ⟨hrpc, hcases⟩ := access_send h hs hwords (hready rfl) ha
      have hframe := stands_frame_rpc hrpc
      rcases hcases with ⟨he, hq', hs'⟩ | ⟨rfl, hq', hidle⟩ | ⟨ctrl, rfl, hq', hidle⟩
      · refine ⟨_, hq', ?_, fun c' _ hc' => ?_, hframe⟩
        · rcases he with rfl | rfl <;> rfl
        · rw [hc' (by rcases he with rfl | rfl <;> rfl)]
          exact hs'
      · exact ⟨_, hq', .inr (.inr ⟨rfl, rfl⟩), fun c' hc' _ => stands_of_spc hidle hc', hframe⟩
      · exact ⟨_, hq', .inl ⟨_, rfl, rfl⟩, fun c' hc' _ => stands_of_spc hidle hc', hframe⟩
    | notify =>
      obtain ⟨hrpc, hcases⟩ := access_send h hs (Nat.zero_le 7) (hready rfl) ha
      have hframe := stands_frame_rpc hrpc
      rcases hcases with ⟨he, hq', hs'⟩ | ⟨rfl, hq', hidle⟩ | ⟨ctrl, rfl, hq', hidle⟩
      · refine ⟨_, hq', ?_, fun c' _ hc' => ?_, hframe⟩
        · rcases he with rfl | rfl <;> rfl
        · rw [hc' (by rcases he with rfl | rfl <;> rfl)]
          exact hs'
      · exact ⟨_, hq', rfl, fun c' hc' _ => stands_of_spc hidle hc', hframe⟩
      · exact ⟨_, hq', .inl ⟨[], rfl, rfl⟩, fun c' hc' _ => stands_of_spc hidle hc', hframe⟩
    | tryRecv words =>
      obtain ⟨hspc, hcases⟩ := access_receive h hs ha
      have hframe := stands_frame_spc hspc
      rcases hcases with ⟨he, hq', hs'⟩ | ⟨rfl, hidle, rfl⟩ |
        ⟨ctrl, xs, rest, ys, rfl, hq, hlen, hag, hq', hidle⟩
      · refine ⟨_, hq', ?_, fun c' _ hc' => ?_, hframe⟩
        · rcases he with rfl | rfl | rfl <;> rfl
        · rw [hc' (by rcases he with rfl | rfl | rfl <;> rfl)]
          exact hs'
      · exact ⟨_, ⟨n, S, R, C, p, full, h, rfl⟩, .inr (.inr ⟨rfl, rfl⟩),
          fun c' hc' _ => stands_of_rpc hidle hc', hframe⟩
      · exact ⟨rest, hq', .inr (.inl ⟨xs, ys, rfl, hlen, hag, hq⟩),
          fun c' hc' _ => stands_of_rpc hidle hc', hframe⟩
    | recvNotify =>
      obtain ⟨hspc, hcases⟩ := access_receive h hs ha
      have hframe := stands_frame_spc hspc
      rcases hcases with ⟨he, hq', hs'⟩ | ⟨rfl, hidle, rfl⟩ |
        ⟨ctrl, xs, rest, ys, rfl, hq, hlen, hag, hq', hidle⟩
      · refine ⟨_, hq', ?_, fun c' _ hc' => ?_, hframe⟩
        · rcases he with rfl | rfl | rfl <;> rfl
        · rw [hc' (by rcases he with rfl | rfl | rfl <;> rfl)]
          exact hs'
      · exact ⟨_, ⟨n, S, R, C, p, full, h, rfl⟩, rfl,
          fun c' hc' _ => stands_of_rpc hidle hc', hframe⟩
      · exact ⟨rest, hq', .inr (.inl ⟨xs, [], rfl, rfl, List.take_nil, hq⟩),
          fun c' hc' _ => stands_of_rpc hidle hc', hframe⟩
  poll := by
    rintro s q ⟨n, S, R, C, p, full, h, rfl⟩ hout
    have hrecv := h.recv
    have hcount := h.count
    have hcan : queueCanRecv s.rcv.rx s.shm = decide (R < S) := queueCanRecv_spec h.base
    cases hrpc : s.rpc with
    | idle =>
      rw [hrpc] at hrecv
      obtain rfl : full = p := hrecv
      show queueCanRecv s.rcv.rx s.shm = true ↔ full.map Prod.snd ≠ []
      rw [hcan, decide_eq_true_iff, ← List.length_pos_iff, List.length_map]
      omega
    | observed words ctrl =>
      simp only [line, hrpc] at hout
      cases hout
    | copy words ctrl slot got =>
      simp only [line, hrpc] at hout
      cases hout

/-- A direction of a new queue pair. -/
theorem line_init {alloc : Side → Option Nat} {numSlots : UInt16} {w : World}
    (h : queuepairInit alloc numSlots = .ok w) :
    (∀ d, Carries (Micro.init w d) []) ∧ ∀ d c, Stands (Micro.init w d) c := by
  refine ⟨fun d => ?_, fun d c => ?_⟩
  · obtain ⟨S, R, C, p, hinv⟩ := mrel_init h d
    exact ⟨_, S, R, C, p, [], hinv, rfl⟩
  · cases htr : c.transmits with
    | true => exact stands_of_spc rfl htr
    | false => exact stands_of_rpc rfl htr

end Accesses

end Smelt.Ump
