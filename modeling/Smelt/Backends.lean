/-
# The three types of queue pairs behind one interface

`smlt_queuepair_create` fills the same table for `SMLT_QP_TYPE_UMP`, `SMLT_QP_TYPE_FFQ` and
`SMLT_QP_TYPE_SHM`.  Two programs that talk over a queue pair would see no difference, if every
function behind the four blocking calls of the interface waited.  Two things are different:

* FFQ's `smlt_ffq_queuepair_notify` and `smlt_ffq_queuepair_recv_notify` do not wait.
  `smlt_queuepair_notify` and `smlt_queuepair_recv0` have no loop around them, as
  `smlt_queuepair_send` and `smlt_queuepair_recv` have, and pass the error on (`exchange_differs`).
* UMP acknowledges a message before it has copied it, and a sender may overwrite it in between.

`interchangeable` says that there is nothing else: in the sessions in which neither happens
(`QpType.Ready`), every call that returns has done what it is for, and what the programs see is the
same for the three types, as far as they have come.
-/
import Smelt.Ump.Line
import Smelt.Ffq.Line
import Smelt.Shm.Line
import Smelt.Channel

namespace Smelt

/-! ## 1. The types -/

/-- `smlt_qp_type_t`, less the invalid type. -/
inductive QpType
  | ump
  | ffq
  | shm
  deriving DecidableEq, Repr

/-- `SMLT_FFQ_DEFAULT_SLOTS`. -/
def ffqDefaultSlots : UInt16 := 64

/-- The functions that `smlt_queuepair_create` puts into the table. -/
def QpType.line : QpType → Line
  | .ump => Ump.line
  | .ffq => Ffq.line
  | .shm => ShmQp.line

/-- The queue pairs that `smlt_queuepair_create` makes, by their directions. -/
def QpType.Created : (T : QpType) → (Side → T.line.State) → Prop
  | .ump, line => ∃ alloc w, Ump.queuepairInit alloc umpDefaultSlots = .ok w ∧
      line = Ump.Micro.init w
  | .ffq, line => ∃ alloc w, Ffq.queuepairInit alloc ffqDefaultSlots = .ok w ∧
      line = Ffq.Micro.init w
  | .shm, line => line = fun _ => ShmQp.Micro.init

/-- What a type asks of a line before an access. -/
def QpType.Ready : (T : QpType) → T.line.State → Call → Prop
  | .ump => Ump.Ready
  | .ffq => Ffq.Ready
  | .shm => fun _ _ => True

/-- Messages of one to seven words that do not start with the word FFQ reserves. -/
def Plain : Call → Prop
  | .trySend msg => 1 ≤ msg.words.toNat ∧ msg.words.toNat ≤ 7 ∧ msg.data 0 ≠ Ffq.slotEmpty
  | .tryRecv words => 1 ≤ words.toNat ∧ words.toNat ≤ 7
  | _ => True

theorem Plain.words_le {c : Call} (h : Plain c) : c.words ≤ 7 := by
  cases c with
  | trySend msg => exact h.2.1
  | notify => exact Nat.zero_le 7
  | tryRecv words => exact h.2
  | recvNotify => exact Nat.zero_le 7

theorem Plain.fits {c : Call} (h : Plain c) : Ffq.Fits c := by
  cases c with
  | trySend msg => exact ⟨h.1, Nat.le_succ_of_le h.2.1, h.2.2⟩
  | notify => trivial
  | tryRecv words => exact Nat.le_succ_of_le h.2
  | recvNotify => trivial

/-- **Each type is a FIFO in each direction**, and a new queue pair is empty. -/
theorem QpType.isFifo (T : QpType) : ∃ holds stands, T.line.IsFifo Plain T.Ready holds stands ∧
    ∀ line, T.Created line → (∀ d, holds (line d) []) ∧ ∀ d c, stands (line d) c := by
  cases T with
  | ump =>
    refine ⟨_, _, Ump.line_isFifo.mono fun _ => Plain.words_le, ?_⟩
    rintro line ⟨alloc, w, hinit, rfl⟩
    exact Ump.line_init hinit
  | ffq =>
    refine ⟨_, _, Ffq.line_isFifo.mono fun _ => Plain.fits, ?_⟩
    rintro line ⟨alloc, w, hinit, rfl⟩
    exact Ffq.line_init (by decide) hinit
  | shm =>
    refine ⟨_, _, ShmQp.line_isFifo.mono fun _ => Plain.words_le, ?_⟩
    rintro line rfl
    exact ⟨fun _ => ShmQp.line_init.1, fun _ => ShmQp.line_init.2⟩

/-- **A program that has not ended can always go on**: there is no access that it has to wait for.
A call that waits makes the same access again. -/
theorem QpType.exists_step (T : QpType) {prog : Programs} {s : Session T.line} {d : Side}
    (hc : prog d (s.hist d) ≠ none) : ∃ s', SessionStep prog s d s' := by
  cases T with
  | ump => exact Smelt.exists_step Ump.access_isSome hc
  | ffq => exact Smelt.exists_step Ffq.access_isSome hc
  | shm => exact Smelt.exists_step ShmQp.access_isSome hc

/-! ## 2. Interchangeable -/

/-- **The three types are interchangeable, where their notifications wait and their messages are not
overwritten.**  For two programs that use the four blocking calls, with messages of one to seven
words that do not start with the reserved word, and every interleaving of their accesses that the
types are ready for: a send or a notification that has returned has put exactly its item into the
queue, a receive of either kind that has returned has taken exactly the item that was its turn, with
the words it asked for; `can_recv` answers whether more items were sent than taken; and what the
calls of an end did on one type is what they did on another, as far as both have come, and all of
it when the program has ended on both. -/
theorem interchangeable {prog : Programs} (hprog : ∀ d h c, prog d h = some c → Plain c)
    {T T' : QpType} {line : Side → T.line.State} {line' : Side → T'.line.State}
    (hnew : T.Created line) (hnew' : T'.Created line') {tr tr' : List Side} {s : Session T.line}
    {s' : Session T'.line} (hrun : Run (ReadyStep T.Ready prog) (Session.start line) tr s)
    (hrun' : Run (ReadyStep T'.Ready prog) (Session.start line') tr' s') :
    Answered prog s ∧
      (∀ d, T.line.receiving (s.line d) = false →
        (T.line.canRecv (s.line d) = true ↔
          taken (s.hist d.other) < (sents (s.hist d)).length)) ∧
      ∀ d, (s.hist d <+: s'.hist d ∨ s'.hist d <+: s.hist d) ∧
        (prog d (s.hist d) = none → prog d (s'.hist d) = none → s.hist d = s'.hist d) := by
  obtain ⟨holds, stands, hfifo, hinit⟩ := T.isFifo
  obtain ⟨holds', stands', hfifo', hinit'⟩ := T'.isFifo
  obtain ⟨hgood, ntr, hnet⟩ :=
    session_network hfifo hprog (hinit line hnew).1 (hinit line hnew).2 hrun
  obtain ⟨-, ntr', hnet'⟩ :=
    session_network hfifo' hprog (hinit' line' hnew').1 (hinit' line' hnew').2 hrun'
  refine ⟨answered_of_network hnet, fun d hidle => ?_, fun d => ⟨?_, fun hend hend' => ?_⟩⟩
  · rw [hfifo.poll (hgood.line d) hidle, items, ← List.length_pos_iff, List.length_drop]
    omega
  · exact Network.determinate hnet hnet' d
  · have hstop : ∀ h, prog d h = none → (network prog).prog d h = none := by
      intro h hnone
      simp [network, hnone]
    exact Network.determinate_end hnet hnet' (hstop _ hend) (hstop _ hend')

/-! ## 3. And where they are not -/

/-- One end sends two messages; the other waits for a notification, and then receives. -/
def exchange : Programs
  | .src, [] => some (.trySend ⟨1, fun _ => 7⟩)
  | .src, [_] => some (.trySend ⟨1, fun _ => 8⟩)
  | .dst, [] => some .recvNotify
  | .dst, [_] => some (.tryRecv 1)
  | _, _ => none

theorem exchange_plain (d : Side) (h : List Done) (c : Call) (hc : exchange d h = some c) :
    Plain c := by
  unfold exchange at hc
  split at hc
  · cases hc
    exact ⟨by decide, by decide, by decide⟩
  · cases hc
    exact ⟨by decide, by decide, by decide⟩
  · cases hc
    trivial
  · cases hc
    exact ⟨by decide, by decide⟩
  · cases hc

instance (T : QpType) (s : T.line.State) (c : Call) : Decidable (T.Ready s c) :=
  match T with
  | .ump => Ump.decidableReady s c
  | .ffq => Ffq.decidableReady s c
  | .shm => .isTrue trivial

/-- A new FFQ queue pair, and a new UMP queue pair. -/
def newFfq : Option (Side → (QpType.line .ffq).State) :=
  (Ffq.queuepairInit (fun _ => some fun _ _ => 0) ffqDefaultSlots).toOption.map Ffq.Micro.init

def newUmp : Option (Side → (QpType.line .ump).State) :=
  (Ump.queuepairInit (fun _ => some 4096) umpDefaultSlots).toOption.map Ump.Micro.init

theorem created_newFfq {line : Side → (QpType.line .ffq).State} (h : newFfq = some line) :
    QpType.Created .ffq line := by
  obtain ⟨w, hw, rfl⟩ := Option.map_eq_some_iff.mp h
  exact ⟨_, w, eq_ok_of_toOption hw, rfl⟩

theorem created_newUmp {line : Side → (QpType.line .ump).State} (h : newUmp = some line) :
    QpType.Created .ump line := by
  obtain ⟨w, hw, rfl⟩ := Option.map_eq_some_iff.mp h
  exact ⟨_, w, eq_ok_of_toOption hw, rfl⟩

/-- When the sender is first, both types deliver the two messages. -/
def ffqTurns : List Side := [.src, .src, .dst, .dst, .src, .src, .dst, .dst, .dst]

def umpTurns : List Side :=
  [.src, .src, .src, .dst, .dst, .dst, .src, .src, .src, .dst, .dst, .dst, .dst]

theorem outcome_ffq : outcome (QpType.Ready .ffq) exchange newFfq ffqTurns =
    some ([.sent [7], .sent [8]], [.received [], .received [8]]) := by
  decide +kernel

theorem outcome_ump : outcome (QpType.Ready .ump) exchange newUmp umpTurns =
    some ([.sent [7], .sent [8]], [.received [], .received [8]]) := by
  decide +kernel

theorem interchangeable_exchange : ∃ (line : Side → (QpType.line .ffq).State)
    (line' : Side → (QpType.line .ump).State) (s : Session (QpType.line .ffq))
    (s' : Session (QpType.line .ump)), QpType.Created .ffq line ∧ QpType.Created .ump line' ∧
      s.hist .dst = [.received [], .received [8]] ∧ Answered exchange s ∧
      s.hist .dst = s'.hist .dst := by
  obtain ⟨line, tr, s, hnew, hrun, -, hdst⟩ := run_of_outcome outcome_ffq
  obtain ⟨line', tr', s', hnew', hrun', -, hdst'⟩ := run_of_outcome outcome_ump
  have h := interchangeable exchange_plain (created_newFfq hnew) (created_newUmp hnew') hrun hrun'
  refine ⟨line, line', s, s', created_newFfq hnew, created_newUmp hnew', hdst, h.1, ?_⟩
  exact (h.2.2 .dst).2 (by rw [hdst]; rfl) (by rw [hdst']; rfl)

/-- When the receiver is first, its `recv0` fails on FFQ, and its `recv` gets the first message. -/
theorem outcome_early : outcome (fun _ _ => True) exchange newFfq
    [.dst, .src, .src, .dst, .dst, .dst] =
      some ([.sent [7]], [.failed (.err [.queueEmpty]), .received [7]]) := by
  decide +kernel

/-- **On FFQ a `recv0` returns without having taken anything**, and the same two programs see
something else than on UMP. -/
theorem exchange_differs : (∀ d h c, exchange d h = some c → Plain c) ∧
    ∃ (line : Side → (QpType.line .ffq).State) (line' : Side → (QpType.line .ump).State)
      (tr tr' : List Side) (s : Session (QpType.line .ffq)) (s' : Session (QpType.line .ump)),
      QpType.Created .ffq line ∧ QpType.Created .ump line' ∧
        Run (SessionStep exchange) (Session.start line) tr s ∧
        Run (SessionStep exchange) (Session.start line') tr' s' ∧
        s.hist .dst = [.failed (.err [.queueEmpty]), .received [7]] ∧
        s'.hist .dst = [.received [], .received [8]] ∧
        ¬ Answered exchange s ∧
          ¬ (s.hist .dst <+: s'.hist .dst ∨ s'.hist .dst <+: s.hist .dst) := by
  obtain ⟨line, tr, s, hnew, hrun, -, hdst⟩ := run_of_outcome outcome_early
  obtain ⟨line', tr', s', hnew', hrun', -, hdst'⟩ := run_of_outcome outcome_ump
  refine ⟨exchange_plain, line, line', tr, tr', s, s', created_newFfq hnew, created_newUmp hnew',
    hrun.mono fun _ _ _ h => h.1, hrun'.mono fun _ _ _ h => h.1, hdst, hdst', fun h => ?_, ?_⟩
  · -- the first entry was made by a `recv0`, which took no item
    obtain ⟨c, hc, hentry⟩ := h .dst 0 (.failed (.err [.queueEmpty])) (by rw [hdst]; rfl)
    rw [List.take_zero] at hc
    cases hc
    obtain ⟨xs, -, hxs⟩ := hentry
    cases hxs
  · rw [hdst, hdst']
    decide

end Smelt
