/-
# Polling for room in the shared-memory queue pair

`shm_q_can_send` compares the two numbers of the source's own context and says "no" when they are
equal.  That is the sync point, where `shm_q_send` looks at the position of the reader, and goes on
if it has moved.  The poll does not look, and it does not store what a look would find; so a source
at its sync point polls "no" whether the reader is behind or not (`poll_iff`), and since only a send
changes the two numbers, it does so until it sends without asking (`refused_until_send`).

The sync point comes 61 messages after the position it was computed from.  The answer is right as
long as the source is not there, or is there with all 61 messages unreceived.
-/
import Smelt.Shm.Pair

namespace Smelt.ShmQp

/-- At one state, polling agrees with sending: `shm_q_can_send` answers whether `shm_q_send` and
`shm_q_send0` would return without waiting, and "yes" when the reader has received everything. -/
def PollsRight (sent received : ℕ) (c : Context) (mem : Memory) : Prop :=
  (∀ payload, qCanSend c = (qSend c mem payload).isSome) ∧
    (received = sent → qCanSend c = true)

section Poll

variable {S r m : ℕ} {tx rx : Context} {mem : Memory}

/-- A send waits at the sync point, for as long as 61 messages are unreceived. -/
theorem Inv.qSend_isSome (h : Inv S r m tx rx mem) (payload : Option (Nat → Word)) :
    (ShmQp.qSend tx mem payload).isSome = true ↔ ¬ (tx.nextSeq = tx.nextSync ∧ S = r + 61) := by
  obtain ⟨hw, -⟩ := h.wrap
  have hseq : tx.wrap.nextSeq = tx.nextSeq := by rw [hw.seqTx, h.seqTx]
  have hsync : tx.wrap.nextSync = tx.nextSync := by rw [hw.sync, h.sync]
  have hwaits : tx.nextSeq = getNextSync tx.wrap mem ↔ S = r + 61 := by
    rw [← hseq, hw.waits]
    omega
  simp only [ShmQp.qSend, hseq, hsync, hwaits]
  split
  · simp_all
  · simp_all

/-- **Polling is right exactly when the sync point is not stale.** -/
theorem Inv.poll (h : Inv S r m tx rx mem) :
    PollsRight S r tx mem ↔ (tx.nextSeq = tx.nextSync → S = r + 61) := by
  have hpoll : qCanSend tx = true ↔ ¬ tx.nextSeq = tx.nextSync := by
    simp [qCanSend]
  constructor
  · rintro ⟨hsend, -⟩ hsync
    by_contra hroom
    -- the send goes on, and the poll says that it would not
    have hgo := (h.qSend_isSome none).mpr fun hh => hroom hh.2
    rw [← hsend none, hpoll] at hgo
    exact hgo hsync
  · intro hfull
    refine ⟨fun payload => ?_, fun hdrained => ?_⟩
    · rw [Bool.eq_iff_iff, hpoll, h.qSend_isSome payload]
      exact ⟨fun hne hh => hne hh.1, fun hgo hsync => hgo ⟨hsync, hfull hsync⟩⟩
    · rw [hpoll]
      intro hsync
      have := hfull hsync
      omega

end Poll

/-- **`shm_q_can_send` agrees with `shm_q_send`**, in a state reached by the accesses of both ends
in any order, exactly when the source is not at its sync point or 61 messages are unreceived. -/
theorem poll_iff {tr : List MEvent} {s : Micro} (hrun : Run MStep Micro.init tr s) :
    PollsRight (sends tr).length (recvs tr).length s.src s.mem ↔
      (s.src.nextSeq = s.src.nextSync → (sends tr).length = (recvs tr).length + 61) := by
  obtain ⟨⟨m, hinv⟩, -⟩ := reached_run hrun
  exact hinv.pair.poll

/-- **Refused for good**: whatever the reader does, the poll stays "no" until there is a send. -/
theorem refused_until_send {s s' : Micro} {tr : List MEvent}
    (hrun : Run (fun s e s' => ∃ a, (∀ payload, a ≠ .send payload) ∧ s.act a = some (s', e))
      s tr s')
    (hidle : s.wpc = .idle) (hno : qCanSend s.src = false) :
    s'.wpc = .idle ∧ qCanSend s'.src = false := by
  refine hrun.induct (fun _ s => s.wpc = .idle ∧ qCanSend s.src = false) ⟨hidle, hno⟩ ?_
  rintro - s e s' ⟨hidle, hno⟩ ⟨a, hsend, ha⟩
  cases a with
  | send payload => exact absurd rfl (hsend payload)
  | sync => simp [Micro.act, hidle] at ha
  | store => simp [Micro.act, hidle] at ha
  | publish => simp [Micro.act, hidle] at ha
  | observe payload =>
    simp only [Micro.act] at ha
    split at ha
    · split at ha
      · obtain ⟨rfl, -⟩ := Prod.mk.inj (Option.some.inj ha)
        exact ⟨hidle, hno⟩
      · obtain ⟨rfl, -⟩ := Prod.mk.inj (Option.some.inj ha)
        exact ⟨hidle, hno⟩
    · cases ha
  | load =>
    simp only [Micro.act] at ha
    split at ha
    · split at ha
      · obtain ⟨rfl, -⟩ := Prod.mk.inj (Option.some.inj ha)
        exact ⟨hidle, hno⟩
      · cases ha
    · cases ha
  | finish =>
    simp only [Micro.act] at ha
    split at ha
    · split at ha
      · cases ha
      · obtain ⟨rfl, -⟩ := Prod.mk.inj (Option.some.inj ha)
        exact ⟨hidle, hno⟩
    · cases ha

/-- What a run of accesses leads to: the messages sent and received, whether the source is at its
sync point, and the answers of the poll and of a send. -/
def polled (acts : List Act) : Option (ℕ × ℕ × Bool × Bool × Bool) :=
  (Run.drive Micro.act Micro.init acts).map fun r =>
    ((sends r.1).length, (recvs r.1).length, r.2.src.nextSeq == r.2.src.nextSync,
      qCanSend r.2.src, (qSend r.2.src r.2.mem none).isSome)

theorem run_of_polled {acts : List Act} {sent received : ℕ} {sync poll send : Bool}
    (h : polled acts = some (sent, received, sync, poll, send)) :
    ∃ tr s, Run MStep Micro.init tr s ∧ (sends tr).length = sent ∧ (recvs tr).length = received ∧
      (s.src.nextSeq == s.src.nextSync) = sync ∧ qCanSend s.src = poll ∧
      (qSend s.src s.mem none).isSome = send := by
  obtain ⟨⟨tr, s⟩, hdrive, heq⟩ := Option.map_eq_some_iff.mp h
  simp only [Prod.mk.injEq] at heq
  exact ⟨tr, s, Run.of_drive (fun _ a _ _ ha => ⟨a, ha⟩) hdrive, heq⟩

/-- `n` notifications, all of them received. -/
def notifyActs (n : ℕ) : List Act :=
  (List.replicate n [Act.send none, .publish]).flatten ++
    (List.replicate n [Act.observe false, .finish]).flatten

theorem polled_short : polled (notifyActs 60) = some (60, 60, false, true, true) := by
  decide +kernel

theorem poll_iff_short :
    ∃ tr s, Run MStep Micro.init tr s ∧ (sends tr).length = 60 ∧
      PollsRight (sends tr).length (recvs tr).length s.src s.mem := by
  obtain ⟨tr, s, hrun, hsent, -, hsync, -⟩ := run_of_polled polled_short
  exact ⟨tr, s, hrun, hsent, (poll_iff hrun).mpr fun he => by simp [he] at hsync⟩

theorem polled_sync : polled (notifyActs 61) = some (61, 61, true, false, true) := by
  decide +kernel

/-- **A drained queue that polls full**: the reader has received all 61 messages, a send would
return, and the poll says "no". -/
theorem drained_refused :
    ∃ tr s, Run MStep Micro.init tr s ∧ (sends tr).length = 61 ∧ (recvs tr).length = 61 ∧
      qCanSend s.src = false ∧ (qSend s.src s.mem none).isSome = true ∧
      ¬ PollsRight (sends tr).length (recvs tr).length s.src s.mem := by
  obtain ⟨tr, s, hrun, hsent, hrcvd, -, hpoll, hsend⟩ := run_of_polled polled_sync
  refine ⟨tr, s, hrun, hsent, hrcvd, hpoll, hsend, fun h => ?_⟩
  have hyes := h.2 (hrcvd.trans hsent.symm)
  rw [hpoll] at hyes
  cases hyes

end Smelt.ShmQp
