/-
# The dissemination barrier goes on for ever

`Progress.lean` says that not everybody waits in vain.  Here the participants take turns under a
fair schedule, and each of them returns from one wait after the other, without end
(`dissem_barrier_finishes`), over any backend that is a FIFO and so over UMP rings of any size, as
long as the indices of the array are `int`s.

The measure is `pos`, how far a participant has come in its whole life: `2 * rounds + 2` steps for
each wait.  Whoever has come least far never has to try twice.

* Before a notification: its receiver has come at least as far, so it has received all older ones,
  the channel is empty, and an empty channel takes anything.
* Before a wait: the one it waits for has come at least as far, so it has made that notification.

So no turn of the slowest participant is wasted, and the slowest catches up.  Two participants are
never more than one wait apart.
-/
import Smelt.Dissem.Progress
import Smelt.Lib.Fair
import Mathlib.Algebra.BigOperators.Group.Finset.Basic
import Mathlib.Algebra.Order.BigOperators.Group.Finset
import Mathlib.Data.Finset.Max

namespace Smelt.Dissem

/-! ## 1. How far a participant has come -/

/-- The steps of the current wait that have been made. -/
def place (R : ℕ) : Pc → ℕ
  | .idle => 0
  | .notify _ r _ => 2 * r + 1
  | .recv _ r _ => 2 * r + 2
  | .ret => 2 * R + 1
  | .failed => 0

/-- All steps that have been made. -/
def pos (R : ℕ) (p : Part) : ℕ := p.done * (2 * R + 2) + place R p.pc

/-- Who made the turn. -/
def Ev.who : Ev → ℕ
  | .enter i _ => i
  | .put i _ _ _ => i
  | .got i _ _ _ => i
  | .ret i _ => i
  | .quiet i => i

section Pos

variable {n R i j : ℕ} {p q : Part} {f f' : ℕ → Part} {e : Ev}

theorem place_lt (hok : PcOk R i p.pc) : place R p.pc < 2 * R + 2 := by
  obtain ⟨done, pc⟩ := p
  cases pc with
  | notify id r step =>
    obtain ⟨-, hr, -⟩ := hok
    simp only [place]
    omega
  | recv id r step =>
    obtain ⟨-, hr, -⟩ := hok
    simp only [place]
    omega
  | failed => exact hok.elim
  | _ => simp [place]

theorem place_topOf {r : ℕ} (hr : r ≤ R) : place R (topOf R i r) = 2 * r + 1 := by
  unfold topOf
  split
  · rfl
  · obtain rfl : r = R := by omega
    rfl

/-- Who has come at least as far has made at least as many calls. -/
theorem done_le_of_pos (hq : PcOk R j q.pc) (h : pos R p ≤ pos R q) : p.done ≤ q.done := by
  have hlt := place_lt hq
  by_contra hgt
  have hmul := Nat.mul_le_mul_right (2 * R + 2) (Nat.lt_of_not_le hgt)
  rw [Nat.succ_mul] at hmul
  unfold pos at h
  omega

/-- Who has come further than the notification of a round has sent it. -/
theorem sent_of_pos {r : ℕ} (hr : r < R) (hpc : p.pc = .recv i r (2 ^ r)) (hq : PcOk R j q.pc)
    (h : pos R p ≤ pos R q) : p.done * R + r < sent R q := by
  have hdone := done_le_of_pos hq h
  rcases Nat.lt_or_eq_of_le hdone with hlt | heq
  · have hmul := Nat.mul_le_mul_right R (Nat.succ_le_of_lt hlt)
    rw [Nat.succ_mul] at hmul
    unfold sent
    omega
  · obtain ⟨done, pc⟩ := q
    subst heq
    simp only [pos, hpc, place] at h
    cases pc with
    | notify id r' step => simp only [sent] at *; omega
    | recv id r' step => simp only [sent] at *; omega
    | ret => simp only [sent] at *; omega
    | idle => simp at h
    | failed => exact hq.elim

/-- Who has come as far as a round has heard in all rounds before. -/
theorem rcvd_of_pos {r : ℕ} (hr : r < R) (hpc : p.pc = .notify i r (2 ^ r)) (hq : PcOk R j q.pc)
    (h : pos R p ≤ pos R q) : p.done * R + r ≤ rcvd R q := by
  have hdone := done_le_of_pos hq h
  rcases Nat.lt_or_eq_of_le hdone with hlt | heq
  · have hmul := Nat.mul_le_mul_right R (Nat.succ_le_of_lt hlt)
    rw [Nat.succ_mul] at hmul
    unfold rcvd
    omega
  · obtain ⟨done, pc⟩ := q
    subst heq
    simp only [pos, hpc, place] at h
    cases pc with
    | notify id r' step => simp only [rcvd] at *; omega
    | recv id r' step => simp only [rcvd] at *; omega
    | ret => simp only [rcvd] at *; omega
    | idle => simp at h
    | failed => exact hq.elim

/-- **Every step of the abstract machine is one step further for whoever makes it.** -/
theorem PStep.pos (h : PStep n R f e f') :
    f' = f ∧ e = .quiet e.who ∨
      ∃ p, f' = Function.update f e.who p ∧ pos R p = pos R (f e.who) + 1 := by
  cases h with
  | @enter i hi hpc =>
    refine .inr ⟨_, rfl, ?_⟩
    simp only [Dissem.pos, place_topOf (Nat.zero_le R), Ev.who, hpc]
    rfl
  | @put i j r hi hpc hr hj =>
    refine .inr ⟨_, rfl, ?_⟩
    simp [Dissem.pos, Ev.who, hpc, place]
    omega
  | @got i j r hi hj hpc hr hij hlt =>
    refine .inr ⟨_, rfl, ?_⟩
    have hplace : place R (.recv j r (2 ^ r)) = 2 * r + 2 := rfl
    simp only [Dissem.pos, place_topOf (Nat.succ_le_of_lt hr), Ev.who, hpc, hplace]
    omega
  | @ret i hi hpc =>
    refine .inr ⟨_, rfl, ?_⟩
    simp [Dissem.pos, Ev.who, hpc, place, Nat.succ_mul]
    omega
  | quiet => exact .inl ⟨rfl, rfl⟩

end Pos

/-! ## 2. Turns -/

section Turns

variable {B : Backend} {holds : B.State → (Side → List (List Word)) → Prop} {bar : Barrier}
  {s s' : Sys B} {e : Ev} {i j : ℕ}

/-- A turn is the turn of one participant. -/
theorem turn_who (h : s.turn bar i = some (s', e)) : e.who = i := by
  have hchan : ∀ {entry : Option ChanRef} {self : UInt32} {c : Call} {next : Option Pc} {e' : Ev},
      e'.who = i → s.chanTurn i entry self c next e' = some (s', e) → e.who = i := by
    intro entry self c next e' he' hc
    simp only [Sys.chanTurn, Option.bind_eq_bind, Option.bind_eq_some_iff] at hc
    obtain ⟨ref, -, chan, -, hc⟩ := hc
    split at hc
    · obtain ⟨pc, -, hc⟩ := Option.bind_eq_some_iff.mp hc
      obtain ⟨-, rfl⟩ := Prod.mk.inj (Option.some.inj hc)
      exact he'
    all_goals
      obtain ⟨-, rfl⟩ := Prod.mk.inj (Option.some.inj hc)
      rfl
  simp only [Sys.turn, Option.bind_eq_bind, Option.bind_eq_some_iff] at h
  obtain ⟨self, -, h⟩ := h
  split at h
  · obtain ⟨-, rfl⟩ := Prod.mk.inj (Option.some.inj h)
    rfl
  · obtain ⟨up, -, h⟩ := Option.bind_eq_some_iff.mp h
    exact hchan rfl h
  · obtain ⟨down, -, h⟩ := Option.bind_eq_some_iff.mp h
    obtain ⟨peer, -, h⟩ := Option.bind_eq_some_iff.mp h
    exact hchan rfl h
  · obtain ⟨-, rfl⟩ := Prod.mk.inj (Option.some.inj h)
    rfl
  · cases h

/-- The system after a turn of one of the participants. -/
def Sys.next (bar : Barrier) (s : Sys B) (i : Fin bar.cores.length) : Sys B :=
  match s.turn bar i with
  | some r => r.1
  | none => s

/-- The participants are where the channels say they are. -/
def Good (holds : B.State → (Side → List (List Word)) → Prop) (bar : Barrier) (s : Sys B) : Prop :=
  PInv bar.cores.length bar.rounds s.part ∧
    Rep holds bar s (inFlight bar.cores.length bar.rounds s.part)

/-- **What a turn does**: nothing, or a step further. -/
theorem next_cases (hB : B.IsFifo holds) (hw : Wired bar) (h : Good holds bar s)
    (i : Fin bar.cores.length) :
    Good holds bar (s.next bar i) ∧
      ((s.next bar i).part = s.part ∨ ∃ p, (s.next bar i).part = Function.update s.part i p ∧
        pos bar.rounds p = pos bar.rounds (s.part i) + 1) := by
  unfold Sys.next
  cases hturn : s.turn bar i with
  | none => exact ⟨h, .inl rfl⟩
  | some r =>
    have hr : s.turn bar i = some (r.1, r.2) := hturn
    obtain ⟨hstep, hrep⟩ := turn_pstep hB hw h.1 h.2 hr
    have hwho := turn_who hr
    refine ⟨⟨pinv_step hw.pow_lt h.1 hstep, hrep⟩, ?_⟩
    rcases hstep.pos with ⟨hsame, -⟩ | ⟨p, hp, hpos⟩
    · exact .inl hsame
    · rw [hwho] at hp hpos
      exact .inr ⟨p, hp, hpos⟩

/-- Nobody falls back, and a turn concerns the participant that takes it. -/
theorem next_pos_le (hB : B.IsFifo holds) (hw : Wired bar) (h : Good holds bar s)
    (i : Fin bar.cores.length) (j : ℕ) :
    pos bar.rounds (s.part j) ≤ pos bar.rounds ((s.next bar i).part j) ∧
      (j ≠ i → (s.next bar i).part j = s.part j) := by
  obtain ⟨-, hsame | ⟨p, hp, hpos⟩⟩ := next_cases hB hw h i
  · rw [hsame]
    exact ⟨Nat.le_refl _, fun _ => rfl⟩
  · rw [hp]
    by_cases hj : j = i
    · subst hj
      rw [Function.update_self, hpos]
      exact ⟨Nat.le_succ _, fun hne => absurd rfl hne⟩
    · rw [Function.update_of_ne hj]
      exact ⟨Nat.le_refl _, fun _ => rfl⟩

/-- A turn that shows something is a step further. -/
theorem next_pos (hB : B.IsFifo holds) (hw : Wired bar) (h : Good holds bar s)
    {i : Fin bar.cores.length} (hturn : s.turn bar i = some (s', e)) (he : e ≠ .quiet e.who) :
    pos bar.rounds (s.part i) < pos bar.rounds ((s.next bar i).part i) := by
  obtain ⟨hstep, -⟩ := turn_pstep hB hw h.1 h.2 hturn
  have hwho := turn_who hturn
  have hnext : s.next bar i = s' := by simp only [Sys.next, hturn]
  rcases hstep.pos with ⟨-, hquiet⟩ | ⟨p, hp, hpos⟩
  · exact absurd hquiet he
  · rw [hwho] at hp hpos
    rw [hnext, hp, Function.update_self, hpos]
    exact Nat.lt_succ_self _

/-- **The turn of the one who has come least far is not wasted.** -/
theorem least_turn (hB : B.IsFifo holds) (hw : Wired bar) (h : Good holds bar s)
    {i : Fin bar.cores.length}
    (hleast : ∀ j < bar.cores.length, pos bar.rounds (s.part i) ≤ pos bar.rounds (s.part j)) :
    pos bar.rounds (s.part i) < pos bar.rounds ((s.next bar i).part i) := by
  obtain ⟨hinv, hrep⟩ := h
  have hok := hinv.ok i i.isLt
  have hself : bar.cores[(i : ℕ)]? = some bar.cores[(i : ℕ)] := List.getElem?_eq_getElem i.isLt
  cases hpc : (s.part i).pc with
  | idle =>
    obtain ⟨s', hturn⟩ : ∃ s', s.turn bar i = some (s', .enter i (s.part i).done) := by
      simp only [Sys.turn, hself, hpc, Option.bind_eq_bind, Option.bind_some]
      exact ⟨_, rfl⟩
    exact next_pos hB hw ⟨hinv, hrep⟩ hturn fun heq => by cases heq
  | notify id r step =>
    rw [hpc] at hok
    obtain ⟨rfl, hr, rfl⟩ := hok
    obtain ⟨hj, hij, hturn⟩ := turn_notify hw hself hr hpc
    have hheard := rcvd_of_pos hr hpc (hinv.ok _ hj) (hleast _ hj)
    have hsent : sent bar.rounds (s.part i) = (s.part i).done * bar.rounds + r := by
      simp [sent, hpc]
    -- everything it has sent there has been received
    have hempty : inFlight bar.cores.length bar.rounds s.part i
        ((i + 2 ^ r) % bar.cores.length) = [] := by
      refine List.eq_nil_iff_forall_not_mem.mpr fun g hg => ?_
      have hlt := Rounds.lt_of_flight hg
      simp only [Function.comp_apply] at hlt
      omega
    obtain ⟨s', hput⟩ := notify_ready hw hrep (.recv i r (2 ^ r))
      (.put i ((i + 2 ^ r) % bar.cores.length) (s.part i).done r)
      (fun w q d hq hlen hnone => by
        rw [hempty, List.length_nil, Nat.le_zero, List.length_eq_zero_iff] at hlen
        exact (hB.refuse (c := .notify) hq (Nat.zero_le 7) rfl hnone).2.1 hlen) hself hj hij
    exact next_pos hB hw ⟨hinv, hrep⟩ (hturn.trans hput) fun heq => by cases heq
  | recv id r step =>
    rw [hpc] at hok
    obtain ⟨rfl, hr, rfl⟩ := hok
    obtain ⟨hj, hup, hij, hturn⟩ := turn_recv hw hself hr hpc
    have hsent := sent_of_pos hr hpc (hinv.ok _ hj) (hleast _ hj)
    have hrcvd : rcvd bar.rounds (s.part i) = (s.part i).done * bar.rounds + r := by
      simp [rcvd, hpc]
    have hmem : rcvd bar.rounds (s.part i) ∈ inFlight bar.cores.length bar.rounds s.part
        (down bar.cores.length i (2 ^ r)) i := by
      refine List.mem_filter.mpr ⟨List.mem_range.mpr (hrcvd ▸ hsent), ?_⟩
      simp only [uses, hrcvd, round_mod hr, Bool.and_eq_true, decide_eq_true_eq]
      exact ⟨⟨hj, hup⟩, Nat.le_of_eq hrcvd⟩
    obtain ⟨s', hgot⟩ := recv_ready hB hw hrep (topOf bar.rounds i (r + 1))
      (.got i (down bar.cores.length i (2 ^ r)) (s.part i).done r) hself hj hij
      (List.ne_nil_of_mem hmem)
    exact next_pos hB hw ⟨hinv, hrep⟩ (hturn.trans hgot) fun heq => by cases heq
  | ret =>
    obtain ⟨s', hturn⟩ : ∃ s', s.turn bar i = some (s', .ret i (s.part i).done) := by
      simp only [Sys.turn, hself, hpc, Option.bind_eq_bind, Option.bind_some]
      exact ⟨_, rfl⟩
    exact next_pos hB hw ⟨hinv, hrep⟩ hturn fun heq => by cases heq
  | failed =>
    rw [hpc] at hok
    exact hok.elim

end Turns

/-! ## 3. For ever -/

section Forever

variable {B : Backend} {holds : B.State → (Side → List (List Word)) → Prop} {bar : Barrier}
  {s : Sys B}

/-- What is left to do until everybody has returned from `calls` waits. -/
def Sys.work (bar : Barrier) (calls : ℕ) (s : Sys B) : ℕ :=
  ∑ i : Fin bar.cores.length, (calls * (2 * bar.rounds + 2) - pos bar.rounds (s.part i))

/-- Somebody who has not made all the calls has gone on. -/
theorem work_lt (hB : B.IsFifo holds) (hw : Wired bar) {calls : ℕ} (h : Good holds bar s)
    {i : Fin bar.cores.length} (hcalls : (s.part i).done < calls)
    (hlt : pos bar.rounds (s.part i) < pos bar.rounds ((s.next bar i).part i)) :
    (s.next bar i).work bar calls < s.work bar calls := by
  have hplace := place_lt (h.1.ok i i.isLt)
  have hmul := Nat.mul_le_mul_right (2 * bar.rounds + 2) (Nat.succ_le_of_lt hcalls)
  rw [Nat.succ_mul] at hmul
  have hleft : pos bar.rounds (s.part i) < calls * (2 * bar.rounds + 2) := by
    unfold pos
    omega
  refine Finset.sum_lt_sum (fun j _ => ?_) ⟨i, Finset.mem_univ i, by omega⟩
  have hle := (next_pos_le hB hw h i j).1
  omega

/-- **The barrier follows the rule for fair schedules**: who has come least far is ready. -/
theorem finish_rule (hB : B.IsFifo holds) (hw : Wired bar) (calls : ℕ) :
    Fair.Rule (Sys.next (B := B) bar) (Good holds bar)
      (fun s => ∀ i < bar.cores.length, calls ≤ (s.part i).done) (Sys.work bar calls) id
      (fun i s => (s.part i).done < calls ∧
        ∀ j < bar.cores.length, pos bar.rounds (s.part i) ≤ pos bar.rounds (s.part j))
      (fun _ _ => 0) where
  inv s i h := (next_cases hB hw h i).1
  le s i h := Finset.sum_le_sum fun j _ => by
    have hle := (next_pos_le hB hw h i j).1
    omega
  ready s h hnot := by
    push Not at hnot
    obtain ⟨i₀, hi₀, hlt⟩ := hnot
    obtain ⟨i, -, hi⟩ := Finset.exists_min_image Finset.univ
      (fun i : Fin bar.cores.length => pos bar.rounds (s.part i)) ⟨⟨i₀, hi₀⟩, Finset.mem_univ _⟩
    have hleast : ∀ j < bar.cores.length, pos bar.rounds (s.part i) ≤ pos bar.rounds (s.part j) :=
      fun j hj => hi ⟨j, hj⟩ (Finset.mem_univ _)
    have hdone := done_le_of_pos (h.1.ok i₀ hi₀) (hleast i₀ hi₀)
    exact ⟨i, by omega, hleast⟩
  keep s i g h hg hsame := by
    obtain ⟨hcalls, hleast⟩ := hg
    refine ⟨?_, Nat.le_refl 0⟩
    by_cases hgi : g = i
    · -- its own turn would have been work
      subst hgi
      exact absurd hsame (Nat.ne_of_lt (work_lt hB hw h hcalls (least_turn hB hw h hleast)))
    · have hne : (g : ℕ) ≠ i := fun heq => hgi (Fin.ext heq)
      rw [(next_pos_le hB hw h i g).2 hne]
      exact ⟨hcalls, fun j hj => Nat.le_trans (hleast j hj) (next_pos_le hB hw h i j).1⟩
  move s i h hg := .inl (work_lt hB hw h hg.1 (least_turn hB hw h hg.2))

end Forever

/-- **The dissemination barrier goes on for ever.**  For every list of at most 46340 distinct ids
and over every backend that is a FIFO, however little room its queue pairs have: after every run and
under every fair schedule from there on, each participant returns from any number of waits.  And at
no time is a participant more than one wait ahead of another. -/
theorem dissem_barrier_finishes {B : Backend}
    {holds : B.State → (Side → List (List Word)) → Prop} (hB : B.IsFifo holds)
    {create : UInt32 → UInt32 → Except Errval B.State}
    (hcreate : ∀ src dst w, create src dst = .ok w → holds w fun _ => []) {cores : List UInt32}
    (hdistinct : cores.Nodup) (hfew : cores.length ≤ 46340) {bar : Barrier} {chan : Heap B}
    (hinit : dissemBarrierInit create cores = .ok (bar, chan)) {tr : List Ev} {s : Sys B}
    (hrun : Run (Step bar) (Sys.init chan) tr s) :
    (∀ i j, i < cores.length → j < cores.length → (s.part i).done ≤ (s.part j).done + 1) ∧
      ∀ sched : ℕ → Fin bar.cores.length, Fair sched → ∀ calls,
        ∃ m, ∀ m', m ≤ m' → ∀ i < cores.length,
          calls ≤ ((trail (Sys.next bar) sched s m').part i).done := by
  obtain ⟨rfl, hw, hruns, hrep⟩ := reached hB hcreate hdistinct hfew hinit hrun
  refine ⟨fun i j hi hj => ?_, fun sched hfair calls => ?_⟩
  · by_contra hgt
    have hlt : (s.part i).done - 1 < (s.part i).done := by omega
    rcases entered_of_done hw.pow_lt hw.le_pow hruns.inv hi hlt hj with hent | ⟨hent, -⟩ <;> omega
  · have hrule := finish_rule hB hw calls
    obtain ⟨m, hm⟩ := hrule.ends hfair ⟨hruns.inv, hrep⟩
    refine ⟨m, fun m' hmm => ?_⟩
    have hstep : ∀ (s : Sys B) i,
        (Good holds bar s ∧ ∀ j < bar.cores.length, calls ≤ (s.part j).done) →
        Good holds bar (s.next bar i) ∧
          ∀ j < bar.cores.length, calls ≤ ((s.next bar i).part j).done := by
      rintro s i ⟨h, hdone⟩
      have hnext := (next_cases hB hw h i).1
      refine ⟨hnext, fun j hj => Nat.le_trans (hdone j hj) ?_⟩
      exact done_le_of_pos (hnext.1.ok j hj) (next_pos_le hB hw h i j).1
    have hkeep : Good holds bar (trail (Sys.next bar) sched s m') ∧
        ∀ i < bar.cores.length, calls ≤ ((trail (Sys.next bar) sched s m').part i).done :=
      trail_keeps hstep hmm ⟨trail_keeps hrule.inv (Nat.zero_le m) ⟨hruns.inv, hrep⟩, hm⟩
    exact hkeep.2

/-- Three participants over rings of one message, turn by turn after a first wait. -/
theorem dissem_barrier_finishes_trio :
    ∃ (bar : Barrier) (chan : Heap Ump.backend) (s : Sys Ump.backend)
      (sched : ℕ → Fin bar.cores.length),
      dissemBarrierInit (fun _ _ => Ump.queuepairInit (fun _ => some 4096) 2) [7, 4, 5]
        = .ok (bar, chan) ∧
      Run.drive (Sys.turn bar) (Sys.init chan) trioTurns = some (trioTrace, s) ∧ Fair sched ∧
      ∃ m, ∀ m', m ≤ m' → ∀ i < 3, 100 ≤ ((trail (Sys.next bar) sched s m').part i).done := by
  obtain ⟨bar, chan, s, hinit, hdrive, hlen⟩ : ∃ (bar : Barrier) (chan : Heap Ump.backend)
      (s : Sys Ump.backend),
      dissemBarrierInit (fun _ _ => Ump.queuepairInit (fun _ => some 4096) 2) [7, 4, 5]
        = .ok (bar, chan) ∧
      Run.drive (Sys.turn bar) (Sys.init chan) trioTurns = some (trioTrace, s) ∧
      bar.cores.length = 3 := ⟨_, _, _, rfl, rfl, rfl⟩
  have hfair : Fair fun n : ℕ => (⟨n % 3, by omega⟩ : Fin bar.cores.length) := by
    intro i n
    have hi := i.isLt
    exact ⟨3 * n + i, by omega, Fin.ext (by simp only; omega)⟩
  have hfinishes := dissem_barrier_finishes Ump.backend_isFifo
    (fun (_ _ : UInt32) _ (h : Ump.queuepairInit (fun _ => some 4096) 2 = .ok _) =>
      Ump.holds_init h)
    (show [7, 4, 5].Nodup by decide) (show 3 ≤ 46340 by decide) hinit
    (Run.of_drive (fun s u s' e h => ⟨u, .inl h⟩) hdrive)
  exact ⟨bar, chan, s, _, hinit, hdrive, hfair, hfinishes.2 _ hfair 100⟩

end Smelt.Dissem
