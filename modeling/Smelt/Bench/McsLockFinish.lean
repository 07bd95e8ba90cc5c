/-
# The MCS lock goes round

That the lock of `McsLock.lean` is one is read off the rows: who is in the critical section is
the first of the row of the lock.  For the other half, that everybody gets it, the rows are
followed from the first to the last.  If all threads waited, no row would be out of the lock,
since the one that has taken it out does not wait; the first in the row of the lock would wait
for the next to link itself, which would be a bridge that waits for the next, and so on to the
last, which is none (`exists_ready`).

So everybody gets the lock if nobody wants it for ever: a thread has a number of times that
it does (`calls`).  More cannot be had.  Two threads that come again and again may hand the
lock to each other while a third one, whose queue they keep taking out and putting back,
spins (`mcs_lock_overtakes`).
-/
import Smelt.Lib.Fair
import Smelt.Bench.McsLock
import Mathlib.Algebra.Order.BigOperators.Group.Finset

namespace Smelt

namespace McsLock

variable {ι : Type} [DecidableEq ι]

/-! ## 1. Who waits -/

/-- A thread that waits for another: it spins, or for somebody to link itself to it. -/
def Sys.Blocked (s : Sys ι) (i : ι) : Prop :=
  (s.thread i).pc = .spin ∧ s.locked i ≠ 0 ∨
    ∃ usurper, (s.thread i).pc = .await usurper ∧ s.next i = none

/-- Where it never has to wait. -/
def Pc.moves : Pc ι → Bool
  | .idle | .spin | .await _ => false
  | _ => true

omit [DecidableEq ι] in
theorem Sys.Blocked.moves {s : Sys ι} {i : ι} (h : s.Blocked i) :
    (s.thread i).pc.moves = false := by
  rcases h with ⟨hpc, -⟩ | ⟨usurper, hpc, -⟩ <;> rw [hpc] <;> rfl

/-- How far it has come since it called `mcs_lock_lock`. -/
def Pc.steps : Pc ι → ℕ
  | .idle => 0
  | .swap => 1
  | .arm _ => 2
  | .link _ => 3
  | .spin => 4
  | .critical => 5
  | .detach => 6
  | .restore _ => 7
  | .await _ => 8
  | .read _ => 9
  | .relink _ _ => 10
  | .grant _ => 10

def Thread.pos (th : Thread ι) : ℕ := th.done * 11 + th.pc.steps

/-- How often it has called `mcs_lock_lock`. -/
def Thread.begun (th : Thread ι) : ℕ := if th.pc = .idle then th.done else th.done + 1

/-- What a turn of `i` does that is not waited away. -/
structure Sys.Goes (calls : ℕ) (i : ι) (s s' : Sys ι) : Prop where
  others : ∀ j, j ≠ i → s'.thread j = s.thread j
  pos : (s.thread i).pos < (s'.thread i).pos
  begun : (s'.thread i).begun ≤ calls

/-- It is not through, and does not have to wait. -/
def Sys.Ready (calls : ℕ) (s : Sys ι) (i : ι) : Prop :=
  ((s.thread i).pc = .idle → (s.thread i).done < calls) ∧ ¬ s.Blocked i

/-- The state after a turn of `i`; one that has no turn lets it pass. -/
def Sys.after (calls : ℕ) (s : Sys ι) (i : ι) : Sys ι :=
  match s.turn calls i with
  | some r => r.1
  | none => s

/-! ## 2. A turn -/

section Progress

variable {s s' s₁ : Sys ι} {row : Option ι → List ι} {i : ι} {calls : ℕ} {e : Ev ι} {pc : Pc ι}

omit [DecidableEq ι] in
theorem Pc.steps_lt (pc : Pc ι) : pc.steps < 11 := by
  cases pc <;> simp [Pc.steps]

theorem goes_goto (hthread : s₁.thread = s.thread) (hsteps : (s.thread i).pc.steps < pc.steps)
    (hcalls : (s.thread i).done < calls) : s.Goes calls i (s₁.goto i pc) where
  others j hj := by simp only [Sys.goto, Function.update_of_ne hj, hthread]
  pos := by
    simp only [Sys.goto, Function.update_self, Thread.pos, hthread]
    omega
  begun := by
    simp only [Sys.goto, Function.update_self, Thread.begun, hthread]
    split <;> omega

theorem goes_leave (hthread : s₁.thread = s.thread) (hcalls : (s.thread i).done < calls) :
    s.Goes calls i (s₁.leave i) where
  others j hj := by simp only [Sys.leave, Function.update_of_ne hj, hthread]
  pos := by
    have hlt := (s.thread i).pc.steps_lt
    have hidle : (Pc.idle : Pc ι).steps = 0 := rfl
    simp only [Sys.leave, Function.update_self, Thread.pos, hthread, hidle]
    omega
  begun := by
    simp only [Sys.leave, Function.update_self, Thread.begun, hthread, if_true]
    omega

/-- A turn of a blocked thread changes nothing, any other brings it on. -/
theorem turn_goes (hbegun : (s.thread i).begun ≤ calls) (hturn : s.turn calls i = some (s', e)) :
    s' = s ∧ s.Blocked i ∨ s.Goes calls i s' := by
  rcases eq_or_ne (s.thread i).pc .idle with hpc | hne
  · simp only [Sys.turn, hpc] at hturn
    split at hturn
    · rename_i hlt
      obtain ⟨rfl, -⟩ := Prod.mk.inj (Option.some.inj hturn)
      exact .inr (goes_goto rfl (by rw [hpc]; exact Nat.lt_succ_self 0) hlt)
    · cases hturn
  have hlt : (s.thread i).done < calls := by
    rw [Thread.begun, if_neg hne] at hbegun
    exact hbegun
  cases hpc : (s.thread i).pc with
  | idle => exact absurd hpc hne
  | swap =>
    simp only [Sys.turn, hpc] at hturn
    cases hlock : (s.qnodeSwap (some i)).1 with
    | none =>
      simp only [hlock] at hturn
      obtain ⟨rfl, -⟩ := Prod.mk.inj (Option.some.inj hturn)
      exact .inr (goes_goto rfl (by rw [hpc]; simp [Pc.steps]) hlt)
    | some a =>
      simp only [hlock] at hturn
      obtain ⟨rfl, -⟩ := Prod.mk.inj (Option.some.inj hturn)
      exact .inr (goes_goto rfl (by rw [hpc]; exact Nat.lt_succ_self 1) hlt)
  | arm p =>
    simp only [Sys.turn, hpc] at hturn
    obtain ⟨rfl, -⟩ := Prod.mk.inj (Option.some.inj hturn)
    exact .inr (goes_goto rfl (by rw [hpc]; exact Nat.lt_succ_self 2) hlt)
  | link p =>
    simp only [Sys.turn, hpc] at hturn
    obtain ⟨rfl, -⟩ := Prod.mk.inj (Option.some.inj hturn)
    exact .inr (goes_goto rfl (by rw [hpc]; exact Nat.lt_succ_self 3) hlt)
  | spin =>
    simp only [Sys.turn, hpc] at hturn
    split at hturn
    · rename_i hlocked
      obtain ⟨rfl, -⟩ := Prod.mk.inj (Option.some.inj hturn)
      exact .inl ⟨rfl, .inl ⟨hpc, hlocked⟩⟩
    · obtain ⟨rfl, -⟩ := Prod.mk.inj (Option.some.inj hturn)
      exact .inr (goes_goto rfl (by rw [hpc]; exact Nat.lt_succ_self 4) hlt)
  | critical =>
    simp only [Sys.turn, hpc] at hturn
    obtain ⟨rfl, -⟩ := Prod.mk.inj (Option.some.inj hturn)
    refine .inr (goes_goto rfl ?_ hlt)
    rw [hpc]
    split <;> simp [Pc.steps]
  | detach =>
    simp only [Sys.turn, hpc] at hturn
    by_cases hlock : (s.qnodeSwap none).1 = some i
    · rw [if_pos hlock] at hturn
      obtain ⟨rfl, -⟩ := Prod.mk.inj (Option.some.inj hturn)
      exact .inr (goes_leave rfl hlt)
    · rw [if_neg hlock] at hturn
      obtain ⟨rfl, -⟩ := Prod.mk.inj (Option.some.inj hturn)
      exact .inr (goes_goto rfl (by rw [hpc]; exact Nat.lt_succ_self 6) hlt)
  | restore oldTail =>
    simp only [Sys.turn, hpc] at hturn
    obtain ⟨rfl, -⟩ := Prod.mk.inj (Option.some.inj hturn)
    exact .inr (goes_goto rfl (by rw [hpc]; exact Nat.lt_succ_self 7) hlt)
  | await usurper =>
    simp only [Sys.turn, hpc] at hturn
    split at hturn
    · rename_i hnext
      obtain ⟨rfl, -⟩ := Prod.mk.inj (Option.some.inj hturn)
      exact .inl ⟨rfl, .inr ⟨usurper, hpc, hnext⟩⟩
    · obtain ⟨rfl, -⟩ := Prod.mk.inj (Option.some.inj hturn)
      exact .inr (goes_goto rfl (by rw [hpc]; exact Nat.lt_succ_self 8) hlt)
  | read usurper =>
    cases usurper with
    | some a =>
      simp only [Sys.turn, hpc] at hturn
      obtain ⟨rfl, -⟩ := Prod.mk.inj (Option.some.inj hturn)
      exact .inr (goes_goto rfl (by rw [hpc]; exact Nat.lt_succ_self 9) hlt)
    | none =>
      simp only [Sys.turn, hpc, Option.map_eq_some_iff] at hturn
      obtain ⟨n, -, heq⟩ := hturn
      obtain ⟨rfl, -⟩ := Prod.mk.inj heq
      exact .inr (goes_goto rfl (by rw [hpc]; exact Nat.lt_succ_self 9) hlt)
  | relink a seen =>
    simp only [Sys.turn, hpc] at hturn
    obtain ⟨rfl, -⟩ := Prod.mk.inj (Option.some.inj hturn)
    exact .inr (goes_leave rfl hlt)
  | grant n =>
    simp only [Sys.turn, hpc] at hturn
    obtain ⟨rfl, -⟩ := Prod.mk.inj (Option.some.inj hturn)
    exact .inr (goes_leave rfl hlt)

/-- A thread that is not through has a turn: no null pointer is followed. -/
theorem turn_isSome (h : s.Inv row) (hmore : (s.thread i).pc = .idle → (s.thread i).done < calls) :
    (s.turn calls i).isSome = true := by
  cases hpc : (s.thread i).pc with
  | idle => simp only [Sys.turn, hpc, if_pos (hmore hpc), Option.isSome_some]
  | swap =>
    cases hlock : (s.qnodeSwap (some i)).1 with
    | none => simp only [Sys.turn, hpc, hlock, Option.isSome_some]
    | some a => simp only [Sys.turn, hpc, hlock, Option.isSome_some]
  | spin =>
    simp only [Sys.turn, hpc]
    split <;> rfl
  | detach =>
    by_cases hlock : (s.qnodeSwap none).1 = some i
    · simp only [Sys.turn, hpc, if_pos hlock, Option.isSome_some]
    · simp only [Sys.turn, hpc, if_neg hlock, Option.isSome_some]
  | await usurper =>
    simp only [Sys.turn, hpc]
    split <;> rfl
  | read usurper =>
    cases usurper with
    | some a => simp only [Sys.turn, hpc, Option.isSome_some]
    | none =>
      have hsaw := h.saw i
      rw [hpc] at hsaw
      obtain ⟨n, hn⟩ := Option.ne_none_iff_exists'.mp hsaw
      simp only [Sys.turn, hpc, hn, Option.map_some, Option.isSome_some]
  | arm p => simp only [Sys.turn, hpc, Option.isSome_some]
  | link p => simp only [Sys.turn, hpc, Option.isSome_some]
  | critical => simp only [Sys.turn, hpc, Option.isSome_some]
  | restore oldTail => simp only [Sys.turn, hpc, Option.isSome_some]
  | relink a seen => simp only [Sys.turn, hpc, Option.isSome_some]
  | grant n => simp only [Sys.turn, hpc, Option.isSome_some]

omit [DecidableEq ι] in
/-- **Not everybody waits for another.** -/
theorem exists_ready (h : s.Inv row) (hmore : (s.thread i).done < calls) :
    ∃ j, s.Ready calls j := by
  by_contra hnone
  push Not at hnone
  have hblocked : ∀ j, (s.thread j).pc ≠ .idle → s.Blocked j := fun j hj => by
    by_contra hnot
    exact hnone j ⟨fun hidle => absurd hidle hj, hnot⟩
  have hmoves : ∀ j, (s.thread j).pc.moves = true → False := fun j hj => by
    have hb := hblocked j fun hidle => (by rw [hidle] at hj; cases hj)
    rw [hb.moves] at hj
    cases hj
  have hi : (s.thread i).pc.inside = true := by
    have hb : s.Blocked i := by
      by_contra hnot
      exact hnone i ⟨fun _ => hmore, hnot⟩
    rcases hb with ⟨hpc, -⟩ | ⟨usurper, hpc, -⟩ <;> rw [hpc] <;> rfl
  -- no row is out of the lock, so there is one in it
  obtain ⟨x, hx⟩ : ∃ x, (row none).head? = some x := by
    obtain ⟨k, hk⟩ := (h.mem i).mp hi
    obtain ⟨x, hx⟩ : ∃ x, (row k).head? = some x := by
      cases hrow : row k with
      | nil =>
        rw [hrow] at hk
        cases hk
      | cons x l => exact ⟨x, rfl⟩
    cases k with
    | none => exact ⟨x, hx⟩
    | some u =>
      obtain ⟨-, hpc, -⟩ := h.out u x hx
      exact (hmoves u (by rw [hpc]; rfl)).elim
  -- everybody in it waits for the next to link itself
  have hfirst : (s.thread x).pc.bridge ≠ none := by
    rcases h.head x hx with hpc | hpc | ⟨hpc, hlocked⟩ | hpc
    · exact (hmoves x (by rw [hpc]; rfl)).elim
    · exact (hmoves x (by rw [hpc]; rfl)).elim
    · rcases hblocked x (by rw [hpc]; exact fun h => (by cases h)) with ⟨-, hat⟩ | ⟨_, hat, -⟩
      · exact absurd hlocked hat
      · rw [hpc] at hat
        cases hat
    · rw [hpc]
      exact fun h => (by cases h)
  have hgoes : ∀ y z, Follows (row none) y z → (s.thread y).pc.bridge ≠ none →
      (s.thread z).pc.bridge ≠ none := by
    intro y z hyz hy
    have hnext : s.next y = none := by
      rcases hblocked y fun hidle => hy (by rw [hidle]; rfl) with ⟨hpc, -⟩ | ⟨-, -, hnext⟩
      · exact absurd (by rw [hpc]; rfl) hy
      · exact hnext
    rcases h.link none y z hyz with ⟨-, hpc | ⟨hpc, -⟩ | hpc⟩ | ⟨hset, -⟩
    · exact (hmoves z (by rw [hpc]; rfl)).elim
    · exact (hmoves z (by rw [hpc]; rfl)).elim
    · rw [hpc]
      exact fun h => (by cases h)
    · rw [hset] at hnext
      cases hnext
  -- but the last does not
  obtain ⟨z, hlast, hz⟩ := Follows.last_of hgoes (List.mem_of_mem_head? hx) hfirst
  exact hz (h.last none z hlast).2

/-! ## 3. Everybody gets the lock -/

variable [Fintype ι]

/-- What is left to do. -/
def work (calls : ℕ) (s : Sys ι) : ℕ := ∑ i, (calls * 11 - (s.thread i).pos)

omit [Fintype ι] in
theorem after_cases (hbegun : (s.thread i).begun ≤ calls) :
    s.after calls i = s ∧ ¬ (∃ row, s.Inv row ∧ s.Ready calls i) ∨
      s.Goes calls i (s.after calls i) := by
  unfold Sys.after
  cases hturn : s.turn calls i with
  | none =>
    refine .inl ⟨rfl, fun ⟨row, h, hready⟩ => ?_⟩
    have hsome := turn_isSome h hready.1
    rw [hturn] at hsome
    cases hsome
  | some r =>
    rcases turn_goes hbegun hturn with ⟨hsame, hblocked⟩ | hgoes
    · exact .inl ⟨hsame, fun ⟨_, _, hready⟩ => hready.2 hblocked⟩
    · exact .inr hgoes

theorem work_lt (hbegun : (s.thread i).begun ≤ calls) (hgoes : s.Goes calls i s') :
    work calls s' < work calls s := by
  refine Finset.sum_lt_sum (fun j _ => ?_) ⟨i, Finset.mem_univ i, ?_⟩
  · rcases eq_or_ne j i with rfl | hj
    · have hpos := hgoes.pos
      omega
    · rw [hgoes.others j hj]
  · have hpos := hgoes.pos
    have hbegun' := hgoes.begun
    have hlt := (s'.thread i).pc.steps_lt
    have hle : (s'.thread i).pos ≤ calls * 11 := by
      unfold Thread.pos
      unfold Thread.begun at hbegun'
      split at hbegun'
      · rename_i hidle
        rw [hidle, show (Pc.idle : Pc ι).steps = 0 from rfl]
        omega
      · omega
    omega

/-- The states in which the rows are kept and nobody has called too often. -/
def Good (calls : ℕ) (s : Sys ι) : Prop :=
  (∃ row, s.Inv row) ∧ ∀ i, (s.thread i).begun ≤ calls

omit [Fintype ι] in
theorem good_after (h : Good calls s) (i : ι) : Good calls (s.after calls i) := by
  obtain ⟨⟨row, hinv⟩, hbegun⟩ := h
  constructor
  · unfold Sys.after
    cases hturn : s.turn calls i with
    | none => exact ⟨row, hinv⟩
    | some r => exact hinv.step hturn
  · intro j
    rcases after_cases (hbegun i) with ⟨hsame, -⟩ | hgoes
    · rw [hsame]
      exact hbegun j
    · rcases eq_or_ne j i with rfl | hj
      · exact hgoes.begun
      · rw [hgoes.others j hj]
        exact hbegun j

theorem rule :
    Fair.Rule (Sys.after calls) (Good calls) (fun s : Sys ι => ∀ i, calls ≤ (s.thread i).done)
    (work calls) id (fun i s => s.Ready calls i) (fun _ _ => 0) where
  inv _ i h := good_after h i
  le s i h := by
    rcases after_cases (h.2 i) with ⟨hsame, -⟩ | hgoes
    · rw [hsame]
    · exact Nat.le_of_lt (work_lt (h.2 i) hgoes)
  ready s h hnot := by
    push Not at hnot
    obtain ⟨i, hi⟩ := hnot
    obtain ⟨row, hinv⟩ := h.1
    exact exists_ready hinv hi
  keep s i g h hready hsame := by
    rcases after_cases (h.2 i) with ⟨heq, -⟩ | hgoes
    · rw [heq]
      exact ⟨hready, Nat.le_refl 0⟩
    · exact absurd hsame (Nat.ne_of_lt (work_lt (h.2 i) hgoes))
  move s g h hready := by
    rcases after_cases (h.2 g) with ⟨-, hnot⟩ | hgoes
    · obtain ⟨row, hinv⟩ := h.1
      exact absurd ⟨row, hinv, hready⟩ hnot
    · exact .inl (work_lt (h.2 g) hgoes)

omit [Fintype ι] in
theorem reachable_good {tr : List (Ev ι)} (hrun : Run (Step calls) Sys.init tr s) :
    Good calls s := by
  refine Run.induct (fun _ s => Good calls s) ⟨⟨_, inv_init⟩, fun _ => Nat.zero_le calls⟩ ?_ hrun
  rintro _ s e s' h ⟨i, hturn⟩
  have hafter : s.after calls i = s' := by simp only [Sys.after, hturn]
  rw [← hafter]
  exact good_after h i

/-- **The MCS lock is a lock, and goes round.**  In every interleaving of the accesses to the lock
and the queue nodes there is at most one thread in the critical section, and no null pointer is
followed; and under every fair schedule all threads come to have had the lock as often as they want
it, and it is free again.  That a queue is taken out of the lock, and comes back behind others,
keeps nobody waiting for ever. -/
theorem mcs_lock_serves {tr : List (Ev ι)} (hrun : Run (Step calls) Sys.init tr s) :
    (∀ i j, (s.thread i).pc = .critical → (s.thread j).pc = .critical → i = j) ∧
      (∀ i, (s.thread i).pc ≠ .idle → (s.turn calls i).isSome = true) ∧
      ∀ sched : ℕ → ι, Fair sched → ∃ t, ∀ t', t ≤ t' →
        (∀ i, (trail (Sys.after calls) sched s t').thread i = ⟨.idle, calls⟩) ∧
          (trail (Sys.after calls) sched s t').lock = none := by
  have hgood := reachable_good hrun
  obtain ⟨row, h⟩ := hgood.1
  refine ⟨fun i j hi hj => ?_, fun i hi => turn_isSome h fun hidle => absurd hidle hi,
    fun sched hfair => ?_⟩
  · exact Option.some.inj ((h.head_of_critical (.inl hi)).symm.trans (h.head_of_critical (.inl hj)))
  obtain ⟨t, ht⟩ := rule.ends hfair hgood
  have hthrough : ∀ {s : Sys ι}, Good calls s → (∀ i, calls ≤ (s.thread i).done) →
      ∀ i, s.thread i = ⟨.idle, calls⟩ := by
    intro s h hdone i
    have hbegun := h.2 i
    have hi := hdone i
    unfold Thread.begun at hbegun
    split at hbegun
    · rename_i hidle
      cases hth : s.thread i with
      | mk pc done =>
        rw [hth] at hidle hbegun hi
        simp only at hidle hbegun hi
        rw [hidle, Nat.le_antisymm hbegun hi]
    · omega
  have hstay : ∀ s (i : ι), (Good calls s ∧ ∀ j, calls ≤ (s.thread j).done) →
      Good calls (s.after calls i) ∧ ∀ j, calls ≤ ((s.after calls i).thread j).done := by
    rintro s i ⟨h, hdone⟩
    refine ⟨good_after h i, fun j => ?_⟩
    have hi := hthrough h hdone i
    have hnone : s.turn calls i = none := by simp only [Sys.turn, hi, Nat.lt_irrefl, if_false]
    simp only [Sys.after, hnone]
    exact hdone j
  refine ⟨t, fun t' htt => ?_⟩
  obtain ⟨h, hdone⟩ := trail_keeps hstay htt ⟨trail_keeps rule.inv (Nat.zero_le t) hgood, ht⟩
  have hidle := hthrough h hdone
  refine ⟨hidle, ?_⟩
  obtain ⟨row, hinv⟩ := h.1
  rw [hinv.tail, List.getLast?_eq_none_iff, List.eq_nil_iff_forall_not_mem]
  exact fun x => hinv.not_mem (by rw [hidle x]; rfl) none

/-- Thread 1 is in the queue that thread 0 takes out, thread 2 takes the lock, and thread 0 puts the
queue back. -/
def usurpedTurns : List (Fin 3) := [0, 0, 1, 1, 0, 0, 2, 2, 0]

theorem mcs_lock_serves_usurped : ∃ (tr : List (Ev (Fin 3))) (s : Sys (Fin 3)),
    Run.drive (Sys.turn 1) Sys.init usurpedTurns = some (tr, s) ∧
      ((s.thread 0).pc = .await (some 2) ∧ (s.thread 1).pc = .arm 0 ∧ (s.thread 2).pc = .critical ∧
        s.lock = some 1) ∧
      (∀ i, (s.thread i).pc = .critical → i = 2) ∧
      ∃ sched : ℕ → Fin 3, Fair sched ∧ ∃ t, ∀ t', t ≤ t' →
        (∀ i, (trail (Sys.after 1) sched s t').thread i = ⟨.idle, 1⟩) ∧
          (trail (Sys.after 1) sched s t').lock = none := by
  obtain ⟨tr, s, hdrive, hat⟩ : ∃ (tr : List (Ev (Fin 3))) (s : Sys (Fin 3)),
      Run.drive (Sys.turn 1) Sys.init usurpedTurns = some (tr, s) ∧
      ((s.thread 0).pc = .await (some 2) ∧ (s.thread 1).pc = .arm 0 ∧ (s.thread 2).pc = .critical ∧
        s.lock = some 1) := ⟨_, _, rfl, by decide⟩
  have hserves := mcs_lock_serves (Run.of_drive (fun s i s' e h => ⟨i, h⟩) hdrive)
  have hfair : Fair fun n : ℕ => (⟨n % 3, Nat.mod_lt n (by decide)⟩ : Fin 3) := by
    intro i n
    have hi : (i : ℕ) < 3 := i.isLt
    exact ⟨3 * n + i, by omega, Fin.ext (by simp only; omega)⟩
  exact ⟨tr, s, hdrive, hat, fun i hi => hserves.1 i 2 hi hat.2.2.1, _, hfair, hserves.2.2 _ hfair⟩

end Progress

/-! ## 4. Overtaking -/

section Overtaking

variable {s : Sys ι} {a b w : ι} {calls : ℕ}

/-- `b` has the lock, and `a` is about to tell it that `w` comes next. -/
structure Passing (s : Sys ι) (a b w : ι) : Prop where
  lock : s.lock = some w
  telling : (s.thread a).pc = .relink b (some w)
  having : (s.thread b).pc = .critical
  next : s.next a = some w
  alone : s.next b = none

/-- Before it is told, `b` takes out the queue; `a` comes again, and `b` puts the queue
behind it. -/
theorem Passing.turns (h : Passing s a b w) (hab : a ≠ b) (haw : a ≠ w) (hbw : b ≠ w)
    (hcalls : (s.thread a).done + 1 < calls) :
    ∃ r, Run.drive (Sys.turn calls) s [b, b, a, a, a, b, b, b] = some r ∧ Passing r.2 b a w ∧
      (r.2.thread a).done = (s.thread a).done + 1 ∧ (r.2.thread b).done = (s.thread b).done ∧
      r.2.thread w = s.thread w ∧ r.2.locked = s.locked := by
  obtain ⟨hlock, htelling, hhaving, -, halone⟩ := h
  have hw : (some w : Option ι) ≠ some b := fun heq => hbw (Option.some.inj heq).symm
  simp only [Run.drive, Sys.turn, Sys.goto, Sys.leave, Sys.qnodeSwap, Sys.setNext, hlock, htelling,
    hhaving, halone, hw, hcalls, ne_eq, hab, hab.symm, haw.symm, hbw.symm, not_false_eq_true,
    Function.update_self, Function.update_of_ne, Function.update_idem, if_true, if_false,
    reduceCtorEq, Option.map_some, Option.some.injEq, exists_eq_left', and_self, and_true]
  exact ⟨rfl, by simp, by simp [hab], by simp [hab.symm], by simp⟩

/-- The first time: `w` is in the queue of `a` when `b` comes. -/
theorem exists_passing (hab : a ≠ b) (haw : a ≠ w) (hbw : b ≠ w) (hcalls : 0 < calls) :
    ∃ r, Run.drive (Sys.turn calls) Sys.init [a, a, w, w, a, a, b, b, a, w, w, a, a] = some r ∧
      Passing r.2 a b w ∧ (r.2.thread a).done = 0 ∧ (r.2.thread b).done = 0 ∧
      (r.2.thread w).pc = .spin ∧ r.2.locked w = 1 := by
  have hw : (some w : Option ι) ≠ some a := fun heq => haw (Option.some.inj heq).symm
  simp only [Run.drive, Sys.init, Sys.turn, Sys.goto, Sys.qnodeSwap, Sys.setNext, Sys.setLocked,
    hcalls, hw, ne_eq, hab, hab.symm, haw, haw.symm, hbw, hbw.symm, not_false_eq_true,
    Function.update_self, Function.update_of_ne, Function.update_idem, if_true, if_false,
    reduceCtorEq, Option.map_some, Option.some.injEq, exists_eq_left', and_true]
  exact ⟨rfl, by simp, by simp [hab.symm, hbw], by simp, by simp [hab.symm]⟩

/-- Both get the lock again and again, and `w` stays where it is. -/
theorem Passing.rounds (h : Passing s a b w) (hab : a ≠ b) (haw : a ≠ w) (hbw : b ≠ w) {n : ℕ}
    (ha : (s.thread a).done + n < calls) (hb : (s.thread b).done + n < calls) :
    ∃ tr s', Run (Step calls) s tr s' ∧ Passing s' a b w ∧
      (s'.thread a).done = (s.thread a).done + n ∧ (s'.thread b).done = (s.thread b).done + n ∧
      s'.thread w = s.thread w ∧ s'.locked = s.locked := by
  induction n with
  | zero => exact ⟨[], s, .nil, h, rfl, rfl, rfl, rfl⟩
  | succ n ih =>
    obtain ⟨tr, s₁, hrun, h₁, ha₁, hb₁, hw₁, hlocked₁⟩ := ih (by omega) (by omega)
    have hlt₁ : (s₁.thread a).done + 1 < calls := by omega
    obtain ⟨⟨tr₂, s₂⟩, hdrive₂, h₂, ha₂, hb₂, hw₂, hlocked₂⟩ := h₁.turns hab haw hbw hlt₁
    have hlt₂ : (s₂.thread b).done + 1 < calls := by
      simp only at hb₂
      omega
    obtain ⟨⟨tr₃, s₃⟩, hdrive₃, h₃, hb₃, ha₃, hw₃, hlocked₃⟩ := h₂.turns hab.symm hbw haw hlt₂
    have hof : ∀ s (i : ι) s' e, s.turn calls i = some (s', e) → Step calls s e s' :=
      fun _ i _ _ hturn => ⟨i, hturn⟩
    refine ⟨_, s₃, (hrun.append (Run.of_drive hof hdrive₂)).append (Run.of_drive hof hdrive₃),
      h₃, ?_, ?_, hw₃.trans (hw₂.trans hw₁), hlocked₃.trans (hlocked₂.trans hlocked₁)⟩
    · simp only at ha₃ ha₂
      omega
    · simp only at hb₃ hb₂
      omega

/-- **The lock may go round without end past one that waits.**  Whoever spins for it, two others can
get it any number of times in a run in which that one is never told. -/
theorem mcs_lock_overtakes (hab : a ≠ b) (haw : a ≠ w) (hbw : b ≠ w) (n : ℕ) :
    ∃ tr s tr' s', Run (Step (n + 1)) Sys.init tr s ∧ s.Blocked w ∧ Run (Step (n + 1)) s tr' s' ∧
      s'.Blocked w ∧ s'.thread w = s.thread w ∧ (s.thread a).done = 0 ∧ (s.thread b).done = 0 ∧
      (s'.thread a).done = n ∧ (s'.thread b).done = n := by
  obtain ⟨⟨tr, s⟩, hdrive, h, ha, hb, hw, hlocked⟩ := exists_passing hab haw hbw (Nat.succ_pos n)
  simp only at h ha hb hw hlocked
  obtain ⟨tr', s', hrun, -, ha', hb', hw', hlocked'⟩ := h.rounds hab haw hbw
    (show (s.thread a).done + n < n + 1 by omega) (show (s.thread b).done + n < n + 1 by omega)
  have hone : (1 : ℤ) ≠ 0 := by decide
  refine ⟨tr, s, tr', s', Run.of_drive (fun s i s' e hturn => ⟨i, hturn⟩) hdrive,
    .inl ⟨hw, hlocked ▸ hone⟩, hrun, .inl ⟨hw' ▸ hw, ?_⟩, hw', ha, hb, by omega, by omega⟩
  rw [hlocked', hlocked]
  exact hone

theorem mcs_lock_overtakes_trio : ∃ tr s tr' s', Run (Step 101) (Sys.init : Sys (Fin 3)) tr s ∧
    s.Blocked 2 ∧ Run (Step 101) s tr' s' ∧ s'.Blocked 2 ∧ s'.thread 2 = s.thread 2 ∧
    (s.thread 0).done = 0 ∧ (s.thread 1).done = 0 ∧ (s'.thread 0).done = 100 ∧
    (s'.thread 1).done = 100 :=
  mcs_lock_overtakes (by decide) (by decide) (by decide) 100

end Overtaking

end McsLock

end Smelt
