/-
# The MCS lock

`mcs_lock_lock` and `mcs_lock_unlock` of `bench/diss_bar/mcs.c`, next to the barrier of
`McsBarrier.lean`.  Who wants the lock puts itself at the end of a queue, with an exchange of
`lock->lock`, tells the one before it (`next`), and spins on a flag of its own (`locked`).

There is no compare-and-swap.  An `unlock` that sees nobody behind it takes the whole queue out of
the lock (`old_tail`) to find out whether somebody has come in between.  If so, it puts the queue
back; but the lock was free meanwhile, and those who took it (`usurper` is the last of them) now
come first.  So there may be several queues outside of the lock at a time, and when one comes back,
those in it wait for a link that only the `unlock` in the middle can make.

The proof keeps a ROW for the lock and one for each queue outside of it (`Inv`).  A row has all
threads between their first exchange and the end of their `unlock`, in the order in which the lock
goes round, so that the one that puts a queue back stands between the usurper and the first of the
queue.  Then everybody's situation is told by who is right before it (`Linked`), the lock is at the
front of one row (`Holds`), and to put a queue back is to put two rows together.

Every access of `lock`, `next` or `locked` is a step.
-/
import Smelt.Lib.Follow
import Smelt.Lib.Run

namespace Smelt

namespace McsLock

variable {ι : Type}

/-! ## 1. The lock -/

/-- Where a thread is, by its next access.  `idle` is before `mcs_lock_lock`, `critical` between
that and `mcs_lock_unlock`. -/
inductive Pc (ι : Type)
  | idle
  | swap
  | arm (predecessor : ι)
  | link (predecessor : ι)
  | spin
  | critical
  | detach
  | restore (oldTail : Option ι)
  | await (usurper : Option ι)
  | read (usurper : Option ι)
  | relink (usurper : ι) (next : Option ι)
  | grant (next : ι)
  deriving DecidableEq, Repr

/-- A thread, with the number of times that it has had the lock. -/
structure Thread (ι : Type) where
  pc : Pc ι
  done : ℕ
  deriving DecidableEq, Repr

/-- The lock, the two fields of everybody's `mcs_lock_qnode_t`, and the threads. -/
structure Sys (ι : Type) where
  lock : Option ι
  next : ι → Option ι
  locked : ι → ℤ
  thread : ι → Thread ι

/-- The lock after `mcs_lock_init`, and nodes of zeros. -/
def Sys.init : Sys ι where
  lock := none
  next _ := none
  locked _ := 0
  thread _ := ⟨.idle, 0⟩

/-- `call i k`, `acquired i k` and `released i k`: `mcs_lock_lock` is called for the `k`-th time,
returns, and `mcs_lock_unlock` returns. -/
inductive Ev (ι : Type)
  | call (i : ι) (k : ℕ)
  | acquired (i : ι) (k : ℕ)
  | released (i : ι) (k : ℕ)
  | quiet (i : ι)
  deriving DecidableEq, Repr

variable [DecidableEq ι]

def Sys.goto (s : Sys ι) (i : ι) (pc : Pc ι) : Sys ι :=
  { s with thread := Function.update s.thread i { s.thread i with pc := pc } }

/-- The end of `mcs_lock_unlock`. -/
def Sys.leave (s : Sys ι) (i : ι) : Sys ι :=
  { s with thread := Function.update s.thread i ⟨.idle, (s.thread i).done + 1⟩ }

/-- `mcs_qnode_swap(&lock->lock, val)`. -/
def Sys.qnodeSwap (s : Sys ι) (val : Option ι) : Option ι × Sys ι :=
  (s.lock, { s with lock := val })

def Sys.setNext (s : Sys ι) (i : ι) (val : Option ι) : Sys ι :=
  { s with next := Function.update s.next i val }

def Sys.setLocked (s : Sys ι) (i : ι) (val : ℤ) : Sys ι :=
  { s with locked := Function.update s.locked i val }

/-- One access of the thread `i`, which takes the lock `calls` times. -/
def Sys.turn (calls : ℕ) (s : Sys ι) (i : ι) : Option (Sys ι × Ev ι) :=
  let done := (s.thread i).done
  match (s.thread i).pc with
  -- mcs_lock_lock
  | .idle => if done < calls then some ((s.setNext i none).goto i .swap, .call i done) else none
  | .swap =>
    let r := s.qnodeSwap (some i)
    match r.1 with
    | some predecessor => some (r.2.goto i (.arm predecessor), .quiet i)
    | none => some (r.2.goto i .critical, .acquired i done)
  | .arm predecessor => some ((s.setLocked i 1).goto i (.link predecessor), .quiet i)
  | .link predecessor => some ((s.setNext predecessor (some i)).goto i .spin, .quiet i)
  | .spin =>
    if s.locked i ≠ 0 then some (s, .quiet i) else some (s.goto i .critical, .acquired i done)
  -- mcs_lock_unlock; where `next` is set, what follows is what follows when there is no usurper
  | .critical => some (s.goto i (if s.next i = none then .detach else .read none), .quiet i)
  | .detach =>
    let r := s.qnodeSwap none
    if r.1 = some i then some (r.2.leave i, .released i done)
    else some (r.2.goto i (.restore r.1), .quiet i)
  | .restore oldTail =>
    let r := s.qnodeSwap oldTail
    some (r.2.goto i (.await r.1), .quiet i)
  | .await usurper =>
    if s.next i = none then some (s, .quiet i) else some (s.goto i (.read usurper), .quiet i)
  | .read (some usurper) => some (s.goto i (.relink usurper (s.next i)), .quiet i)
  | .read none => (s.next i).map fun next => (s.goto i (.grant next), .quiet i)
  | .relink usurper next => some ((s.setNext usurper next).leave i, .released i done)
  | .grant next => some ((s.setLocked next 0).leave i, .released i done)

/-- The accesses of the threads, in any order. -/
def Step (calls : ℕ) (s : Sys ι) (e : Ev ι) (s' : Sys ι) : Prop :=
  ∃ i, s.turn calls i = some (s', e)

/-! ## 2. The rows -/

/-- Between the exchange of `mcs_lock_lock` and the end of `mcs_lock_unlock`. -/
def Pc.inside : Pc ι → Bool
  | .idle | .swap => false
  | _ => true

/-- Who will be told about the next in the row: the usurper, or, when there is none, the
next itself. -/
def Pc.bridge : Pc ι → Option (Option ι)
  | .await usurper | .read usurper => some usurper
  | .relink usurper _ => some (some usurper)
  | .grant _ => some none
  | _ => none

/-- What it has seen in its `next`. -/
def Pc.Saw : Pc ι → Option ι → Prop
  | .read _, next => next ≠ none
  | .relink _ seen, next => seen = next ∧ next ≠ none
  | .grant seen, next => next = some seen
  | _, _ => True

omit [DecidableEq ι] in
/-- Who has seen nothing may see anything. -/
theorem Pc.Saw.of_none {pc : Pc ι} (h : pc.Saw none) (next : Option ι) : pc.Saw next := by
  cases pc with
  | read usurper => exact absurd rfl h
  | relink usurper seen => exact absurd rfl h.2
  | grant seen => cases h
  | _ => trivial

namespace Sys

variable (s : Sys ι)

/-- Having `x` right before it, `y` has not linked itself to `x`, or it has and spins, or it puts a
queue back and will link what is behind it to `x`. -/
def Linked (x y : ι) : Prop :=
  s.next x = none ∧ ((s.thread y).pc = .arm x ∨ (s.thread y).pc = .link x ∧ s.locked y = 1 ∨
      (s.thread y).pc.bridge = some (some x)) ∨
    s.next x = some y ∧ (s.thread y).pc = .spin ∧ s.locked y = 1

/-- It has the lock, or is about to hand it to the next. -/
def Holds (x : ι) : Prop :=
  (s.thread x).pc = .critical ∨ (s.thread x).pc = .detach ∨
    (s.thread x).pc = .spin ∧ s.locked x = 0 ∨ (s.thread x).pc.bridge = some none

/-- The row of the lock, and for everybody the one that it has taken out. -/
structure Inv (row : Option ι → List ι) : Prop where
  nodup : ∀ k, (row k).Nodup
  apart : ∀ k k' x, x ∈ row k → x ∈ row k' → k = k'
  mem : ∀ x, (s.thread x).pc.inside = true ↔ ∃ k, x ∈ row k
  tail : s.lock = (row none).getLast?
  head : ∀ x, (row none).head? = some x → s.Holds x
  /-- the one that has taken a row out is its first, and not alone in it -/
  out : ∀ u x, (row (some u)).head? = some x → x = u ∧
    (s.thread u).pc = .restore (row (some u)).getLast? ∧ (row (some u)).getLast? ≠ some u
  last : ∀ k x, (row k).getLast? = some x → s.next x = none ∧ (s.thread x).pc.bridge = none
  link : ∀ k x y, Follows (row k) x y → s.Linked x y
  fresh : ∀ x, (s.thread x).pc = .swap → s.next x = none
  saw : ∀ x, (s.thread x).pc.Saw (s.next x)

end Sys

/-! ## 3. Every access keeps the rows -/

section Inv

variable {s s' : Sys ι} {row : Option ι → List ι} {i x y : ι} {pc : Pc ι}

theorem thread_goto (j : ι) :
    ((s.goto i pc).thread j).pc = if j = i then pc else (s.thread j).pc := by
  simp only [Sys.goto, Function.update_apply]
  split <;> rfl

theorem thread_leave (j : ι) :
    ((s.leave i).thread j).pc = if j = i then .idle else (s.thread j).pc := by
  simp only [Sys.leave, Function.update_apply]
  split <;> rfl

omit [DecidableEq ι] in
theorem Sys.Linked.congr (h : s.Linked x y) (hnext : s'.next x = s.next x)
    (hpc : (s'.thread y).pc = (s.thread y).pc) (hlocked : s'.locked y = s.locked y) :
    s'.Linked x y := by
  simpa only [Sys.Linked, hnext, hpc, hlocked] using h

omit [DecidableEq ι] in
theorem Sys.Holds.congr (h : s.Holds x) (hpc : (s'.thread x).pc = (s.thread x).pc)
    (hlocked : s'.locked x = s.locked x) : s'.Holds x := by
  simpa only [Sys.Holds, hpc, hlocked] using h

namespace Sys.Inv

/-- A thread inside stands behind somebody, or is the first of the row of the lock or of its own. -/
theorem place (h : s.Inv row) (hin : (s.thread x).pc.inside = true) :
    (∃ k y, Follows (row k) y x ∧ s.Linked y x) ∨ ((row none).head? = some x ∧ s.Holds x) ∨
      (row (some x)).head? = some x ∧ (s.thread x).pc = .restore (row (some x)).getLast? := by
  obtain ⟨k, hx⟩ := (h.mem x).mp hin
  by_cases hhead : (row k).head? = some x
  · cases k with
    | none => exact .inr (.inl ⟨hhead, h.head x hhead⟩)
    | some u =>
      obtain ⟨rfl, hpc, -⟩ := h.out u x hhead
      exact .inr (.inr ⟨hhead, hpc⟩)
  · obtain ⟨y, hy⟩ := Follows.exists_prev hx hhead
    exact .inl ⟨k, y, hy, h.link k y x hy⟩

/-- Who is in the critical section, or takes the queue out, is the first of the row of the lock. -/
theorem head_of_critical (h : s.Inv row)
    (hpc : (s.thread x).pc = .critical ∨ (s.thread x).pc = .detach) :
    (row none).head? = some x := by
  have hin : (s.thread x).pc.inside = true := by rcases hpc with hpc | hpc <;> rw [hpc] <;> rfl
  rcases h.place hin with ⟨k, y, -, hlinked⟩ | ⟨hhead, -⟩ | ⟨-, hpc'⟩
  · rcases hpc with hpc | hpc <;> simp [Linked, hpc, Pc.bridge] at hlinked
  · exact hhead
  · rw [hpc'] at hpc
    rcases hpc with hpc | hpc <;> cases hpc

theorem out_of_restore (h : s.Inv row) {oldTail : Option ι}
    (hpc : (s.thread x).pc = .restore oldTail) : (row (some x)).head? = some x := by
  rcases h.place (x := x) (by rw [hpc]; rfl) with ⟨k, y, -, hlinked⟩ | ⟨-, hholds⟩ | ⟨hhead, -⟩
  · simp [Linked, hpc, Pc.bridge] at hlinked
  · simp [Holds, hpc, Pc.bridge] at hholds
  · exact hhead

theorem prev_of_link (h : s.Inv row) {p : ι} (hpc : (s.thread x).pc = .link p) :
    ∃ k, Follows (row k) p x ∧ s.next p = none ∧ s.locked x = 1 := by
  rcases h.place (x := x) (by rw [hpc]; rfl) with ⟨k, y, hy, hlinked⟩ | ⟨-, hholds⟩ | ⟨-, hpc'⟩
  · simp [Linked, hpc, Pc.bridge] at hlinked
    obtain ⟨hnext, rfl, hlocked⟩ := hlinked
    exact ⟨k, hy, hnext, hlocked⟩
  · simp [Holds, hpc, Pc.bridge] at hholds
  · rw [hpc] at hpc'
    cases hpc'

theorem prev_of_bridge (h : s.Inv row) {a : ι} (hpc : (s.thread x).pc.bridge = some (some a)) :
    ∃ k, Follows (row k) a x ∧ s.next a = none := by
  have hin : (s.thread x).pc.inside = true := by
    cases hx : (s.thread x).pc <;> rw [hx] at hpc <;> first | rfl | cases hpc
  rcases h.place hin with ⟨k, y, hy, hlinked⟩ | ⟨-, hholds⟩ | ⟨-, hpc'⟩
  · rcases hlinked with ⟨hnext, hat | ⟨hat, -⟩ | hat⟩ | ⟨-, hat, -⟩
    · rw [hat] at hpc
      cases hpc
    · rw [hat] at hpc
      cases hpc
    · obtain rfl := Option.some.inj (Option.some.inj (hpc.symm.trans hat))
      exact ⟨k, hy, hnext⟩
    · rw [hat] at hpc
      cases hpc
  · rcases hholds with hat | hat | ⟨hat, -⟩ | hat
    · rw [hat] at hpc
      cases hpc
    · rw [hat] at hpc
      cases hpc
    · rw [hat] at hpc
      cases hpc
    · rw [hat] at hpc
      cases hpc
  · rw [hpc'] at hpc
    cases hpc

theorem head_of_grant (h : s.Inv row) (hpc : (s.thread x).pc.bridge = some none) :
    (row none).head? = some x := by
  have hin : (s.thread x).pc.inside = true := by
    cases hx : (s.thread x).pc <;> rw [hx] at hpc <;> first | rfl | cases hpc
  rcases h.place hin with ⟨k, y, -, hlinked⟩ | ⟨hhead, -⟩ | ⟨-, hpc'⟩
  · rcases hlinked with ⟨-, hat | ⟨hat, -⟩ | hat⟩ | ⟨-, hat, -⟩ <;> rw [hat] at hpc <;> cases hpc
  · exact hhead
  · rw [hpc'] at hpc
    cases hpc

omit [DecidableEq ι] in
theorem not_mem (h : s.Inv row) (hpc : (s.thread x).pc.inside = false) (k : Option ι) :
    x ∉ row k := by
  intro hk
  have hin := (h.mem x).mpr ⟨k, hk⟩
  rw [hpc] at hin
  cases hin

omit [DecidableEq ι] in
/-- Whose `next` is set stands before the one that it names, who spins. -/
theorem next_of_saw (h : s.Inv row) (hnext : s.next x ≠ none) {k : Option ι} (hx : x ∈ row k) :
    ∃ y, Follows (row k) x y ∧ s.next x = some y ∧ (s.thread y).pc = .spin ∧ s.locked y = 1 := by
  have hlast : (row k).getLast? ≠ some x := fun hlast => hnext (h.last k x hlast).1
  obtain ⟨y, hy⟩ := Follows.exists_next hx hlast
  rcases h.link k x y hy with ⟨hnone, -⟩ | hspin
  · exact absurd hnone hnext
  · exact ⟨y, hy, hspin⟩

omit [DecidableEq ι] in
/-- An access that only concerns the thread itself, which stays where it is. -/
theorem stay (h : s.Inv row) (hin : (s.thread i).pc.inside = true)
    (hin' : (s'.thread i).pc.inside = true) (hpc : ∀ j, j ≠ i → (s'.thread j).pc = (s.thread j).pc)
    (hlock : s'.lock = s.lock) (hnext : s'.next = s.next)
    (hlocked : ∀ j, j ≠ i → s'.locked j = s.locked j) (hlinked : ∀ x, s.Linked x i → s'.Linked x i)
    (hholds : s.Holds i → s'.Holds i) (hout : ∀ oldTail, (s.thread i).pc ≠ .restore oldTail)
    (hbridge : s.next i = none → (s'.thread i).pc.bridge = none)
    (hsaw : (s'.thread i).pc.Saw (s.next i)) : s'.Inv row where
  nodup := h.nodup
  apart := h.apart
  mem x := by
    rw [← h.mem]
    rcases eq_or_ne x i with rfl | hx
    · rw [hin, hin']
    · rw [hpc x hx]
  tail := hlock.trans h.tail
  head x hx := by
    rcases eq_or_ne x i with rfl | hne
    · exact hholds (h.head x hx)
    · exact (h.head x hx).congr (hpc x hne) (hlocked x hne)
  out u x hx := by
    obtain ⟨rfl, hu, hlast⟩ := h.out u x hx
    have hne : x ≠ i := fun heq => hout _ (heq ▸ hu)
    exact ⟨rfl, (hpc x hne).trans hu, hlast⟩
  last k x hx := by
    obtain ⟨hnone, hbr⟩ := h.last k x hx
    rw [hnext]
    rcases eq_or_ne x i with rfl | hne
    · exact ⟨hnone, hbridge hnone⟩
    · rw [hpc x hne]
      exact ⟨hnone, hbr⟩
  link k x y hxy := by
    have hold := h.link k x y hxy
    rcases eq_or_ne y i with rfl | hne
    · exact hlinked x hold
    · exact hold.congr (by rw [hnext]) (hpc y hne) (hlocked y hne)
  fresh x hx := by
    rw [hnext]
    rcases eq_or_ne x i with rfl | hne
    · rw [hx] at hin'
      cases hin'
    · exact h.fresh x (hpc x hne ▸ hx)
  saw x := by
    rw [hnext]
    rcases eq_or_ne x i with rfl | hne
    · exact hsaw
    · rw [hpc x hne]
      exact h.saw x

theorem call (h : s.Inv row) (hpc : (s.thread i).pc = .idle) :
    ((s.setNext i none).goto i .swap).Inv row := by
  have hi := h.not_mem (x := i) (by rw [hpc]; rfl)
  have hpc' : ∀ j, j ≠ i → (((s.setNext i none).goto i .swap).thread j).pc = (s.thread j).pc :=
    fun j hj => (thread_goto j).trans (if_neg hj)
  have hself : (((s.setNext i none).goto i .swap).thread i).pc = .swap :=
    (thread_goto i).trans (if_pos rfl)
  have hnext : ∀ j, j ≠ i → ((s.setNext i none).goto i .swap).next j = s.next j :=
    fun j hj => Function.update_of_ne hj _ _
  have hnone : ((s.setNext i none).goto i .swap).next i = none := Function.update_self ..
  refine ⟨h.nodup, h.apart, fun x => ?_, h.tail, fun x hx => ?_, fun u x hx => ?_, fun k x hx => ?_,
    fun k x y hxy => ?_, fun x hx => ?_, fun x => ?_⟩
  · rcases eq_or_ne x i with rfl | hne
    · rw [hself]
      exact ⟨fun hin => (by cases hin), fun ⟨k, hk⟩ => absurd hk (hi k)⟩
    · rw [hpc' x hne]
      exact h.mem x
  · have hne : x ≠ i := fun heq => hi none (heq ▸ List.mem_of_mem_head? hx)
    exact (h.head x hx).congr (hpc' x hne) rfl
  · obtain ⟨rfl, hu, hlast⟩ := h.out u x hx
    have hne : x ≠ i := fun heq => hi _ (heq ▸ List.mem_of_mem_head? hx)
    exact ⟨rfl, (hpc' x hne).trans hu, hlast⟩
  · have hne : x ≠ i := fun heq => hi k (heq ▸ List.mem_of_getLast? hx)
    rw [hnext x hne, hpc' x hne]
    exact h.last k x hx
  · have hx : x ≠ i := fun heq => hi k (heq ▸ hxy.mem_left)
    have hy : y ≠ i := fun heq => hi k (heq ▸ hxy.mem_right)
    exact (h.link k x y hxy).congr (hnext x hx) (hpc' y hy) rfl
  · rcases eq_or_ne x i with rfl | hne
    · exact hnone
    · rw [hnext x hne]
      exact h.fresh x (hpc' x hne ▸ hx)
  · rcases eq_or_ne x i with rfl | hne
    · rw [hself]
      trivial
    · rw [hnext x hne, hpc' x hne]
      exact h.saw x

/-! What an exchange of `lock->lock` leaves as it was. -/

section Swapped

variable {l k₀ : Option ι}

theorem thread_swapped {j : ι} (hj : j ≠ i) :
    (((s.qnodeSwap l).2.goto i pc).thread j).pc = (s.thread j).pc :=
    (thread_goto j).trans (if_neg hj)

theorem thread_swapped_self : (((s.qnodeSwap l).2.goto i pc).thread i).pc = pc :=
  (thread_goto i).trans (if_pos rfl)

theorem inside_swapped (hin : (s.thread i).pc.inside = true) (hin' : pc.inside = true) (x : ι) :
    (((s.qnodeSwap l).2.goto i pc).thread x).pc.inside = (s.thread x).pc.inside := by
  rcases eq_or_ne x i with rfl | hne
  · rw [thread_swapped_self, hin, hin']
  · rw [thread_swapped hne]

/-- Whoever is first in its row is not behind anybody. -/
theorem linked_swapped (h : s.Inv row) (hhead : (row k₀).head? = some i) {k : Option ι}
    (hxy : Follows (row k) x y) : ((s.qnodeSwap l).2.goto i pc).Linked x y := by
  have hne : y ≠ i := by
    rintro rfl
    obtain rfl := h.apart k k₀ y hxy.mem_right (List.mem_of_mem_head? hhead)
    exact hxy.not_head (h.nodup k) hhead
  exact (h.link k x y hxy).congr rfl (thread_swapped hne) rfl

theorem fresh_swapped (h : s.Inv row) (hswap : pc ≠ .swap)
    (hx : (((s.qnodeSwap l).2.goto i pc).thread x).pc = .swap) : s.next x = none := by
  rcases eq_or_ne x i with rfl | hne
  · exact absurd (thread_swapped_self.symm.trans hx) hswap
  · exact h.fresh x ((thread_swapped hne).symm.trans hx)

theorem saw_swapped (h : s.Inv row) (hsaw : pc.Saw (s.next i)) (x : ι) :
    (((s.qnodeSwap l).2.goto i pc).thread x).pc.Saw (s.next x) := by
  rcases eq_or_ne x i with rfl | hne
  · rw [thread_swapped_self]
    exact hsaw
  · rw [thread_swapped hne]
    exact h.saw x

end Swapped

/-- The exchange puts a thread at the end of the row of the lock. -/
theorem exchange (h : s.Inv row) (hpc : (s.thread i).pc = .swap)
    (hp : s.lock = none ∧ pc = .critical ∨ ∃ a, s.lock = some a ∧ pc = .arm a) :
    ((s.qnodeSwap (some i)).2.goto i pc).Inv (Function.update row none (row none ++ [i])) := by
  have hi := h.not_mem (x := i) (by rw [hpc]; rfl)
  have hpc' : ∀ j, j ≠ i → (((s.qnodeSwap (some i)).2.goto i pc).thread j).pc = (s.thread j).pc :=
    fun j hj => thread_swapped hj
  have hself : (((s.qnodeSwap (some i)).2.goto i pc).thread i).pc = pc := thread_swapped_self
  have hnone : s.next i = none := h.fresh i hpc
  have hmem : ∀ k x, x ∈ Function.update row none (row none ++ [i]) k ↔
      x ∈ row k ∨ k = none ∧ x = i := by
    intro k x
    rcases eq_or_ne k none with rfl | hk
    · rw [Function.update_self, List.mem_append, List.mem_singleton]
      tauto
    · rw [Function.update_of_ne hk]
      tauto
  have hself_of : pc.inside = true ∧ pc.bridge = none ∧ pc ≠ .swap ∧ ∀ next, pc.Saw next := by
    rcases hp with ⟨-, rfl⟩ | ⟨a, -, rfl⟩
      <;> exact ⟨rfl, rfl, (fun h => (by cases h)), fun _ => trivial⟩
  obtain ⟨hin, hbridge, hswap, hsaw⟩ := hself_of
  refine ⟨fun k => ?_, fun k k' x hx hx' => ?_, fun x => ?_, ?_, fun x hx => ?_, fun u x hx => ?_,
    fun k x hx => ?_, fun k x y hxy => ?_, fun x hx => ?_, fun x => ?_⟩
  · rcases eq_or_ne k none with rfl | hk
    · rw [Function.update_self]
      exact (List.nodup_append_comm.mp (List.nodup_cons.mpr ⟨hi none, h.nodup none⟩))
    · rw [Function.update_of_ne hk]
      exact h.nodup k
  · rcases (hmem k x).mp hx with hx | ⟨rfl, hat⟩
      <;> rcases (hmem k' x).mp hx' with hx' | ⟨rfl, hat'⟩
    · exact h.apart k k' x hx hx'
    · exact absurd (hat' ▸ hx) (hi k)
    · exact absurd (hat ▸ hx') (hi k')
    · rfl
  · rcases eq_or_ne x i with rfl | hne
    · rw [hself]
      exact ⟨fun _ => ⟨none, (hmem none x).mpr (.inr ⟨rfl, rfl⟩)⟩, fun _ => hin⟩
    · rw [hpc' x hne, h.mem]
      exact exists_congr fun k => ⟨fun hk => (hmem k x).mpr (.inl hk),
        fun hk => ((hmem k x).mp hk).resolve_right fun hat => hne hat.2⟩
  · rw [Function.update_self, List.getLast?_append, List.getLast?_singleton]
    rfl
  · rw [Function.update_self, List.head?_append] at hx
    cases hhead : (row none).head? with
    | none =>
      rw [hhead] at hx
      obtain rfl := Option.some.inj hx
      rw [List.head?_eq_none_iff] at hhead
      have hlock := h.tail
      rw [hhead] at hlock
      rcases hp with ⟨-, rfl⟩ | ⟨a, ha, -⟩
      · exact .inl hself
      · rw [ha] at hlock
        cases hlock
    | some y =>
      rw [hhead] at hx
      obtain rfl := Option.some.inj hx
      have hne : y ≠ i := fun heq => hi none (heq ▸ List.mem_of_mem_head? hhead)
      exact (h.head y hhead).congr (hpc' y hne) rfl
  · rw [Function.update_of_ne (fun h => (by cases h))] at hx ⊢
    obtain ⟨rfl, hu, hlast⟩ := h.out u x hx
    have hne : x ≠ i := fun heq => hi _ (heq ▸ List.mem_of_mem_head? hx)
    exact ⟨rfl, (hpc' x hne).trans hu, hlast⟩
  · have hold : ∀ k, (row k).getLast? = some x → s.next x = none ∧
        ((((s.qnodeSwap (some i)).2.goto i pc).thread x).pc).bridge = none := by
      intro k hx
      have hne : x ≠ i := fun heq => hi k (heq ▸ List.mem_of_getLast? hx)
      rw [hpc' x hne]
      exact h.last k x hx
    rcases eq_or_ne k none with rfl | hk
    · rw [Function.update_self, List.getLast?_append, List.getLast?_singleton] at hx
      obtain rfl := Option.some.inj hx
      rw [hself]
      exact ⟨hnone, hbridge⟩
    · rw [Function.update_of_ne hk] at hx
      exact hold k hx
  · have hold : ∀ k, Follows (row k) x y → ((s.qnodeSwap (some i)).2.goto i pc).Linked x y := by
      intro k hxy
      have hy : y ≠ i := fun heq => hi k (heq ▸ hxy.mem_right)
      exact (h.link k x y hxy).congr rfl (hpc' y hy) rfl
    rcases eq_or_ne k none with rfl | hk
    · rw [Function.update_self, Follows.append_iff] at hxy
      rcases hxy with hxy | hxy | ⟨hlast, hhead⟩
      · exact hold none hxy
      · rcases Follows.cons_iff.mp hxy with ⟨-, hhead⟩ | hnil
        · cases hhead
        · exact absurd hnil Follows.not_nil
      · -- the one that it has found in the lock is right before it
        obtain rfl := Option.some.inj hhead
        rcases hp with ⟨hlock, -⟩ | ⟨a, hlock, rfl⟩
        · rw [h.tail, hlast] at hlock
          cases hlock
        · rw [h.tail, hlast] at hlock
          obtain rfl := Option.some.inj hlock
          exact .inl ⟨(h.last none x hlast).1, .inl hself⟩
    · rw [Function.update_of_ne hk] at hxy
      exact hold k hxy
  · exact h.fresh_swapped hswap hx
  · exact h.saw_swapped (hsaw _) x

/-- A thread links itself to the one before it. -/
theorem linked (h : s.Inv row) {p : ι} (hpc : (s.thread i).pc = .link p) :
    ((s.setNext p (some i)).goto i .spin).Inv row := by
  obtain ⟨k₀, hp, hnone, hlocked⟩ := h.prev_of_link hpc
  have hpi : p ≠ i := hp.ne (h.nodup k₀)
  have hpc' : ∀ j, j ≠ i → (((s.setNext p (some i)).goto i .spin).thread j).pc = (s.thread j).pc :=
    fun j hj => (thread_goto j).trans (if_neg hj)
  have hself : (((s.setNext p (some i)).goto i .spin).thread i).pc = .spin :=
    (thread_goto i).trans (if_pos rfl)
  have hnext : ∀ j, j ≠ p → ((s.setNext p (some i)).goto i .spin).next j = s.next j :=
    fun j hj => Function.update_of_ne hj _ _
  have hset : ((s.setNext p (some i)).goto i .spin).next p = some i := Function.update_self ..
  -- `p` is in one row, and `i` right behind it
  have hrow : ∀ k x, x ∈ row k → x = p ∨ x = i → k = k₀ := by
    rintro k x hx (rfl | rfl)
    · exact h.apart k k₀ x hx hp.mem_left
    · exact h.apart k k₀ x hx hp.mem_right
  refine ⟨h.nodup, h.apart, fun x => ?_, h.tail, fun x hx => ?_, fun u x hx => ?_, fun k x hx => ?_,
    fun k x y hxy => ?_, fun x hx => ?_, fun x => ?_⟩
  · rw [← h.mem x]
    rcases eq_or_ne x i with rfl | hne
    · rw [hself, hpc]
      rfl
    · rw [hpc' x hne]
  · have hne : x ≠ i := by
      rintro rfl
      have hk := hrow none x (List.mem_of_mem_head? hx) (.inr rfl)
      exact hp.not_head (h.nodup k₀) (hk ▸ hx)
    exact (h.head x hx).congr (hpc' x hne) rfl
  · obtain ⟨rfl, hu, hlast⟩ := h.out u x hx
    have hne : x ≠ i := by
      rintro rfl
      rw [hpc] at hu
      cases hu
    exact ⟨rfl, (hpc' x hne).trans hu, hlast⟩
  · have hne : x ≠ p := by
      rintro rfl
      have hk := hrow k x (List.mem_of_getLast? hx) (.inl rfl)
      exact hp.not_last (h.nodup k₀) (hk ▸ hx)
    obtain ⟨hx', hbridge⟩ := h.last k x hx
    refine ⟨(hnext x hne).trans hx', ?_⟩
    rcases eq_or_ne x i with rfl | hne
    · rw [hself]
      rfl
    · rw [hpc' x hne]
      exact hbridge
  · rcases eq_or_ne x p with rfl | hx
    · obtain rfl := hrow k x hxy.mem_left (.inl rfl)
      obtain rfl := hxy.next_unique (h.nodup k) hp
      exact .inr ⟨hset, hself, hlocked⟩
    · have hy : y ≠ i := by
        rintro rfl
        obtain rfl := hrow k y hxy.mem_right (.inr rfl)
        exact hx (hxy.prev_unique (h.nodup k) hp)
      exact (h.link k x y hxy).congr (hnext x hx) (hpc' y hy) rfl
  · have hxi : x ≠ i := by
      rintro rfl
      rw [hself] at hx
      cases hx
    rw [hpc' x hxi] at hx
    have hne : x ≠ p := by
      rintro rfl
      exact h.not_mem (by rw [hx]; rfl) k₀ hp.mem_left
    exact (hnext x hne).trans (h.fresh x hx)
  · rcases eq_or_ne x i with rfl | hne
    · rw [hself]
      trivial
    · rw [hpc' x hne]
      have hsaw := h.saw x
      rcases eq_or_ne x p with rfl | hxp
      · rw [hnone] at hsaw
        exact hsaw.of_none _
      · rw [hnext x hxp]
        exact hsaw

/-- A thread that is done leaves its row. -/
theorem leave (h : s.Inv row) (hidle : (s'.thread i).pc = .idle)
    (hpc : ∀ j, j ≠ i → (s'.thread j).pc = (s.thread j).pc)
    (hout : ∀ oldTail, (s.thread i).pc ≠ .restore oldTail)
    (hend : ∀ u, (row (some u)).getLast? ≠ some i)
    (htail : s'.lock = ((row none).erase i).getLast?)
    (hhead : ∀ x, ((row none).erase i).head? = some x → s'.Holds x)
    (hlast : ∀ k x, ((row k).erase i).getLast? = some x →
      s'.next x = none ∧ (s'.thread x).pc.bridge = none)
    (hlink : ∀ k x y, Follows ((row k).erase i) x y → s'.Linked x y)
    (hnext : ∀ x, s'.next x = s.next x ∨ s.next x = none ∧ (s.thread x).pc ≠ .swap) :
    s'.Inv fun k => (row k).erase i := by
  have hmem : ∀ k x, x ∈ (row k).erase i ↔ x ≠ i ∧ x ∈ row k := fun k x => (h.nodup k).mem_erase_iff
  refine ⟨fun k => (h.nodup k).erase i, fun k k' x hx hx' => ?_, fun x => ?_, htail, hhead,
    fun u x hx => ?_, hlast, hlink, fun x hx => ?_, fun x => ?_⟩
  · exact h.apart k k' x ((hmem k x).mp hx).2 ((hmem k' x).mp hx').2
  · rcases eq_or_ne x i with rfl | hne
    · rw [hidle]
      exact ⟨fun hin => (by cases hin), fun ⟨k, hk⟩ => absurd rfl ((hmem k x).mp hk).1⟩
    · rw [hpc x hne, h.mem]
      exact exists_congr fun k =>
        ⟨fun hk => (hmem k x).mpr ⟨hne, hk⟩, fun hk => ((hmem k x).mp hk).2⟩
  · have hfirst : (row (some u)).head? ≠ some i :=
      fun hi => hout _ ((h.out u i hi).1 ▸ (h.out u i hi).2.1)
    rw [Follows.head?_erase hfirst] at hx
    rw [Follows.getLast?_erase (hend u)]
    obtain ⟨rfl, hu, hne⟩ := h.out u x hx
    have hxi : x ≠ i := fun heq => hout _ (heq ▸ hu)
    exact ⟨rfl, (hpc x hxi).trans hu, hne⟩
  · rcases eq_or_ne x i with rfl | hne
    · rw [hidle] at hx
      cases hx
    · rw [hpc x hne] at hx
      rcases hnext x with heq | ⟨-, hswap⟩
      · exact heq.trans (h.fresh x hx)
      · exact absurd hx hswap
  · rcases eq_or_ne x i with rfl | hne
    · rw [hidle]
      trivial
    · rw [hpc x hne]
      have hsaw := h.saw x
      rcases hnext x with heq | ⟨hnone, -⟩
      · rw [heq]
        exact hsaw
      · rw [hnone] at hsaw
        exact hsaw.of_none _

/-- The one that puts a queue back has told the usurper, and leaves. -/
theorem relinked (h : s.Inv row) {a : ι} {seen : Option ι}
    (hpc : (s.thread i).pc = .relink a seen) :
    ((s.setNext a seen).leave i).Inv fun k => (row k).erase i := by
  obtain ⟨k₀, ha, hnone⟩ := h.prev_of_bridge (x := i) (by rw [hpc]; rfl)
  have hsaw := h.saw i
  rw [hpc] at hsaw
  obtain ⟨rfl, hset⟩ := hsaw
  obtain ⟨z, hz, hiz, hspin, hlocked⟩ := h.next_of_saw hset ha.mem_right
  have hrow : ∀ k x, x ∈ row k → x = a ∨ x = i → k = k₀ := by
    rintro k x hx (rfl | rfl)
    · exact h.apart k k₀ x hx ha.mem_left
    · exact h.apart k k₀ x hx ha.mem_right
  have hnoend : ∀ k, (row k).getLast? ≠ some i := by
    intro k hk
    obtain rfl := hrow k i (List.mem_of_getLast? hk) (.inr rfl)
    exact hz.not_last (h.nodup k) hk
  have hnohead : (row none).head? ≠ some i := by
    intro hhead
    obtain rfl := hrow none i (List.mem_of_mem_head? hhead) (.inr rfl)
    exact ha.not_head (h.nodup none) hhead
  have hpc' : ∀ j, j ≠ i → (((s.setNext a (s.next i)).leave i).thread j).pc = (s.thread j).pc :=
    fun j hj => (thread_leave j).trans (if_neg hj)
  have hnext : ∀ j, j ≠ a → ((s.setNext a (s.next i)).leave i).next j = s.next j :=
    fun j hj => Function.update_of_ne hj _ _
  refine h.leave ((thread_leave i).trans (if_pos rfl)) hpc' (fun old hold => ?_)
    (fun u => hnoend _) ?_
    (fun x hx => ?_) (fun k x hx => ?_) (fun k x y hxy => ?_) (fun x => ?_)
  · rw [hpc] at hold
    cases hold
  · rw [Follows.getLast?_erase (hnoend none)]
    exact h.tail
  · rw [Follows.head?_erase hnohead] at hx
    exact (h.head x hx).congr (hpc' x fun heq => hnohead (heq ▸ hx)) rfl
  · rw [Follows.getLast?_erase (hnoend k)] at hx
    have hxa : x ≠ a := by
      rintro rfl
      obtain rfl := hrow k x (List.mem_of_getLast? hx) (.inl rfl)
      exact ha.not_last (h.nodup k) hx
    rw [hnext x hxa, hpc' x fun heq => hnoend k (heq ▸ hx)]
    exact h.last k x hx
  · rcases Follows.of_erase (h.nodup k) hxy with ⟨hxy, hx, hy⟩ | ⟨hx, hy⟩
    · have hxa : x ≠ a := by
        rintro rfl
        obtain rfl := hrow k x hxy.mem_left (.inl rfl)
        exact hy (hxy.next_unique (h.nodup k) ha)
      exact (h.link k x y hxy).congr (hnext x hxa) (hpc' y hy) rfl
    · -- the usurper is right before the first of the queue now
      obtain rfl := hrow k i hy.mem_left (.inr rfl)
      obtain rfl := hx.prev_unique (h.nodup k) ha
      obtain rfl := hy.next_unique (h.nodup k) hz
      have hyi : y ≠ i := fun heq => hz.ne (h.nodup k) heq.symm
      exact .inr ⟨(Function.update_self ..).trans hiz, (hpc' y hyi).trans hspin, hlocked⟩
  · rcases eq_or_ne x a with rfl | hxa
    · refine .inr ⟨hnone, fun hswap => ?_⟩
      exact h.not_mem (by rw [hswap]; rfl) k₀ ha.mem_left
    · exact .inl (hnext x hxa)

/-- The lock is handed to the next. -/
theorem granted (h : s.Inv row) {n : ι} (hpc : (s.thread i).pc = .grant n) :
    ((s.setLocked n 0).leave i).Inv fun k => (row k).erase i := by
  have hhead := h.head_of_grant (x := i) (by rw [hpc]; rfl)
  have hi := List.mem_of_mem_head? hhead
  have hsaw := h.saw i
  rw [hpc] at hsaw
  obtain ⟨z, hz, hiz, hspin, -⟩ := h.next_of_saw (by rw [hsaw]; simp) hi
  obtain rfl : z = n := Option.some.inj (hiz.symm.trans hsaw)
  have hrow : ∀ k, i ∈ row k → k = none := fun k hk => h.apart k none i hk hi
  have hnoend : ∀ k, (row k).getLast? ≠ some i := by
    intro k hk
    obtain rfl := hrow k (List.mem_of_getLast? hk)
    exact hz.not_last (h.nodup none) hk
  have hpc' : ∀ j, j ≠ i → (((s.setLocked z 0).leave i).thread j).pc = (s.thread j).pc :=
    fun j hj => (thread_leave j).trans (if_neg hj)
  refine h.leave ((thread_leave i).trans (if_pos rfl)) hpc' (fun old hold => ?_)
    (fun u => hnoend _) ?_
    (fun x hx => ?_) (fun k x hx => ?_) (fun k x y hxy => ?_) (fun x => .inl rfl)
  · rw [hpc] at hold
    cases hold
  · rw [Follows.getLast?_erase (hnoend none)]
    exact h.tail
  · -- the first is the one that the lock was handed to
    obtain ⟨l, hl⟩ : ∃ l, row none = i :: l := List.head?_eq_some_iff.mp hhead
    rw [hl, List.erase_cons_head] at hx
    have hfollows : Follows (row none) i x := by
      rw [hl]
      exact Follows.cons_iff.mpr (.inl ⟨rfl, hx⟩)
    obtain rfl := hfollows.next_unique (h.nodup none) hz
    have hxi : x ≠ i := fun heq => hz.ne (h.nodup none) heq.symm
    exact .inr (.inr (.inl ⟨(hpc' x hxi).trans hspin, Function.update_self ..⟩))
  · rw [Follows.getLast?_erase (hnoend k)] at hx
    rw [hpc' x fun heq => hnoend k (heq ▸ hx)]
    exact h.last k x hx
  · rcases Follows.of_erase (h.nodup k) hxy with ⟨hxy, hx, hy⟩ | ⟨hx, -⟩
    · have hyz : y ≠ z := by
        rintro rfl
        obtain rfl := h.apart k none y hxy.mem_right hz.mem_right
        exact hx (hxy.prev_unique (h.nodup none) hz)
      exact (h.link k x y hxy).congr rfl (hpc' y hy) (Function.update_of_ne hyz _ _)
    · obtain rfl := hrow k hx.mem_right
      exact absurd hhead (hx.not_head (h.nodup none))

/-- Nobody has come: the lock is free. -/
theorem freed (h : s.Inv row) (hpc : (s.thread i).pc = .detach) (hlock : s.lock = some i) :
    ((s.qnodeSwap none).2.leave i).Inv fun k => (row k).erase i := by
  have hhead := h.head_of_critical (.inr hpc)
  obtain ⟨l, hl⟩ : ∃ l, row none = i :: l := List.head?_eq_some_iff.mp hhead
  have hi : i ∈ row none := List.mem_of_mem_head? hhead
  -- it is alone
  have hnil : (row none).erase i = [] := by
    rw [hl, List.erase_cons_head]
    cases l with
    | nil => rfl
    | cons y l =>
      have hfollows : Follows (row none) i y := by
        rw [hl]
        exact Follows.cons_iff.mpr (.inl ⟨rfl, rfl⟩)
      exact absurd (h.tail.symm.trans hlock) (hfollows.not_last (h.nodup none))
  have hother : ∀ u, i ∉ row (some u) := fun u hu => by cases h.apart (some u) none i hu hi
  have hpc' : ∀ j, j ≠ i → (((s.qnodeSwap none).2.leave i).thread j).pc = (s.thread j).pc :=
    fun j hj => (thread_leave j).trans (if_neg hj)
  refine h.leave ((thread_leave i).trans (if_pos rfl)) hpc' (fun old hold => ?_)
    (fun u hu => hother u (List.mem_of_getLast? hu)) ?_ (fun x hx => ?_) (fun k x hx => ?_)
    (fun k x y hxy => ?_) (fun x => .inl rfl)
  · rw [hpc] at hold
    cases hold
  · rw [hnil]
    rfl
  · rw [hnil] at hx
    cases hx
  · cases k with
    | none =>
      rw [hnil] at hx
      cases hx
    | some u =>
      rw [List.erase_of_not_mem (hother u)] at hx
      rw [hpc' x fun heq => hother u (heq ▸ List.mem_of_getLast? hx)]
      exact h.last (some u) x hx
  · cases k with
    | none =>
      rw [hnil] at hxy
      exact absurd hxy Follows.not_nil
    | some u =>
      rw [List.erase_of_not_mem (hother u)] at hxy
      exact (h.link (some u) x y hxy).congr rfl
        (hpc' y fun heq => hother u (heq ▸ hxy.mem_right)) rfl

/-- Somebody has come: the queue is out of the lock. -/
theorem taken (h : s.Inv row) (hpc : (s.thread i).pc = .detach) (hlock : s.lock ≠ some i) :
    ((s.qnodeSwap none).2.goto i (.restore s.lock)).Inv
      (Function.update (Function.update row none []) (some i) (row none)) := by
  have hhead := h.head_of_critical (.inr hpc)
  have hi : i ∈ row none := List.mem_of_mem_head? hhead
  have hown : row (some i) = [] := by
    cases hrow : (row (some i)).head? with
    | none => exact List.head?_eq_none_iff.mp hrow
    | some x =>
      obtain ⟨-, hpc', -⟩ := h.out i x hrow
      rw [hpc] at hpc'
      cases hpc'
  have hnone : Function.update (Function.update row none []) (some i) (row none) none = [] := by
    rw [Function.update_of_ne (fun h => (by cases h)), Function.update_self]
  have hsome :
      Function.update (Function.update row none []) (some i) (row none) (some i) = row none :=
    Function.update_self ..
  have hother : ∀ u, u ≠ i →
      Function.update (Function.update row none []) (some i) (row none) (some u) =
        row (some u) := by
    intro u hu
    rw [Function.update_of_ne (fun h => hu (Option.some.inj h)),
      Function.update_of_ne (fun h => (by cases h))]
  -- each row is an old one
  have hold : ∀ k, Function.update (Function.update row none []) (some i) (row none) k = [] ∨
      k = some i ∧ Function.update (Function.update row none []) (some i) (row none) k = row none ∨
      (k ≠ some i ∧ k ≠ none) ∧
        Function.update (Function.update row none []) (some i) (row none) k = row k := by
    intro k
    cases k with
    | none => exact .inl hnone
    | some u =>
      rcases eq_or_ne u i with rfl | hu
      · exact .inr (.inl ⟨rfl, hsome⟩)
      · exact .inr (.inr ⟨⟨fun h => hu (Option.some.inj h), fun h => (by cases h)⟩, hother u hu⟩)
  have hends : ∀ k x, (row k).getLast? = some x → s.next x = none ∧
      ((((s.qnodeSwap none).2.goto i (.restore s.lock)).thread x).pc).bridge = none := by
    intro k x hx
    obtain ⟨hnext, hbridge⟩ := h.last k x hx
    refine ⟨hnext, ?_⟩
    rcases eq_or_ne x i with rfl | hne
    · rw [thread_swapped_self]
      rfl
    · rw [thread_swapped hne]
      exact hbridge
  refine ⟨fun k => ?_, fun k k' x hx hx' => ?_, fun x => ?_, ?_, fun x hx => ?_, fun u x hx => ?_,
    fun k x hx => ?_, fun k x y hxy => ?_, fun x hx => ?_, fun x => ?_⟩
  · rcases hold k with hk | ⟨-, hk⟩ | ⟨-, hk⟩ <;> rw [hk]
    · exact List.nodup_nil
    · exact h.nodup none
    · exact h.nodup k
  · rcases hold k with hk | ⟨hki, hk⟩ | ⟨hki, hk⟩ <;> rw [hk] at hx
    · cases hx
    · rcases hold k' with hk' | ⟨hki', hk'⟩ | ⟨hki', hk'⟩ <;> rw [hk'] at hx'
      · cases hx'
      · rw [hki, hki']
      · exact absurd (h.apart k' none x hx' hx) hki'.2
    · rcases hold k' with hk' | ⟨hki', hk'⟩ | ⟨hki', hk'⟩ <;> rw [hk'] at hx'
      · cases hx'
      · exact absurd (h.apart k none x hx hx') hki.2
      · exact h.apart k k' x hx hx'
  · rw [inside_swapped (by rw [hpc]; rfl) rfl, h.mem]
    constructor
    · rintro ⟨k, hk⟩
      cases k with
      | none => exact ⟨some i, by rwa [hsome]⟩
      | some u =>
        have hu : u ≠ i := by
          rintro rfl
          rw [hown] at hk
          cases hk
        exact ⟨some u, (hother u hu).symm ▸ hk⟩
    · rintro ⟨k, hk⟩
      rcases hold k with hk' | ⟨-, hk'⟩ | ⟨-, hk'⟩ <;> rw [hk'] at hk
      · cases hk
      · exact ⟨none, hk⟩
      · exact ⟨k, hk⟩
  · rw [hnone]
    rfl
  · rw [hnone] at hx
    cases hx
  · rcases eq_or_ne u i with rfl | hu
    · rw [hsome] at hx ⊢
      obtain rfl := Option.some.inj (hhead.symm.trans hx)
      exact ⟨rfl, thread_swapped_self.trans (by rw [h.tail]), h.tail ▸ hlock⟩
    · rw [hother u hu] at hx ⊢
      obtain ⟨rfl, hux, hlast⟩ := h.out u x hx
      exact ⟨rfl, (thread_swapped hu).trans hux, hlast⟩
  · rcases hold k with hk | ⟨-, hk⟩ | ⟨-, hk⟩ <;> rw [hk] at hx
    · cases hx
    · exact hends none x hx
    · exact hends k x hx
  · rcases hold k with hk | ⟨-, hk⟩ | ⟨-, hk⟩ <;> rw [hk] at hxy
    · exact absurd hxy Follows.not_nil
    · exact h.linked_swapped hhead hxy
    · exact h.linked_swapped hhead hxy
  · exact h.fresh_swapped (fun h => (by cases h)) hx
  · exact h.saw_swapped (by trivial) x

/-- The queue is put back: its row comes behind the one of the lock. -/
theorem restored (h : s.Inv row) {oldTail : Option ι} (hpc : (s.thread i).pc = .restore oldTail) :
    ((s.qnodeSwap oldTail).2.goto i (.await s.lock)).Inv
      (Function.update (Function.update row none (row none ++ row (some i))) (some i) []) := by
  have hhead := h.out_of_restore hpc
  have hi : i ∈ row (some i) := List.mem_of_mem_head? hhead
  obtain ⟨-, hpci, hmore⟩ := h.out i i hhead
  obtain rfl : oldTail = (row (some i)).getLast? := by
    rw [hpc] at hpci
    exact Pc.restore.inj hpci
  have hinone : i ∉ row none := fun hin => by cases h.apart none (some i) i hin hi
  have hnone :
      Function.update (Function.update row none (row none ++ row (some i))) (some i) [] none =
      row none ++ row (some i) := by
    rw [Function.update_of_ne (fun h => (by cases h)), Function.update_self]
  have hsome : Function.update (Function.update row none (row none ++ row (some i))) (some i) []
      (some i) = [] := Function.update_self ..
  have hother : ∀ u, u ≠ i → Function.update (Function.update row none (row none ++ row (some i)))
      (some i) [] (some u) = row (some u) := by
    intro u hu
    rw [Function.update_of_ne (fun h => hu (Option.some.inj h)),
      Function.update_of_ne (fun h => (by cases h))]
  have hmem : ∀ k x,
      x ∈ Function.update (Function.update row none (row none ++ row (some i))) (some i) [] k ↔
        k = none ∧ (x ∈ row none ∨ x ∈ row (some i)) ∨
          ∃ u, k = some u ∧ u ≠ i ∧ x ∈ row (some u) := by
    intro k x
    cases k with
    | none =>
      rw [hnone, List.mem_append]
      simp
    | some u =>
      rcases eq_or_ne u i with rfl | hu
      · rw [hsome]
        simp
      · rw [hother u hu]
        simp [hu]
  have hends : ∀ k x, (row k).getLast? = some x → s.next x = none ∧
      ((((s.qnodeSwap (row (some i)).getLast?).2.goto i (.await s.lock)).thread x).pc).bridge =
        none := by
    intro k x hx
    have hne : x ≠ i := by
      rintro rfl
      obtain rfl := h.apart k (some x) x (List.mem_of_getLast? hx) hi
      exact hmore hx
    rw [thread_swapped hne]
    exact h.last k x hx
  refine ⟨fun k => ?_, fun k k' x hx hx' => ?_, fun x => ?_, ?_, fun x hx => ?_, fun u x hx => ?_,
    fun k x hx => ?_, fun k x y hxy => ?_, fun x hx => ?_, fun x => ?_⟩
  · cases k with
    | none =>
      rw [hnone]
      refine List.nodup_append.mpr ⟨h.nodup none, h.nodup (some i), fun x hx y hy heq => ?_⟩
      cases h.apart none (some i) x hx (heq ▸ hy)
    | some u =>
      rcases eq_or_ne u i with rfl | hu
      · rw [hsome]
        exact List.nodup_nil
      · rw [hother u hu]
        exact h.nodup (some u)
  · rcases (hmem k x).mp hx with ⟨rfl, hat⟩ | ⟨u, rfl, hu, hat⟩ <;>
      rcases (hmem k' x).mp hx' with ⟨rfl, hat'⟩ | ⟨u', rfl, hu', hat'⟩
    · rfl
    · rcases hat with hat | hat
      · cases h.apart _ _ x hat hat'
      · exact absurd (Option.some.inj (h.apart _ _ x hat' hat)) hu'
    · rcases hat' with hat' | hat'
      · cases h.apart _ _ x hat hat'
      · exact absurd (Option.some.inj (h.apart _ _ x hat hat')) hu
    · exact h.apart _ _ x hat hat'
  · rw [inside_swapped (by rw [hpc]; rfl) rfl, h.mem]
    constructor
    · rintro ⟨k, hk⟩
      cases k with
      | none => exact ⟨none, (hmem none x).mpr (.inl ⟨rfl, .inl hk⟩)⟩
      | some u =>
        rcases eq_or_ne u i with rfl | hu
        · exact ⟨none, (hmem none x).mpr (.inl ⟨rfl, .inr hk⟩)⟩
        · exact ⟨some u, (hmem _ x).mpr (.inr ⟨u, rfl, hu, hk⟩)⟩
    · rintro ⟨k, hk⟩
      rcases (hmem k x).mp hk with ⟨-, hk | hk⟩ | ⟨u, -, -, hk⟩
      · exact ⟨_, hk⟩
      · exact ⟨_, hk⟩
      · exact ⟨_, hk⟩
  · rw [hnone, List.getLast?_append]
    obtain ⟨z, hz⟩ : ∃ z, (row (some i)).getLast? = some z := by
      cases hlast : (row (some i)).getLast? with
      | none =>
        rw [List.getLast?_eq_none_iff] at hlast
        rw [hlast] at hi
        cases hi
      | some z => exact ⟨z, rfl⟩
    rw [hz]
    rfl
  · rw [hnone, List.head?_append] at hx
    cases hfirst : (row none).head? with
    | none =>
      -- nobody has come meanwhile
      rw [hfirst, Option.none_or, hhead] at hx
      obtain rfl := Option.some.inj hx
      have hlock := h.tail
      rw [List.head?_eq_none_iff.mp hfirst] at hlock
      refine .inr (.inr (.inr ?_))
      rw [thread_swapped_self, hlock]
      rfl
    | some y =>
      rw [hfirst] at hx
      obtain rfl := Option.some.inj hx
      have hne : y ≠ i := fun heq => hinone (heq ▸ List.mem_of_mem_head? hfirst)
      exact (h.head y hfirst).congr (thread_swapped hne) rfl
  · rcases eq_or_ne u i with rfl | hu
    · rw [hsome] at hx
      cases hx
    · rw [hother u hu] at hx ⊢
      obtain ⟨rfl, hux, hlast⟩ := h.out u x hx
      exact ⟨rfl, (thread_swapped hu).trans hux, hlast⟩
  · cases k with
    | none =>
      rw [hnone, List.getLast?_append] at hx
      cases hlast : (row (some i)).getLast? with
      | none =>
        rw [List.getLast?_eq_none_iff] at hlast
        rw [hlast] at hi
        cases hi
      | some z =>
        rw [hlast] at hx
        obtain rfl := Option.some.inj hx
        have hend := hends (some i) z hlast
        rw [hlast] at hend
        exact hend
    | some u =>
      rcases eq_or_ne u i with rfl | hu
      · rw [hsome] at hx
        cases hx
      · rw [hother u hu] at hx
        exact hends (some u) x hx
  · cases k with
    | none =>
      rw [hnone, Follows.append_iff] at hxy
      rcases hxy with hxy | hxy | ⟨hlast, hfirst⟩
      · exact h.linked_swapped hhead hxy
      · exact h.linked_swapped hhead hxy
      · -- the usurper, and the one who is going to tell it
        obtain rfl := Option.some.inj (hhead.symm.trans hfirst)
        refine .inl ⟨(h.last none x hlast).1, .inr (.inr ?_)⟩
        rw [thread_swapped_self, h.tail, hlast]
        rfl
    | some u =>
      rcases eq_or_ne u i with rfl | hu
      · rw [hsome] at hxy
        exact absurd hxy Follows.not_nil
      · rw [hother u hu] at hxy
        exact h.linked_swapped hhead hxy
  · exact h.fresh_swapped (fun h => (by cases h)) hx
  · exact h.saw_swapped (by trivial) x

/-- A thread goes on to a place that makes no difference to others. -/
theorem goto (h : s.Inv row) (hin : (s.thread i).pc.inside = true) (hin' : pc.inside = true)
    (hlinked : ∀ x, s.Linked x i → (s.goto i pc).Linked x i)
    (hholds : s.Holds i → (s.goto i pc).Holds i)
    (hout : ∀ oldTail, (s.thread i).pc ≠ .restore oldTail)
    (hbridge : s.next i = none → pc.bridge = none)
    (hsaw : pc.Saw (s.next i)) : (s.goto i pc).Inv row := by
  have hself : ((s.goto i pc).thread i).pc = pc := (thread_goto i).trans (if_pos rfl)
  refine h.stay hin (by rw [hself, hin']) (fun j hj => (thread_goto j).trans (if_neg hj)) rfl rfl
    (fun _ _ => rfl) hlinked hholds hout ?_ ?_
  · rw [hself]
    exact hbridge
  · rw [hself]
    exact hsaw

/-- **Every access keeps the rows.** -/
theorem step {calls : ℕ} {e : Ev ι} (h : s.Inv row) (hturn : s.turn calls i = some (s', e)) :
    ∃ row', s'.Inv row' := by
  have hself : ∀ pc : Pc ι, ((s.goto i pc).thread i).pc = pc :=
    fun pc => (thread_goto i).trans (if_pos rfl)
  cases hpc : (s.thread i).pc with
  | idle =>
    simp only [turn, hpc] at hturn
    split at hturn
    · obtain ⟨rfl, -⟩ := Prod.mk.inj (Option.some.inj hturn)
      exact ⟨row, h.call hpc⟩
    · cases hturn
  | swap =>
    simp only [turn, hpc] at hturn
    cases hlock : (s.qnodeSwap (some i)).1 with
    | none =>
      simp only [hlock] at hturn
      obtain ⟨rfl, -⟩ := Prod.mk.inj (Option.some.inj hturn)
      exact ⟨_, h.exchange hpc (.inl ⟨hlock, rfl⟩)⟩
    | some a =>
      simp only [hlock] at hturn
      obtain ⟨rfl, -⟩ := Prod.mk.inj (Option.some.inj hturn)
      exact ⟨_, h.exchange hpc (.inr ⟨a, hlock, rfl⟩)⟩
  | arm p =>
    simp only [turn, hpc] at hturn
    obtain ⟨rfl, -⟩ := Prod.mk.inj (Option.some.inj hturn)
    have hset : ((s.setLocked i 1).goto i (.link p)).locked i = 1 := Function.update_self ..
    have hat : (((s.setLocked i 1).goto i (.link p)).thread i).pc = .link p :=
      (thread_goto i).trans (if_pos rfl)
    refine ⟨row, h.stay (i := i) (by rw [hpc]; rfl) (by rw [hat]; rfl)
      (fun j hj => (thread_goto j).trans (if_neg hj)) rfl rfl
      (fun j hj => Function.update_of_ne hj _ _) (fun x hx => ?_) (fun hx => ?_)
      (fun old hold => ?_)
      (fun _ => by rw [hat]; rfl) (by rw [hat]; trivial)⟩
    · simp [Linked, hpc, Pc.bridge] at hx
      obtain ⟨hnone, rfl⟩ := hx
      exact .inl ⟨hnone, .inr (.inl ⟨hat, hset⟩)⟩
    · simp [Holds, hpc, Pc.bridge] at hx
    · rw [hpc] at hold
      cases hold
  | link p =>
    simp only [turn, hpc] at hturn
    obtain ⟨rfl, -⟩ := Prod.mk.inj (Option.some.inj hturn)
    exact ⟨row, h.linked hpc⟩
  | spin =>
    simp only [turn, hpc] at hturn
    split at hturn
    · obtain ⟨rfl, -⟩ := Prod.mk.inj (Option.some.inj hturn)
      exact ⟨row, h⟩
    · rename_i hlocked
      obtain ⟨rfl, -⟩ := Prod.mk.inj (Option.some.inj hturn)
      rw [not_not] at hlocked
      refine ⟨row, h.goto (by rw [hpc]; rfl) rfl (fun x hx => ?_) (fun _ => .inl (hself _))
        (fun old hold => ?_) (fun _ => rfl) trivial⟩
      · simp [Linked, hpc, hlocked, Pc.bridge] at hx
      · rw [hpc] at hold
        cases hold
  | critical =>
    simp only [turn, hpc] at hturn
    obtain ⟨rfl, -⟩ := Prod.mk.inj (Option.some.inj hturn)
    have hnot : ∀ x, ¬ s.Linked x i := fun x hx => by simp [Linked, hpc, Pc.bridge] at hx
    have hout : ∀ oldTail, (s.thread i).pc ≠ .restore oldTail := fun old hold => by
      rw [hpc] at hold
      cases hold
    by_cases hnext : s.next i = none
    · rw [if_pos hnext]
      exact ⟨row, h.goto (by rw [hpc]; rfl) rfl (fun x hx => absurd hx (hnot x))
        (fun _ => .inr (.inl (hself _))) hout (fun _ => rfl) trivial⟩
    · rw [if_neg hnext]
      exact ⟨row, h.goto (by rw [hpc]; rfl) rfl (fun x hx => absurd hx (hnot x))
        (fun _ => .inr (.inr (.inr (by rw [hself]; rfl)))) hout
        (fun hnone => absurd hnone hnext) hnext⟩
  | detach =>
    simp only [turn, hpc] at hturn
    by_cases hlock : (s.qnodeSwap none).1 = some i
    · rw [if_pos hlock] at hturn
      obtain ⟨rfl, -⟩ := Prod.mk.inj (Option.some.inj hturn)
      exact ⟨_, h.freed hpc hlock⟩
    · rw [if_neg hlock] at hturn
      obtain ⟨rfl, -⟩ := Prod.mk.inj (Option.some.inj hturn)
      exact ⟨_, h.taken hpc hlock⟩
  | restore oldTail =>
    simp only [turn, hpc] at hturn
    obtain ⟨rfl, -⟩ := Prod.mk.inj (Option.some.inj hturn)
    exact ⟨_, h.restored hpc⟩
  | await usurper =>
    simp only [turn, hpc] at hturn
    split at hturn
    · obtain ⟨rfl, -⟩ := Prod.mk.inj (Option.some.inj hturn)
      exact ⟨row, h⟩
    · rename_i hnext
      obtain ⟨rfl, -⟩ := Prod.mk.inj (Option.some.inj hturn)
      refine ⟨row, h.goto (by rw [hpc]; rfl) rfl (fun x hx => ?_) (fun hx => ?_)
        (fun old hold => ?_)
        (fun hnone => absurd hnone hnext) hnext⟩
      · simp [Linked, hpc, Pc.bridge] at hx
        exact .inl ⟨hx.1, .inr (.inr (by rw [hself, hx.2]; rfl))⟩
      · simp [Holds, hpc, Pc.bridge] at hx
        exact .inr (.inr (.inr (by rw [hself, hx]; rfl)))
      · rw [hpc] at hold
        cases hold
  | read usurper =>
    have hnext : s.next i ≠ none := by
      have hsaw := h.saw i
      rwa [hpc] at hsaw
    have hout : ∀ oldTail, (s.thread i).pc ≠ .restore oldTail := fun old hold => by
      rw [hpc] at hold
      cases hold
    cases usurper with
    | some a =>
      simp only [turn, hpc] at hturn
      obtain ⟨rfl, -⟩ := Prod.mk.inj (Option.some.inj hturn)
      refine ⟨row, h.goto (by rw [hpc]; rfl) rfl (fun x hx => ?_) (fun hx => ?_) hout
        (fun hnone => absurd hnone hnext) ⟨rfl, hnext⟩⟩
      · simp [Linked, hpc, Pc.bridge] at hx
        exact .inl ⟨hx.1, .inr (.inr (by rw [hself, hx.2]; rfl))⟩
      · simp [Holds, hpc, Pc.bridge] at hx
    | none =>
      obtain ⟨n, hn⟩ := Option.ne_none_iff_exists'.mp hnext
      simp only [turn, hpc, hn, Option.map_some] at hturn
      obtain ⟨rfl, -⟩ := Prod.mk.inj (Option.some.inj hturn)
      refine ⟨row, h.goto (by rw [hpc]; rfl) rfl (fun x hx => ?_)
        (fun _ => .inr (.inr (.inr (by rw [hself]; rfl)))) hout
        (fun hnone => absurd hnone hnext) hn⟩
      simp [Linked, hpc, Pc.bridge] at hx
  | relink a seen =>
    simp only [turn, hpc] at hturn
    obtain ⟨rfl, -⟩ := Prod.mk.inj (Option.some.inj hturn)
    exact ⟨_, h.relinked hpc⟩
  | grant n =>
    simp only [turn, hpc] at hturn
    obtain ⟨rfl, -⟩ := Prod.mk.inj (Option.some.inj hturn)
    exact ⟨_, h.granted hpc⟩

end Sys.Inv

omit [DecidableEq ι] in
theorem inv_init : (Sys.init : Sys ι).Inv fun _ => [] where
  nodup _ := List.nodup_nil
  apart _ _ _ hx := by cases hx
  mem _ := ⟨fun hin => (by cases hin), fun ⟨_, hk⟩ => (by cases hk)⟩
  tail := rfl
  head _ hx := by cases hx
  out _ _ hx := by cases hx
  last _ _ hx := by cases hx
  link _ _ _ hxy := absurd hxy Follows.not_nil
  fresh _ hx := by cases hx
  saw _ := trivial

end Inv

end McsLock

end Smelt
