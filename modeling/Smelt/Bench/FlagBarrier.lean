/-
# The barrier of flags

`barrier` of `bench/diss_bar/barrier.h`, by which the benchmarks bring their threads together
before each measurement.  Every thread owns flags and only writes its own.  In each round it
writes the number of the operation to one, and then looks at the flags of `m` others until theirs
are as large.

An operation is told from the others by its TAG, which grows by the number of rounds with each call,
so a flag holds the number of a round of all: `2` and the rounds before it.  The flags of `MAXOPS`
operations are kept apart, and are written over after that; as they only grow, nobody is held up by
a flag that is newer than the one it waits for.  There is a variant with a flag for each round, and
one with a single flag for all rounds.

That the flags only grow ends when the tag is set back to `2`, after a call with a tag of `INT_MAX`
or more.  Up to that call the barrier is one (`flag_barrier_serves`).  The call after it does not
wait for anybody (`reset_alone`): it looks for flags that are not smaller than those of the first
call, and these are there.

Who writes and who waits is told by `Spread`.  Every access of a flag is a step.
-/
import Smelt.Lib.Spread
import Smelt.Dissem.Barrier

namespace Smelt

namespace FlagBarrier

open Spread

/-! ## 1. The barrier -/

/-- `MAXOPS`. -/
def maxOps : UInt32 := 10

/-- `INT_MAX`. -/
def intMax : UInt32 := 2147483647

/-- What the threads call `barrier` with, and the number of times that they do.  `naive` is the
variant with a single flag, `DISSEMINATION_NAIVE`. -/
structure Params where
  nthreads : ℕ
  m : ℕ
  rounds : ℕ
  naive : Bool
  calls : ℕ
  deriving DecidableEq, Repr

/-- The variables of the loop over the rounds, with `r` in place of the pointer that it is
added to. -/
structure Loop where
  indexTag : ℕ
  actualFlag : UInt32
  r : ℕ
  step : ℕ
  deriving DecidableEq, Repr

/-- Where a thread is in `barrier`, or outside of it. -/
inductive Pc
  | idle
  | write (l : Loop)
  | poll (l : Loop) (i : ℕ)
  | ret
  deriving DecidableEq, Repr

/-- A thread, with the number of calls that it has returned from. -/
structure Thread where
  pc : Pc
  tag : UInt32
  done : ℕ
  deriving DecidableEq, Repr

/-- `flag op j r` is `shm->notification[op].notifications[j].notificationLines[r].flag`. -/
structure Sys where
  flag : ℕ → ℕ → ℕ → UInt32
  thread : ℕ → Thread

/-- The line that is used in round `r`. -/
def Params.line (p : Params) (r : ℕ) : ℕ := if p.naive then 0 else r

/-- `r < rounds`. -/
def roundTop (p : Params) (l : Loop) : Pc := if l.r < p.rounds then .write l else .ret

/-- `i <= m`, and what comes after the loop over the peers. -/
def pollTop (p : Params) (l : Loop) (i : ℕ) : Pc :=
  if i ≤ p.m then .poll l i
  else roundTop p { l with
    step := l.step * (p.m + 1)
    actualFlag := l.actualFlag + 1
    r := l.r + 1 }

/-- The tag for the next call. -/
def nextTag (p : Params) (tag : UInt32) : UInt32 :=
  if tag < intMax then tag + UInt32.ofNat p.rounds else 2

/-- `barrier` up to the loop. -/
def Thread.enter (p : Params) (th : Thread) : Thread :=
  let opTag := th.tag
  { th with
    tag := nextTag p opTag
    pc := roundTop p ⟨(opTag % maxOps).toNat, opTag, 0, 1⟩ }

def Sys.setThread (s : Sys) (i : ℕ) (th : Thread) : Sys :=
  { s with thread := Function.update s.thread i th }

def Sys.setFlag (s : Sys) (op j r : ℕ) (v : UInt32) : Sys :=
  { s with flag := Function.update s.flag op (Function.update (s.flag op) j
      (Function.update (s.flag op j) r v)) }

/-- One step of the thread `i`, up to its next access of a flag. -/
def Sys.turn (p : Params) (s : Sys) (i : ℕ) : Option (Sys × Ev) :=
  let th := s.thread i
  if i < p.nthreads then
    match th.pc with
    | .idle =>
      if th.done < p.calls then some (s.setThread i (th.enter p), .enter i th.done) else none
    | .write l => some
      ((s.setFlag l.indexTag i (p.line l.r) l.actualFlag).setThread i
        { th with pc := pollTop p l 1 }, .say i th.done l.r)
    | .poll l c =>
      let peer := Dissem.wrapPeer p.nthreads ((i : ℤ) - (c * l.step : ℕ))
      if s.flag l.indexTag peer.toNat (p.line l.r) < l.actualFlag then some (s, .quiet i)
      else some (s.setThread i { th with pc := pollTop p l (c + 1) }, .hear i th.done l.r c)
    | .ret => some (s.setThread i { th with pc := .idle, done := th.done + 1 }, .leave i th.done)
  else none

def Step (p : Params) (s : Sys) (e : Ev) (s' : Sys) : Prop := ∃ i, s.turn p i = some (s', e)

/-- `initSharedMemory` and `initThreads`. -/
def Sys.init : Sys := ⟨fun _ _ _ => 0, fun _ => ⟨.idle, 2, 0⟩⟩

/-- `readFile`, the parameters that the benchmarks use. -/
def readFile (nthreads : ℕ) : ℕ × ℕ := (1, Nat.clog 2 nthreads)

/-! ## 2. Peers, tags and places -/

/-- The loop adds the number of threads until the peer is one of them. -/
theorem wrapPeer_eq_below {n i d : ℕ} (hi : i < n) :
    (Dissem.wrapPeer n ((i : ℤ) - d)).toNat = below n i d := by
  have hloop : ∀ (turns : ℕ) (peer : ℤ), -peer ≤ turns → peer < n →
      Dissem.wrapLoop n turns peer = peer % n := by
    intro turns
    induction turns with
    | zero =>
      intro peer hpos hlt
      rw [Dissem.wrapLoop, Int.emod_eq_of_lt (by omega) hlt]
    | succ turns ih =>
      intro peer hpos hlt
      rw [Dissem.wrapLoop]
      split
      · rw [ih _ (by omega) (by omega), Int.add_emod_right]
      · rw [Int.emod_eq_of_lt (by omega) hlt]
  rw [Dissem.wrapPeer, hloop _ _ (by omega) (by omega), below]

/-- Everybody is heard of, `step` stays an `int`, and all tags but the last are below `INT_MAX`. -/
structure Params.Fits (p : Params) : Prop where
  cov : p.nthreads ≤ (p.m + 1) ^ p.rounds
  ints : (p.m + 1) ^ p.rounds < 2 ^ 31
  rounds : p.rounds ≤ 2 ^ 30
  tags : 2 + (p.calls - 2) * p.rounds < 2 ^ 31 - 1

theorem readFile_covers (n : ℕ) : n ≤ ((readFile n).1 + 1) ^ (readFile n).2 :=
  Nat.le_pow_clog Nat.one_lt_two n

def Pc.place : Pc → Place
  | .idle => .out
  | .write l => .announce l.r
  | .poll l c => .listen l.r c
  | .ret => .leave

/-- A thread as one of those that spread the word. -/
def Sys.part (s : Sys) (i : ℕ) : Part := ⟨(s.thread i).done, (s.thread i).pc.place⟩

/-- The variables of the loop in the `k`-th call. -/
structure LoopOk (p : Params) (k : ℕ) (l : Loop) : Prop where
  indexTag : l.indexTag = (2 + k * p.rounds) % 10
  actualFlag : l.actualFlag.toNat = 2 + (k * p.rounds + l.r)
  step : l.step = (p.m + 1) ^ l.r

def PcOk (p : Params) (k : ℕ) : Pc → Prop
  | .write l => LoopOk p k l
  | .poll l _ => LoopOk p k l
  | _ => True

/-- The calls that a thread has begun. -/
def Thread.begun (th : Thread) : ℕ := th.done + if th.pc = .idle then 0 else 1

structure ThreadOk (p : Params) (th : Thread) : Prop where
  pc : PcOk p th.done th.pc
  begun : th.begun ≤ p.calls
  tag : th.begun < p.calls → th.tag.toNat = 2 + th.begun * p.rounds
  /-- the tag after the last call -/
  last : th.begun = p.calls → 2 ^ 31 - 1 ≤ 2 + (p.calls - 1) * p.rounds → th.tag = 2

section Tags

variable {p : Params} {l : Loop} {k c : ℕ} {th : Thread}

theorem roundTop_place (p : Params) (l : Loop) : (roundTop p l).place = top p.rounds l.r := by
  unfold roundTop top
  split <;> rfl

theorem pollTop_place (p : Params) (l : Loop) (c : ℕ) :
    (pollTop p l c).place = topIn p.m p.rounds l.r c := by
  unfold pollTop topIn
  split
  · rfl
  · exact roundTop_place p _

theorem roundTop_ne_idle (p : Params) (l : Loop) : roundTop p l ≠ .idle := by
  unfold roundTop
  split <;> exact fun heq => by cases heq

theorem pollTop_ne_idle (p : Params) (l : Loop) (c : ℕ) : pollTop p l c ≠ .idle := by
  unfold pollTop
  split
  · exact fun heq => by cases heq
  · exact roundTop_ne_idle p _

/-- The flags of all calls are numbers of 32 bits. -/
theorem Params.Fits.flag_lt (h : p.Fits) (hk : k < p.calls) :
    2 + (k * p.rounds + p.rounds) < 2 ^ 32 := by
  have htags := h.tags
  have hrounds := h.rounds
  have hle : k * p.rounds ≤ (p.calls - 2) * p.rounds + p.rounds := by
    rw [← Nat.succ_mul]
    exact Nat.mul_le_mul_right _ (by omega)
  omega

theorem pcOk_roundTop (h : LoopOk p k l) : PcOk p k (roundTop p l) := by
  unfold roundTop
  split
  · exact h
  · trivial

theorem pcOk_pollTop (hfits : p.Fits) (h : LoopOk p k l) (hk : k < p.calls) (hr : l.r < p.rounds) :
    PcOk p k (pollTop p l c) := by
  unfold pollTop
  split
  · exact h
  · refine pcOk_roundTop ⟨h.indexTag, ?_, ?_⟩
    · have hlt := hfits.flag_lt hk
      rw [UInt32.toNat_add, h.actualFlag, UInt32.toNat_one, Nat.mod_eq_of_lt (by omega)]
      exact Nat.add_assoc 2 _ _
    · simp only [h.step, Nat.pow_succ]

/-- The loop is begun with the tag of the call. -/
theorem loopOk_enter {tag : UInt32} (htag : tag.toNat = 2 + k * p.rounds) :
    LoopOk p k ⟨(tag % maxOps).toNat, tag, 0, 1⟩ where
  indexTag := by
    have hten : maxOps.toNat = 10 := rfl
    simp only [UInt32.toNat_mod, hten, htag]
  actualFlag := htag
  step := rfl

/-- **The next tag**, which is the number of the next call until it is set back. -/
theorem threadOk_enter (hfits : p.Fits) (h : ThreadOk p th) (hidle : th.pc = .idle)
    (hcalls : th.done < p.calls) : ThreadOk p (th.enter p) := by
  have hbegun : th.begun = th.done := by simp [Thread.begun, hidle]
  have htag := h.tag (hbegun ▸ hcalls)
  rw [hbegun] at htag
  have hmax : intMax.toNat = 2 ^ 31 - 1 := rfl
  have hnext : (th.enter p).begun = th.done + 1 := by
    simp [Thread.begun, Thread.enter, roundTop_ne_idle]
  refine ⟨pcOk_roundTop (loopOk_enter htag), ?_, fun hlt => ?_, fun heq hreset => ?_⟩
  · rw [hnext]
    exact hcalls
  · rw [hnext] at hlt ⊢
    have hmul := Nat.mul_le_mul_right p.rounds (show th.done ≤ p.calls - 2 by omega)
    have hsmall : th.tag < intMax := by
      rw [UInt32.lt_iff_toNat_lt, htag, hmax]
      have htags := hfits.tags
      omega
    have hsum := hfits.flag_lt hcalls
    have hr : (UInt32.ofNat p.rounds).toNat = p.rounds :=
      UInt32.toNat_ofNat_of_lt' (Nat.lt_of_le_of_lt hfits.rounds (by decide))
    simp only [Thread.enter, nextTag, if_pos hsmall, UInt32.toNat_add, hr, htag, Nat.succ_mul]
    rw [Nat.mod_eq_of_lt (by omega)]
    omega
  · rw [hnext] at heq
    have hlarge : ¬ th.tag < intMax := by
      rw [UInt32.lt_iff_toNat_lt, htag, hmax]
      rw [← heq, Nat.add_sub_cancel] at hreset
      omega
    simp only [Thread.enter, nextTag, if_neg hlarge]

/-- A thread inside of a call goes on. -/
theorem threadOk_pc (h : ThreadOk p th) (hin : th.pc ≠ .idle) {pc : Pc} (hne : pc ≠ .idle)
    (hpc : PcOk p th.done pc) : ThreadOk p { th with pc := pc } := by
  have hbegun : Thread.begun { th with pc := pc } = th.begun := by simp [Thread.begun, hin, hne]
  exact ⟨hpc, hbegun ▸ h.begun, fun hlt => hbegun ▸ h.tag (hbegun ▸ hlt),
    fun heq => h.last (hbegun ▸ heq)⟩

/-- And comes to its end. -/
theorem threadOk_leave (h : ThreadOk p th) (hin : th.pc ≠ .idle) :
    ThreadOk p { th with pc := .idle, done := th.done + 1 } := by
  have hbegun : Thread.begun { th with pc := .idle, done := th.done + 1 } = th.begun := by
    simp [Thread.begun, hin]
  exact ⟨trivial, hbegun ▸ h.begun, fun hlt => hbegun ▸ h.tag (hbegun ▸ hlt),
    fun heq => h.last (hbegun ▸ heq)⟩

theorem ThreadOk.done_lt (h : ThreadOk p th) (hin : th.pc ≠ .idle) : th.done < p.calls := by
  have hbegun := h.begun
  simp only [Thread.begun, if_neg hin] at hbegun
  omega

end Tags

/-! ## 3. The flags -/

/-- The threads are where their counters say they are.  A flag is at least what its owner has said
in the rounds that it is used for, and no flag is more than its owner has said. -/
structure Rep (p : Params) (s : Sys) : Prop where
  inv : Inv p.nthreads p.m p.rounds s.part
  thread : ∀ i, i < p.nthreads → ThreadOk p (s.thread i)
  low : ∀ j, j < p.nthreads → ∀ k r, r < p.rounds → k * p.rounds + r < said p.rounds (s.part j) →
    2 + (k * p.rounds + r) ≤ (s.flag ((2 + k * p.rounds) % 10) j (p.line r)).toNat
  high : ∀ j, j < p.nthreads → ∀ op r, (s.flag op j r).toNat < 2 + said p.rounds (s.part j)

section Flags

variable {p : Params} {s s' : Sys} {e : Ev} {i k r : ℕ} {l : Loop} {th : Thread}

theorem part_setThread (s : Sys) (i : ℕ) (th : Thread) :
    (s.setThread i th).part = Function.update s.part i ⟨th.done, th.pc.place⟩ := by
  funext j
  rcases eq_or_ne j i with rfl | hj
  · simp only [Sys.part, Sys.setThread, Function.update_self]
  · simp only [Sys.part, Sys.setThread, Function.update_of_ne hj]

theorem rep_init (p : Params) : Rep p Sys.init where
  inv := inv_init
  thread i _ := ⟨trivial, Nat.zero_le _, fun _ => by simp [Sys.init, Thread.begun], fun _ _ => rfl⟩
  low j _ k r _ h := by simp [Sys.part, Sys.init, said, Pc.place] at h
  high j _ op r := by simp [Sys.init]

/-- A step that writes nothing leaves the flags to the counters. -/
theorem Rep.move (h : Rep p s) (hth : ThreadOk p th)
    (hstep : Spread.Step p.nthreads p.m p.rounds s.part e (s.setThread i th).part)
    (hquiet : ∀ j, e.adds j = 0) : Rep p (s.setThread i th) := by
  have hsaid : ∀ j, said p.rounds ((s.setThread i th).part j) = said p.rounds (s.part j) :=
    fun j => by
    rw [hstep.said_eq j, hquiet, Nat.add_zero]
  refine ⟨inv_step h.inv hstep, fun j hj => ?_, fun j hj k r hr hlt => ?_, fun j hj op r => ?_⟩
  · simp only [Sys.setThread, Function.update_apply]
    split
    · exact hth
    · exact h.thread j hj
  · rw [hsaid] at hlt
    exact h.low j hj k r hr hlt
  · rw [hsaid]
    exact h.high j hj op r

theorem flag_setFlag (s : Sys) (op j r : ℕ) (v : UInt32) (op' j' r' : ℕ) :
    (s.setFlag op j r v).flag op' j' r' =
      if op' = op ∧ j' = j ∧ r' = r then v else s.flag op' j' r' := by
  simp only [Sys.setFlag, Function.update_apply]
  rcases eq_or_ne op' op with rfl | hop
  · rcases eq_or_ne j' j with rfl | hj
    · simp [Function.update_apply]
    · simp [hj]
  · simp [hop]

/-- **A write makes a flag what has been said with it.** -/
theorem Rep.write (h : Rep p s) (hi : i < p.nthreads) (hpc : (s.thread i).pc = .write l)
    (hth : ThreadOk p th) (hdone : th.done = (s.thread i).done)
    (hplace : th.pc.place = topIn p.m p.rounds l.r 1) :
    Rep p ((s.setFlag l.indexTag i (p.line l.r) l.actualFlag).setThread i th) := by
  have hp : (s.part i).place = .announce l.r := by simp only [Sys.part, hpc, Pc.place]
  have hr := h.inv.ok i hi
  rw [hp] at hr
  have hok := (h.thread i hi).pc
  rw [hpc] at hok
  have hnow : said p.rounds (s.part i) = (s.thread i).done * p.rounds + l.r := by
    simp only [said, hp, round_announce]
    rfl
  have hpart : ((s.setFlag l.indexTag i (p.line l.r) l.actualFlag).setThread i th).part =
      Function.update s.part i ⟨(s.part i).done, topIn p.m p.rounds l.r 1⟩ := by
    rw [part_setThread, hdone, hplace]
    rfl
  have hstep : Spread.Step p.nthreads p.m p.rounds s.part (.say i (s.part i).done l.r)
      ((s.setFlag l.indexTag i (p.line l.r) l.actualFlag).setThread i th).part := by
    rw [hpart]
    exact .say hi hp hr
  have hflag : ∀ op j r,
      ((s.setFlag l.indexTag i (p.line l.r) l.actualFlag).setThread i th).flag op j r =
        if op = l.indexTag ∧ j = i ∧ r = p.line l.r then l.actualFlag else s.flag op j r :=
    fun op j r => flag_setFlag s _ _ _ _ op j r
  refine ⟨inv_step h.inv hstep, fun j hj => ?_, fun j hj k r hrr hlt => ?_, fun j hj op r => ?_⟩
  · simp only [Sys.setThread, Function.update_apply]
    split
    · exact hth
    · exact h.thread j hj
  · have hsum : k * p.rounds + r < said p.rounds (s.part j) ∨
        j = i ∧ k * p.rounds + r = (s.thread i).done * p.rounds + l.r := by
      rw [hstep.said_eq j, Ev.adds] at hlt
      split at hlt
      · subst j
        omega
      · exact .inl hlt
    rw [hflag]
    split
    · rename_i hat
      obtain ⟨-, rfl, -⟩ := hat
      rw [hok.actualFlag]
      rcases hsum with hold | ⟨-, heq⟩ <;> omega
    · rename_i hat
      rcases hsum with hold | ⟨rfl, heq⟩
      · exact h.low j hj k r hrr hold
      · -- a round of all is a round of one call
        refine absurd ⟨?_, rfl, ?_⟩ hat
        · have hk : k = (s.thread j).done := by
            have hdiv := congrArg (· / p.rounds) heq
            simp only [Nat.mul_comm _ p.rounds, Nat.mul_add_div (Nat.zero_lt_of_lt hrr),
              Nat.div_eq_of_lt hrr, Nat.div_eq_of_lt hr, Nat.add_zero] at hdiv
            exact hdiv
          rw [hok.indexTag, hk]
        · have hmod := congrArg (· % p.rounds) heq
          simp only [round_mod hrr, round_mod hr] at hmod
          rw [hmod]
  · rw [hflag, hstep.said_eq j]
    split
    · rename_i hat
      obtain ⟨-, rfl, -⟩ := hat
      rw [hok.actualFlag, hnow, Ev.adds, if_pos rfl]
      omega
    · exact Nat.lt_of_lt_of_le (h.high j hj op r) (Nat.add_le_add_left (Nat.le_add_right _ _) 2)

/-- **The flag that a thread looks at tells whether its peer has come.** -/
theorem flag_iff (h : Rep p s) (hi : i < p.nthreads) {c : ℕ} (hpc : (s.thread i).pc = .poll l c) :
    ¬ s.flag l.indexTag
        (Dissem.wrapPeer p.nthreads ((i : ℤ) - (c * l.step : ℕ))).toNat (p.line l.r) <
          l.actualFlag ↔
      (s.part i).done * p.rounds + l.r <
        said p.rounds (s.part (below p.nthreads i (c * (p.m + 1) ^ l.r))) := by
  have hp : (s.part i).place = .listen l.r c := by simp only [Sys.part, hpc, Pc.place]
  have hr := h.inv.ok i hi
  rw [hp] at hr
  have hok := (h.thread i hi).pc
  rw [hpc] at hok
  have hq : below p.nthreads i (c * (p.m + 1) ^ l.r) < p.nthreads := below_lt (by omega)
  rw [wrapPeer_eq_below hi, UInt32.lt_iff_toNat_lt, hok.actualFlag, hok.step, hok.indexTag]
  constructor
  · intro hge
    have hhigh := h.high _ hq ((2 + (s.thread i).done * p.rounds) % 10) (p.line l.r)
    have hdone : (s.part i).done = (s.thread i).done := rfl
    rw [hdone]
    omega
  · intro hlt
    exact Nat.not_lt.mpr (h.low _ hq _ _ hr.1 hlt)

/-- **A turn is a step of the machine**, and the flags stay what the counters say. -/
theorem turn_step (hfits : p.Fits) (h : Rep p s) (hturn : s.turn p i = some (s', e)) :
    Spread.Step p.nthreads p.m p.rounds s.part e s'.part ∧ Rep p s' ∧ e.who = i := by
  unfold Sys.turn at hturn
  split at hturn
  · rename_i hi
    have hok := h.inv.ok i hi
    have hth := h.thread i hi
    cases hpc : (s.thread i).pc with
    | idle =>
      have hp : (s.part i).place = .out := by simp only [Sys.part, hpc, Pc.place]
      simp only [hpc] at hturn
      split at hturn
      · obtain ⟨rfl, rfl⟩ := Prod.mk.inj (Option.some.inj hturn)
        have hplace : ((s.thread i).enter p).pc.place = top p.rounds 0 := roundTop_place p _
        have hstep : Spread.Step p.nthreads p.m p.rounds s.part (.enter i (s.part i).done)
            (s.setThread i ((s.thread i).enter p)).part := by
          rw [part_setThread, hplace]
          exact .enter hi hp
        exact ⟨hstep, h.move (threadOk_enter hfits hth hpc ‹_›) hstep fun _ => rfl, rfl⟩
      · cases hturn
    | write l =>
      have hp : (s.part i).place = .announce l.r := by simp only [Sys.part, hpc, Pc.place]
      rw [hp] at hok
      have hin : (s.thread i).pc ≠ .idle := by rw [hpc]; exact fun heq => by cases heq
      have hloop := hth.pc
      rw [hpc] at hloop
      simp only [hpc] at hturn
      obtain ⟨rfl, rfl⟩ := Prod.mk.inj (Option.some.inj hturn)
      refine ⟨?_, h.write hi hpc (threadOk_pc hth hin (pollTop_ne_idle p l 1)
        (pcOk_pollTop hfits hloop (hth.done_lt hin) hok)) rfl (pollTop_place p l 1), rfl⟩
      rw [part_setThread, pollTop_place]
      exact .say hi hp hok
    | poll l c =>
      have hp : (s.part i).place = .listen l.r c := by simp only [Sys.part, hpc, Pc.place]
      rw [hp] at hok
      have hin : (s.thread i).pc ≠ .idle := by rw [hpc]; exact fun heq => by cases heq
      have hloop := hth.pc
      rw [hpc] at hloop
      simp only [hpc] at hturn
      split at hturn
      · obtain ⟨rfl, rfl⟩ := Prod.mk.inj (Option.some.inj hturn)
        exact ⟨.quiet, h, rfl⟩
      · rename_i hflag
        obtain ⟨rfl, rfl⟩ := Prod.mk.inj (Option.some.inj hturn)
        have hstep : Spread.Step p.nthreads p.m p.rounds s.part (.hear i (s.part i).done l.r c)
            (s.setThread i { s.thread i with pc := pollTop p l (c + 1) }).part := by
          rw [part_setThread, pollTop_place]
          exact .hear hi hp hok.1 hok.2.2 ((flag_iff h hi hpc).mp hflag)
        exact ⟨hstep, h.move (threadOk_pc hth hin (pollTop_ne_idle p l _)
          (pcOk_pollTop hfits hloop (hth.done_lt hin) hok.1)) hstep fun _ => rfl, rfl⟩
    | ret =>
      have hp : (s.part i).place = .leave := by simp only [Sys.part, hpc, Pc.place]
      have hin : (s.thread i).pc ≠ .idle := by rw [hpc]; exact fun heq => by cases heq
      simp only [hpc] at hturn
      obtain ⟨rfl, rfl⟩ := Prod.mk.inj (Option.some.inj hturn)
      have hstep : Spread.Step p.nthreads p.m p.rounds s.part (.leave i (s.part i).done)
          (s.setThread i { s.thread i with pc := .idle, done := (s.thread i).done + 1 }).part := by
        rw [part_setThread]
        exact .leave hi hp
      exact ⟨hstep, h.move (threadOk_leave hth hin) hstep fun _ => rfl, rfl⟩
  · cases hturn

/-- **One that may go on does.** -/
theorem turn_of_mayGo (h : Rep p s) (hi : i < p.nthreads)
    (hgo : MayGo p.nthreads p.m p.rounds (fun k => k < p.calls) s.part i) :
    ∃ s' e, s.turn p i = some (s', e) ∧ e ≠ .quiet e.who := by
  unfold Sys.turn
  rw [if_pos hi]
  cases hpc : (s.thread i).pc with
  | idle =>
    have hp : (s.part i).place = .out := by simp only [Sys.part, hpc, Pc.place]
    rw [MayGo, hp] at hgo
    have hcalls : (s.thread i).done < p.calls := hgo
    simp only [if_pos hcalls]
    exact ⟨_, _, rfl, fun heq => by cases heq⟩
  | write l => exact ⟨_, _, rfl, fun heq => by cases heq⟩
  | poll l c =>
    have hp : (s.part i).place = .listen l.r c := by simp only [Sys.part, hpc, Pc.place]
    rw [MayGo, hp] at hgo
    simp only [if_neg ((flag_iff h hi hpc).mpr hgo)]
    exact ⟨_, _, rfl, fun heq => by cases heq⟩
  | ret => exact ⟨_, _, rfl, fun heq => by cases heq⟩

end Flags

theorem drives {p : Params} (hfits : p.Fits) : Drives p.nthreads p.m p.rounds
    (fun k => k < p.calls) (Sys.turn p) (Rep p) Sys.part where
  inv _ h := h.inv
  step _ _ _ _ h hturn := turn_step hfits h hturn
  move _ _ h hi hgo := turn_of_mayGo h hi hgo

/-- **The barrier of flags is one**, in both variants, for all parameters with which a thread hears
of everybody, and up to the call after which the tag is set back: in every interleaving nobody
returns from its `k`-th call before all have begun theirs, and nobody is more than one call ahead;
and under every fair schedule all calls return. -/
theorem flag_barrier_serves {p : Params} (hfits : p.Fits) {tr : List Ev} {s : Sys}
    (hrun : Run (Step p) Sys.init tr s) :
    (∀ i k, Ev.leave i k ∈ tr → ∀ j, j < p.nthreads → Ev.enter j k ∈ tr) ∧
      (∀ i j, i < p.nthreads → j < p.nthreads → (s.thread i).done ≤ (s.thread j).done + 1) ∧
      ∀ sched : ℕ → Fin p.nthreads, Fair sched → ∃ t, ∀ t', t ≤ t' → ∀ i, i < p.nthreads →
        ((trail (next (Sys.turn p)) sched s t').thread i).done = p.calls := by
  have hdrives := drives hfits
  obtain ⟨hruns, hrep⟩ := hdrives.runs (rep_init p) rfl hrun
  refine ⟨fun i k hleft j hj => hruns.barrier hfits.cov hleft hj,
    fun i j hi hj => done_le_succ hfits.cov hruns.inv hi hj, fun sched hfair => ?_⟩
  obtain ⟨t, ht⟩ := hdrives.finishes hrep hfair fun k (hk : k < p.calls) => hk
  refine ⟨t, fun t' htt i hi => Nat.le_antisymm ?_ ((ht t' htt).2 i hi)⟩
  exact Nat.le_trans (Nat.le_add_right _ _) ((ht t' htt).1.thread i hi).begun

/-- The most calls with which three threads, as the benchmarks set them up, stay below the bound. -/
def trio (naive : Bool) : Params :=
  ⟨3, (readFile 3).1, (readFile 3).2, naive, 1073741824⟩

theorem trio_fits (naive : Bool) : (trio naive).Fits where
  cov := readFile_covers 3
  ints := by cases naive <;> decide
  rounds := by cases naive <;> decide
  tags := by cases naive <;> decide

def trioTurns : List ℕ := [1, 2, 1, 2, 1, 0, 0, 1, 2, 1, 1, 0, 0, 2, 2, 0, 0, 1, 0]

theorem flag_barrier_serves_trio :
    ∃ (tr : List Ev) (s : Sys),
      Run.drive (Sys.turn (trio false)) Sys.init trioTurns = some (tr, s) ∧
      (Ev.leave 0 0 ∈ tr ∧ Ev.enter 1 0 ∈ tr) ∧
      ∃ sched : ℕ → Fin (trio false).nthreads, Fair sched ∧ ∃ t, ∀ t', t ≤ t' → ∀ i, i < 3 →
        ((trail (next (Sys.turn (trio false))) sched s t').thread i).done = 1073741824 := by
  obtain ⟨tr, s, hdrive, hleft⟩ : ∃ (tr : List Ev) (s : Sys),
      Run.drive (Sys.turn (trio false)) Sys.init trioTurns = some (tr, s) ∧ Ev.leave 0 0 ∈ tr :=
    ⟨_, _, rfl, by decide +kernel⟩
  have hserves := flag_barrier_serves (trio_fits false)
    (Run.of_drive (fun s u s' e h => ⟨u, h⟩) hdrive)
  have hfair : Fair fun n : ℕ =>
      (⟨n % 3, Nat.mod_lt n (by decide)⟩ : Fin (trio false).nthreads) := by
    intro i n
    have hi : (i : ℕ) < 3 := i.isLt
    exact ⟨3 * n + i, by omega, Fin.ext (by simp only; omega)⟩
  exact ⟨tr, s, hdrive, ⟨hleft, hserves.1 0 0 hleft 1 (by decide)⟩, _, hfair,
    hserves.2.2 _ hfair⟩

/-! ## 4. The tag set back -/

/-- From one state to another by turns of the thread `i` alone. -/
def Alone (p : Params) (i : ℕ) : Sys → Sys → Prop :=
  Relation.ReflTransGen fun s s' => ∃ e, s.turn p i = some (s', e)

section Alone

variable {p : Params} {s : Sys} {i : ℕ} {l : Loop} {th : Thread}

theorem setThread_setThread (s : Sys) (i : ℕ) (th th' : Thread) :
    (s.setThread i th).setThread i th' = s.setThread i th' := by
  simp only [Sys.setThread, Function.update_idem]

theorem thread_setThread (s : Sys) (i : ℕ) (th : Thread) : (s.setThread i th).thread i = th := by
  simp only [Sys.setThread, Function.update_self]

theorem flag_setThread (s : Sys) (i : ℕ) (th : Thread) : (s.setThread i th).flag = s.flag := rfl

/-- A thread whose peers' flags are new enough looks at one after the other. -/
theorem alone_poll (hi : i < p.nthreads)
    (hflag : ∀ j, j < p.nthreads → ¬ s.flag l.indexTag j (p.line l.r) < l.actualFlag) {c : ℕ}
    (hc : 1 ≤ c) (hcm : c ≤ p.m + 1) :
    Alone p i (s.setThread i { th with pc := pollTop p l 1 })
      (s.setThread i { th with pc := pollTop p l c }) := by
  induction c, hc using Nat.le_induction with
  | base => exact .refl
  | succ c hc ih =>
    refine (ih (by omega)).tail ⟨.hear i th.done l.r c, ?_⟩
    have hpeer : (Dissem.wrapPeer p.nthreads ((i : ℤ) - (c * l.step : ℕ))).toNat < p.nthreads := by
      rw [wrapPeer_eq_below hi]
      exact below_lt (by omega)
    have hpoll : pollTop p l c = .poll l c := if_pos (by omega)
    simp only [Sys.turn, if_pos hi, thread_setThread, hpoll, flag_setThread]
    rw [if_neg (hflag _ hpeer), setThread_setThread]

/-- The flags of the others are as large as those of the first call. -/
def Ahead (p : Params) (i : ℕ) (s : Sys) : Prop :=
  ∀ j, j < p.nthreads → j ≠ i → ∀ r, r < p.rounds → 2 + r ≤ (s.flag 2 j (p.line r)).toNat

/-- It comes through the rounds. -/
theorem alone_rounds (th : Thread) (hahead : Ahead p i s) (hi : i < p.nthreads)
    (hrounds : p.rounds ≤ 2 ^ 30) {r : ℕ} (hr : r ≤ p.rounds) :
    ∃ (s' : Sys) (l : Loop), l.indexTag = 2 ∧ l.actualFlag.toNat = 2 + l.r ∧ l.r = r ∧
      Ahead p i s' ∧ s'.thread = s.thread ∧
      Alone p i (s.setThread i { th with pc := roundTop p ⟨2, 2, 0, 1⟩ })
        (s'.setThread i { th with pc := roundTop p l }) := by
  induction r with
  | zero => exact ⟨s, ⟨2, 2, 0, 1⟩, rfl, rfl, rfl, hahead, rfl, .refl⟩
  | succ r ih =>
    obtain ⟨s', l, hop, hflag, rfl, hahead', hthread, halone⟩ := ih (by omega)
    have hwritten : ∀ op j r, (s'.setFlag l.indexTag i (p.line l.r) l.actualFlag).flag op j r =
        if op = l.indexTag ∧ j = i ∧ r = p.line l.r then l.actualFlag else s'.flag op j r :=
      fun op j r => flag_setFlag s' _ _ _ _ op j r
    refine ⟨s'.setFlag l.indexTag i (p.line l.r) l.actualFlag,
      ⟨l.indexTag, l.actualFlag + 1, l.r + 1, l.step * (p.m + 1)⟩, hop, ?_, rfl, ?_, hthread, ?_⟩
    · rw [UInt32.toNat_add, hflag, UInt32.toNat_one, Nat.mod_eq_of_lt (by omega), Nat.add_assoc]
    · intro j hj hne r' hr'
      rw [hwritten, if_neg fun hat => hne hat.2.1]
      exact hahead' j hj hne r' hr'
    · have hwrite : Alone p i (s'.setThread i { th with pc := roundTop p l })
          ((s'.setFlag l.indexTag i (p.line l.r) l.actualFlag).setThread i
            { th with pc := pollTop p l 1 }) := by
        refine .single ⟨.say i th.done l.r, ?_⟩
        have htop : roundTop p l = .write l := if_pos (by omega)
        simp only [Sys.turn, if_pos hi, thread_setThread, htop]
        simp only [Sys.setFlag, Sys.setThread, Function.update_idem]
      have hpolls : Alone p i
          ((s'.setFlag l.indexTag i (p.line l.r) l.actualFlag).setThread i
            { th with pc := pollTop p l 1 })
          ((s'.setFlag l.indexTag i (p.line l.r) l.actualFlag).setThread i
            { th with pc := pollTop p l (p.m + 1) }) := by
        refine alone_poll hi (fun j hj => ?_) (Nat.le_add_left 1 p.m) (Nat.le_refl _)
        rw [hwritten, UInt32.lt_iff_toNat_lt]
        rcases eq_or_ne j i with rfl | hne
        · rw [if_pos ⟨rfl, rfl, rfl⟩]
          exact Nat.lt_irrefl _
        · rw [if_neg fun hat => hne hat.2.1, hop, hflag]
          exact Nat.not_lt.mpr (hahead' j hj hne _ (by omega))
      have hnext : pollTop p l (p.m + 1) =
          roundTop p ⟨l.indexTag, l.actualFlag + 1, l.r + 1, l.step * (p.m + 1)⟩ :=
        if_neg (by omega)
      rw [← hnext]
      exact (halone.trans hwrite).trans hpolls

end Alone

/-- **The call after the tag is set back is no barrier.**  When the last of the calls that are
counted comes to `INT_MAX`, a thread that has made them all makes one more without a turn of anybody
else, who may not even have come to the end of theirs. -/
theorem reset_alone {p : Params} (hfits : p.Fits)
    (hreset : 2 ^ 31 - 1 ≤ 2 + (p.calls - 1) * p.rounds) {tr : List Ev} {s : Sys}
    (hrun : Run (Step p) Sys.init tr s) {i : ℕ} (hi : i < p.nthreads)
    (hdone : (s.thread i).done = p.calls) :
    ∃ s', Alone { p with calls := p.calls + 1 } i s s' ∧ (s'.thread i).done = p.calls + 1 ∧
      ∀ j, j ≠ i → s'.thread j = s.thread j := by
  obtain ⟨hruns, hrep⟩ := (drives hfits).runs (rep_init p) rfl hrun
  have hth := hrep.thread i hi
  have hbegun := hth.begun
  have hidle : (s.thread i).pc = .idle := by
    by_contra hin
    exact Nat.lt_irrefl _ (hdone ▸ hth.done_lt hin)
  have htag : (s.thread i).tag = 2 := hth.last (by simp [Thread.begun, hidle, hdone]) hreset
  -- all others have made two calls, so the flags of the first are written
  have htwo : 2 ≤ p.calls - 1 := by
    by_contra hlt
    have hmul := Nat.mul_le_mul_right p.rounds (show p.calls - 1 ≤ 1 by omega)
    have hrounds := hfits.rounds
    omega
  have hahead : Ahead { p with calls := p.calls + 1 } i s := by
    intro j hj _ r hr
    have hle := done_le_succ hfits.cov hruns.inv hi hj
    have hone : 1 ≤ (s.part j).done := by
      simp only [Sys.part] at hle ⊢
      omega
    have hsaid : 0 * p.rounds + r < said p.rounds (s.part j) := by
      have hmul := Nat.mul_le_mul_right p.rounds hone
      simp only at hr
      unfold said
      omega
    have hlow := hrep.low j hj 0 r hr hsaid
    rw [Nat.zero_mul, Nat.zero_add] at hlow
    exact hlow
  let th : Thread := (s.thread i).enter { p with calls := p.calls + 1 }
  have henter : Alone { p with calls := p.calls + 1 } i s (s.setThread i th) := by
    refine .single ⟨.enter i (s.thread i).done, ?_⟩
    simp only [Sys.turn, if_pos hi, hidle, hdone, Nat.lt_succ_self, if_true]
    rfl
  obtain ⟨s', l, -, -, hr, -, hthread, hrounds⟩ :=
    alone_rounds th hahead hi hfits.rounds (Nat.le_refl _)
  have hpc : th.pc = roundTop { p with calls := p.calls + 1 } ⟨2, 2, 0, 1⟩ := by
    simp only [th, Thread.enter, htag]
    rfl
  have hret : roundTop { p with calls := p.calls + 1 } l = .ret := if_neg (by omega)
  rw [← hpc, hret] at hrounds
  refine ⟨s'.setThread i { th with pc := .idle, done := th.done + 1 },
    (henter.trans hrounds).tail ⟨.leave i th.done, ?_⟩, ?_, fun j hj => ?_⟩
  · simp only [Sys.turn, if_pos hi, thread_setThread, setThread_setThread]
  · simp only [thread_setThread, th, Thread.enter, hdone]
  · simp only [Sys.setThread, Function.update_of_ne hj, hthread]

/-- Three threads with `2 ^ 30` calls behind them: one of them is through the next call before the
others have begun it. -/
theorem reset_alone_trio : ∃ (tr : List Ev) (s s' : Sys), Run (Step (trio false)) Sys.init tr s ∧
    (∀ j, j < 3 → (s.thread j).done = 1073741824) ∧
    Alone { trio false with calls := 1073741825 } 0 s s' ∧ (s'.thread 0).done = 1073741825 ∧
    ∀ j, j ≠ 0 → s'.thread j = s.thread j := by
  have hfair : Fair fun n : ℕ =>
      (⟨n % 3, Nat.mod_lt n (by decide)⟩ : Fin (trio false).nthreads) := by
    intro i n
    have hi : (i : ℕ) < 3 := i.isLt
    exact ⟨3 * n + i, by omega, Fin.ext (by simp only; omega)⟩
  have hdrives := drives (trio_fits false)
  obtain ⟨t, ht⟩ := hdrives.finishes (rep_init _) hfair fun k (hk : k < 1073741824) => hk
  obtain ⟨tr, hrun⟩ : ∃ tr, Run (Step (trio false)) Sys.init tr
      (trail (next (Sys.turn (trio false)))
        (fun n => ⟨n % 3, Nat.mod_lt n (by decide)⟩) Sys.init t) :=
    run_of_trail
  have hdone : ∀ j, j < 3 →
      ((trail (next (Sys.turn (trio false))) _ Sys.init t).thread j).done = 1073741824 :=
    fun j hj => Nat.le_antisymm
      (Nat.le_trans (Nat.le_add_right _ _) ((ht t (Nat.le_refl t)).1.thread j hj).begun)
      ((ht t (Nat.le_refl t)).2 j hj)
  obtain ⟨s', halone, hnext, hothers⟩ := reset_alone (trio_fits false) (by decide) hrun
    (show 0 < (trio false).nthreads by decide) (hdone 0 (by decide))
  exact ⟨tr, _, s', hrun, hdone, halone, hnext, hothers⟩

end FlagBarrier

end Smelt
