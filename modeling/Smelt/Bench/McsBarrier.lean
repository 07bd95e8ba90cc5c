/-
# The MCS barrier

`mcs_barrier_init` and `mcs_barrier_wait` of `bench/diss_bar/mcs.c`, the barrier that the
collectives are measured against.  It disseminates like `Dissem/Barrier.lean`, but with flags in
shared memory and no channels: in round `i` a thread writes to a flag of the one `2 ^ i` places
above, and spins on a flag of its own.

No flag is ever reset.  There are two sets of them that take turns (`parity`), and what is written
changes after every second wait (`sense`).  A flag is then the number of times it has been
written, modulo two (`Rep.flag`), and this is enough: between the one that spins and the one that
writes the difference is at most two waits (`times_window`), and of two waits in a row one is of
the other parity.

Who writes and who spins is told by `Spread`, with one to listen to in each round.  Every access of
a flag is a step, and all other fields are its owner's.
-/
import Smelt.Lib.Spread
import Mathlib.Data.Nat.Bitwise

namespace Smelt

namespace Mcs

open Spread

/-! ## 1. Setting up -/

/-- `MCS_LOG2_MAX_CORES`. -/
def log2MaxCores : ℕ := 8

/-- `&allnodes[node].myflags[parity][k]`. -/
structure FlagRef where
  node : ℕ
  parity : ℤ
  k : ℕ
  deriving DecidableEq, Repr

/-- `mcs_dissem_flags_t`. -/
structure DissemFlags where
  myflags : ℤ → ℕ → ℤ
  partnerflags : ℤ → ℕ → Option FlagRef
  parity : ℤ
  sense : ℤ

/-- `mcs_barrier_t`, without the nodes. -/
structure Barrier where
  nprocs : ℕ
  logp : ℕ
  deriving DecidableEq, Repr

/-- `[parity][k]` is inside of an array of flags. -/
def InArray (parity : ℤ) (k : ℕ) : Prop := (parity = 0 ∨ parity = 1) ∧ k < log2MaxCores

instance decidableInArray (parity : ℤ) (k : ℕ) : Decidable (InArray parity k) := by
  unfold InArray
  infer_instance

/-- `while(np >>= 1) b->logp++;`, for `np` of at most `fuel` bits. -/
def logpLoop : ℕ → ℕ → ℕ → ℕ
  | 0, _, logp => logp
  | fuel + 1, np, logp => if np >>> 1 ≠ 0 then logpLoop fuel (np >>> 1) (logp + 1) else logp

/-- The nodes after the loop over them. -/
def initNode (nprocs logp i : ℕ) : DissemFlags where
  myflags _ _ := 0
  partnerflags parity k :=
    if (parity = 0 ∨ parity = 1) ∧ k < logp then some ⟨(i + 1 <<< k) % nprocs, parity, k⟩ else none
  parity := 0
  sense := 1

/-- `b->logp` after the loop. -/
def initLogp (np : ℕ) : ℕ := logpLoop 64 np (if np &&& (np - 1) ≠ 0 then 1 else 0)

/-- `mcs_barrier_init`, with `np` of 64 bits.  The loop would write behind the pointers of a node
from `MCS_LOG2_MAX_CORES` on. -/
def mcsBarrierInit (np : ℕ) : Option (Barrier × (ℕ → DissemFlags)) :=
  if initLogp np ≤ log2MaxCores then some (⟨np, initLogp np⟩, initNode np (initLogp np)) else none

/-! ## 2. Waiting -/

/-- Where a thread is in `mcs_barrier_wait`, or outside of it. -/
inductive Pc
  | idle
  | store (i : ℕ)
  | spin (i : ℕ)
  | flip
  deriving DecidableEq, Repr

/-- A thread, with the number of waits that it has returned from. -/
structure Thread where
  pc : Pc
  done : ℕ
  deriving DecidableEq, Repr

structure Sys where
  allnodes : ℕ → DissemFlags
  thread : ℕ → Thread

/-- `i < b->logp`. -/
def loopTop (b : Barrier) (i : ℕ) : Pc := if i < b.logp then .store i else .flip

def Sys.setPc (s : Sys) (pid : ℕ) (pc : Pc) : Sys :=
  { s with thread := Function.update s.thread pid { s.thread pid with pc := pc } }

/-- A store to a flag. -/
def Sys.setFlag (s : Sys) (ref : FlagRef) (v : ℤ) : Sys :=
  let flags := s.allnodes ref.node
  { s with allnodes := Function.update s.allnodes ref.node { flags with
      myflags := Function.update flags.myflags ref.parity
        (Function.update (flags.myflags ref.parity) ref.k v) } }

/-- The end of `mcs_barrier_wait`. -/
def DissemFlags.flip (flags : DissemFlags) : DissemFlags :=
  { flags with
    sense := if flags.parity ≠ 0 then 1 - flags.sense else flags.sense
    parity := 1 - flags.parity }

/-- One step of the thread `pid`, up to its next access of a flag.  It fails where a pointer is not
set or an index outside of its array. -/
def Sys.turn (b : Barrier) (s : Sys) (pid : ℕ) : Option (Sys × Ev) :=
  let localflags := s.allnodes pid
  let done := (s.thread pid).done
  if pid < b.nprocs then
    match (s.thread pid).pc with
    | .idle => some (s.setPc pid (loopTop b 0), .enter pid done)
    | .store i =>
      (localflags.partnerflags localflags.parity i).map fun ref =>
        ((s.setFlag ref localflags.sense).setPc pid (.spin i), .say pid done i)
    | .spin i =>
      if InArray localflags.parity i then
        if localflags.myflags localflags.parity i ≠ localflags.sense then some (s, .quiet pid)
        else some (s.setPc pid (loopTop b (i + 1)), .hear pid done i 1)
      else none
    | .flip => some
      ({ allnodes := Function.update s.allnodes pid localflags.flip
         thread := Function.update s.thread pid ⟨.idle, done + 1⟩ }, .leave pid done)
  else none

def Step (b : Barrier) (s : Sys) (e : Ev) (s' : Sys) : Prop := ∃ pid, s.turn b pid = some (s', e)

def Sys.init (allnodes : ℕ → DissemFlags) : Sys := ⟨allnodes, fun _ => ⟨.idle, 0⟩⟩

/-! ## 3. The number of rounds -/

theorem logpLoop_eq {fuel np : ℕ} (hnp : np < 2 ^ (fuel + 1)) (logp : ℕ) :
    logpLoop fuel np logp = logp + np.log2 := by
  induction fuel generalizing np logp with
  | zero =>
    have hlog : np.log2 = 0 := by
      rw [Nat.log2_def, if_neg (by omega)]
    rw [logpLoop, hlog, Nat.add_zero]
  | succ fuel ih =>
    have hshift : np >>> 1 = np / 2 := by rw [Nat.shiftRight_eq_div_pow, Nat.pow_one]
    rw [logpLoop, hshift, Nat.log2_def]
    rcases Nat.lt_or_ge np 2 with hlt | hge
    · rw [if_neg (by omega), if_neg (by omega), Nat.add_zero]
    · rw [if_pos (by omega), if_pos hge, ih (by omega)]
      omega

/-- **As many rounds as it takes** to hear of everybody. -/
theorem le_pow_initLogp {np : ℕ} (hnp : np < 2 ^ 64) : np ≤ 2 ^ initLogp np := by
  rw [initLogp, logpLoop_eq (Nat.lt_trans hnp (by decide))]
  rcases Nat.eq_zero_or_pos np with rfl | hpos
  · exact Nat.zero_le _
  · split
    · rw [Nat.add_comm]
      exact Nat.le_of_lt Nat.lt_log2_self
    · rename_i hand
      obtain ⟨k, rfl⟩ := (Nat.and_sub_one_eq_zero_iff_isPowerOfTwo (Nat.ne_of_gt hpos)).mp
        (not_not.mp hand)
      rw [Nat.log2_two_pow, Nat.zero_add]

theorem init_spec {np : ℕ} {b : Barrier} {allnodes : ℕ → DissemFlags}
    (hinit : mcsBarrierInit np = some (b, allnodes)) :
    b = ⟨np, initLogp np⟩ ∧ b.logp ≤ log2MaxCores ∧ allnodes = initNode b.nprocs b.logp := by
  unfold mcsBarrierInit at hinit
  split at hinit
  · obtain ⟨rfl, rfl⟩ := Prod.mk.inj (Option.some.inj hinit)
    exact ⟨rfl, ‹_›, rfl⟩
  · cases hinit

/-! ## 4. What a flag says -/

def Pc.place : Pc → Place
  | .idle => .out
  | .store i => .announce i
  | .spin i => .listen i 1
  | .flip => .leave

/-- A thread as one of those that spread the word. -/
def Sys.part (s : Sys) (i : ℕ) : Part := ⟨(s.thread i).done, (s.thread i).pc.place⟩

/-- The waits in which a thread has stored in round `k`. -/
def times (R : ℕ) (p : Part) (k : ℕ) : ℕ := p.done + if k < p.place.round R then 1 else 0

section Flags

variable {n R k i j : ℕ} {f f' : ℕ → Part} {p q : Part} {e : Ev}

theorem lt_times_iff {d : ℕ} (hok : PlaceOk 1 R p.place) (hk : k < R) :
    d < times R p k ↔ d * R + k < said R p := by
  have hround := round_le hok
  unfold times said
  rcases Nat.lt_trichotomy d p.done with hlt | rfl | hgt
  · have hmul := Nat.mul_le_mul_right R (Nat.succ_le_of_lt hlt)
    rw [Nat.succ_mul] at hmul
    constructor
    · intro _
      omega
    · intro _
      omega
  · split
    · constructor
      · intro _
        omega
      · intro _
        omega
    · constructor
      · intro h
        omega
      · intro h
        omega
  · have hmul := Nat.mul_le_mul_right R (Nat.succ_le_of_lt hgt)
    rw [Nat.succ_mul] at hmul
    constructor
    · intro h
      split at h <;> omega
    · intro h
      omega

/-- The counters tell how often. -/
theorem times_eq (hp : PlaceOk 1 R p.place) (hq : PlaceOk 1 R q.place) (h : said R p = said R q)
    (hk : k < R) : times R p k = times R q k := by
  refine Nat.le_antisymm (Nat.le_of_not_lt fun hlt => ?_) (Nat.le_of_not_lt fun hlt => ?_)
  · rw [lt_times_iff hp hk, h, ← lt_times_iff hq hk] at hlt
    exact Nat.lt_irrefl _ hlt
  · rw [lt_times_iff hq hk, ← h, ← lt_times_iff hp hk] at hlt
    exact Nat.lt_irrefl _ hlt

/-- **One that spins is at most two waits behind the one it waits for**, and never ahead of it. -/
theorem times_window (hcov : n ≤ (1 + 1) ^ R) (hinv : Inv n 1 R f) (hj : j < n)
    (hp : (f j).place = .listen k 1) :
    (f j).done ≤ times R (f (below n j (2 ^ k))) k ∧
      times R (f (below n j (2 ^ k))) k ≤ (f j).done + 2 := by
  have hok := hinv.ok j hj
  rw [hp] at hok
  have hk : k < R := hok.1
  have hq : below n j (2 ^ k) < n := below_lt (by omega)
  constructor
  · -- it has heard it in all waits before
    refine Nat.le_of_not_lt fun hlt => ?_
    have hpos : 0 < (f j).done := by omega
    have hbefore : ((f j).done - 1) * R + k < heard R (f j) := by
      have hmul : ((f j).done - 1) * R + R = (f j).done * R := by
        rw [← Nat.succ_mul, Nat.succ_eq_add_one, Nat.sub_add_cancel hpos]
      simp only [heard, hp, Place.over]
      omega
    have hsaid := hinv.past j hj _ 1 (Nat.le_refl 1) (Nat.le_refl 1) (.inl hbefore)
    rw [round_mod hk, Nat.one_mul] at hsaid
    have htimes := (lt_times_iff (hinv.ok _ hq) hk).mpr hsaid
    omega
  · have hnear := done_le_succ hcov hinv hq hj
    unfold times
    split <;> omega

end Flags

/-! ## 5. The turns -/

/-- The threads are where their counters say they are, and so are the flags. -/
structure Rep (b : Barrier) (s : Sys) : Prop where
  inv : Inv b.nprocs 1 b.logp s.part
  own : ∀ i, i < b.nprocs → (s.allnodes i).parity = ((s.thread i).done % 2 : ℕ) ∧
    (s.allnodes i).sense = 1 - ((s.thread i).done / 2 % 2 : ℕ)
  partner : ∀ i, i < b.nprocs → ∀ p k : ℕ, p < 2 → k < b.logp →
    (s.allnodes i).partnerflags p k = some ⟨(i + 2 ^ k) % b.nprocs, p, k⟩
  /-- a flag has been written in the waits of its parity -/
  flag : ∀ j, j < b.nprocs → ∀ p k : ℕ, p < 2 → k < b.logp →
    (s.allnodes j).myflags p k =
      ((times b.logp (s.part (below b.nprocs j (2 ^ k))) k + 1 - p) / 2 % 2 : ℕ)

section Turns

variable {b : Barrier} {s s' : Sys} {e : Ev} {i k : ℕ}

theorem loopTop_place (b : Barrier) (i : ℕ) : (loopTop b i).place = top b.logp i := by
  unfold loopTop top
  split <;> rfl

theorem part_setPc (s : Sys) (i : ℕ) (pc : Pc) :
    (s.setPc i pc).part = Function.update s.part i ⟨(s.part i).done, pc.place⟩ := by
  funext j
  rcases eq_or_ne j i with rfl | hj
  · simp only [Sys.part, Sys.setPc, Function.update_self]
  · simp only [Sys.part, Sys.setPc, Function.update_of_ne hj]

theorem rep_init {np : ℕ} {allnodes : ℕ → DissemFlags}
    (hinit : mcsBarrierInit np = some (b, allnodes)) : Rep b (Sys.init allnodes) := by
  obtain ⟨-, -, rfl⟩ := init_spec hinit
  refine ⟨inv_init, fun i _ => ⟨rfl, by simp [Sys.init, initNode]⟩,
    fun i _ p k hp hk => ?_, fun j _ p k hp hk => ?_⟩
  · have hpar : ((p : ℤ) = 0 ∨ (p : ℤ) = 1) ∧ k < b.logp := ⟨by omega, hk⟩
    simp only [Sys.init, initNode, if_pos hpar, Nat.one_shiftLeft]
  · have hnone : times b.logp ((Sys.init (initNode b.nprocs b.logp)).part
        (below b.nprocs j (2 ^ k))) k = 0 := rfl
    have hzero : (0 + 1 - p) / 2 % 2 = 0 := by omega
    rw [hnone, hzero]
    rfl

/-- A step that stores nothing leaves the memory to the counters. -/
theorem Rep.move (h : Rep b s) (hstep : Spread.Step b.nprocs 1 b.logp s.part e s'.part)
    (hquiet : ∀ j, e.adds j = 0) (hnodes : s'.allnodes = s.allnodes)
    (hdone : ∀ j, (s'.thread j).done = (s.thread j).done) : Rep b s' := by
  have hinv := inv_step h.inv hstep
  refine ⟨hinv, fun j hj => ?_, fun j hj p k hp hk => ?_, fun j hj p k hp hk => ?_⟩
  · rw [hnodes, hdone]
    exact h.own j hj
  · rw [hnodes]
    exact h.partner j hj p k hp hk
  · have hq : below b.nprocs j (2 ^ k) < b.nprocs := below_lt (by omega)
    have hsame := hstep.said_eq (below b.nprocs j (2 ^ k))
    rw [hquiet, Nat.add_zero] at hsame
    rw [hnodes, h.flag j hj p k hp hk, times_eq (hinv.ok _ hq) (h.inv.ok _ hq) hsame hk]

/-- The flag that a thread spins on tells whether its partner has come. -/
theorem flag_iff (hcov : b.nprocs ≤ (1 + 1) ^ b.logp) (h : Rep b s) (hi : i < b.nprocs)
    (hpc : (s.thread i).pc = .spin k) :
    (s.allnodes i).myflags (s.allnodes i).parity k = (s.allnodes i).sense ↔
      (s.thread i).done * b.logp + k < said b.logp (s.part (below b.nprocs i (2 ^ k))) := by
  have hp : (s.part i).place = .listen k 1 := by simp only [Sys.part, hpc, Pc.place]
  have hok := h.inv.ok i hi
  rw [hp] at hok
  have hq : below b.nprocs i (2 ^ k) < b.nprocs := below_lt (by omega)
  obtain ⟨hlow, hhigh⟩ := times_window hcov h.inv hi hp
  have hdone : (s.part i).done = (s.thread i).done := rfl
  rw [hdone] at hlow hhigh
  rw [← lt_times_iff (h.inv.ok _ hq) hok.1, (h.own i hi).1, (h.own i hi).2,
    h.flag i hi _ k (Nat.mod_lt _ Nat.two_pos) hok.1]
  generalize times b.logp (s.part (below b.nprocs i (2 ^ k))) k = w at hlow hhigh
  constructor
  · intro heq
    omega
  · intro hlt
    omega

/-- A store changes one flag. -/
theorem allnodes_setFlag (s : Sys) (ref : FlagRef) (v : ℤ) (j : ℕ) :
    ∃ flags, (s.setFlag ref v).allnodes j = { s.allnodes j with myflags := flags } ∧
      ∀ p k, flags p k = if j = ref.node ∧ p = ref.parity ∧ k = ref.k then v
        else (s.allnodes j).myflags p k := by
  rcases eq_or_ne j ref.node with rfl | hj
  · refine ⟨_, by simp only [Sys.setFlag, Function.update_self]; rfl, fun p k => ?_⟩
    rcases eq_or_ne p ref.parity with rfl | hp
    · rw [Function.update_self, Function.update_apply]
      simp
    · rw [Function.update_of_ne hp, if_neg fun hand => hp hand.2.1]
  · refine ⟨(s.allnodes j).myflags, ?_, fun p k => by rw [if_neg fun hand => hj hand.1]⟩
    simp only [Sys.setFlag, Function.update_of_ne hj]

/-- The waits in which a thread has stored, after one more store. -/
theorem times_store {p : Part} (hk : k < b.logp) (hp : p.place = .announce k) (k' : ℕ) :
    times b.logp ⟨p.done, topIn 1 b.logp k 1⟩ k' =
      if k' = k then p.done + 1 else times b.logp p k' := by
  simp only [times, round_topIn hk, hp, round_announce]
  rcases Nat.lt_trichotomy k' k with hlt | rfl | hgt
  · rw [if_pos (by omega), if_pos hlt, if_neg (by omega)]
  · rw [if_pos (by omega), if_pos rfl]
  · rw [if_neg (by omega), if_neg (by omega), if_neg (by omega)]

/-- **A store is one more write of the flag.** -/
theorem Rep.store (h : Rep b s) (hi : i < b.nprocs) (hk : k < b.logp)
    (hpc : (s.thread i).pc = .store k) :
    Rep b ((s.setFlag ⟨(i + 2 ^ k) % b.nprocs, (s.allnodes i).parity, k⟩
      (s.allnodes i).sense).setPc i (.spin k)) := by
  have hp : (s.part i).place = .announce k := by simp only [Sys.part, hpc, Pc.place]
  obtain ⟨hpar, hsense⟩ := h.own i hi
  generalize hs₁ : s.setFlag ⟨(i + 2 ^ k) % b.nprocs, (s.allnodes i).parity, k⟩
    (s.allnodes i).sense = s₁
  have hthread : s₁.thread = s.thread := by rw [← hs₁]; rfl
  have hnode := allnodes_setFlag s ⟨(i + 2 ^ k) % b.nprocs, (s.allnodes i).parity, k⟩
    (s.allnodes i).sense
  rw [hs₁] at hnode
  have hpart : (s₁.setPc i (.spin k)).part =
      Function.update s.part i ⟨(s.part i).done, topIn 1 b.logp k 1⟩ := by
    have hsame : s₁.part = s.part := by
      funext j
      simp only [Sys.part, hthread]
    rw [part_setPc, hsame]
    rfl
  have hdone : ∀ j, ((s₁.setPc i (.spin k)).thread j).done = (s.thread j).done := by
    intro j
    rcases eq_or_ne j i with rfl | hj
    · simp only [Sys.setPc, Function.update_self, hthread]
    · simp only [Sys.setPc, Function.update_of_ne hj, hthread]
  have hallnodes : (s₁.setPc i (.spin k)).allnodes = s₁.allnodes := rfl
  refine ⟨?_, fun j hj => ?_, fun j hj p k' hp' hk' => ?_, fun j hj p k' hp' hk' => ?_⟩
  · rw [hpart]
    exact inv_step h.inv (.say hi hp hk)
  · obtain ⟨flags, hflags, -⟩ := hnode j
    rw [hallnodes, hflags, hdone]
    exact h.own j hj
  · obtain ⟨flags, hflags, -⟩ := hnode j
    rw [hallnodes, hflags]
    exact h.partner j hj p k' hp' hk'
  · obtain ⟨flags, hflags, heq⟩ := hnode j
    have htimes : times b.logp (s.part i) k = (s.part i).done := by
      simp only [times, hp, round_announce, Nat.lt_irrefl, if_false, Nat.add_zero]
    have hpi : (s.part i).done = (s.thread i).done := rfl
    rw [hallnodes, hflags, hpart]
    simp only [heq, Function.update_apply, hpar, Int.natCast_inj, hsense]
    rcases eq_or_ne (below b.nprocs j (2 ^ k')) i with hw | hw
    · rw [if_pos hw, times_store hk hp]
      rcases eq_or_ne k' k with rfl | hkne
      · have hj' : j = (i + 2 ^ k') % b.nprocs := by rw [← hw, above_below hj]
        rw [if_pos rfl, hpi]
        rcases eq_or_ne p ((s.thread i).done % 2) with rfl | hpne
        · rw [if_pos ⟨hj', rfl, rfl⟩]
          omega
        · rw [if_neg fun hand => hpne hand.2.1, h.flag j hj p k' hp' hk', hw, htimes, hpi]
          omega
      · rw [if_neg fun hand => hkne hand.2.2, h.flag j hj p k' hp' hk', hw, if_neg hkne]
    · rw [if_neg hw, if_neg ?_, h.flag j hj p k' hp' hk']
      rintro ⟨rfl, -, rfl⟩
      exact hw (below_above hi)

/-- The end of a wait. -/
theorem Rep.flip (h : Rep b s) (hi : i < b.nprocs) (hpc : (s.thread i).pc = .flip)
    (hs' : s' = { allnodes := Function.update s.allnodes i (s.allnodes i).flip
                  thread := Function.update s.thread i ⟨.idle, (s.thread i).done + 1⟩ }) :
    Spread.Step b.nprocs 1 b.logp s.part (.leave i (s.part i).done) s'.part ∧ Rep b s' := by
  have hp : (s.part i).place = .leave := by simp only [Sys.part, hpc, Pc.place]
  have hpart : s'.part = Function.update s.part i ⟨(s.part i).done + 1, .out⟩ := by
    subst hs'
    funext j
    rcases eq_or_ne j i with rfl | hj
    · simp only [Sys.part, Function.update_self, Pc.place]
    · simp only [Sys.part, Function.update_of_ne hj]
  have hstep : Spread.Step b.nprocs 1 b.logp s.part (.leave i (s.part i).done) s'.part := by
    rw [hpart]
    exact .leave hi hp
  have hinv := inv_step h.inv hstep
  refine ⟨hstep, hinv, fun j hj => ?_, fun j hj p k hp' hk => ?_, fun j hj p k hp' hk => ?_⟩
  · obtain ⟨hpar, hsense⟩ := h.own j hj
    subst hs'
    rcases eq_or_ne j i with rfl | hji
    · simp only [Function.update_self, DissemFlags.flip, hpar, hsense]
      constructor
      · omega
      · split <;> omega
    · simp only [Function.update_of_ne hji]
      exact ⟨hpar, hsense⟩
  · have hpartner := h.partner j hj p k hp' hk
    subst hs'
    rcases eq_or_ne j i with rfl | hji
    · simp only [Function.update_self]
      exact hpartner
    · simp only [Function.update_of_ne hji]
      exact hpartner
  · have hq : below b.nprocs j (2 ^ k) < b.nprocs := below_lt (by omega)
    have hsame := hstep.said_eq (below b.nprocs j (2 ^ k))
    have hadds : (Ev.leave i (s.part i).done).adds (below b.nprocs j (2 ^ k)) = 0 := rfl
    rw [hadds, Nat.add_zero] at hsame
    rw [times_eq (hinv.ok _ hq) (h.inv.ok _ hq) hsame hk, ← h.flag j hj p k hp' hk]
    subst hs'
    rcases eq_or_ne j i with rfl | hji
    · simp only [Function.update_self]
      rfl
    · simp only [Function.update_of_ne hji]

/-- **A turn is a step of the machine**, and the memory stays what the counters say. -/
theorem turn_step (hcov : b.nprocs ≤ (1 + 1) ^ b.logp) (h : Rep b s)
    (hturn : s.turn b i = some (s', e)) :
    Spread.Step b.nprocs 1 b.logp s.part e s'.part ∧ Rep b s' ∧ e.who = i := by
  unfold Sys.turn at hturn
  split at hturn
  · rename_i hi
    have hdone : (s.part i).done = (s.thread i).done := rfl
    have hmoved : ∀ (pc : Pc) j, ((s.setPc i pc).thread j).done = (s.thread j).done := by
      intro pc j
      rcases eq_or_ne j i with rfl | hj
      · simp only [Sys.setPc, Function.update_self]
      · simp only [Sys.setPc, Function.update_of_ne hj]
    have hok := h.inv.ok i hi
    cases hpc : (s.thread i).pc with
    | idle =>
      simp only [hpc, Option.some.injEq, Prod.mk.injEq] at hturn
      obtain ⟨rfl, rfl⟩ := hturn
      have hp : (s.part i).place = .out := by simp only [Sys.part, hpc, Pc.place]
      have hstep : Spread.Step b.nprocs 1 b.logp s.part (.enter i (s.part i).done)
          (s.setPc i (loopTop b 0)).part := by
        rw [part_setPc, loopTop_place]
        exact .enter hi hp
      exact ⟨hstep, h.move hstep (fun _ => rfl) rfl (hmoved _), rfl⟩
    | store k =>
      have hp : (s.part i).place = .announce k := by simp only [Sys.part, hpc, Pc.place]
      rw [hp] at hok
      have hpar := (h.own i hi).1
      simp only [hpc] at hturn
      rw [hpar, h.partner i hi _ k (Nat.mod_lt _ Nat.two_pos) hok, ← hpar] at hturn
      obtain ⟨rfl, rfl⟩ := Prod.mk.inj (Option.some.inj hturn)
      refine ⟨?_, h.store hi hok hpc, rfl⟩
      rw [part_setPc]
      exact .say hi hp hok
    | spin k =>
      have hp : (s.part i).place = .listen k 1 := by simp only [Sys.part, hpc, Pc.place]
      rw [hp] at hok
      simp only [hpc] at hturn
      split at hturn
      · split at hturn
        · obtain ⟨rfl, rfl⟩ := Prod.mk.inj (Option.some.inj hturn)
          exact ⟨.quiet, h, rfl⟩
        · rename_i heq
          obtain ⟨rfl, rfl⟩ := Prod.mk.inj (Option.some.inj hturn)
          have hsaid := (flag_iff hcov h hi hpc).mp (not_not.mp heq)
          have hstep : Spread.Step b.nprocs 1 b.logp s.part (.hear i (s.part i).done k 1)
              (s.setPc i (loopTop b (k + 1))).part := by
            rw [part_setPc, loopTop_place]
            exact .hear hi hp hok.1 (Nat.le_refl 1) (by rwa [Nat.one_mul])
          exact ⟨hstep, h.move hstep (fun _ => rfl) rfl (hmoved _), rfl⟩
      · cases hturn
    | flip =>
      simp only [hpc] at hturn
      obtain ⟨hs', rfl⟩ := Prod.mk.inj (Option.some.inj hturn)
      obtain ⟨hstep, hrep⟩ := h.flip hi hpc hs'.symm
      exact ⟨hstep, hrep, rfl⟩
  · cases hturn

/-- **One that may go on does.** -/
theorem turn_of_mayGo (hcov : b.nprocs ≤ (1 + 1) ^ b.logp) (hlog : b.logp ≤ log2MaxCores)
    (h : Rep b s) (hi : i < b.nprocs)
    (hgo : MayGo b.nprocs 1 b.logp (fun _ => True) s.part i) :
    ∃ s' e, s.turn b i = some (s', e) ∧ e ≠ .quiet e.who := by
  have hok := h.inv.ok i hi
  have hpar := (h.own i hi).1
  unfold Sys.turn
  rw [if_pos hi]
  cases hpc : (s.thread i).pc with
  | idle => exact ⟨_, _, rfl, fun heq => by cases heq⟩
  | store k =>
    have hp : (s.part i).place = .announce k := by simp only [Sys.part, hpc, Pc.place]
    rw [hp] at hok
    simp only
    rw [hpar, h.partner i hi _ k (Nat.mod_lt _ Nat.two_pos) hok]
    exact ⟨_, _, rfl, fun heq => by cases heq⟩
  | spin k =>
    have hp : (s.part i).place = .listen k 1 := by simp only [Sys.part, hpc, Pc.place]
    rw [hp] at hok
    rw [MayGo, hp] at hgo
    simp only [Nat.one_mul] at hgo
    have heq := (flag_iff hcov h hi hpc).mpr hgo
    have hin : InArray (s.allnodes i).parity k :=
      ⟨by rw [hpar]; omega, Nat.lt_of_lt_of_le hok.1 hlog⟩
    simp only
    rw [if_pos hin, if_neg (not_not.mpr heq)]
    exact ⟨_, _, rfl, fun heq => by cases heq⟩
  | flip => exact ⟨_, _, rfl, fun heq => by cases heq⟩

end Turns

/-! ## 6. The barrier -/

theorem covers {np : ℕ} (hnp : np < 2 ^ 64) {b : Barrier} {allnodes : ℕ → DissemFlags}
    (hinit : mcsBarrierInit np = some (b, allnodes)) : b.nprocs ≤ (1 + 1) ^ b.logp := by
  obtain ⟨rfl, -, -⟩ := init_spec hinit
  exact le_pow_initLogp hnp

theorem drives {b : Barrier} (hcov : b.nprocs ≤ (1 + 1) ^ b.logp) (hlog : b.logp ≤ log2MaxCores) :
    Drives b.nprocs 1 b.logp (fun _ => True) (Sys.turn b) (Rep b) Sys.part where
  inv _ h := h.inv
  step _ _ _ _ h hturn := turn_step hcov h hturn
  move _ _ h hi hgo := turn_of_mayGo hcov hlog h hi hgo

/-- **The MCS barrier is one, and goes on for ever.**  For every number of threads that it can be
set up for, in every interleaving of the accesses to the flags and over any number of waits: nobody
returns from its `k`-th wait before all have entered theirs, nobody is more than one wait ahead, and
under every fair schedule everybody returns from any number of waits. -/
theorem mcs_barrier_serves {np : ℕ} (hnp : np < 2 ^ 64) {b : Barrier} {allnodes : ℕ → DissemFlags}
    (hinit : mcsBarrierInit np = some (b, allnodes)) {tr : List Ev} {s : Sys}
    (hrun : Run (Step b) (Sys.init allnodes) tr s) :
    (∀ i k, Ev.leave i k ∈ tr → ∀ j, j < np → Ev.enter j k ∈ tr) ∧
      (∀ i j, i < np → j < np → (s.thread i).done ≤ (s.thread j).done + 1) ∧
      ∀ sched : ℕ → Fin b.nprocs, Fair sched → ∀ waits, ∃ t, ∀ t', t ≤ t' → ∀ i, i < np →
        waits ≤ ((trail (next (Sys.turn b)) sched s t').thread i).done := by
  have hcov := covers hnp hinit
  have hdrives := drives hcov (init_spec hinit).2.1
  obtain ⟨hruns, hrep⟩ := hdrives.runs (rep_init hinit) rfl hrun
  obtain rfl : b.nprocs = np := by rw [(init_spec hinit).1]
  refine ⟨fun i k hleft j hj => hruns.barrier hcov hleft hj,
    fun i j hi hj => done_le_succ hcov hruns.inv hi hj, fun sched hfair waits => ?_⟩
  obtain ⟨t, ht⟩ := hdrives.finishes hrep hfair fun _ _ => trivial
  exact ⟨t, fun t' htt => (ht t' htt).2⟩

/-- A wait of three threads, in which thread 1 has to spin for thread 0. -/
def trioTurns : List ℕ := [1, 2, 1, 2, 1, 2, 0, 0, 1, 2, 0, 0, 1, 2, 0, 1, 0, 2, 1, 0]

theorem mcs_barrier_serves_trio :
    ∃ (b : Barrier) (allnodes : ℕ → DissemFlags) (tr : List Ev) (s : Sys),
      mcsBarrierInit 3 = some (b, allnodes) ∧
      Run.drive (Sys.turn b) (Sys.init allnodes) trioTurns = some (tr, s) ∧
      (Ev.leave 1 0 ∈ tr ∧ Ev.enter 0 0 ∈ tr) ∧
      ∃ sched : ℕ → Fin b.nprocs, Fair sched ∧ ∃ t, ∀ t', t ≤ t' → ∀ i, i < 3 →
        100 ≤ ((trail (next (Sys.turn b)) sched s t').thread i).done := by
  obtain ⟨b, allnodes, tr, s, hinit, hdrive, hleft, hb⟩ : ∃ (b : Barrier)
      (allnodes : ℕ → DissemFlags) (tr : List Ev) (s : Sys), mcsBarrierInit 3 = some (b, allnodes) ∧
      Run.drive (Sys.turn b) (Sys.init allnodes) trioTurns = some (tr, s) ∧ Ev.leave 1 0 ∈ tr ∧
      b.nprocs = 3 := ⟨_, _, _, _, rfl, rfl, by decide, rfl⟩
  have hserves := mcs_barrier_serves (by decide) hinit
    (Run.of_drive (fun s u s' e h => ⟨u, h⟩) hdrive)
  have hfair : Fair fun n : ℕ => (⟨n % 3, by omega⟩ : Fin b.nprocs) := by
    intro i n
    have hi := i.isLt
    exact ⟨3 * n + i, by omega, Fin.ext (by simp only; omega)⟩
  exact ⟨b, allnodes, tr, s, hinit, hdrive, ⟨hleft, hserves.1 1 0 hleft 0 (by decide)⟩, _, hfair,
    hserves.2.2 _ hfair 100⟩

end Mcs

end Smelt
