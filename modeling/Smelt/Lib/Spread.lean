/-
# Spreading the word in rounds

Participants `0 .. n-1` stand in a circle and go through episodes of `R` rounds each, at their own
speed.  In round `r` of an episode a participant first says that it is there, and then listens to
`m` others: those `1 * (m + 1) ^ r`, …, `m * (m + 1) ^ r` places below it.  It hears one when that
one has spoken in as many rounds.

Whoever has listened in `r` rounds of an episode knows of the `(m + 1) ^ r` participants from itself
downwards that they have entered it (`lt_said`): its own, and those that the ones it listened to
knew of before.  With `n ≤ (m + 1) ^ R` these are all at the end (`entered_of_done`).

`Step` is the machine without any memory.  A program refines it when its turns are steps of it; and
if moreover it moves whenever a participant may, it comes through any number of episodes under every
fair schedule (`Drives.finishes`).  Who has come least far may always move.
-/
import Smelt.Lib.Fair
import Smelt.Lib.Run
import Mathlib.Algebra.BigOperators.Group.Finset.Basic
import Mathlib.Algebra.Order.BigOperators.Group.Finset
import Mathlib.Data.Finset.Max

namespace Spread

/-! ## 1. The circle -/

/-- The participant `d` places below `i`. -/
def below (n i d : ℕ) : ℕ := (((i : ℤ) - d) % n).toNat

section Circle

variable {n i j d d' : ℕ}

theorem below_cast (hn : 0 < n) : (below n i d : ℤ) = ((i : ℤ) - d) % n :=
  Int.toNat_of_nonneg (Int.emod_nonneg _ (by omega))

theorem below_lt (hn : 0 < n) : below n i d < n := by
  have hlt := Int.emod_lt_of_pos ((i : ℤ) - d) (b := n) (by omega)
  have hcast := below_cast (i := i) (d := d) hn
  omega

theorem below_zero (hi : i < n) : below n i 0 = i := by
  rw [below, Int.natCast_zero, Int.sub_zero, Int.emod_eq_of_lt (by omega) (by omega),
    Int.toNat_natCast]

theorem below_below (hn : 0 < n) : below n (below n i d) d' = below n i (d + d') := by
  have hsub : (i : ℤ) - d - d' = i - (d + d' : ℕ) := by omega
  rw [below, below_cast hn, below, Int.sub_emod, Int.emod_emod, ← Int.sub_emod, hsub]

/-- Everybody is somewhere below. -/
theorem exists_below (i : ℕ) (hj : j < n) : ∃ d < n, below n i d = j := by
  have hn : 0 < n := by omega
  refine ⟨below n i j, below_lt hn, ?_⟩
  have hback : (below n i (below n i j) : ℤ) = j := by
    rw [below_cast hn, below_cast hn, Int.sub_emod, Int.emod_emod, ← Int.sub_emod]
    have hsub : (i : ℤ) - (i - j) = j := by omega
    rw [hsub, Int.emod_eq_of_lt (by omega) (by omega)]
  exact_mod_cast hback

/-- `i` is `d` places below the one `d` places above it. -/
theorem below_above (hi : i < n) : below n ((i + d) % n) d = i := by
  have hn : 0 < n := by omega
  have hback : (below n ((i + d) % n) d : ℤ) = i := by
    rw [below_cast hn, Int.natCast_emod, Int.sub_emod, Int.emod_emod, ← Int.sub_emod,
      Int.natCast_add, Int.add_sub_cancel, Int.emod_eq_of_lt (by omega) (by omega)]
  exact_mod_cast hback

theorem above_below (hj : j < n) : (below n j d + d) % n = j := by
  have hn : 0 < n := by omega
  have hback : (((below n j d + d) % n : ℕ) : ℤ) = j := by
    rw [Int.natCast_emod, Int.natCast_add, below_cast hn, Int.emod_add_emod, Int.sub_add_cancel,
      Int.emod_eq_of_lt (by omega) (by omega)]
  exact_mod_cast hback

end Circle

/-! ## 2. The machine -/

/-- Where a participant is: outside, about to say that it is there in round `r`, listening to the
`c`-th one in round `r`, or about to leave. -/
inductive Place
  | out
  | announce (r : ℕ)
  | listen (r c : ℕ)
  | leave
  deriving DecidableEq, Repr

/-- A participant, with the number of episodes that it has left. -/
structure Part where
  done : ℕ
  place : Place
  deriving DecidableEq, Repr

/-- What happens: round `r` of episode `k`. -/
inductive Ev
  | enter (i k : ℕ)
  | say (i k r : ℕ)
  | hear (i k r c : ℕ)
  | leave (i k : ℕ)
  | quiet (i : ℕ)
  deriving DecidableEq, Repr

def Ev.who : Ev → ℕ
  | .enter i _ => i
  | .say i _ _ => i
  | .hear i _ _ _ => i
  | .leave i _ => i
  | .quiet i => i

/-- What an event adds to the rounds in which `j` has spoken. -/
def Ev.adds (j : ℕ) : Ev → ℕ
  | .say i _ _ => if j = i then 1 else 0
  | _ => 0

/-- The rounds of the episode in which one has spoken. -/
def Place.round (R : ℕ) : Place → ℕ
  | .out => 0
  | .announce r => r
  | .listen r _ => r + 1
  | .leave => R

/-- The rounds of the episode in which one has listened. -/
def Place.over (R : ℕ) : Place → ℕ
  | .out => 0
  | .announce r => r
  | .listen r _ => r
  | .leave => R

/-- The one that is listened to. -/
def Place.turn : Place → ℕ
  | .listen _ c => c
  | _ => 0

/-- The rounds of all episodes in which one has spoken. -/
def said (R : ℕ) (p : Part) : ℕ := p.done * R + p.place.round R

/-- The rounds of all episodes in which one has listened. -/
def heard (R : ℕ) (p : Part) : ℕ := p.done * R + p.place.over R

/-- The top of the loop over the rounds. -/
def top (R r : ℕ) : Place := if r < R then .announce r else .leave

/-- The top of the loop over those to listen to. -/
def topIn (m R r c : ℕ) : Place := if c ≤ m then .listen r c else top R (r + 1)

variable {n m R : ℕ}

inductive Step (n m R : ℕ) (f : ℕ → Part) : Ev → (ℕ → Part) → Prop
  | enter {i : ℕ} : i < n → (f i).place = .out →
      Step n m R f (.enter i (f i).done) (Function.update f i ⟨(f i).done, top R 0⟩)
  | say {i r : ℕ} : i < n → (f i).place = .announce r → r < R →
      Step n m R f (.say i (f i).done r) (Function.update f i ⟨(f i).done, topIn m R r 1⟩)
  | hear {i r c : ℕ} : i < n → (f i).place = .listen r c → r < R → c ≤ m →
      (f i).done * R + r < said R (f (below n i (c * (m + 1) ^ r))) →
      Step n m R f (.hear i (f i).done r c) (Function.update f i ⟨(f i).done, topIn m R r (c + 1)⟩)
  | leave {i : ℕ} : i < n → (f i).place = .leave →
      Step n m R f (.leave i (f i).done) (Function.update f i ⟨(f i).done + 1, .out⟩)
  | quiet {i : ℕ} : Step n m R f (.quiet i) f

/-- A place in the loops. -/
def PlaceOk (m R : ℕ) : Place → Prop
  | .announce r => r < R
  | .listen r c => r < R ∧ 1 ≤ c ∧ c ≤ m
  | _ => True

/-- One has listened to the `c`-th in round `g` of all. -/
def Past (R : ℕ) (p : Part) (g c : ℕ) : Prop :=
  g < heard R p ∨ g = heard R p ∧ c < p.place.turn

/-- Places are in order, and nobody has heard what was not said. -/
structure Inv (n m R : ℕ) (f : ℕ → Part) : Prop where
  ok : ∀ i, i < n → PlaceOk m R (f i).place
  past : ∀ i, i < n → ∀ g c, 1 ≤ c → c ≤ m → Past R (f i) g c →
    g < said R (f (below n i (c * (m + 1) ^ (g % R))))

section Machine

variable {i j k r c g : ℕ} {p q : Part} {f f' : ℕ → Part} {e : Ev}

theorem round_mod (hr : r < R) : (k * R + r) % R = r := by
  rw [Nat.mul_comm, Nat.mul_add_mod, Nat.mod_eq_of_lt hr]

@[simp] theorem round_out : Place.out.round R = 0 := rfl

@[simp] theorem round_announce : (Place.announce r).round R = r := rfl

@[simp] theorem round_listen : (Place.listen r c).round R = r + 1 := rfl

@[simp] theorem round_leave : Place.leave.round R = R := rfl

theorem round_top (hr : r ≤ R) : (top R r).round R = r := by
  unfold top
  split
  · rfl
  · exact Nat.le_antisymm (Nat.le_of_not_lt ‹_›) hr

theorem over_top (hr : r ≤ R) : (top R r).over R = r := by
  unfold top
  split
  · rfl
  · exact Nat.le_antisymm (Nat.le_of_not_lt ‹_›) hr

theorem turn_top : (top R r).turn = 0 := by
  unfold top
  split <;> rfl

theorem round_topIn (hr : r < R) : (topIn m R r c).round R = r + 1 := by
  unfold topIn
  split
  · rfl
  · exact round_top hr

theorem placeOk_top : PlaceOk m R (top R r) := by
  unfold top
  split
  · assumption
  · trivial

theorem placeOk_topIn (hr : r < R) (hc : 1 ≤ c) : PlaceOk m R (topIn m R r c) := by
  unfold topIn
  split
  · exact ⟨hr, hc, ‹_›⟩
  · exact placeOk_top

theorem over_le_round (pl : Place) : pl.over R ≤ pl.round R := by
  cases pl with
  | listen r c => exact Nat.le_succ r
  | _ => exact Nat.le_refl _

theorem round_le (hok : PlaceOk m R p.place) : p.place.round R ≤ R := by
  cases hp : p.place with
  | announce r =>
    rw [hp] at hok
    exact Nat.le_of_lt hok
  | listen r c =>
    rw [hp] at hok
    exact hok.1
  | out => exact Nat.zero_le R
  | leave => exact Nat.le_refl R

theorem heard_le_said (p : Part) : heard R p ≤ said R p :=
  Nat.add_le_add_left (over_le_round p.place) _

theorem said_le_heard (p : Part) : said R p ≤ heard R p + 1 := by
  obtain ⟨done, pl⟩ := p
  cases pl with
  | listen r c => exact Nat.le_refl _
  | _ => exact Nat.le_succ _

/-- **What a step does to the counters**: only a `say` adds to what was said, by one. -/
theorem Step.said_eq (h : Step n m R f e f') (j : ℕ) :
    said R (f' j) = said R (f j) + e.adds j := by
  have hset : ∀ (i : ℕ) (p : Part), said R (Function.update f i p j) =
      if j = i then said R p else said R (f j) := by
    intro i p
    by_cases hj : j = i
    · rw [if_pos hj, hj, Function.update_self]
    · rw [if_neg hj, Function.update_of_ne hj]
  cases h with
  | @enter i hi hp =>
    rw [hset]
    split
    · subst j
      simp [said, hp, round_top, Ev.adds]
    · rfl
  | @say i r hi hp hr =>
    rw [hset]
    split
    · subst j
      simp [said, hp, round_topIn hr, Ev.adds]
      omega
    · simp [‹¬j = i›, Ev.adds]
  | @hear i r c hi hp hr hc hlt =>
    rw [hset]
    split
    · subst j
      simp [said, hp, round_topIn hr, Ev.adds]
    · rfl
  | @leave i hi hp =>
    rw [hset]
    split
    · subst j
      simp [said, hp, Nat.succ_mul, Ev.adds]
    · rfl
  | quiet => rfl

theorem Step.said_le (h : Step n m R f e f') (j : ℕ) : said R (f j) ≤ said R (f' j) := by
  rw [h.said_eq j]
  exact Nat.le_add_right _ _

/-- What one has listened to when the loop goes on. -/
theorem past_topIn (hr : r < R) (h : Past R ⟨k, topIn m R r (c + 1)⟩ g j) (hj : j ≤ m) :
    Past R ⟨k, .listen r c⟩ g j ∨ g = k * R + r ∧ j = c := by
  unfold topIn at h
  split at h
  · rcases h with hlt | ⟨hg, hlt⟩
    · exact .inl (.inl hlt)
    · have hlt : j < c + 1 := hlt
      have hg : g = k * R + r := hg
      rcases Nat.lt_or_eq_of_le (Nat.le_of_lt_succ hlt) with hjc | hjc
      · exact .inl (.inr ⟨hg, hjc⟩)
      · exact .inr ⟨hg, hjc⟩
  · rename_i hover
    rcases h with hlt | ⟨-, hlt⟩
    · simp only [heard, over_top hr] at hlt
      rcases Nat.lt_or_eq_of_le (Nat.le_of_lt_succ (show g < k * R + r + 1 by omega)) with hg | hg
      · exact .inl (.inl hg)
      · rcases Nat.lt_or_ge j c with hjc | hjc
        · exact .inl (.inr ⟨hg, hjc⟩)
        · exact .inr ⟨hg, by omega⟩
    · rw [turn_top] at hlt
      omega

theorem inv_init : Inv n m R fun _ => ⟨0, .out⟩ where
  ok _ _ := trivial
  past i hi g c _ _ h := by
    rcases h with h | ⟨-, h⟩
    · simp [heard, Place.over] at h
    · simp [Place.turn] at h

/-- **Every step keeps the listeners behind the speakers.** -/
theorem inv_step (hinv : Inv n m R f) (h : Step n m R f e f') : Inv n m R f' := by
  -- one participant has gone on; what it has heard now had been said
  have hset : ∀ (i : ℕ) (p : Part), PlaceOk m R p.place → f' = Function.update f i p →
      (∀ g c, 1 ≤ c → c ≤ m → Past R p g c →
        g < said R (f (below n i (c * (m + 1) ^ (g % R))))) → Inv n m R f' := by
    rintro i p hok rfl hpast
    refine ⟨fun w hw => ?_, fun w hw g c hc hcm hp => ?_⟩
    · by_cases hwi : w = i
      · rw [hwi, Function.update_self]
        exact hok
      · rw [Function.update_of_ne hwi]
        exact hinv.ok w hw
    · refine Nat.lt_of_lt_of_le ?_ (h.said_le _)
      by_cases hwi : w = i
      · subst hwi
        rw [Function.update_self] at hp
        exact hpast g c hc hcm hp
      · rw [Function.update_of_ne hwi] at hp
        exact hinv.past w hw g c hc hcm hp
  cases h with
  | @enter i hi hp =>
    refine hset i _ placeOk_top rfl fun g c hc hcm hpast => hinv.past i hi g c hc hcm ?_
    rcases hpast with hlt | ⟨-, hlt⟩
    · simp only [heard, over_top (Nat.zero_le R)] at hlt
      simp only [Past, heard, hp, Place.over]
      exact .inl hlt
    · simp [turn_top] at hlt
  | @say i r hi hp hr =>
    refine hset i _ (placeOk_topIn hr (Nat.le_refl 1)) rfl fun g c hc hcm hpast => ?_
    refine hinv.past i hi g c hc hcm ?_
    rcases past_topIn hr hpast hcm with (hlt | ⟨-, hlt⟩) | ⟨-, hzero⟩
    · simp only [Past, heard, hp, Place.over]
      exact .inl hlt
    · simp [Place.turn] at hlt
    · omega
  | @hear i r c hi hp hr hcm hlt =>
    refine hset i _ (placeOk_topIn hr (Nat.succ_pos c)) rfl fun g c' hc' hcm' hpast => ?_
    rcases past_topIn hr hpast hcm' with hold | ⟨rfl, rfl⟩
    · refine hinv.past i hi g c' hc' hcm' ?_
      simpa only [Past, heard, hp] using hold
    · rw [round_mod hr]
      exact hlt
  | @leave i hi hp =>
    refine hset i ⟨_, .out⟩ trivial rfl fun g c hc hcm hpast => hinv.past i hi g c hc hcm ?_
    rcases hpast with hlt | ⟨-, hlt⟩
    · simp only [heard, Place.over, Nat.succ_mul, Nat.add_zero] at hlt
      simp only [Past, heard, hp, Place.over]
      exact .inl hlt
    · simp [Place.turn] at hlt
  | quiet => exact hinv

end Machine

/-! ## 3. Who has entered -/

/-- The participant has entered its `k`-th episode. -/
def Entered (k : ℕ) (p : Part) : Prop := k < p.done ∨ k = p.done ∧ p.place ≠ .out

section Knowledge

variable {i j k r d : ℕ} {p : Part} {f : ℕ → Part}

theorem said_le (hok : PlaceOk m R p.place) : said R p ≤ (p.done + 1) * R := by
  rw [Nat.succ_mul]
  exact Nat.add_le_add_left (round_le hok) _

theorem entered_of_said (hok : PlaceOk m R p.place) (h : k * R < said R p) : Entered k p := by
  have hle := said_le hok
  rcases Nat.lt_trichotomy k p.done with hlt | rfl | hgt
  · exact .inl hlt
  · refine .inr ⟨rfl, fun hp => ?_⟩
    simp [said, hp] at h
  · have hmul := Nat.mul_le_mul_right R (show p.done + 1 ≤ k from hgt)
    omega

/-- **What one knows grows by the factor `m + 1` with every round.** -/
theorem lt_said (hinv : Inv n m R f) (hi : i < n) (hr : r ≤ R) (h : k * R + r ≤ heard R (f i))
    (hd : d < (m + 1) ^ r) (hpos : 0 < r) : k * R < said R (f (below n i d)) := by
  have hn : 0 < n := by omega
  induction r generalizing i d with
  | zero => omega
  | succ r ih =>
    have hself := heard_le_said (R := R) (f i)
    -- `d` leads first to the one that was listened to, and from there to one it knew of
    have hpow : 0 < (m + 1) ^ r := Nat.pow_pos (Nat.succ_pos m)
    have hsplit := Nat.div_add_mod d ((m + 1) ^ r)
    have hrest : d % (m + 1) ^ r < (m + 1) ^ r := Nat.mod_lt d hpow
    have hc : d / (m + 1) ^ r ≤ m :=
      Nat.le_of_lt_succ (Nat.div_lt_of_lt_mul (by rwa [← Nat.pow_succ]))
    generalize d / (m + 1) ^ r = c at hsplit hc
    generalize d % (m + 1) ^ r = d' at hsplit hrest
    have hvia : k * R + r ≤ heard R (f (below n i (c * (m + 1) ^ r))) ∧
        k * R + r < said R (f (below n i (c * (m + 1) ^ r))) := by
      rcases Nat.eq_zero_or_pos c with rfl | hcpos
      · rw [Nat.zero_mul, below_zero hi]
        omega
      · have hsaid := hinv.past i hi (k * R + r) c hcpos hc (.inl (by omega))
        rw [round_mod (by omega)] at hsaid
        have hnear := said_le_heard (R := R) (f (below n i (c * (m + 1) ^ r)))
        omega
    have hfar : below n (below n i (c * (m + 1) ^ r)) d' = below n i d := by
      rw [below_below hn, Nat.mul_comm c, hsplit]
    rw [← hfar]
    rcases Nat.eq_zero_or_pos r with rfl | hrpos
    · obtain rfl : d' = 0 := Nat.lt_one_iff.mp hrest
      rw [below_zero (below_lt hn)]
      exact Nat.lt_of_le_of_lt (Nat.le_add_right _ _) hvia.2
    · exact ih (below_lt hn) (by omega) hvia.1 hrest hrpos

/-- **Whoever has left an episode knows that all have entered it.** -/
theorem entered_of_done (hcov : n ≤ (m + 1) ^ R) (hinv : Inv n m R f) (hi : i < n)
    (hk : k < (f i).done) (hj : j < n) : Entered k (f j) := by
  rcases Nat.eq_zero_or_pos R with rfl | hR
  · rw [Nat.pow_zero] at hcov
    obtain rfl : j = i := by omega
    exact .inl hk
  · obtain ⟨d, hd, rfl⟩ := exists_below i hj
    have hheard : k * R + R ≤ heard R (f i) := by
      rw [← Nat.succ_mul]
      exact Nat.le_trans (Nat.mul_le_mul_right R hk) (Nat.le_add_right _ _)
    exact entered_of_said (hinv.ok _ hj)
      (lt_said hinv hi (Nat.le_refl R) hheard (Nat.lt_of_lt_of_le hd hcov) hR)

/-- Nobody is more than one episode ahead of another. -/
theorem done_le_succ (hcov : n ≤ (m + 1) ^ R) (hinv : Inv n m R f) (hi : i < n) (hj : j < n) :
    (f i).done ≤ (f j).done + 1 := by
  by_contra hgt
  have hlt : (f i).done - 1 < (f i).done := by omega
  rcases entered_of_done hcov hinv hi hlt hj with h | ⟨h, -⟩ <;> omega

end Knowledge

/-! ## 4. What a trace shows -/

section Trace

variable {f f' : ℕ → Part} {tr : List Ev} {e : Ev}

/-- What every run of the machine has done. -/
structure Runs (n m R : ℕ) (tr : List Ev) (f : ℕ → Part) : Prop where
  inv : Inv n m R f
  left : ∀ i k, Ev.leave i k ∈ tr → i < n ∧ k < (f i).done
  entered : ∀ i k, Entered k (f i) → Ev.enter i k ∈ tr

theorem runs_init : Runs n m R [] fun _ => ⟨0, .out⟩ where
  inv := inv_init
  left i k h := by cases h
  entered i k h := by
    rcases h with h | ⟨-, h⟩
    · exact absurd h (Nat.not_lt_zero k)
    · exact absurd rfl h

theorem runs_step (h : Runs n m R tr f) (hstep : Step n m R f e f') :
    Runs n m R (tr ++ [e]) f' := by
  -- who goes on inside an episode has left and entered what it had left and entered
  have hin : ∀ (i : ℕ) (pl : Place), (f i).place ≠ .out →
      f' = Function.update f i ⟨(f i).done, pl⟩ → (∀ w k, e ≠ .leave w k) →
      Runs n m R (tr ++ [e]) f' := by
    rintro i pl hne rfl he
    refine ⟨inv_step h.inv hstep, fun w k hw => ?_, fun w k hw => ?_⟩
    · rcases List.mem_append.mp hw with hw | hw
      · obtain ⟨hlt, hk⟩ := h.left w k hw
        refine ⟨hlt, ?_⟩
        by_cases hwi : w = i
        · subst hwi
          rwa [Function.update_self]
        · rwa [Function.update_of_ne hwi]
      · exact absurd (List.mem_singleton.mp hw).symm (he w k)
    · refine List.mem_append_left _ (h.entered w k ?_)
      by_cases hwi : w = i
      · subst hwi
        rw [Function.update_self] at hw
        rcases hw with hlt | ⟨heq, -⟩
        · exact .inl hlt
        · exact .inr ⟨heq, hne⟩
      · rwa [Function.update_of_ne hwi] at hw
  cases hstep with
  | @enter i hi hp =>
    refine ⟨inv_step h.inv (.enter hi hp), fun w k hw => ?_, fun w k hw => ?_⟩
    · rcases List.mem_append.mp hw with hw | hw
      · obtain ⟨hlt, hk⟩ := h.left w k hw
        refine ⟨hlt, ?_⟩
        by_cases hwi : w = i
        · subst hwi
          rwa [Function.update_self]
        · rwa [Function.update_of_ne hwi]
      · cases List.mem_singleton.mp hw
    · by_cases hwi : w = i
      · subst hwi
        rw [Function.update_self] at hw
        rcases hw with hlt | ⟨rfl, -⟩
        · exact List.mem_append_left _ (h.entered w k (.inl hlt))
        · exact List.mem_append_right _ (List.mem_singleton_self _)
      · rw [Function.update_of_ne hwi] at hw
        exact List.mem_append_left _ (h.entered w k hw)
  | @say i r hi hp hr => exact hin i _ (by simp [hp]) rfl fun w k he => by cases he
  | @hear i r c hi hp hr hc hlt => exact hin i _ (by simp [hp]) rfl fun w k he => by cases he
  | @leave i hi hp =>
    refine ⟨inv_step h.inv (.leave hi hp), fun w k hw => ?_, fun w k hw => ?_⟩
    · rcases List.mem_append.mp hw with hw | hw
      · obtain ⟨hlt, hk⟩ := h.left w k hw
        refine ⟨hlt, ?_⟩
        by_cases hwi : w = i
        · subst hwi
          rw [Function.update_self]
          exact Nat.lt_succ_of_lt hk
        · rwa [Function.update_of_ne hwi]
      · obtain ⟨rfl, rfl⟩ := Ev.leave.inj (List.mem_singleton.mp hw)
        rw [Function.update_self]
        exact ⟨hi, Nat.lt_succ_self _⟩
    · refine List.mem_append_left _ (h.entered w k ?_)
      by_cases hwi : w = i
      · subst hwi
        rw [Function.update_self] at hw
        rcases hw with hlt | ⟨-, hout⟩
        · rcases Nat.lt_or_eq_of_le (Nat.le_of_lt_succ hlt) with hlt | heq
          · exact .inl hlt
          · exact .inr ⟨heq, by simp [hp]⟩
        · exact absurd rfl hout
      · rwa [Function.update_of_ne hwi] at hw
  | @quiet i =>
    refine ⟨h.inv, fun w k hw => ?_, fun w k hw => List.mem_append_left _ (h.entered w k hw)⟩
    rcases List.mem_append.mp hw with hw | hw
    · exact h.left w k hw
    · cases List.mem_singleton.mp hw

/-- **A barrier**: what is left has been entered by all. -/
theorem Runs.barrier (h : Runs n m R tr f) (hcov : n ≤ (m + 1) ^ R) {i k : ℕ}
    (hleft : Ev.leave i k ∈ tr) {j : ℕ} (hj : j < n) : Ev.enter j k ∈ tr := by
  obtain ⟨hi, hk⟩ := h.left i k hleft
  exact h.entered j k (entered_of_done hcov h.inv hi hk hj)

end Trace

/-! ## 5. How far a participant has come -/

/-- The steps of the current episode that have been made. -/
def Place.steps (m R : ℕ) : Place → ℕ
  | .out => 0
  | .announce r => r * (m + 1) + 1
  | .listen r c => r * (m + 1) + 1 + c
  | .leave => R * (m + 1) + 1

/-- All steps that have been made. -/
def pos (m R : ℕ) (p : Part) : ℕ := p.done * (R * (m + 1) + 2) + p.place.steps m R

/-- The participant may go on.  It may make its `k`-th call when `may k`. -/
def MayGo (n m R : ℕ) (may : ℕ → Prop) (f : ℕ → Part) (i : ℕ) : Prop :=
  match (f i).place with
  | .out => may (f i).done
  | .listen r c => (f i).done * R + r < said R (f (below n i (c * (m + 1) ^ r)))
  | _ => True

section Pos

variable {i j k r c : ℕ} {p q : Part} {f f' : ℕ → Part} {e : Ev}

@[simp] theorem steps_out : Place.out.steps m R = 0 := rfl

@[simp] theorem steps_announce : (Place.announce r).steps m R = r * (m + 1) + 1 := rfl

@[simp] theorem steps_listen : (Place.listen r c).steps m R = r * (m + 1) + 1 + c := rfl

@[simp] theorem steps_leave : Place.leave.steps m R = R * (m + 1) + 1 := rfl

theorem steps_top (hr : r ≤ R) : (top R r).steps m R = r * (m + 1) + 1 := by
  unfold top
  split
  · rfl
  · obtain rfl : r = R := Nat.le_antisymm hr (Nat.le_of_not_lt ‹_›)
    rfl

theorem steps_topIn (hr : r < R) (hc : c ≤ m + 1) :
    (topIn m R r c).steps m R = r * (m + 1) + 1 + c := by
  unfold topIn
  split
  · rfl
  · obtain rfl : c = m + 1 := by omega
    rw [steps_top hr, Nat.succ_mul]
    omega

theorem steps_lt (hok : PlaceOk m R p.place) : p.place.steps m R < R * (m + 1) + 2 := by
  cases hp : p.place with
  | announce r =>
    rw [hp] at hok
    have hmul := Nat.mul_le_mul_right (m + 1) (Nat.le_of_lt (show r < R from hok))
    simp only [steps_announce]
    omega
  | listen r c =>
    rw [hp] at hok
    obtain ⟨hr, -, hc⟩ := hok
    have hmul := Nat.mul_le_mul_right (m + 1) (Nat.succ_le_of_lt hr)
    rw [Nat.succ_mul] at hmul
    simp only [steps_listen]
    omega
  | out => simp
  | leave => simp

/-- **Every step is one step further for whoever makes it.** -/
theorem Step.pos (h : Step n m R f e f') : f' = f ∧ e = .quiet e.who ∨
    ∃ p, f' = Function.update f e.who p ∧ pos m R p = pos m R (f e.who) + 1 := by
  cases h with
  | @enter i hi hp =>
    refine .inr ⟨_, rfl, ?_⟩
    simp only [Spread.pos, steps_top (Nat.zero_le R), Ev.who, hp, steps_out, Nat.zero_mul]
  | @say i r hi hp hr =>
    refine .inr ⟨_, rfl, ?_⟩
    simp only [Spread.pos, steps_topIn hr (Nat.succ_le_succ (Nat.zero_le m)), Ev.who, hp,
      steps_announce]
    omega
  | @hear i r c hi hp hr hc hlt =>
    refine .inr ⟨_, rfl, ?_⟩
    simp only [Spread.pos, steps_topIn hr (Nat.succ_le_succ hc), Ev.who, hp, steps_listen]
    omega
  | @leave i hi hp =>
    refine .inr ⟨_, rfl, ?_⟩
    simp only [Spread.pos, Ev.who, hp, steps_leave, steps_out, Nat.succ_mul]
    omega
  | quiet => exact .inl ⟨rfl, rfl⟩

/-- Who has come at least as far has left at least as many episodes. -/
theorem done_le_of_pos (hq : PlaceOk m R q.place) (h : pos m R p ≤ pos m R q) :
    p.done ≤ q.done := by
  have hlt := steps_lt hq
  by_contra hgt
  have hmul := Nat.mul_le_mul_right (R * (m + 1) + 2) (Nat.lt_of_not_le hgt)
  rw [Nat.succ_mul] at hmul
  unfold pos at h
  omega

/-- Who has come further than the beginning of a round has spoken in it. -/
theorem said_of_pos (hr : r < R) (hp : p.place = .listen r c) (hc : 1 ≤ c)
    (hq : PlaceOk m R q.place) (h : pos m R p ≤ pos m R q) : p.done * R + r < said R q := by
  have hdone := done_le_of_pos hq h
  rcases Nat.lt_or_eq_of_le hdone with hlt | heq
  · have hmul := Nat.mul_le_mul_right R (Nat.succ_le_of_lt hlt)
    rw [Nat.succ_mul] at hmul
    unfold said
    omega
  · obtain ⟨done, pl⟩ := q
    subst heq
    simp only [pos, hp, steps_listen] at h
    -- an earlier place has fewer steps
    have hround : r < pl.round R := by
      cases pl with
      | out =>
        simp only [steps_out] at h
        omega
      | announce r' =>
        by_contra hle
        have hmul := Nat.mul_le_mul_right (m + 1) (Nat.le_of_not_lt hle)
        simp only [round_announce, steps_announce] at hmul h
        omega
      | listen r' c' =>
        by_contra hle
        have hmul := Nat.mul_le_mul_right (m + 1) (Nat.le_of_not_lt hle)
        have hc' : c' ≤ m := hq.2.2
        simp only [round_listen, steps_listen, Nat.succ_mul] at hmul h
        omega
      | leave => exact hr
    exact Nat.add_lt_add_left hround _

/-- **Who has come least far may go on.** -/
theorem mayGo_of_least (hinv : Inv n m R f) (hi : i < n) {may : ℕ → Prop} (hmay : may (f i).done)
    (hleast : ∀ j < n, pos m R (f i) ≤ pos m R (f j)) : MayGo n m R may f i := by
  have hok := hinv.ok i hi
  unfold MayGo
  split
  · exact hmay
  · rename_i r c hp
    rw [hp] at hok
    have hlt : below n i (c * (m + 1) ^ r) < n := below_lt (by omega)
    exact said_of_pos hok.1 hp hok.2.1 (hinv.ok _ hlt) (hleast _ hlt)
  · trivial

end Pos

/-! ## 6. Programs -/

/-- The state after a turn of one of the participants; one that has no turn lets it pass. -/
def next {σ : Type*} (turn : σ → ℕ → Option (σ × Ev)) (s : σ) (i : Fin n) : σ :=
  match turn s i with
  | some r => r.1
  | none => s

/-- A program for `n` participants, in states that are `Good`: a turn is a step of the one who takes
it, and one who may go on does. -/
structure Drives {σ : Type*} (n m R : ℕ) (may : ℕ → Prop) (turn : σ → ℕ → Option (σ × Ev))
    (Good : σ → Prop) (part : σ → ℕ → Part) : Prop where
  inv : ∀ s, Good s → Inv n m R (part s)
  step : ∀ s i s' e, Good s → turn s i = some (s', e) →
    Step n m R (part s) e (part s') ∧ Good s' ∧ e.who = i
  move : ∀ s i, Good s → i < n → MayGo n m R may (part s) i →
    ∃ s' e, turn s i = some (s', e) ∧ e ≠ .quiet e.who

/-- What a schedule leads to is reached in a run. -/
theorem run_of_trail {σ : Type*} {turn : σ → ℕ → Option (σ × Ev)}
    {sched : ℕ → Fin n} {s : σ} {t : ℕ} :
    ∃ tr, Run (fun s e s' => ∃ i, turn s i = some (s', e)) s tr (trail (next turn) sched s t) := by
  induction t with
  | zero => exact ⟨[], .nil⟩
  | succ t ih =>
    obtain ⟨tr, hrun⟩ := ih
    simp only [trail, next]
    cases hturn : turn (trail (next turn) sched s t) (sched t) with
    | none => exact ⟨tr, hrun⟩
    | some r => exact ⟨tr ++ [r.2], hrun.snoc ⟨sched t, hturn⟩⟩

namespace Drives

variable {σ : Type*} {may : ℕ → Prop} {turn : σ → ℕ → Option (σ × Ev)} {Good : σ → Prop}
  {part : σ → ℕ → Part} {s s₀ : σ} {calls : ℕ}

/-- **Every run of the program is one of the machine.** -/
theorem runs (h : Drives n m R may turn Good part) (h₀ : Good s₀)
    (hpart : part s₀ = fun _ => ⟨0, .out⟩) {tr : List Ev}
    (hrun : Run (fun s e s' => ∃ i, turn s i = some (s', e)) s₀ tr s) :
    Runs n m R tr (part s) ∧ Good s := by
  refine Run.induct (fun tr s => Runs n m R tr (part s) ∧ Good s)
    ⟨hpart ▸ runs_init, h₀⟩ ?_ hrun
  rintro tr s e s' ⟨hruns, hs⟩ ⟨i, hturn⟩
  obtain ⟨hstep, hs', -⟩ := h.step s i s' e hs hturn
  exact ⟨runs_step hruns hstep, hs'⟩

theorem next_cases (h : Drives n m R may turn Good part) (hs : Good s) (i : Fin n) :
    Good (next turn s i) ∧ (part (next turn s i) = part s ∨
      ∃ p, part (next turn s i) = Function.update (part s) i p ∧
        pos m R p = pos m R (part s i) + 1) := by
  unfold next
  cases hturn : turn s i with
  | none => exact ⟨hs, .inl rfl⟩
  | some r =>
    obtain ⟨hstep, hs', hwho⟩ := h.step s i r.1 r.2 hs hturn
    refine ⟨hs', ?_⟩
    rcases hstep.pos with ⟨hsame, -⟩ | ⟨p, hp, hpos⟩
    · exact .inl hsame
    · rw [hwho] at hp hpos
      exact .inr ⟨p, hp, hpos⟩

/-- Nobody falls back, and a turn concerns the participant that takes it. -/
theorem pos_le (h : Drives n m R may turn Good part) (hs : Good s) (i : Fin n) (j : ℕ) :
    pos m R (part s j) ≤ pos m R (part (next turn s i) j) ∧
      (j ≠ i → part (next turn s i) j = part s j) := by
  rcases (h.next_cases hs i).2 with hsame | ⟨p, hp, hpos⟩
  · rw [hsame]
    exact ⟨Nat.le_refl _, fun _ => rfl⟩
  · rw [hp]
    rcases eq_or_ne j i with rfl | hj
    · rw [Function.update_self, hpos]
      exact ⟨Nat.le_succ _, fun hne => absurd rfl hne⟩
    · rw [Function.update_of_ne hj]
      exact ⟨Nat.le_refl _, fun _ => rfl⟩

/-- The turn of the one who has come least far is not wasted. -/
theorem least_turn (h : Drives n m R may turn Good part) (hs : Good s) {i : Fin n}
    (hmay : may (part s i).done) (hleast : ∀ j < n, pos m R (part s i) ≤ pos m R (part s j)) :
    pos m R (part s i) < pos m R (part (next turn s i) i) := by
  obtain ⟨s', e, hturn, he⟩ :=
    h.move s i hs i.isLt (mayGo_of_least (h.inv s hs) i.isLt hmay hleast)
  have hnext : next turn s i = s' := by simp only [next, hturn]
  obtain ⟨hstep, -, hwho⟩ := h.step s i s' e hs hturn
  rcases hstep.pos with ⟨-, hquiet⟩ | ⟨p, hp, hpos⟩
  · exact absurd hquiet he
  · rw [hwho] at hp hpos
    rw [hnext, hp, Function.update_self, hpos]
    exact Nat.lt_succ_self _

/-- What is left to do until everybody has left `calls` episodes. -/
def work (n m R : ℕ) (part : σ → ℕ → Part) (calls : ℕ) (s : σ) : ℕ :=
  ∑ i : Fin n, (calls * (R * (m + 1) + 2) - pos m R (part s i))

/-- Somebody who has not made all the calls has gone on. -/
theorem work_lt (h : Drives n m R may turn Good part) (hs : Good s) {i : Fin n}
    (hcalls : (part s i).done < calls)
    (hlt : pos m R (part s i) < pos m R (part (next turn s i) i)) :
    work n m R part calls (next turn s i) < work n m R part calls s := by
  have hplace := steps_lt ((h.inv s hs).ok i i.isLt)
  have hmul := Nat.mul_le_mul_right (R * (m + 1) + 2) (Nat.succ_le_of_lt hcalls)
  rw [Nat.succ_mul] at hmul
  have hleft : pos m R (part s i) < calls * (R * (m + 1) + 2) := by
    unfold pos
    omega
  refine Finset.sum_lt_sum (fun j _ => ?_) ⟨i, Finset.mem_univ i, by omega⟩
  have hle := (h.pos_le hs i j).1
  omega

/-- The program follows the rule for fair schedules: who has come least far is ready. -/
theorem rule (h : Drives n m R may turn Good part) (hmay : ∀ k < calls, may k) :
    Fair.Rule (next (n := n) turn) Good (fun s => ∀ i < n, calls ≤ (part s i).done)
      (work n m R part calls) id
      (fun i s => (part s i).done < calls ∧ ∀ j < n, pos m R (part s i) ≤ pos m R (part s j))
      (fun _ _ => 0) where
  inv s i hs := (h.next_cases hs i).1
  le s i hs := Finset.sum_le_sum fun j _ => by
    have hle := (h.pos_le hs i j).1
    omega
  ready s hs hnot := by
    push Not at hnot
    obtain ⟨i₀, hi₀, hlt⟩ := hnot
    obtain ⟨i, -, hi⟩ := Finset.exists_min_image Finset.univ
      (fun i : Fin n => pos m R (part s i)) ⟨⟨i₀, hi₀⟩, Finset.mem_univ _⟩
    have hleast : ∀ j < n, pos m R (part s i) ≤ pos m R (part s j) :=
      fun j hj => hi ⟨j, hj⟩ (Finset.mem_univ _)
    have hdone := done_le_of_pos ((h.inv s hs).ok i₀ hi₀) (hleast i₀ hi₀)
    exact ⟨i, by omega, hleast⟩
  keep s i g hs hg hsame := by
    obtain ⟨hcalls, hleast⟩ := hg
    refine ⟨?_, Nat.le_refl 0⟩
    rcases eq_or_ne g i with rfl | hgi
    · -- its own turn would have been work
      exact absurd hsame
        (Nat.ne_of_lt (h.work_lt hs hcalls (h.least_turn hs (hmay _ hcalls) hleast)))
    · have hne : (g : ℕ) ≠ i := fun heq => hgi (Fin.ext heq)
      rw [(h.pos_le hs i g).2 hne]
      exact ⟨hcalls, fun j hj => Nat.le_trans (hleast j hj) (h.pos_le hs i j).1⟩
  move s g hs hg := .inl (h.work_lt hs hg.1 (h.least_turn hs (hmay _ hg.1) hg.2))

/-- **Under a fair schedule everybody comes through any number of episodes.** -/
theorem finishes (h : Drives n m R may turn Good part) (hs : Good s) {sched : ℕ → Fin n}
    (hfair : Fair sched) (hmay : ∀ k < calls, may k) :
    ∃ t, ∀ t', t ≤ t' → Good (trail (next turn) sched s t') ∧
      ∀ i < n, calls ≤ (part (trail (next turn) sched s t') i).done := by
  obtain ⟨t, ht⟩ := (h.rule hmay).ends hfair hs
  refine ⟨t, fun t' htt => ?_⟩
  have hstep : ∀ s (i : Fin n), (Good s ∧ ∀ j < n, calls ≤ (part s j).done) →
      Good (next turn s i) ∧ ∀ j < n, calls ≤ (part (next turn s i) j).done := by
    rintro s i ⟨hs, hdone⟩
    have hs' := (h.next_cases hs i).1
    refine ⟨hs', fun j hj => Nat.le_trans (hdone j hj) ?_⟩
    exact done_le_of_pos ((h.inv _ hs').ok j hj) (h.pos_le hs i j).1
  exact trail_keeps hstep htt ⟨trail_keeps (h.rule hmay).inv (Nat.zero_le t) hs, ht⟩

end Drives

end Spread
