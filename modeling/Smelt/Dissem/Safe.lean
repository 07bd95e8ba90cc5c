/-
# The dissemination barrier is safe

Count the rounds of all waits through: round `r` of the `k`-th wait is round `k * rounds + r`.  A
participant that has received in round `g` has heard from the one `2 ^ r` places below it, who had
then sent in round `g` and so received in all rounds before.  Inside one wait this doubles with
every round: after round `r` the `2 ^ (r + 1)` participants from `i` downwards have entered
(`entered_of_rcvd`), and after the last round these are all of them.

Two steps of the powers of two below the number of participants never lead to the same place, so a
directed channel is used in one round of each wait only (`uses_unique`); what is in flight on it is
read off the round counters (`Rounds.flight`), and `Rep` says that the queue pairs hold just that.

`PStep` is the abstract machine: participants with their places, who may receive when the sender's
counter is ahead.  `turn_pstep` connects it to the turns of `Barrier.lean`, for up to 46340
participants: then every turn has a value (`not_undefined`).  With more of them nothing is promised
(`unsafe_run`).
-/
import Smelt.Dissem.Overflow
import Smelt.Lib.Rounds
import Smelt.Ump.Backend

namespace Smelt.Dissem

/-! ## 1. Rounds and places -/

/-- The rounds in which a participant has notified. -/
def sent (R : ℕ) (p : Part) : ℕ :=
  p.done * R + match p.pc with
    | .notify _ r _ => r
    | .recv _ r _ => r + 1
    | .ret => R
    | _ => 0

/-- The rounds in which a participant has heard. -/
def rcvd (R : ℕ) (p : Part) : ℕ :=
  p.done * R + match p.pc with
    | .notify _ r _ => r
    | .recv _ r _ => r
    | .ret => R
    | _ => 0

/-- In round `g` of all, `i` notifies `j`. -/
def uses (n R i j g : ℕ) : Bool := decide (i < n ∧ (i + 2 ^ (g % R)) % n = j)

/-- A place in the loop: `r` and `step` go together. -/
def PcOk (R i : ℕ) : Pc → Prop
  | .idle => True
  | .notify id r step => id = i ∧ r < R ∧ step = 2 ^ r
  | .recv id r step => id = i ∧ r < R ∧ step = 2 ^ r
  | .ret => True
  | .failed => False

/-- The top of the loop. -/
def topOf (R i r : ℕ) : Pc := if r < R then .notify i r (2 ^ r) else .ret

section Places

variable {n R i j g k r : ℕ} {p : Part}

theorem rcvd_le_sent (R : ℕ) (p : Part) : rcvd R p ≤ sent R p := by
  unfold rcvd sent
  split <;> omega

theorem sent_le_rcvd (R : ℕ) (p : Part) : sent R p ≤ rcvd R p + 1 := by
  unfold rcvd sent
  split <;> omega

theorem sent_topOf (hr : r ≤ R) : sent R ⟨k, topOf R i r⟩ = k * R + r := by
  unfold topOf
  split
  · rfl
  · obtain rfl : r = R := by omega
    rfl

theorem rcvd_topOf (hr : r ≤ R) : rcvd R ⟨k, topOf R i r⟩ = k * R + r := by
  unfold topOf
  split
  · rfl
  · obtain rfl : r = R := by omega
    rfl

theorem pcOk_topOf : PcOk R i (topOf R i r) := by
  unfold topOf
  split
  · exact ⟨rfl, ‹_›, rfl⟩
  · trivial

theorem round_mod (hr : r < R) : (k * R + r) % R = r := by
  rw [Nat.mul_comm, Nat.mul_add_mod, Nat.mod_eq_of_lt hr]

theorem round_div (hr : r < R) : (k * R + r) / R = k := by
  rw [Nat.mul_comm, Nat.mul_add_div (by omega), Nat.div_eq_of_lt hr, Nat.add_zero]

/-- Up by less than `n`, without the division. -/
theorem up_eq {s : ℕ} (hi : i < n) (hs : s < n) :
    (i + s) % n = if i + s < n then i + s else i + s - n := by
  split
  · exact Nat.mod_eq_of_lt ‹_›
  · rw [Nat.mod_eq_sub_mod (by omega), Nat.mod_eq_of_lt (by omega)]

/-- `j` is `s` places above `i` just when `i` is `s` places below `j`. -/
theorem up_eq_iff {s : ℕ} (hi : i < n) (hj : j < n) (hs : s < n) :
    (i + s) % n = j ↔ i = if s ≤ j then j - s else j + n - s := by
  rw [up_eq hi hs]
  split <;> split <;> omega

theorem up_cancel {s s' : ℕ} (hi : i < n) (hs : s < n) (hs' : s' < n)
    (h : (i + s) % n = (i + s') % n) : s = s' := by
  rw [up_eq hi hs, up_eq hi hs'] at h
  split at h <;> split at h <;> omega

theorem uses_fun {j' : ℕ} (h : uses n R i j g = true) (h' : j' ≠ j) : uses n R i j' g = false := by
  simp only [uses, decide_eq_true_eq, decide_eq_false_iff_not] at h ⊢
  omega

variable (hR : ∀ r < R, 2 ^ r < n)

include hR

theorem uses_inj {i' : ℕ} (hpos : 0 < R) (h : uses n R i j g = true) (h' : i' ≠ i) :
    uses n R i' j g = false := by
  simp only [uses, decide_eq_true_eq, decide_eq_false_iff_not] at h ⊢
  rintro ⟨hi', heq⟩
  have hs := hR (g % R) (Nat.mod_lt _ hpos)
  have hj : j < n := by rw [← h.2]; exact Nat.mod_lt _ (by omega)
  rw [up_eq_iff h.1 hj hs] at h
  rw [up_eq_iff hi' hj hs] at heq
  omega

/-- **A directed channel is used in one round of each wait.** -/
theorem uses_unique {g' : ℕ} (hpos : 0 < R) (h : uses n R i j g = true)
    (h' : uses n R i j g' = true) : g % R = g' % R := by
  simp only [uses, decide_eq_true_eq] at h h'
  have hs := hR (g % R) (Nat.mod_lt _ hpos)
  have hs' := hR (g' % R) (Nat.mod_lt _ hpos)
  have hpow := up_cancel h.1 hs hs' (h.2.trans h'.2.symm)
  exact Nat.pow_right_injective (Nat.le_refl 2) hpow

end Places

/-! ## 2. The abstract machine -/

/-- Participants and nothing else.  One may hear from `j` when `j` has notified in more rounds than
it has heard in itself. -/
inductive PStep (n R : ℕ) (f : ℕ → Part) : Ev → (ℕ → Part) → Prop
  | enter {i : ℕ} : i < n → (f i).pc = .idle →
      PStep n R f (.enter i (f i).done) (Function.update f i ⟨(f i).done, topOf R i 0⟩)
  | put {i j r : ℕ} : i < n → (f i).pc = .notify i r (2 ^ r) → r < R → (i + 2 ^ r) % n = j →
      PStep n R f (.put i j (f i).done r) (Function.update f i ⟨(f i).done, .recv i r (2 ^ r)⟩)
  | got {i j r : ℕ} : i < n → j < n → (f j).pc = .recv j r (2 ^ r) → r < R →
      (i + 2 ^ r) % n = j → rcvd R (f j) < sent R (f i) →
      PStep n R f (.got j i (f j).done r) (Function.update f j ⟨(f j).done, topOf R j (r + 1)⟩)
  | ret {i : ℕ} : i < n → (f i).pc = .ret →
      PStep n R f (.ret i (f i).done) (Function.update f i ⟨(f i).done + 1, .idle⟩)
  | quiet {i : ℕ} : PStep n R f (.quiet i) f

/-- Places are in order, and nobody has heard what was not sent. -/
structure PInv (n R : ℕ) (f : ℕ → Part) : Prop where
  ok : ∀ i, i < n → PcOk R i (f i).pc
  behind : ∀ i j g, uses n R i j g = true → g < rcvd R (f j) → g < sent R (f i)

/-- What a step does to the counters: at most one send or one receive. -/
theorem PStep.counters {n R : ℕ} {f f' : ℕ → Part} {e : Ev} (h : PStep n R f e f') :
    match e with
    | .put i j k r => sent R (f i) = k * R + r ∧ r < R ∧ uses n R i j (sent R (f i)) = true ∧
        sent R ∘ f' = Function.update (sent R ∘ f) i (sent R (f i) + 1) ∧ rcvd R ∘ f' = rcvd R ∘ f
    | .got j i k r => rcvd R (f j) = k * R + r ∧ r < R ∧ uses n R i j (rcvd R (f j)) = true ∧
        rcvd R (f j) < sent R (f i) ∧ sent R ∘ f' = sent R ∘ f ∧
        rcvd R ∘ f' = Function.update (rcvd R ∘ f) j (rcvd R (f j) + 1)
    | _ => sent R ∘ f' = sent R ∘ f ∧ rcvd R ∘ f' = rcvd R ∘ f := by
  cases h with
  | @enter i hi hpc =>
    have h1 : sent R (f i) = (f i).done * R := by simp [sent, hpc]
    have h2 : rcvd R (f i) = (f i).done * R := by simp [rcvd, hpc]
    constructor
    · rw [Function.comp_update, sent_topOf (Nat.zero_le R), Nat.add_zero, ← h1]
      exact Function.update_eq_self i (sent R ∘ f)
    · rw [Function.comp_update, rcvd_topOf (Nat.zero_le R), Nat.add_zero, ← h2]
      exact Function.update_eq_self i (rcvd R ∘ f)
  | @put i j r hi hpc hr hj =>
    have h1 : sent R (f i) = (f i).done * R + r := by simp [sent, hpc]
    have h2 : rcvd R (f i) = (f i).done * R + r := by simp [rcvd, hpc]
    have h3 : sent R ⟨(f i).done, .recv i r (2 ^ r)⟩ = sent R (f i) + 1 := by rw [h1]; rfl
    have h4 : rcvd R ⟨(f i).done, .recv i r (2 ^ r)⟩ = rcvd R (f i) := by rw [h2]; rfl
    refine ⟨h1, hr, ?_, ?_, ?_⟩
    · simp [uses, h1, round_mod hr, hi, hj]
    · rw [Function.comp_update, h3]
    · rw [Function.comp_update, h4]
      exact Function.update_eq_self i (rcvd R ∘ f)
  | @got i j r hi hj hpc hr hij hlt =>
    have h1 : sent R (f j) = (f j).done * R + (r + 1) := by simp [sent, hpc]
    have h2 : rcvd R (f j) = (f j).done * R + r := by simp [rcvd, hpc]
    refine ⟨h2, hr, ?_, hlt, ?_, ?_⟩
    · simp [uses, h2, round_mod hr, hi, hij]
    · rw [Function.comp_update, sent_topOf hr, ← h1]
      exact Function.update_eq_self j (sent R ∘ f)
    · rw [Function.comp_update, rcvd_topOf hr, h2]
      rfl
  | @ret i hi hpc =>
    have h1 : sent R ⟨(f i).done + 1, .idle⟩ = sent R (f i) := by simp [sent, hpc, Nat.succ_mul]
    have h2 : rcvd R ⟨(f i).done + 1, .idle⟩ = rcvd R (f i) := by simp [rcvd, hpc, Nat.succ_mul]
    rw [Function.comp_update, Function.comp_update, h1, h2]
    exact ⟨Function.update_eq_self i (sent R ∘ f), Function.update_eq_self i (rcvd R ∘ f)⟩
  | quiet => exact ⟨rfl, rfl⟩

theorem pinv_init (n R : ℕ) : PInv n R fun _ => ⟨0, .idle⟩ :=
  ⟨fun _ _ => trivial, fun _ _ _ _ h => by simp [rcvd] at h⟩

/-- The places after a step. -/
theorem PStep.ok {n R : ℕ} {f f' : ℕ → Part} {e : Ev} (h : PStep n R f e f')
    (hok : ∀ i, i < n → PcOk R i (f i).pc) : ∀ i, i < n → PcOk R i (f' i).pc := by
  have hset : ∀ (w : ℕ) (p : Part), PcOk R w p.pc →
      ∀ i, i < n → PcOk R i (Function.update f w p i).pc := by
    intro w p hp i hi
    by_cases hw : i = w
    · subst hw
      rwa [Function.update_self]
    · rw [Function.update_of_ne hw]
      exact hok i hi
  cases h with
  | enter => exact hset _ _ pcOk_topOf
  | put _ _ hr => exact hset _ _ ⟨rfl, hr, rfl⟩
  | got => exact hset _ _ pcOk_topOf
  | ret => exact hset _ _ trivial
  | quiet => exact hok

/-- **Every step keeps the receivers behind the senders.** -/
theorem pinv_step {n R : ℕ} (hR : ∀ r < R, 2 ^ r < n) {f f' : ℕ → Part} {e : Ev}
    (hinv : PInv n R f) (h : PStep n R f e f') : PInv n R f' := by
  refine ⟨h.ok hinv.ok, ?_⟩
  have hc := h.counters
  intro i j g huse hg
  have hb := hinv.behind i j g huse
  change g < (rcvd R ∘ f') j at hg
  change g < (sent R ∘ f') i
  cases e with
  | put i₀ j₀ k r =>
    obtain ⟨-, -, -, hS, hG⟩ := hc
    rw [hG] at hg
    rw [hS, Function.update_apply]
    have := hb hg
    split
    · subst i₀
      omega
    · exact this
  | got j₀ i₀ k r =>
    obtain ⟨-, hr, huse₀, hlt, hS, hG⟩ := hc
    rw [hS]
    rw [hG, Function.update_apply] at hg
    split at hg
    · subst j₀
      rcases Nat.lt_or_ge g (rcvd R (f j)) with hlt' | hge
      · exact hb hlt'
      · obtain rfl : g = rcvd R (f j) := by omega
        by_cases hi : i = i₀
        · rw [hi]
          exact hlt
        · rw [uses_inj hR (by omega) huse₀ hi] at huse
          cases huse
    · exact hb hg
  | _ =>
    rw [hc.1]
    rw [hc.2] at hg
    exact hb hg

/-! ## 3. Who has entered -/

/-- The participant has entered its `k`-th wait. -/
def Entered (k : ℕ) (p : Part) : Prop := k < p.done ∨ k = p.done ∧ p.pc ≠ .idle

/-- The participant `d` places below `i`. -/
def down (n i d : ℕ) : ℕ := if d ≤ i then i - d else i + n - d

section Knowledge

variable {n R k r i : ℕ} {f : ℕ → Part}

theorem down_lt {d : ℕ} (hi : i < n) : down n i d < n := by
  unfold down
  split <;> omega

theorem down_down {s d : ℕ} (hs : s ≤ d) (hd : d < n) :
    down n (down n i s) (d - s) = down n i d := by
  unfold down
  split <;> split <;> split <;> omega

theorem sent_le {p : Part} (hok : PcOk R i p.pc) : sent R p ≤ (p.done + 1) * R := by
  rw [Nat.succ_mul]
  obtain ⟨done, pc⟩ := p
  cases pc with
  | notify id r step => exact Nat.add_le_add_left (Nat.le_of_lt hok.2.1) _
  | recv id r step => exact Nat.add_le_add_left hok.2.1 _
  | _ => simp [sent]

theorem entered_of_sent {p : Part} (hok : PcOk R i p.pc) (h : k * R < sent R p) : Entered k p := by
  have hle := sent_le hok
  rcases Nat.lt_trichotomy k p.done with hlt | rfl | hgt
  · exact .inl hlt
  · refine .inr ⟨rfl, fun hpc => ?_⟩
    simp [sent, hpc] at h
  · have := Nat.mul_le_mul_right R (show p.done + 1 ≤ k from hgt)
    omega

/-- Whoever has received in a round has heard from a participant that had sent in it. -/
theorem sent_below (hR : ∀ r < R, 2 ^ r < n) (hinv : PInv n R f) (hr : r < R) (hi : i < n)
    (h : k * R + r < rcvd R (f i)) : k * R + r < sent R (f (down n i (2 ^ r))) := by
  have hs := hR r hr
  have hlt : down n i (2 ^ r) < n := down_lt hi
  refine hinv.behind _ i _ ?_ h
  simp only [uses, round_mod hr, decide_eq_true_eq]
  exact ⟨hlt, (up_eq_iff hlt hi hs).mpr rfl⟩

/-- **What a participant knows doubles with every round.** -/
theorem entered_of_rcvd (hR : ∀ r < R, 2 ^ r < n) (hinv : PInv n R f) (hr : r < R) (hi : i < n)
    (h : k * R + r < rcvd R (f i)) {d : ℕ} (hd : d < 2 ^ (r + 1)) (hdn : d < n) :
    Entered k (f (down n i d)) := by
  induction r generalizing i d with
  | zero =>
    have hself := rcvd_le_sent R (f i)
    have hbelow := sent_below hR hinv hr hi h
    rcases d with _ | d
    · exact entered_of_sent (hinv.ok i hi) (by omega : k * R < sent R (f i))
    · obtain rfl : d = 0 := by omega
      exact entered_of_sent (hinv.ok _ (down_lt hi)) hbelow
  | succ r ih =>
    have hs := hR (r + 1) hr
    rcases Nat.lt_or_ge d (2 ^ (r + 1)) with hlt | hge
    · exact ih (by omega) hi (by omega) hlt hdn
    · -- the rest is what the sender of this round knew before it
      have hbelow := sent_below hR hinv hr hi h
      have hprev := sent_le_rcvd R (f (down n i (2 ^ (r + 1))))
      rw [← down_down hge hdn]
      rw [Nat.pow_succ] at hd
      exact ih (by omega) (down_lt hi) (by omega) (by omega) (by omega)

/-- A participant that has returned knows that all have entered. -/
theorem entered_of_done (hR : ∀ r < R, 2 ^ r < n) (hcov : n ≤ 2 ^ R) (hinv : PInv n R f)
    (hi : i < n) (h : k < (f i).done) {j : ℕ} (hj : j < n) : Entered k (f j) := by
  rcases R with _ | R
  · obtain rfl : j = i := by omega
    exact .inl h
  · have hrcvd : k * (R + 1) + R < rcvd (R + 1) (f i) := by
      have := Nat.mul_le_mul_right (R + 1) (Nat.succ_le_of_lt h)
      rw [Nat.succ_mul] at this
      unfold rcvd
      omega
    have hdown : j = down n i (if j ≤ i then i - j else i + n - j) := by
      unfold down
      split <;> split <;> omega
    rw [hdown]
    refine entered_of_rcvd hR hinv (Nat.lt_succ_self R) hi hrcvd ?_ ?_ <;> split <;> omega

end Knowledge

/-! ## 4. What a trace shows -/

/-- The directed channel from `i` to `j`: the waits and rounds of the notifications on it. -/
def Ev.see (i j : ℕ) : Ev → Option (Fifo.Ev (ℕ × ℕ) (ℕ × ℕ))
  | .put i' j' k r => if i' = i ∧ j' = j then some (.send (k, r)) else none
  | .got j' i' k r => if i' = i ∧ j' = j then some (.recv (k, r)) else none
  | _ => none

/-- The rounds from `i` to `j` among the first `m`, as waits and rounds. -/
def episodes (n R i j m : ℕ) : List (ℕ × ℕ) :=
  ((List.range m).filter (uses n R i j)).map fun g => (g / R, g % R)

section Trace

variable {n R : ℕ} {f f' : ℕ → Part} {tr : List Ev}

theorem episodes_succ (n R i j m : ℕ) : episodes n R i j (m + 1) =
    episodes n R i j m ++ if uses n R i j m then [(m / R, m % R)] else [] := by
  unfold episodes
  rw [List.range_succ, List.filter_append, List.map_append]
  cases h : uses n R i j m <;> simp [h]

/-- The round a participant is in, seen from the channel it uses. -/
theorem episodes_round {i j k r : ℕ} (hr : r < R) (huse : uses n R i j (k * R + r) = true) :
    episodes n R i j (k * R + r + 1) = episodes n R i j (k * R + r) ++ [(k, r)] := by
  rw [episodes_succ, huse, round_div hr, round_mod hr]
  rfl

/-- **The trace of a directed channel is in the counters.** -/
theorem see_step {e : Ev} (hR : ∀ r < R, 2 ^ r < n) (h : PStep n R f e f') (i j : ℕ)
    (hsends : Fifo.sends (tr.filterMap (Ev.see i j)) = episodes n R i j (sent R (f i)))
    (hrecvs : Fifo.recvs (tr.filterMap (Ev.see i j)) = episodes n R i j (rcvd R (f j))) :
    Fifo.sends ((tr ++ [e]).filterMap (Ev.see i j)) = episodes n R i j (sent R (f' i)) ∧
      Fifo.recvs ((tr ++ [e]).filterMap (Ev.see i j)) = episodes n R i j (rcvd R (f' j)) := by
  have hc := h.counters
  change _ = episodes n R i j ((sent R ∘ f') i) ∧ _ = episodes n R i j ((rcvd R ∘ f') j)
  rw [List.filterMap_append]
  cases e with
  | put i₀ j₀ k r =>
    obtain ⟨hk, hr, huse, hS, hG⟩ := hc
    rw [hS, hG]
    by_cases hi : i = i₀
    · subst hi
      rw [Function.update_self]
      by_cases hj : j = j₀
      · subst hj
        have hsee : [Ev.put i j k r].filterMap (Ev.see i j) = [.send (k, r)] := by simp [Ev.see]
        rw [hsee, Fifo.sends_snoc, Fifo.recvs_snoc, hsends, hrecvs, hk]
        rw [hk] at huse
        exact ⟨(episodes_round hr huse).symm, List.append_nil _⟩
      · have hsee : [Ev.put i j₀ k r].filterMap (Ev.see i j) = [] := by
          simp [Ev.see, Ne.symm hj]
        rw [hsee, List.append_nil, hsends, hrecvs, episodes_succ, uses_fun huse hj]
        exact ⟨(List.append_nil _).symm, rfl⟩
    · have hsee : [Ev.put i₀ j₀ k r].filterMap (Ev.see i j) = [] := by simp [Ev.see, Ne.symm hi]
      rw [hsee, List.append_nil, hsends, hrecvs, Function.update_of_ne hi]
      exact ⟨rfl, rfl⟩
  | got j₀ i₀ k r =>
    obtain ⟨hk, hr, huse, -, hS, hG⟩ := hc
    rw [hS, hG]
    by_cases hj : j = j₀
    · subst hj
      rw [Function.update_self]
      by_cases hi : i = i₀
      · subst hi
        have hsee : [Ev.got j i k r].filterMap (Ev.see i j) = [.recv (k, r)] := by simp [Ev.see]
        rw [hsee, Fifo.sends_snoc, Fifo.recvs_snoc, hsends, hrecvs, hk]
        rw [hk] at huse
        exact ⟨List.append_nil _, (episodes_round hr huse).symm⟩
      · have hsee : [Ev.got j i₀ k r].filterMap (Ev.see i j) = [] := by
          simp [Ev.see, Ne.symm hi]
        rw [hsee, List.append_nil, hsends, hrecvs, episodes_succ,
          uses_inj hR (by omega) huse hi]
        exact ⟨rfl, (List.append_nil _).symm⟩
    · have hsee : [Ev.got j₀ i₀ k r].filterMap (Ev.see i j) = [] := by simp [Ev.see, Ne.symm hj]
      rw [hsee, List.append_nil, hsends, hrecvs, Function.update_of_ne hj]
      exact ⟨rfl, rfl⟩
  | _ =>
    rw [hc.1, hc.2]
    exact ⟨(congrArg _ (List.append_nil _)).trans hsends,
      (congrArg _ (List.append_nil _)).trans hrecvs⟩

/-- Entries and returns, as the trace shows them. -/
theorem calls_step {e : Ev} (h : PStep n R f e f')
    (hret : ∀ i k, Ev.ret i k ∈ tr → i < n ∧ k < (f i).done)
    (henter : ∀ i k, Entered k (f i) → Ev.enter i k ∈ tr) :
    (∀ i k, Ev.ret i k ∈ tr ++ [e] → i < n ∧ k < (f' i).done) ∧
      ∀ i k, Entered k (f' i) → Ev.enter i k ∈ tr ++ [e] := by
  -- the step of `w`: what its place says about the calls it has made
  have hset : ∀ (w : ℕ) (p : Part), (f w).done ≤ p.done →
      (∀ k, Ev.ret w k = e → w < n ∧ k < p.done) → (∀ i k, Ev.ret i k = e → i = w) →
      (∀ k, Entered k p → Entered k (f w) ∨ Ev.enter w k = e) → f' = Function.update f w p →
      (∀ i k, Ev.ret i k ∈ tr ++ [e] → i < n ∧ k < (f' i).done) ∧
        ∀ i k, Entered k (f' i) → Ev.enter i k ∈ tr ++ [e] := by
    rintro w p hle hlast honly hent rfl
    constructor
    · intro i k hmem
      rcases List.mem_append.mp hmem with hmem | hmem
      · obtain ⟨hi, hk⟩ := hret i k hmem
        refine ⟨hi, ?_⟩
        by_cases hw : i = w
        · subst hw
          rw [Function.update_self]
          omega
        · rwa [Function.update_of_ne hw]
      · have heq := List.mem_singleton.mp hmem
        obtain rfl := honly i k heq
        rw [Function.update_self]
        exact hlast k heq
    · intro i k hk
      by_cases hw : i = w
      · subst hw
        rw [Function.update_self] at hk
        rcases hent k hk with hk | heq
        · exact List.mem_append_left _ (henter i k hk)
        · exact List.mem_append_right _ (List.mem_singleton.mpr heq)
      · rw [Function.update_of_ne hw] at hk
        exact List.mem_append_left _ (henter i k hk)
  cases h with
  | @enter i hi hpc =>
    refine hset i ⟨(f i).done, topOf R i 0⟩ (Nat.le_refl _) nofun nofun ?_ rfl
    rintro k (hk | ⟨rfl, -⟩)
    · exact .inl (.inl hk)
    · exact .inr rfl
  | @put i j r hi hpc =>
    refine hset i ⟨(f i).done, .recv i r (2 ^ r)⟩ (Nat.le_refl _) nofun nofun ?_ rfl
    rintro k (hk | ⟨rfl, -⟩)
    · exact .inl (.inl hk)
    · exact .inl (.inr ⟨rfl, by simp [hpc]⟩)
  | @got i j r hi hj hpc =>
    refine hset j ⟨(f j).done, topOf R j (r + 1)⟩ (Nat.le_refl _) nofun nofun ?_ rfl
    rintro k (hk | ⟨rfl, -⟩)
    · exact .inl (.inl hk)
    · exact .inl (.inr ⟨rfl, by simp [hpc]⟩)
  | @ret i hi hpc =>
    refine hset i _ (Nat.le_succ _) ?_ ?_ ?_ rfl
    · rintro k ⟨⟩
      exact ⟨hi, Nat.lt_succ_self _⟩
    · rintro i' k ⟨⟩
      rfl
    · rintro k (hk | ⟨-, hne⟩)
      · rcases Nat.lt_succ_iff_lt_or_eq.mp hk with hk | rfl
        · exact .inl (.inl hk)
        · exact .inl (.inr ⟨rfl, by simp [hpc]⟩)
      · exact absurd rfl hne
  | @quiet i =>
    exact hset i (f i) (Nat.le_refl _) nofun nofun (fun k hk => .inl hk)
      (Function.update_eq_self i f).symm

/-- A wait uses a directed channel once. -/
theorem episodes_once (hR : ∀ r < R, 2 ^ r < n) (hpos : 0 < R) (i j k m : ℕ) :
    ((episodes n R i j m).filter fun x => x.1 = k).length ≤ 1 := by
  unfold episodes
  rw [List.filter_map, List.length_map]
  generalize hL : List.filter _ (List.filter _ (List.range m)) = L
  have hnodup : L.Nodup := hL ▸ (List.nodup_range.filter _).filter _
  have hmem : ∀ g ∈ L, uses n R i j g = true ∧ g / R = k := by
    intro g hg
    rw [← hL] at hg
    simp only [List.mem_filter, Function.comp_apply, decide_eq_true_eq] at hg
    exact ⟨hg.1.2, hg.2⟩
  by_contra hlen
  have h0 := hmem _ (List.getElem_mem (by omega : 0 < L.length))
  have h1 := hmem _ (List.getElem_mem (by omega : 1 < L.length))
  have hmod := uses_unique hR hpos h0.1 h1.1
  have heq : L[0] = L[1] := by
    rw [← Nat.div_add_mod L[0] R, ← Nat.div_add_mod L[1] R, hmod, h0.2, h1.2]
  exact absurd (hnodup.getElem_inj_iff.mp heq) (by omega)

end Trace

/-! ## 5. The queue pairs -/

/-- What the loops of `smlt_dissem_barrier_init` leave, for distinct ids and indices that fit. -/
structure Wired (bar : Barrier) : Prop where
  few : bar.cores.length ≤ 46340
  num : bar.numThreads = bar.cores.length
  rounds : bar.rounds = Nat.clog 2 bar.cores.length
  nodup : bar.cores.Nodup
  place : ∀ i j, i ≤ j → j < bar.cores.length →
    bar.channels (i * bar.cores.length + j) = some (i, j) ∧
      bar.channels (j * bar.cores.length + i) = some (i, j)

/-- What a channel of two participants holds, when `F i j` is in flight from `i` to `j`. -/
def contents (F : ℕ → ℕ → List ℕ) (i j : ℕ) : Side → List (List Word)
  | .src => (F i j).map fun _ => []
  | .dst => (F j i).map fun _ => []

/-- What is in flight, by the places of the participants. -/
def inFlight (n R : ℕ) (f : ℕ → Part) : ℕ → ℕ → List ℕ :=
  Rounds.flight (uses n R) (sent R ∘ f) (rcvd R ∘ f)

/-- The end of their channel that `i` has against `j`. -/
def endOf (i j : ℕ) : Side := if i < j then .src else .dst

variable {B : Backend} {holds : B.State → (Side → List (List Word)) → Prop}

/-- Every channel is where `init` put it, and its queue pair holds what is in flight. -/
def Rep (holds : B.State → (Side → List (List Word)) → Prop) (bar : Barrier) (s : Sys B)
    (F : ℕ → ℕ → List ℕ) : Prop :=
  ∀ i j, i < j → j < bar.cores.length → ∃ chan, s.chan (i, j) = some chan ∧
    chan.owner = bar.cores.getD i 0 ∧ holds chan.qp (contents F i j)

section Queues

variable {bar : Barrier} {s s' : Sys B} {F : ℕ → ℕ → List ℕ} {i j : ℕ}

theorem endOf_other (h : i ≠ j) : (endOf i j).other = endOf j i := by
  unfold endOf
  split <;> split <;> first | rfl | omega

theorem contents_endOf (h : i ≠ j) :
    contents F (min i j) (max i j) (endOf i j) = (F i j).map fun _ => [] := by
  rcases Nat.lt_or_gt_of_ne h with hlt | hgt
  · rw [Nat.min_eq_left (Nat.le_of_lt hlt), Nat.max_eq_right (Nat.le_of_lt hlt), endOf, if_pos hlt]
    rfl
  · rw [Nat.min_eq_right (Nat.le_of_lt hgt), Nat.max_eq_left (Nat.le_of_lt hgt), endOf,
      if_neg (by omega)]
    rfl

/-- The channel of `i` and `j`, from the side of `i`. -/
theorem Rep.chan (hw : Wired bar) (h : Rep holds bar s F) {self : UInt32}
    (hself : bar.cores[i]? = some self) (hj : j < bar.cores.length) (hij : i ≠ j) :
    bar.entry i (j : ℕ) = some (min i j, max i j) ∧
      ∃ chan, s.chan (min i j, max i j) = some chan ∧
        chan.owner = bar.cores.getD (min i j) 0 ∧ chan.side self = endOf i j ∧
        holds chan.qp (contents F (min i j) (max i j)) := by
  obtain ⟨hi, rfl⟩ := List.getElem?_eq_some_iff.mp hself
  obtain ⟨chan, hchan, howner, hholds⟩ := h (min i j) (max i j) (by omega) (by omega)
  have hplace := hw.place (min i j) (max i j) (by omega) (by omega)
  refine ⟨?_, chan, hchan, howner, ?_, hholds⟩
  · rw [Barrier.entry_eq hw.num hw.few hi hj]
    rcases Nat.lt_or_gt_of_ne hij with hlt | hgt
    · rw [Nat.min_eq_left (Nat.le_of_lt hlt), Nat.max_eq_right (Nat.le_of_lt hlt)] at hplace ⊢
      exact hplace.1
    · rw [Nat.min_eq_right (Nat.le_of_lt hgt), Nat.max_eq_left (Nat.le_of_lt hgt)] at hplace ⊢
      exact hplace.2
  · -- ids are distinct, so the test for the owner finds the lower of the two
    have hmin : min i j < bar.cores.length := by omega
    have howner' : chan.owner = bar.cores[i] ↔ i < j := by
      rw [howner, List.getD_eq_getElem?_getD, List.getElem?_eq_getElem hmin, Option.getD_some,
        hw.nodup.getElem_inj_iff]
      omega
    simp only [Channel.side, endOf, howner']

/-- The channel of `i` and `j` changes, on the side of `d`. -/
theorem Rep.set (h : Rep holds bar s F) {F' : ℕ → ℕ → List ℕ} (hij : i ≠ j) {chan : Channel B}
    {f : ℕ → Part} (howner : chan.owner = bar.cores.getD (min i j) 0)
    (hholds : holds chan.qp (Function.update (contents F (min i j) (max i j)) (endOf i j)
      ((F' i j).map fun _ => [])))
    (hother : ∀ a b, (a, b) ≠ (i, j) → F' a b = F a b) :
    Rep holds bar { s.setChan (min i j, max i j) chan with part := f } F' := by
  have hswap : ∀ a b, a ≠ b → (a, b) ≠ (i, j) → (b, a) ≠ (i, j) →
      contents F' a b = contents F a b := by
    intro a b _ h1 h2
    funext d
    cases d with
    | src => exact congrArg _ (hother a b h1)
    | dst => exact congrArg _ (hother b a h2)
  intro a b hab hb
  by_cases heq : (a, b) = (min i j, max i j)
  · obtain ⟨rfl, rfl⟩ := Prod.mk.inj heq
    refine ⟨chan, Function.update_self .., howner, ?_⟩
    have hcon : contents F' (min i j) (max i j) =
        Function.update (contents F (min i j) (max i j)) (endOf i j)
          ((F' i j).map fun _ => []) := by
      funext d
      by_cases hd : d = endOf i j
      · subst hd
        rw [Function.update_self, contents_endOf hij]
      · rw [Function.update_of_ne hd]
        have hd' : d = endOf j i := by rw [← endOf_other hij, Side.eq_other hd]
        rw [hd', Nat.min_comm, Nat.max_comm, contents_endOf (Ne.symm hij),
          contents_endOf (Ne.symm hij), hother j i (by simp; omega)]
    rwa [hcon]
  · obtain ⟨chan', h1, h2, h3⟩ := h a b hab hb
    refine ⟨chan', ?_, h2, ?_⟩
    · simp only [Sys.setChan, Function.update_of_ne heq, h1]
    · rwa [hswap a b (by omega) (fun he => heq ?_) (fun he => heq ?_)]
      · obtain ⟨rfl, rfl⟩ := Prod.mk.inj he
        rw [Prod.mk.injEq]
        omega
      · obtain ⟨rfl, rfl⟩ := Prod.mk.inj he
        rw [Prod.mk.injEq]
        omega

/-- One attempt on a channel that is there. -/
theorem chanTurn_cases {entry : Option ChanRef} {ref : ChanRef} {chan : Channel B}
    {self : UInt32} {c : Call} {next : Pc} {e e' : Ev} (hentry : entry = some ref)
    (hchan : s.chan ref = some chan)
    (h : s.chanTurn i entry self c (some next) e = some (s', e')) :
    ((B.call chan.qp (chan.side self) c).2 = .err [] ∧ e' = e ∧
      s' = { s.setChan ref { chan with qp := (B.call chan.qp (chan.side self) c).1 } with
        part := Function.update s.part i ⟨(s.part i).done, next⟩ }) ∨
    ((B.call chan.qp (chan.side self) c).2 = .spin ∧ e' = .quiet i ∧
      s' = { s.setChan ref { chan with qp := (B.call chan.qp (chan.side self) c).1 } with
        part := s.part }) ∨
    (B.call chan.qp (chan.side self) c).2 ≠ .err [] ∧
      (B.call chan.qp (chan.side self) c).2 ≠ .spin := by
  simp only [Sys.chanTurn, hentry, hchan, Option.bind_eq_bind, Option.bind_some] at h
  split at h
  · obtain ⟨rfl, rfl⟩ := Prod.mk.inj (Option.some.inj h)
    exact .inl ⟨‹_›, rfl, rfl⟩
  · obtain ⟨rfl, rfl⟩ := Prod.mk.inj (Option.some.inj h)
    exact .inr (.inl ⟨‹_›, rfl, rfl⟩)
  · exact .inr (.inr ⟨‹_›, ‹_›⟩)

/-- It has a value. -/
theorem chanTurn_ne_none {entry : Option ChanRef} {ref : ChanRef} {chan : Channel B}
    {self : UInt32} {c : Call} {next : Pc} {e : Ev} (hentry : entry = some ref)
    (hchan : s.chan ref = some chan) : s.chanTurn i entry self c (some next) e ≠ none := by
  simp only [Sys.chanTurn, hentry, hchan, Option.bind_eq_bind, Option.bind_some]
  split <;> exact Option.some_ne_none _

/-- **A notification by `i` to `j`.** -/
theorem notify_spec (hB : B.IsFifo holds) (hw : Wired bar) (h : Rep holds bar s F)
    {self : UInt32} {next : Pc} {e e' : Ev} (hself : bar.cores[i]? = some self)
    (hj : j < bar.cores.length) (hij : i ≠ j)
    (hturn : s.chanTurn i (bar.entry i (j : ℕ)) self .notify (some next) e = some (s', e')) :
    (e' = e ∧ s'.part = Function.update s.part i ⟨(s.part i).done, next⟩ ∧
      ∀ F' : ℕ → ℕ → List ℕ, (∃ g, F' i j = F i j ++ [g]) →
        (∀ a b, (a, b) ≠ (i, j) → F' a b = F a b) → Rep holds bar s' F') ∨
    e' = .quiet i ∧ s'.part = s.part ∧ Rep holds bar s' F := by
  obtain ⟨hidx, chan, hchan, howner, hside, hholds⟩ := h.chan hw hself hj hij
  rcases chanTurn_cases hidx hchan hturn with ⟨hr, rfl, rfl⟩ | ⟨hr, rfl, rfl⟩ | ⟨hr, hr'⟩
  · refine .inl ⟨rfl, rfl, ?_⟩
    rintro F' ⟨g, hg⟩ hother
    have hput := hB.put (c := .notify) (d := chan.side self) hholds (by decide)
      (show Call.put? .notify _ = some [] by rw [hr]; rfl)
    refine h.set hij howner ?_ hother
    rw [hside, contents_endOf hij] at hput
    rw [hg, List.map_append, hside]
    exact hput
  · refine .inr ⟨rfl, rfl, ?_⟩
    obtain ⟨-, -, hkeep⟩ := hB.refuse (c := .notify) (d := chan.side self) hholds (by decide) rfl
      (by rw [hr]; rfl)
    refine h.set hij howner ?_ (fun _ _ _ => rfl)
    rw [← contents_endOf hij, Function.update_eq_self]
    exact hkeep
  · -- an empty channel refuses nothing, a full one turns
    cases hput : Call.put? .notify (B.call chan.qp (chan.side self) .notify).2 with
    | none =>
      obtain ⟨hb, -⟩ := hB.refuse (c := .notify) (d := chan.side self) hholds (by decide) rfl hput
      generalize (B.call chan.qp (chan.side self) .notify).2 = r at *
      cases r <;> simp_all [Call.blocks]
    | some xs =>
      generalize (B.call chan.qp (chan.side self) .notify).2 = r at *
      rcases r with (_ | _) | _ | _ <;> simp_all [Call.put?]

/-- **The wait of `j` for `i`.** -/
theorem recv_spec (hB : B.IsFifo holds) (hw : Wired bar) (h : Rep holds bar s F)
    {self : UInt32} {next : Pc} {e e' : Ev} (hself : bar.cores[j]? = some self)
    (hi : i < bar.cores.length) (hij : i ≠ j)
    (hturn : s.chanTurn j (bar.entry j (i : ℕ)) self .recvNotify (some next) e = some (s', e')) :
    (e' = e ∧ s'.part = Function.update s.part j ⟨(s.part j).done, next⟩ ∧
      F i j ≠ [] ∧ ∀ F' : ℕ → ℕ → List ℕ, F' i j = (F i j).tail →
        (∀ a b, (a, b) ≠ (i, j) → F' a b = F a b) → Rep holds bar s' F') ∨
    e' = .quiet j ∧ s'.part = s.part ∧ Rep holds bar s' F := by
  obtain ⟨hidx, chan, hchan, howner, hside, hholds⟩ := h.chan hw hself hi (Ne.symm hij)
  rw [Nat.min_comm, Nat.max_comm] at hidx hchan hholds
  rw [Nat.min_comm] at howner
  have hother' : (chan.side self).other = endOf i j := by rw [hside, endOf_other (Ne.symm hij)]
  rcases chanTurn_cases hidx hchan hturn with ⟨hr, rfl, rfl⟩ | ⟨hr, rfl, rfl⟩ | ⟨hr, hr'⟩
  · obtain ⟨-, xs, rest, hq, -, hgot⟩ := hB.got (c := .recvNotify) (d := chan.side self) hholds
      (by decide) (show Call.got? .recvNotify _ = some [] by rw [hr]; rfl)
    rw [hother', contents_endOf hij] at hq
    rw [hother'] at hgot
    refine .inl ⟨rfl, rfl, fun hnil => by simp [hnil] at hq, ?_⟩
    intro F' htail hother
    refine h.set hij howner ?_ hother
    rw [htail, List.map_tail, hq]
    exact hgot
  · refine .inr ⟨rfl, rfl, ?_⟩
    obtain ⟨-, -, hkeep⟩ := hB.empty (c := .recvNotify) (d := chan.side self) hholds (by decide)
      rfl (by rw [hr]; rfl)
    refine h.set hij howner ?_ (fun _ _ _ => rfl)
    rw [← contents_endOf hij, Function.update_eq_self]
    exact hkeep
  · cases hgot : Call.got? .recvNotify (B.call chan.qp (chan.side self) .recvNotify).2 with
    | none =>
      obtain ⟨hb, -⟩ :=
        hB.empty (c := .recvNotify) (d := chan.side self) hholds (by decide) rfl hgot
      generalize (B.call chan.qp (chan.side self) .recvNotify).2 = r at *
      cases r <;> simp_all [Call.blocks]
    | some xs =>
      generalize (B.call chan.qp (chan.side self) .recvNotify).2 = r at *
      rcases r with (_ | _) | _ | _ <;> simp_all [Call.got?]

end Queues

/-! ## 6. The turns -/

section Turns

variable {bar : Barrier} {s s' : Sys B} {e : Ev}

/-- What is in flight after a notification. -/
theorem inFlight_put {n R i j k r : ℕ} {f f' : ℕ → Part} (hinv : PInv n R f)
    (h : PStep n R f (.put i j k r) f') :
    inFlight n R f' i j = inFlight n R f i j ++ [sent R (f i)] ∧
      ∀ a b, (a, b) ≠ (i, j) → inFlight n R f' a b = inFlight n R f a b := by
  obtain ⟨-, -, huse, hS, hG⟩ := h.counters
  unfold inFlight
  rw [hS, hG]
  constructor
  · refine Rounds.flight_send huse ?_
    by_contra hlt
    have := hinv.behind i j (sent R (f i)) huse (Nat.lt_of_not_le hlt)
    omega
  · intro a b hab
    refine Rounds.flight_send_of_ne fun ha => uses_fun huse fun hb => hab ?_
    rw [ha, hb]

/-- What is in flight after a wait that has been answered. -/
theorem inFlight_got {n R i j k r : ℕ} (hR : ∀ r < R, 2 ^ r < n) {f f' : ℕ → Part}
    (h : PStep n R f (.got j i k r) f') :
    inFlight n R f' i j = (inFlight n R f i j).tail ∧
      ∀ a b, (a, b) ≠ (i, j) → inFlight n R f' a b = inFlight n R f a b := by
  obtain ⟨-, hr, huse, hlt, hS, hG⟩ := h.counters
  unfold inFlight
  rw [hS, hG]
  constructor
  · have hrecv := Rounds.flight_recv (S := sent R ∘ f) (G := rcvd R ∘ f) huse hlt
    rw [hrecv]
    rfl
  · intro a b hab
    refine Rounds.flight_recv_of_ne fun hb => uses_inj hR (by omega) huse fun ha => hab ?_
    rw [ha, hb]

/-- A step that neither sends nor receives leaves what is in flight. -/
theorem inFlight_of_counters {n R : ℕ} {f f' : ℕ → Part} (hS : sent R ∘ f' = sent R ∘ f)
    (hG : rcvd R ∘ f' = rcvd R ∘ f) : inFlight n R f' = inFlight n R f := by
  unfold inFlight
  rw [hS, hG]

/-- So the queue pairs go on to hold it. -/
theorem Rep.stay {n R : ℕ} (h : Rep holds bar s (inFlight n R s.part)) (hchan : s'.chan = s.chan)
    (hS : sent R ∘ s'.part = sent R ∘ s.part) (hG : rcvd R ∘ s'.part = rcvd R ∘ s.part) :
    Rep holds bar s' (inFlight n R s'.part) := by
  rw [inFlight_of_counters hS hG]
  intro a b hab hb
  rw [hchan]
  exact h a b hab hb

theorem Wired.pow_lt (hw : Wired bar) : ∀ r < bar.rounds, 2 ^ r < bar.cores.length := by
  intro r hr
  rw [hw.rounds] at hr
  exact Nat.pow_lt_of_lt_clog hr

/-- The rounds are enough to reach all places. -/
theorem Wired.le_pow (hw : Wired bar) : bar.cores.length ≤ 2 ^ bar.rounds := by
  rw [hw.rounds]
  exact Nat.le_pow_clog (Nat.lt_succ_self 1) _

/-- A turn before a notification. -/
theorem turn_notify (hw : Wired bar) {i r : ℕ} {self : UInt32} (hself : bar.cores[i]? = some self)
    (hr : r < bar.rounds) (hpc : (s.part i).pc = .notify i r (2 ^ r)) :
    (i + 2 ^ r) % bar.cores.length < bar.cores.length ∧ i ≠ (i + 2 ^ r) % bar.cores.length ∧
      s.turn bar i = s.chanTurn i (bar.entry i ((i + 2 ^ r) % bar.cores.length : ℕ)) self .notify
        (some (.recv i r (2 ^ r))) (.put i ((i + 2 ^ r) % bar.cores.length) (s.part i).done r) := by
  have hi : i < bar.cores.length := (List.getElem?_eq_some_iff.mp hself).1
  have hs := hw.pow_lt r hr
  have hpos : 0 < 2 ^ r := Nat.two_pow_pos r
  refine ⟨Nat.mod_lt _ (by omega), fun heq => ?_, ?_⟩
  · have := up_cancel hi hs (by omega : 0 < bar.cores.length)
      (by rw [← heq, Nat.add_zero, Nat.mod_eq_of_lt hi])
    omega
  · have hfew := hw.few
    have hpeer : Int.tmod (i + (2 ^ r : ℕ)) bar.numThreads =
        ((i + 2 ^ r) % bar.cores.length : ℕ) := by
      rw [hw.num, ← Int.natCast_add, ← Int.ofNat_tmod]
    rw [turn_notify_eq hself hpc, int_eq (by omega) (by omega), Option.bind_some, hpeer,
      Int.toNat_natCast]

/-- A turn before a wait. -/
theorem turn_recv (hw : Wired bar) {i r : ℕ} {self : UInt32} (hself : bar.cores[i]? = some self)
    (hr : r < bar.rounds) (hpc : (s.part i).pc = .recv i r (2 ^ r)) :
    down bar.cores.length i (2 ^ r) < bar.cores.length ∧
      (down bar.cores.length i (2 ^ r) + 2 ^ r) % bar.cores.length = i ∧
      down bar.cores.length i (2 ^ r) ≠ i ∧
      s.turn bar i = s.chanTurn i (bar.entry i (down bar.cores.length i (2 ^ r) : ℕ)) self
        .recvNotify (some (topOf bar.rounds i (r + 1)))
        (.got i (down bar.cores.length i (2 ^ r)) (s.part i).done r) := by
  have hi : i < bar.cores.length := (List.getElem?_eq_some_iff.mp hself).1
  have hs := hw.pow_lt r hr
  have hpos : 0 < 2 ^ r := Nat.two_pow_pos r
  have hj : down bar.cores.length i (2 ^ r) < bar.cores.length := down_lt hi
  have hup : (down bar.cores.length i (2 ^ r) + 2 ^ r) % bar.cores.length = i :=
    (up_eq_iff hj hi hs).mpr rfl
  refine ⟨hj, hup, fun heq => ?_, ?_⟩
  · rw [heq] at hup
    have := up_cancel hi hs (by omega : 0 < bar.cores.length)
      (by rw [hup, Nat.add_zero, Nat.mod_eq_of_lt hi])
    omega
  · have hfew := hw.few
    have htwice : int ((2 ^ r : ℕ) * 2) = some ((2 ^ (r + 1) : ℕ) : ℤ) := by
      rw [Nat.pow_succ, Int.natCast_mul]
      exact int_eq (by omega) (by omega)
    rw [turn_recv_eq hself hpc, int_eq (by omega) (by omega), Option.bind_some,
      Barrier.wrap_eq hw.num hs, Option.bind_some, htwice, Option.map_some, Int.toNat_natCast,
      Int.toNat_natCast]
    rfl

/-- **A turn of a participant is a step of the abstract machine.** -/
theorem turn_pstep (hB : B.IsFifo holds) (hw : Wired bar)
    (hinv : PInv bar.cores.length bar.rounds s.part)
    (h : Rep holds bar s (inFlight bar.cores.length bar.rounds s.part)) {i : ℕ}
    (hturn : s.turn bar i = some (s', e)) :
    PStep bar.cores.length bar.rounds s.part e s'.part ∧
      Rep holds bar s' (inFlight bar.cores.length bar.rounds s'.part) := by
  obtain ⟨self, hself, -⟩ := Option.bind_eq_some_iff.mp (show bar.cores[i]?.bind _ = _ from hturn)
  have hi : i < bar.cores.length := (List.getElem?_eq_some_iff.mp hself).1
  have hok := hinv.ok i hi
  have hR := hw.pow_lt
  cases hpc : (s.part i).pc with
  | idle =>
    simp only [Sys.turn, hself, Option.bind_eq_bind, Option.bind_some, hpc, pure,
      Option.some.injEq, Prod.mk.injEq, myId_eq hw.num hw.nodup hself] at hturn
    obtain ⟨rfl, rfl⟩ := hturn
    have hstep := PStep.enter (R := bar.rounds) hi hpc
    exact ⟨hstep, h.stay rfl hstep.counters.1 hstep.counters.2⟩
  | notify id r step =>
    rw [hpc] at hok
    obtain ⟨rfl, hr, rfl⟩ := hok
    obtain ⟨hj, hij, heq⟩ := turn_notify hw hself hr hpc
    rw [heq] at hturn
    rcases notify_spec hB hw h hself hj hij hturn with ⟨rfl, hpart, hrep⟩ | ⟨rfl, hpart, hrep⟩
    · have hstep : PStep bar.cores.length bar.rounds s.part _ s'.part :=
        hpart ▸ PStep.put hi hpc hr rfl
      obtain ⟨h1, h2⟩ := inFlight_put hinv hstep
      exact ⟨hstep, hrep _ ⟨_, h1⟩ h2⟩
    · rw [hpart]
      exact ⟨.quiet, hrep⟩
  | recv id r step =>
    rw [hpc] at hok
    obtain ⟨rfl, hr, rfl⟩ := hok
    obtain ⟨hj, hup, hij, heq⟩ := turn_recv hw hself hr hpc
    rw [heq] at hturn
    rcases recv_spec hB hw h hself hj hij hturn with ⟨rfl, hpart, hne, hrep⟩ | ⟨rfl, hpart, hrep⟩
    · obtain ⟨g, hg⟩ := List.exists_mem_of_ne_nil _ hne
      have hlt := Rounds.lt_of_flight hg
      have hstep : PStep bar.cores.length bar.rounds s.part _ s'.part :=
        hpart ▸ PStep.got hj hi hpc hr hup (Nat.lt_of_le_of_lt hlt.1 hlt.2)
      obtain ⟨h1, h2⟩ := inFlight_got hR hstep
      exact ⟨hstep, hrep _ h1 h2⟩
    · rw [hpart]
      exact ⟨.quiet, hrep⟩
  | ret =>
    simp only [Sys.turn, hself, Option.bind_eq_bind, Option.bind_some, hpc, pure,
      Option.some.injEq, Prod.mk.injEq] at hturn
    obtain ⟨rfl, rfl⟩ := hturn
    have hstep := PStep.ret (R := bar.rounds) hi hpc
    exact ⟨hstep, h.stay rfl hstep.counters.1 hstep.counters.2⟩
  | failed => simp [Sys.turn, hself, hpc] at hturn

/-- **Every turn has a value.** -/
theorem not_undefined (hw : Wired bar) (hinv : PInv bar.cores.length bar.rounds s.part)
    {F : ℕ → ℕ → List ℕ} (h : Rep holds bar s F) (i : ℕ) : ¬ s.Undefined bar i := by
  rintro ⟨hi, hgoes, hnone⟩
  have hok := hinv.ok i hi
  have hself : bar.cores[i]? = some bar.cores[i] := List.getElem?_eq_getElem hi
  cases hpc : (s.part i).pc with
  | idle => simp [Sys.turn, hself, hpc] at hnone
  | notify id r step =>
    rw [hpc] at hok
    obtain ⟨rfl, hr, rfl⟩ := hok
    obtain ⟨hj, hij, heq⟩ := turn_notify hw hself hr hpc
    obtain ⟨hentry, chan, hchan, -⟩ := h.chan hw hself hj hij
    exact chanTurn_ne_none hentry hchan (heq.symm.trans hnone)
  | recv id r step =>
    rw [hpc] at hok
    obtain ⟨rfl, hr, rfl⟩ := hok
    obtain ⟨hj, -, hij, heq⟩ := turn_recv hw hself hr hpc
    obtain ⟨hentry, chan, hchan, -⟩ := h.chan hw hself hj (Ne.symm hij)
    exact chanTurn_ne_none hentry hchan (heq.symm.trans hnone)
  | ret => simp [Sys.turn, hself, hpc] at hnone
  | failed => exact hgoes hpc

end Turns

/-! ## 7. The barrier -/

/-- What every run of the abstract machine has done. -/
structure Runs (n R : ℕ) (tr : List Ev) (f : ℕ → Part) : Prop where
  inv : PInv n R f
  sends : ∀ i j, Fifo.sends (tr.filterMap (Ev.see i j)) = episodes n R i j (sent R (f i))
  recvs : ∀ i j, Fifo.recvs (tr.filterMap (Ev.see i j)) = episodes n R i j (rcvd R (f j))
  ret : ∀ i k, Ev.ret i k ∈ tr → i < n ∧ k < (f i).done
  enter : ∀ i k, Entered k (f i) → Ev.enter i k ∈ tr

theorem runs_init (n R : ℕ) : Runs n R [] fun _ => ⟨0, .idle⟩ where
  inv := pinv_init n R
  sends i j := by simp [sent, episodes, Fifo.sends]
  recvs i j := by simp [rcvd, episodes, Fifo.recvs]
  ret i k h := by cases h
  enter i k h := by simp [Entered] at h

theorem runs_step {n R : ℕ} (hR : ∀ r < R, 2 ^ r < n) {tr : List Ev} {f f' : ℕ → Part} {e : Ev}
    (h : Runs n R tr f) (hstep : PStep n R f e f') : Runs n R (tr ++ [e]) f' where
  inv := pinv_step hR h.inv hstep
  sends i j := (see_step hR hstep i j (h.sends i j) (h.recvs i j)).1
  recvs i j := (see_step hR hstep i j (h.sends i j) (h.recvs i j)).2
  ret := (calls_step hstep h.ret h.enter).1
  enter := (calls_step hstep h.ret h.enter).2

/-- **Every reachable state**, as long as the indices fit, is one of the abstract machine, and its
queue pairs hold what that has in flight. -/
theorem reached (hB : B.IsFifo holds)
    {create : UInt32 → UInt32 → Except Errval B.State}
    (hcreate : ∀ src dst w, create src dst = .ok w → holds w fun _ => []) {cores : List UInt32}
    (hdistinct : cores.Nodup) (hfew : cores.length ≤ 46340) {bar : Barrier} {chan : Heap B}
    (hinit : dissemBarrierInit create cores = .ok (bar, chan)) {tr : List Ev} {s : Sys B}
    (hrun : Run (Step bar) (Sys.init chan) tr s) :
    cores = bar.cores ∧ Wired bar ∧ Runs bar.cores.length bar.rounds tr s.part ∧
      Rep holds bar s (inFlight bar.cores.length bar.rounds s.part) := by
  obtain ⟨hnum, hrounds, rfl, hchan⟩ := dissemBarrierInit_spec hinit
  rw [bmod_count (by omega)] at hnum
  replace hchan := hchan (by omega)
  have hw : Wired bar := ⟨hfew, hnum, hrounds, hdistinct,
    fun i j hij hj => ⟨(hchan i j hij hj).1, (hchan i j hij hj).2.1⟩⟩
  have hrep : Rep holds bar (Sys.init chan)
      (inFlight bar.cores.length bar.rounds (Sys.init chan).part) := by
    intro i j hij hj
    obtain ⟨qp, hqp, hc⟩ := (hchan i j (Nat.le_of_lt hij) hj).2.2
    refine ⟨_, hc, rfl, ?_⟩
    have hempty : contents (inFlight bar.cores.length bar.rounds (Sys.init chan).part) i j =
        fun _ => [] := by
      funext d
      cases d <;> simp [contents, inFlight, Rounds.flight, sent, Sys.init]
    rw [hempty]
    exact hcreate _ _ _ hqp
  refine ⟨rfl, hw, Run.induct (fun tr s => Runs bar.cores.length bar.rounds tr s.part ∧
    Rep holds bar s (inFlight bar.cores.length bar.rounds s.part)) ⟨runs_init _ _, hrep⟩ ?_ hrun⟩
  rintro tr s e s' ⟨hruns, hrep⟩ ⟨i, hturn | hundef⟩
  case inr => exact absurd hundef (not_undefined hw hruns.inv hrep i)
  obtain ⟨hstep, hrep'⟩ := turn_pstep hB hw hruns.inv hrep hturn
  exact ⟨runs_step hw.pow_lt hruns hstep, hrep'⟩

/-- What the barrier promises of a run of `n` participants: when one has returned from its `k`-th
wait, all have entered their `k`-th; a wait puts at most one notification on each directed channel;
and the `m`-th notification taken from a directed channel is taken in the wait and the round in
which the `m`-th was put there. -/
structure Safe (n : ℕ) (tr : List Ev) : Prop where
  entered : ∀ i k, Ev.ret i k ∈ tr → ∀ j, j < n → Ev.enter j k ∈ tr
  once : ∀ i j, i < n → j < n → ∀ k,
    ((Fifo.sends (tr.filterMap (Ev.see i j))).filter fun x => x.1 = k).length ≤ 1
  matched : ∀ i j, i < n → j < n → ∀ (m : ℕ) (x : ℕ × ℕ),
    (Fifo.recvs (tr.filterMap (Ev.see i j)))[m]? = some x →
      (Fifo.sends (tr.filterMap (Ev.see i j)))[m]? = some x

/-- **The abstract machine is safe.** -/
theorem Runs.safe {n R : ℕ} {tr : List Ev} {f : ℕ → Part} (h : Runs n R tr f)
    (hR : ∀ r < R, 2 ^ r < n) (hcov : n ≤ 2 ^ R) : Safe n tr where
  entered i k hmem j hj := by
    obtain ⟨hi, hk⟩ := h.ret i k hmem
    exact h.enter j k (entered_of_done hR hcov h.inv hi hk hj)
  once i j hi hj k := by
    rw [h.sends i j]
    rcases Nat.eq_zero_or_pos R with rfl | hpos
    · -- one participant, no rounds
      have hle := sent_le (h.inv.ok i hi)
      rw [Nat.mul_zero, Nat.le_zero] at hle
      rw [hle]
      exact Nat.zero_le 1
    · exact episodes_once hR hpos i j k _
  matched i j hi hj m x hm := by
    rw [h.recvs i j, episodes, List.getElem?_map, Option.map_eq_some_iff] at hm
    obtain ⟨g, hg, rfl⟩ := hm
    rw [h.sends i j, episodes, List.getElem?_map,
      Rounds.recvs_of_sends (fun x hx hp => h.inv.behind i j x hp hx) hg]
    rfl

/-- After a turn without a value somebody may return whom nobody has waited with. -/
theorem unsafe_run (hB : B.IsFifo holds)
    {create : UInt32 → UInt32 → Except Errval B.State}
    (hcreate : ∀ src dst w, create src dst = .ok w → holds w fun _ => []) {cores : List UInt32}
    (hdistinct : cores.Nodup) {bar : Barrier} {chan : Heap B}
    (hinit : dissemBarrierInit create cores = .ok (bar, chan)) (hmany : 46340 < cores.length)
    (hn : cores.length < 2 ^ 32) :
    ∃ (tr : List Ev) (s : Sys B), Run (Step bar) (Sys.init chan) tr s ∧
      ∃ i j, j < cores.length ∧ Ev.ret i 0 ∈ tr ∧ Ev.enter j 0 ∉ tr := by
  obtain ⟨w, hw, tr, s, hrun, hundef, honly⟩ :=
    overflow_run hB hcreate hdistinct hinit hmany hn
  obtain ⟨j, hj, hne⟩ : ∃ j < cores.length, j ≠ w := by
    rcases Nat.eq_zero_or_pos w with rfl | hpos
    · exact ⟨1, by omega, Nat.one_ne_zero⟩
    · exact ⟨0, by omega, by omega⟩
  refine ⟨tr ++ [.ret w 0], s, .snoc hrun (hundef.step _ _), w, j, hj,
    List.mem_append_right _ (List.mem_singleton_self _), fun hmem => ?_⟩
  rcases List.mem_append.mp hmem with hmem | hmem
  · rcases honly _ hmem with heq | ⟨b, heq⟩
    · exact hne (Ev.enter.inj heq).1
    · cases heq
  · cases List.mem_singleton.mp hmem

/-- **The dissemination barrier is safe for up to 46340 participants, and for no more.**  Over every
list of distinct ids that `num_cores` can count, over every backend that is a FIFO: every run, with
any number of waits and in every interleaving, keeps the promise just when every index of the array
is an `int`. -/
theorem dissem_barrier_safe (hB : B.IsFifo holds)
    {create : UInt32 → UInt32 → Except Errval B.State}
    (hcreate : ∀ src dst w, create src dst = .ok w → holds w fun _ => []) {cores : List UInt32}
    (hdistinct : cores.Nodup) (hn : cores.length < 2 ^ 32) {bar : Barrier} {chan : Heap B}
    (hinit : dissemBarrierInit create cores = .ok (bar, chan)) :
    (∀ (tr : List Ev) (s : Sys B), Run (Step bar) (Sys.init chan) tr s → Safe cores.length tr) ↔
      cores.length ≤ 46340 := by
  constructor
  · intro hsafe
    by_contra hmany
    obtain ⟨tr, s, hrun, i, j, hj, hret, henter⟩ :=
      unsafe_run hB hcreate hdistinct hinit (Nat.lt_of_not_le hmany) hn
    exact henter ((hsafe tr s hrun).entered i 0 hret j hj)
  · intro hfew tr s hrun
    obtain ⟨rfl, hw, hruns, -⟩ := reached hB hcreate hdistinct hfew hinit hrun
    exact hruns.safe hw.pow_lt hw.le_pow

/-- Three participants, on the nodes 7, 4 and 5, in step. -/
def trioTurns : List ℕ := [0, 1, 2, 0, 1, 2, 0, 1, 2, 0, 1, 2, 0, 1, 2, 0, 1, 2]

def trioTrace : List Ev :=
  [.enter 0 0, .enter 1 0, .enter 2 0, .put 0 1 0 0, .put 1 2 0 0, .put 2 0 0 0, .got 0 2 0 0,
    .got 1 0 0 0, .got 2 1 0 0, .put 0 2 0 1, .put 1 0 0 1, .put 2 1 0 1, .got 0 1 0 1,
    .got 1 2 0 1, .got 2 0 0 1, .ret 0 0, .ret 1 0, .ret 2 0]

theorem dissem_barrier_safe_trio :
    ∃ (bar : Barrier) (chan : Heap Ump.backend) (s : Sys Ump.backend),
      dissemBarrierInit (fun _ _ => Ump.queuepairInit (fun _ => some 4096) 2) [7, 4, 5]
        = .ok (bar, chan) ∧
      Run.drive (Sys.turn bar) (Sys.init chan) trioTurns = some (trioTrace, s) ∧
      Safe 3 trioTrace := by
  refine ⟨_, _, _, rfl, rfl, ?_⟩
  exact (dissem_barrier_safe Ump.backend_isFifo
    (fun (_ _ : UInt32) _ (h : Ump.queuepairInit (fun _ => some 4096) 2 = .ok _) =>
      Ump.holds_init h)
    (show [7, 4, 5].Nodup by decide) (show 3 < 2 ^ 32 by decide) rfl).mpr (by decide) _ _
    (Run.of_drive (fun s u s' e h => ⟨u, .inl h⟩)
      (show Run.drive (Sys.turn _) (Sys.init _) trioTurns = some (trioTrace, _) from rfl))

/-- With 46341 participants one can return from its first wait before another has entered. -/
theorem dissem_barrier_unsafe :
    crowd.Nodup ∧ ∃ (bar : Barrier) (chan : Heap Ump.backend) (tr : List Ev) (s : Sys Ump.backend),
      dissemBarrierInit (fun _ _ => Ump.queuepairInit (fun _ => some 4096) 64) crowd
        = .ok (bar, chan) ∧
      Run (Step bar) (Sys.init chan) tr s ∧
      ∃ i j, j < crowd.length ∧ Ev.ret i 0 ∈ tr ∧ Ev.enter j 0 ∉ tr := by
  have hok : ∃ (bar : Barrier) (chan : Heap Ump.backend),
      dissemBarrierInit (fun _ _ => Ump.queuepairInit (fun _ => some 4096) 64) crowd
        = .ok (bar, chan) := dissemBarrierInit_ok fun _ _ => ⟨_, rfl⟩
  obtain ⟨bar, chan, hinit⟩ := hok
  obtain ⟨tr, s, hrun, hbad⟩ := unsafe_run Ump.backend_isFifo
    (fun (_ _ : UInt32) _ (h : Ump.queuepairInit (fun _ => some 4096) 64 = .ok _) =>
      Ump.holds_init h) crowd_nodup hinit (by rw [crowd_length]; omega)
    (by rw [crowd_length]; omega)
  exact ⟨crowd_nodup, bar, chan, tr, s, hinit, hrun, hbad⟩

end Smelt.Dissem
