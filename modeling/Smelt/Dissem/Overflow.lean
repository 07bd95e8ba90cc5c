/-
# More participants than an `int` can index

The last of `n` participants waits for the one below it in its first round, on the channel at
`(n - 1) * n + (n - 2)`.  From 46341 participants on this is more than an `int` holds, so its turn
has no value (`turn_last`); in most cases the notification before it has none either.  From
`2 ^ 31` on `num_threads` is negative, everybody takes itself for the first, and the search for the
peer below goes down for ever (`turn_first`).

Either way one participant gets there alone, whatever the backend (`overflow_run`).
-/
import Smelt.Dissem.Barrier

namespace Smelt.Dissem

section Overflow

variable {B : Backend} {holds : B.State → (Side → List (List Word)) → Prop} {bar : Barrier}
  {s : Sys B}

theorem Sys.Undefined.step {i : ℕ} (h : s.Undefined bar i) (e : Ev) (s' : Sys B) :
    Step bar s e s' :=
  ⟨i, .inr h⟩

/-- A count that is no `int` becomes a negative number. -/
theorem bmod_neg {n : ℕ} (hn : 2 ^ 31 ≤ n) (hn' : n < 2 ^ 32) : Int.bmod n (2 ^ 32) < 0 := by
  have hmod : ((n : ℤ) % (2 ^ 32 : ℕ)) = n := Int.emod_eq_of_lt (by omega) (by omega)
  rw [Int.bmod_def, hmod, if_neg (by omega)]
  omega

/-- Below `2 ^ 31`: the index of the last participant's first wait is no `int`. -/
theorem turn_last {n w : ℕ} (hlen : bar.cores.length = n) (hnum : bar.numThreads = n)
    (hmany : 46340 < n) (hn : n < 2 ^ 31) (hw : w + 1 = n) (hpc : (s.part w).pc = .recv w 0 1) :
    s.turn bar w = none := by
  have hlt : w < bar.cores.length := by omega
  have hone : 1 ≤ w := by omega
  have hentry : bar.entry w ((w - 1 : ℕ) : ℤ) = none := by
    have hsquare : (46340 : ℤ) * 46341 ≤ (w : ℤ) * (n : ℤ) :=
      Int.mul_le_mul (by omega) (by omega) (by omega) (by omega)
    simp only [Barrier.entry, hnum, Option.bind_eq_bind]
    -- the product fits for 46341 participants only, and then the sum does not
    rcases Int.lt_or_le ((w : ℤ) * (n : ℤ)) (2 ^ 31) with hrow | hrow
    · rw [int_eq (by omega) hrow, Option.bind_some, int_eq_none (by omega), Option.bind_none]
    · rw [int_eq_none hrow, Option.bind_none]
  rw [turn_recv_eq (List.getElem?_eq_getElem hlt) hpc, int_eq (by omega) (by omega),
    Option.bind_some, Barrier.wrap_eq hnum (by omega), if_pos hone, Option.bind_some, hentry]
  rfl

/-- From there on: the search for the peer below the first one does not end. -/
theorem turn_first (hpos : 0 < bar.cores.length) (hnum : bar.numThreads < 0)
    (hpc : (s.part 0).pc = .recv 0 0 1) : s.turn bar 0 = none := by
  have hwrap : bar.wrap (((0 : ℕ) : ℤ) - (1 : ℕ)) = none := if_neg (by omega)
  rw [turn_recv_eq (List.getElem?_eq_getElem hpos) hpc, int_eq (by omega) (by omega),
    Option.bind_some, hwrap, Option.bind_none]

/-- **One participant's first wait has no value**: that of the last, or of the first if the count is
negative.  It takes itself for the one it is. -/
theorem exists_overflow (B : Backend) (hnum : bar.numThreads = Int.bmod bar.cores.length (2 ^ 32))
    (hdistinct : bar.cores.Nodup) (hmany : 46340 < bar.cores.length)
    (hn : bar.cores.length < 2 ^ 32) :
    ∃ w < bar.cores.length, (∀ self, bar.cores[w]? = some self → myId bar self = w) ∧
      ∀ s : Sys B, (s.part w).pc = .recv w 0 1 → s.turn bar w = none := by
  rcases Nat.lt_or_ge bar.cores.length (2 ^ 31) with hlt | hge
  · rw [bmod_count hlt] at hnum
    exact ⟨bar.cores.length - 1, by omega, fun self hself => myId_eq hnum hdistinct hself,
      fun s hpc => turn_last rfl hnum hmany hlt (by omega) hpc⟩
  · have hneg : bar.numThreads < 0 := hnum ▸ bmod_neg hge hn
    refine ⟨0, by omega, fun self _ => ?_, fun s hpc => turn_first (by omega) hneg hpc⟩
    rw [myId, Int.toNat_of_nonpos (Int.le_of_lt hneg)]
    rfl

/-- A notification on queue pairs that hold nothing has no value, or is made. -/
theorem chanTurn_fresh (hB : B.IsFifo holds)
    (hfresh : ∀ ref c, s.chan ref = some c → holds c.qp fun _ => []) {i : ℕ}
    {entry : Option ChanRef} {self : UInt32} {pc : Pc} {e : Ev} :
    s.chanTurn i entry self .notify (some pc) e = none ∨
      ∃ s', s.chanTurn i entry self .notify (some pc) e = some (s', e) ∧
        s'.part = Function.update s.part i ⟨(s.part i).done, pc⟩ := by
  cases entry with
  | none => exact .inl rfl
  | some ref =>
    cases hchan : s.chan ref with
    | none =>
      refine .inl ?_
      simp only [Sys.chanTurn, hchan, Option.bind_eq_bind, Option.bind_some, Option.bind_none]
    | some chan =>
      have hresult : (B.call chan.qp (chan.side self) .notify).2 = .err [] := by
        have hput : Call.put? .notify (B.call chan.qp (chan.side self) .notify).2 ≠ none :=
          fun hnone => (hB.refuse (c := .notify) (hfresh ref chan hchan) (Nat.zero_le 7) rfl
            hnone).2.1 rfl
        generalize (B.call chan.qp (chan.side self) .notify).2 = r at *
        rcases r with (_ | _) | _ | _
        · rfl
        all_goals simp [Call.put?] at hput
      refine .inr ?_
      simp only [Sys.chanTurn, hchan, Option.bind_eq_bind, Option.bind_some, hresult]
      exact ⟨_, rfl, rfl⟩

/-- The first notification of a participant that takes itself for the one it is. -/
theorem turn_first_notify (hB : B.IsFifo holds)
    (hfresh : ∀ ref c, s.chan ref = some c → holds c.qp fun _ => []) {w : ℕ} {self : UInt32}
    (hself : bar.cores[w]? = some self) (hpart : s.part w = ⟨0, .notify w 0 1⟩) :
    s.turn bar w = none ∨ ∃ s' j, s.turn bar w = some (s', .put w j 0 0) ∧
      s'.part w = ⟨0, .recv w 0 1⟩ := by
  have hpc : (s.part w).pc = .notify w 0 1 := by rw [hpart]
  have hdone : (s.part w).done = 0 := by rw [hpart]
  rw [turn_notify_eq hself hpc, hdone]
  generalize int ((w : ℤ) + (1 : ℕ)) = up
  cases up with
  | none => exact .inl (Option.bind_none _)
  | some up =>
    rw [Option.bind_some]
    rcases chanTurn_fresh (s := s) hB hfresh with hnone | ⟨s', hput, hpart'⟩
    · exact .inl hnone
    · refine .inr ⟨s', _, hput, ?_⟩
      rw [hpart', Function.update_self, hdone]

/-- **Alone into a turn without a value.**  With more than 46340 participants, whatever the backend,
one of them enters, makes at most its first notification, and stands before such a turn. -/
theorem overflow_run (hB : B.IsFifo holds)
    {create : UInt32 → UInt32 → Except Errval B.State}
    (hcreate : ∀ src dst w, create src dst = .ok w → holds w fun _ => []) {cores : List UInt32}
    (hdistinct : cores.Nodup) {chan : Heap B}
    (hinit : dissemBarrierInit create cores = .ok (bar, chan)) (hmany : 46340 < cores.length)
    (hn : cores.length < 2 ^ 32) :
    ∃ w < cores.length, ∃ (tr : List Ev) (s : Sys B), Run (Step bar) (Sys.init chan) tr s ∧
      s.Undefined bar w ∧ ∀ e ∈ tr, e = .enter w 0 ∨ ∃ j, e = .put w j 0 0 := by
  have hfresh : ∀ ref c, chan ref = some c → holds c.qp fun _ => [] :=
    dissemBarrierInit_fresh hcreate hinit
  obtain ⟨hnum, hrounds, rfl, -⟩ := dissemBarrierInit_spec hinit
  obtain ⟨w, hw, hid, hovf⟩ := exists_overflow B hnum hdistinct hmany hn
  have hself : bar.cores[w]? = some bar.cores[w] := List.getElem?_eq_getElem hw
  have hpos : 0 < bar.rounds := by
    rw [hrounds]
    exact Nat.clog_pos (Nat.le_refl 2) (by omega)
  -- it enters
  have henter : (Sys.init chan).turn bar w =
      some ((Sys.init chan).setPc w (.notify w 0 1), .enter w 0) := by
    simp only [Sys.turn, hself, Sys.init, Option.bind_eq_bind, Option.bind_some, hid _ hself,
      loopTop, if_pos hpos]
    rfl
  have hpart : ((Sys.init chan).setPc w (.notify w 0 1)).part w = ⟨0, .notify w 0 1⟩ :=
    Function.update_self ..
  have hchan : ((Sys.init chan).setPc w (.notify w 0 1)).chan = chan := rfl
  generalize (Sys.init chan).setPc w (.notify w 0 1) = s₁ at henter hpart hchan
  have hrun : Run (Step bar) (Sys.init chan) [.enter w 0] s₁ := .snoc .nil ⟨w, .inl henter⟩
  -- its notification has no value, or is made
  rcases turn_first_notify hB (fun ref c hc => hfresh ref c (hchan ▸ hc)) hself hpart with
    hnone | ⟨s₂, j, hput, hpart₂⟩
  · have hgoes : (s₁.part w).pc ≠ .failed := by
      rw [hpart]
      exact Pc.noConfusion
    exact ⟨w, hw, _, s₁, hrun, ⟨hw, hgoes, hnone⟩, fun e he => .inl (List.mem_singleton.mp he)⟩
  · have hgoes : (s₂.part w).pc ≠ .failed := by
      rw [hpart₂]
      exact Pc.noConfusion
    refine ⟨w, hw, _, s₂, .snoc hrun ⟨w, .inl hput⟩, ⟨hw, hgoes, hovf s₂ (by rw [hpart₂])⟩, ?_⟩
    intro e he
    rcases List.mem_append.mp he with he | he
    · exact .inl (List.mem_singleton.mp he)
    · exact .inr ⟨j, List.mem_singleton.mp he⟩

end Overflow

/-- Just too many: 46341 participants, on the nodes from 0 on. -/
def crowd : List UInt32 := (List.range 46341).map UInt32.ofNat

theorem crowd_length : crowd.length = 46341 := by
  rw [crowd, List.length_map, List.length_range]

theorem crowd_nodup : crowd.Nodup := by
  refine List.Nodup.map_on (fun a ha b hb hab => ?_) List.nodup_range
  have ha := List.mem_range.mp ha
  have hb := List.mem_range.mp hb
  have hval := congrArg UInt32.toNat hab
  simp only [UInt32.toNat_ofNat'] at hval
  omega

end Smelt.Dissem
