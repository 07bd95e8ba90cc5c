/-
# The dissemination barrier does not get stuck

Two facts about the counters of `Safe.lean`.

* **Two slots are enough.**  A directed channel is used in one round of each wait, so what is in
  flight on it is one notification for each of some waits.  Its sender is in the last of these; had
  it returned from the one after the first, all would have entered that, and the receiver would have
  taken the first (`inFlight_window`).  So these waits are neighbours, and there are at most two.
* **Someone can go on.**  Of the participants that have not made all their calls, take one that has
  sent least.  If it waits in vain, then the one it waits for has sent in fewer rounds, and has not
  made all its calls either (`exists_ready`).

A UMP ring refuses only when half of it has not been received (`Ump.refuse_spec`), and half of the
default ring is more than two.  Both facts end with the indices that fit: with more than 46340
participants a turn without a value makes any number of notifications (`overrun_run`).
-/
import Smelt.Channel
import Smelt.Dissem.Safe

namespace Smelt.Dissem

/-! ## 1. Two slots -/

section Slots

variable {n R i j : ℕ} {f : ℕ → Part}

/-- **What is in flight is of neighbouring waits.** -/
theorem inFlight_window (hR : ∀ r < R, 2 ^ r < n) (hcov : n ≤ 2 ^ R) (hinv : PInv n R f)
    (hpos : 0 < R) (hi : i < n) (hj : j < n) {g g' : ℕ} (hg : g ∈ inFlight n R f i j)
    (hg' : g' ∈ inFlight n R f i j) : g' / R ≤ g / R + 1 := by
  have hrecv : rcvd R (f j) ≤ g := (Rounds.lt_of_flight hg).1
  have hsent : g' < sent R (f i) := (Rounds.lt_of_flight hg').2
  by_contra hfar
  -- the sender has begun a wait two after that of `g`, so it knows that all have entered the next
  have hbegun : Entered (g' / R) (f i) :=
    entered_of_sent (hinv.ok i hi) (Nat.lt_of_le_of_lt (Nat.div_mul_le_self g' R) hsent)
  have hreturned : g / R + 1 < (f i).done := by
    rcases hbegun with hlt | ⟨heq, -⟩ <;> omega
  have hentered := entered_of_done hR hcov hinv hi hreturned hj
  have hdone : g / R + 1 ≤ (f j).done := by
    rcases hentered with hlt | ⟨heq, -⟩ <;> omega
  -- and the receiver has returned from that of `g`
  have hheard : (g / R + 1) * R ≤ rcvd R (f j) :=
    Nat.le_trans (Nat.mul_le_mul_right R hdone) (Nat.le_add_right _ _)
  have hround : g < (g / R + 1) * R := by
    rw [Nat.mul_comm]
    exact Nat.lt_mul_div_succ g hpos
  omega

/-- **At most two notifications are in flight on a directed channel.** -/
theorem inFlight_length_le (hR : ∀ r < R, 2 ^ r < n) (hcov : n ≤ 2 ^ R) (hinv : PInv n R f)
    (hi : i < n) (hj : j < n) : (inFlight n R f i j).length ≤ 2 := by
  rcases Nat.eq_zero_or_pos R with hzero | hpos
  · have hle := sent_le (hinv.ok i hi)
    rw [hzero, Nat.mul_zero, Nat.le_zero] at hle
    simp [inFlight, Rounds.flight, hzero, hle]
  · have hwindow : ∀ g ∈ inFlight n R f i j, ∀ g' ∈ inFlight n R f i j, g' / R ≤ g / R + 1 :=
      fun g hg g' hg' => inFlight_window hR hcov hinv hpos hi hj hg hg'
    have hround : ∀ g ∈ inFlight n R f i j, ∀ g' ∈ inFlight n R f i j, g / R = g' / R → g = g' := by
      intro g hg g' hg' hdiv
      have huse : ∀ x ∈ inFlight n R f i j, uses n R i j x = true := by
        intro x hx
        have hx := (List.mem_filter.mp hx).2
        simp only [Bool.and_eq_true] at hx
        exact hx.1
      have hmod := uses_unique hR hpos (huse g hg) (huse g' hg')
      rw [← Nat.div_add_mod g R, ← Nat.div_add_mod g' R, hdiv, hmod]
    have hnodup : (inFlight n R f i j).Nodup := List.nodup_range.filter _
    generalize inFlight n R f i j = L at hwindow hround hnodup
    -- of three, two are of one wait or two are not of neighbours
    rcases L with _ | ⟨a, _ | ⟨b, _ | ⟨c, rest⟩⟩⟩
    · exact Nat.zero_le 2
    · exact Nat.le_succ 1
    · exact Nat.le_refl 2
    · simp only [List.nodup_cons, List.mem_cons, not_or] at hnodup
      simp only [List.mem_cons, forall_eq_or_imp] at hwindow hround
      obtain ⟨⟨hab, hac, -⟩, ⟨hbc, -⟩, -⟩ := hnodup
      obtain ⟨⟨-, hab₁, hac₁, -⟩, ⟨hba₁, -, hbc₁, -⟩, ⟨hca₁, hcb₁, -⟩, -⟩ := hwindow
      obtain ⟨⟨-, hab₂, hac₂, -⟩, ⟨-, -, hbc₂, -⟩, -⟩ := hround
      have h1 : a / R ≠ b / R := fun he => hab (hab₂ he)
      have h2 : a / R ≠ c / R := fun he => hac (hac₂ he)
      have h3 : b / R ≠ c / R := fun he => hbc (hbc₂ he)
      omega

/-- The trace of a directed channel says so too. -/
theorem Runs.outstanding_le {tr : List Ev} (hR : ∀ r < R, 2 ^ r < n) (hcov : n ≤ 2 ^ R)
    (hruns : Runs n R tr f) (hi : i < n) (hj : j < n) :
    (Fifo.sends (tr.filterMap (Ev.see i j))).length ≤
      (Fifo.recvs (tr.filterMap (Ev.see i j))).length + 2 := by
  have hflight := inFlight_length_le hR hcov hruns.inv hi hj
  have hle := Rounds.length_sends_le (p := uses n R i j) (rcvd R (f j)) (sent R (f i))
  rw [hruns.sends i j, hruns.recvs i j, episodes, episodes, List.length_map, List.length_map]
  exact Nat.le_trans hle (Nat.add_le_add_left hflight _)

end Slots

/-! ## 2. Someone can go on -/

/-- The participant has made its `calls` calls. -/
def Finished (calls : ℕ) (p : Part) : Prop := p.done = calls ∧ p.pc = .idle

section Ready

variable {n R calls : ℕ} {f : ℕ → Part}

/-- **Not all that have calls to make wait in vain.** -/
theorem exists_ready (hinv : PInv n R f)
    (hcalls : ∀ i, ¬ Entered calls (f i)) (hleft : ∃ i < n, ¬ Finished calls (f i)) :
    ∃ i < n, ¬ Finished calls (f i) ∧ ∀ r, (f i).pc = .recv i r (2 ^ r) →
      rcvd R (f i) < sent R (f (down n i (2 ^ r))) := by
  by_contra hnone
  push Not at hnone
  -- from each one that waits in vain, down to one that has sent less
  have hdescend : ∀ m i, i < n → ¬ Finished calls (f i) → sent R (f i) = m → False := by
    intro m
    induction m using Nat.strong_induction_on with
    | _ m ih =>
      rintro i hi hleft rfl
      obtain ⟨r, hpc, hvain⟩ := hnone i hi hleft
      have hok := hinv.ok i hi
      rw [hpc] at hok
      obtain ⟨-, hr, -⟩ := hok
      have hsent : sent R (f i) = (f i).done * R + (r + 1) := by simp [sent, hpc]
      have hrcvd : rcvd R (f i) = (f i).done * R + r := by simp [rcvd, hpc]
      have hdone : (f i).done < calls := by
        rcases Nat.lt_trichotomy (f i).done calls with hlt | heq | hgt
        · exact hlt
        · exact absurd (.inr ⟨heq.symm, by simp [hpc]⟩) (hcalls i)
        · exact absurd (.inl hgt) (hcalls i)
      refine ih _ ?_ (down n i (2 ^ r)) (down_lt hi) ?_ rfl
      · omega
      · rintro ⟨hall, hidle⟩
        have hsentAll : sent R (f (down n i (2 ^ r))) = calls * R := by simp [sent, hall, hidle]
        have hle := Nat.mul_le_mul_right R (Nat.succ_le_of_lt hdone)
        rw [Nat.succ_mul] at hle
        omega
  obtain ⟨i, hi, hleft⟩ := hleft
  exact hdescend _ i hi hleft rfl

end Ready

/-! ## 3. The turns that go on -/

section Turns

variable {B : Backend} {holds : B.State → (Side → List (List Word)) → Prop} {bar : Barrier}
  {s : Sys B} {F : ℕ → ℕ → List ℕ} {i j : ℕ}

/-- A wait for a notification that is in flight is answered. -/
theorem recv_ready (hB : B.IsFifo holds) (hw : Wired bar) (h : Rep holds bar s F)
    {self : UInt32} (next : Pc) (e : Ev) (hself : bar.cores[j]? = some self)
    (hi : i < bar.cores.length) (hij : i ≠ j) (hne : F i j ≠ []) :
    ∃ s', s.chanTurn j (bar.entry j (i : ℕ)) self .recvNotify (some next) e = some (s', e) := by
  obtain ⟨hidx, chan, hchan, -, hside, hholds⟩ := h.chan hw hself hi (Ne.symm hij)
  rw [Nat.min_comm, Nat.max_comm] at hidx hchan hholds
  have hother : (chan.side self).other = endOf i j := by rw [hside, endOf_other (Ne.symm hij)]
  have hresult : (B.call chan.qp (chan.side self) .recvNotify).2 = .err [] := by
    cases hgot : Call.got? .recvNotify (B.call chan.qp (chan.side self) .recvNotify).2 with
    | none =>
      obtain ⟨-, hnil, -⟩ := hB.empty (c := .recvNotify) (d := chan.side self) hholds (by decide)
        rfl hgot
      rw [hother, contents_endOf hij, List.map_eq_nil_iff] at hnil
      exact absurd hnil hne
    | some xs =>
      generalize (B.call chan.qp (chan.side self) .recvNotify).2 = r at *
      rcases r with (_ | _) | _ | _
      · rfl
      all_goals simp [Call.got?] at hgot
  simp only [Sys.chanTurn, hidx, hchan, Option.bind_eq_bind, Option.bind_some, hresult]
  exact ⟨_, rfl⟩

/-- A notification on a channel with room is made. -/
theorem notify_ready (hw : Wired bar) (h : Rep holds bar s F) {self : UInt32} (next : Pc) (e : Ev)
    (hroom : ∀ w q d, holds w q → (q d).length ≤ (F i j).length →
      Call.put? .notify (B.call w d .notify).2 ≠ none)
    (hself : bar.cores[i]? = some self) (hj : j < bar.cores.length) (hij : i ≠ j) :
    ∃ s', s.chanTurn i (bar.entry i (j : ℕ)) self .notify (some next) e = some (s', e) := by
  obtain ⟨hidx, chan, hchan, -, hside, hholds⟩ := h.chan hw hself hj hij
  have hresult : (B.call chan.qp (chan.side self) .notify).2 = .err [] := by
    have hput := hroom chan.qp _ (chan.side self) hholds
      (by rw [hside, contents_endOf hij, List.length_map])
    generalize (B.call chan.qp (chan.side self) .notify).2 = r at *
    rcases r with (_ | _) | _ | _
    · rfl
    all_goals simp [Call.put?] at hput
  simp only [Sys.chanTurn, hidx, hchan, Option.bind_eq_bind, Option.bind_some, hresult]
  exact ⟨_, rfl⟩

end Turns

/-! ## 4. The barrier -/

/-- The participant stands before a wait, and a turn of it gets nothing. -/
def Blocked {B : Backend} (bar : Barrier) (s : Sys B) (i : ℕ) : Prop :=
  (∃ id r step, (s.part i).pc = .recv id r step) ∧
    ∀ s' e, s.turn bar i = some (s', e) → e = .quiet i

section Barrier

variable {B : Backend} {holds : B.State → (Side → List (List Word)) → Prop} {bar : Barrier}
  {s : Sys B} {tr : List Ev} {calls : ℕ}

/-- Some participant with calls to make is not blocked in a wait. -/
theorem exists_not_blocked (hB : B.IsFifo holds) (hw : Wired bar)
    (hruns : Runs bar.cores.length bar.rounds tr s.part)
    (hrep : Rep holds bar s (inFlight bar.cores.length bar.rounds s.part))
    (hcalls : ∀ i k, Ev.enter i k ∈ tr → k < calls)
    (hleft : ∃ i < bar.cores.length, ¬ Finished calls (s.part i)) :
    ∃ i < bar.cores.length, ¬ Finished calls (s.part i) ∧ ¬ Blocked bar s i := by
  have hmade : ∀ i, ¬ Entered calls (s.part i) := fun i hent =>
    absurd (hcalls i calls (hruns.enter i calls hent)) (Nat.lt_irrefl calls)
  obtain ⟨i, hi, hunfinished, hready⟩ := exists_ready hruns.inv hmade hleft
  refine ⟨i, hi, hunfinished, ?_⟩
  rintro ⟨⟨id, r, step, hpc⟩, hquiet⟩
  have hok := hruns.inv.ok i hi
  rw [hpc] at hok
  obtain ⟨rfl, hr, rfl⟩ := hok
  have hself : bar.cores[id]? = some bar.cores[id] := List.getElem?_eq_getElem hi
  obtain ⟨hj, hup, hij, hturn⟩ := turn_recv hw hself hr hpc
  -- the round it is in has been sent, so it is in flight
  have hrcvd : rcvd bar.rounds (s.part id) = (s.part id).done * bar.rounds + r := by
    simp [rcvd, hpc]
  have hmem : rcvd bar.rounds (s.part id) ∈ inFlight bar.cores.length bar.rounds s.part
      (down bar.cores.length id (2 ^ r)) id := by
    refine List.mem_filter.mpr ⟨List.mem_range.mpr (hready r hpc), ?_⟩
    simp only [uses, hrcvd, round_mod hr, Bool.and_eq_true, decide_eq_true_eq]
    exact ⟨⟨hj, hup⟩, Nat.le_of_eq hrcvd⟩
  obtain ⟨s', hgot⟩ := recv_ready hB hw hrep (topOf bar.rounds id (r + 1))
    (.got id (down bar.cores.length id (2 ^ r)) (s.part id).done r) hself hj hij
    (List.ne_nil_of_mem hmem)
  cases hquiet s' _ (hturn.trans hgot)

/-- A notification that finds room for three is not refused. -/
theorem notify_of_room (hw : Wired bar) (hruns : Runs bar.cores.length bar.rounds tr s.part)
    (hrep : Rep holds bar s (inFlight bar.cores.length bar.rounds s.part))
    (hroom : ∀ w q d, holds w q → (q d).length ≤ 2 →
      Call.put? .notify (B.call w d .notify).2 ≠ none)
    {i id r step : ℕ} (hi : i < bar.cores.length) (hpc : (s.part i).pc = .notify id r step) :
    ∃ s' j, s.turn bar i = some (s', .put i j (s.part i).done r) := by
  have hok := hruns.inv.ok i hi
  rw [hpc] at hok
  obtain ⟨rfl, hr, rfl⟩ := hok
  have hself : bar.cores[id]? = some bar.cores[id] := List.getElem?_eq_getElem hi
  obtain ⟨hj, hij, hturn⟩ := turn_notify hw hself hr hpc
  have htwo := inFlight_length_le hw.pow_lt hw.le_pow hruns.inv hi hj
  obtain ⟨s', hput⟩ := notify_ready hw hrep (.recv id r (2 ^ r))
    (.put id ((id + 2 ^ r) % bar.cores.length) (s.part id).done r)
    (fun w q d hq hlen => hroom w q d hq (Nat.le_trans hlen htwo)) hself hj hij
  exact ⟨s', _, hturn.trans hput⟩

end Barrier

/-- The default ring has room while at most two notifications are in it. -/
theorem ump_default_room (w : Ump.World) (q : Side → List (List Word)) (d : Side)
    (h : Ump.HoldsIn (umpDefaultSlots.toNat - 1) w q) (hlen : (q d).length ≤ 2) :
    Call.put? .notify (Ump.backend.call w d .notify).2 ≠ none := by
  intro hput
  have hhalf := (Ump.refuse_spec (h d) (show Call.notify.words ≤ 7 from Nat.zero_le 7) rfl hput).2
  have hsize : umpDefaultSlots.toNat = 64 := rfl
  rw [hsize] at hhalf
  omega

/-- What the barrier promises of a run of `n` participants: at most two notifications are
outstanding on a directed channel; and if they make `calls` calls each, then as long as some have
calls to make, one of these is not blocked in a wait. -/
structure Flows {B : Backend} (bar : Barrier) (n : ℕ) (tr : List Ev) (s : Sys B) : Prop where
  two : ∀ i j, i < n → j < n → (Fifo.sends (tr.filterMap (Ev.see i j))).length ≤
    (Fifo.recvs (tr.filterMap (Ev.see i j))).length + 2
  going : ∀ calls, (∀ i k, Ev.enter i k ∈ tr → k < calls) →
    (∃ i < n, ¬ Finished calls (s.part i)) →
      ∃ i < n, ¬ Finished calls (s.part i) ∧ ¬ Blocked bar s i

/-- After a turn without a value there may be three notifications on a channel. -/
theorem overrun_run {B : Backend} {holds : B.State → (Side → List (List Word)) → Prop}
    (hB : B.IsFifo holds) {create : UInt32 → UInt32 → Except Errval B.State}
    (hcreate : ∀ src dst w, create src dst = .ok w → holds w fun _ => []) {cores : List UInt32}
    (hdistinct : cores.Nodup) {bar : Barrier} {chan : Heap B}
    (hinit : dissemBarrierInit create cores = .ok (bar, chan)) (hmany : 46340 < cores.length)
    (hn : cores.length < 2 ^ 32) :
    ∃ (tr : List Ev) (s : Sys B), Run (Step bar) (Sys.init chan) tr s ∧
      (Fifo.recvs (tr.filterMap (Ev.see 0 1))).length + 2 <
        (Fifo.sends (tr.filterMap (Ev.see 0 1))).length := by
  obtain ⟨w, hw, tr, s, hrun, hundef, honly⟩ :=
    overflow_run hB hcreate hdistinct hinit hmany hn
  have hput : Step bar s (.put 0 1 0 0) s := hundef.step _ _
  refine ⟨_, s, .snoc (.snoc (.snoc hrun hput) hput) hput, ?_⟩
  have hsee : [Ev.put 0 1 0 0].filterMap (Ev.see 0 1) = [.send (0, 0)] := rfl
  -- before that, nothing has been received
  have hrecvs : Fifo.recvs (tr.filterMap (Ev.see 0 1)) = [] := by
    rw [Fifo.recvs, List.filterMap_filterMap, List.filterMap_eq_nil_iff]
    intro e he
    rcases honly e he with rfl | ⟨j, rfl⟩
    · rfl
    · simp only [Ev.see]
      split <;> rfl
  simp only [List.filterMap_append, hsee, Fifo.sends_snoc, Fifo.recvs_snoc, hrecvs, Fifo.Ev.sent?,
    Fifo.Ev.rcvd?, Option.toList, List.length_append, List.length_cons, List.length_nil]
  omega

/-- After a turn without a value there may be a notification that is not made. -/
theorem refused_run {B : Backend} {holds : B.State → (Side → List (List Word)) → Prop}
    (hB : B.IsFifo holds) {create : UInt32 → UInt32 → Except Errval B.State}
    (hcreate : ∀ src dst w, create src dst = .ok w → holds w fun _ => []) {cores : List UInt32}
    (hdistinct : cores.Nodup) {bar : Barrier} {chan : Heap B}
    (hinit : dissemBarrierInit create cores = .ok (bar, chan)) (hmany : 46340 < cores.length)
    (hn : cores.length < 2 ^ 32) :
    ∃ (tr : List Ev) (s : Sys B), Run (Step bar) (Sys.init chan) tr s ∧
      ∃ i < cores.length, (s.part i).pc = .notify 0 0 1 ∧ s.turn bar i = none := by
  obtain ⟨w, hw, tr, s, hrun, hundef, -⟩ := overflow_run hB hcreate hdistinct hinit hmany hn
  obtain ⟨-, -, rfl, -⟩ := dissemBarrierInit_spec hinit
  -- it may also find no channel anywhere
  refine ⟨tr ++ [.quiet w], ⟨fun _ => ⟨0, .notify 0 0 1⟩, fun _ => none⟩,
    .snoc hrun (hundef.step _ _), w, hw, rfl, ?_⟩
  rw [turn_notify_eq (List.getElem?_eq_getElem hw) rfl]
  refine Option.bind_eq_none_iff.mpr fun up _ => ?_
  cases hentry : bar.entry 0 (Int.tmod up bar.numThreads) <;> rfl

/-- **The dissemination barrier does not get stuck, and two slots per direction are enough, for up
to 46340 participants and for no more.**  Over every list of distinct ids that `num_cores` can
count: over every backend that is a FIFO, every run in every interleaving keeps the promise just
when every index of the array is an `int`; and over UMP with rings of the default size, just then no
notification has to wait for space. -/
theorem dissem_barrier_progress {cores : List UInt32} (hdistinct : cores.Nodup)
    (hn : cores.length < 2 ^ 32) :
    (∀ (B : Backend) (holds : B.State → (Side → List (List Word)) → Prop), B.IsFifo holds →
      ∀ create : UInt32 → UInt32 → Except Errval B.State,
        (∀ src dst w, create src dst = .ok w → holds w fun _ => []) →
      ∀ (bar : Barrier) (chan : Heap B), dissemBarrierInit create cores = .ok (bar, chan) →
      ((∀ (tr : List Ev) (s : Sys B), Run (Step bar) (Sys.init chan) tr s →
        Flows bar cores.length tr s) ↔ cores.length ≤ 46340)) ∧
    ∀ (alloc : UInt32 → UInt32 → Side → Option ℕ) (bar : Barrier) (chan : Heap Ump.backend),
      dissemBarrierInit (fun src dst => Ump.queuepairInit (alloc src dst) umpDefaultSlots) cores
        = .ok (bar, chan) →
      ((∀ (tr : List Ev) (s : Sys Ump.backend), Run (Step bar) (Sys.init chan) tr s →
        ∀ i id r step, i < cores.length → (s.part i).pc = .notify id r step →
          ∃ s' j, s.turn bar i = some (s', .put i j (s.part i).done r)) ↔
        cores.length ≤ 46340) := by
  constructor
  · intro B holds hB create hcreate bar chan hinit
    constructor
    · intro hflows
      by_contra hmany
      obtain ⟨tr, s, hrun, hlt⟩ :=
        overrun_run hB hcreate hdistinct hinit (Nat.lt_of_not_le hmany) hn
      have hle := (hflows tr s hrun).two 0 1 (by omega) (by omega)
      omega
    · intro hfew tr s hrun
      obtain ⟨rfl, hw, hruns, hrep⟩ := reached hB hcreate hdistinct hfew hinit hrun
      exact ⟨fun i j hi hj => hruns.outstanding_le hw.pow_lt hw.le_pow hi hj,
        fun calls hcalls hleft => exists_not_blocked hB hw hruns hrep hcalls hleft⟩
  · intro alloc bar chan hinit
    have hB := Ump.backend_isFifo_in (umpDefaultSlots.toNat - 1)
    have hcreate : ∀ src dst w, Ump.queuepairInit (alloc src dst) umpDefaultSlots = .ok w →
        Ump.HoldsIn (umpDefaultSlots.toNat - 1) w fun _ => [] := fun _ _ _ hw => Ump.rel_init hw
    constructor
    · intro hroom
      by_contra hmany
      obtain ⟨tr, s, hrun, i, hi, hpc, hnone⟩ :=
        refused_run hB hcreate hdistinct hinit (Nat.lt_of_not_le hmany) hn
      obtain ⟨s', j, hput⟩ := hroom tr s hrun i 0 0 1 hi hpc
      cases hnone.symm.trans hput
    · intro hfew tr s hrun i id r step hi hpc
      obtain ⟨rfl, hw, hruns, hrep⟩ := reached hB hcreate hdistinct hfew hinit hrun
      exact notify_of_room hw hruns hrep ump_default_room hi hpc

/-- Three participants over UMP, the first of which runs ahead: it has returned from its first call
and notified in its second, while the others stand before their last waits of the first. -/
def aheadTurns : List ℕ := [0, 1, 2, 0, 1, 2, 0, 1, 2, 0, 1, 2, 0, 0, 0, 0]

def aheadTrace : List Ev :=
  [.enter 0 0, .enter 1 0, .enter 2 0, .put 0 1 0 0, .put 1 2 0 0, .put 2 0 0 0, .got 0 2 0 0,
    .got 1 0 0 0, .got 2 1 0 0, .put 0 2 0 1, .put 1 0 0 1, .put 2 1 0 1, .got 0 1 0 1, .ret 0 0,
    .enter 0 1, .put 0 1 1 0]

theorem dissem_barrier_progress_ahead :
    ∃ (bar : Barrier) (chan : Heap Ump.backend) (s : Sys Ump.backend),
      dissemBarrierInit (fun _ _ => Ump.queuepairInit (fun _ => some 4096) umpDefaultSlots)
        [7, 4, 5] = .ok (bar, chan) ∧
      Run.drive (Sys.turn bar) (Sys.init chan) aheadTurns = some (aheadTrace, s) ∧
      ∃ i < 3, ¬ Finished 2 (s.part i) ∧ ¬ Blocked bar s i := by
  refine ⟨_, _, _, rfl, rfl, ?_⟩
  have hprogress := ((dissem_barrier_progress (show [7, 4, 5].Nodup by decide)
    (show 3 < 2 ^ 32 by decide)).1 Ump.backend Ump.Holds Ump.backend_isFifo _
    (fun (_ _ : UInt32) _ (h : Ump.queuepairInit (fun _ => some 4096) umpDefaultSlots = .ok _) =>
      Ump.holds_init h) _ _ rfl).mpr (by decide) _ _
    (Run.of_drive (fun s u s' e h => ⟨u, .inl h⟩)
      (show Run.drive (Sys.turn _) (Sys.init _) aheadTurns = some (aheadTrace, _) from rfl))
  refine hprogress.going 2 ?_ ⟨0, by decide, fun hfinished => absurd hfinished.1 (by decide)⟩
  intro i k hmem
  simp [aheadTrace] at hmem
  omega

/-- With 46341 participants three notifications can be outstanding on one directed channel. -/
theorem dissem_barrier_overrun :
    crowd.Nodup ∧ ∃ (bar : Barrier) (chan : Heap Ump.backend) (tr : List Ev) (s : Sys Ump.backend),
      dissemBarrierInit (fun _ _ => Ump.queuepairInit (fun _ => some 4096) umpDefaultSlots) crowd
        = .ok (bar, chan) ∧
      Run (Step bar) (Sys.init chan) tr s ∧
      (Fifo.recvs (tr.filterMap (Ev.see 0 1))).length + 2 <
        (Fifo.sends (tr.filterMap (Ev.see 0 1))).length := by
  have hok : ∃ (bar : Barrier) (chan : Heap Ump.backend),
      dissemBarrierInit (fun _ _ => Ump.queuepairInit (fun _ => some 4096) umpDefaultSlots) crowd
        = .ok (bar, chan) := dissemBarrierInit_ok fun _ _ => ⟨_, rfl⟩
  obtain ⟨bar, chan, hinit⟩ := hok
  obtain ⟨tr, s, hrun, hbad⟩ := overrun_run Ump.backend_isFifo
    (fun (_ _ : UInt32) _ (h : Ump.queuepairInit (fun _ => some 4096) umpDefaultSlots = .ok _) =>
      Ump.holds_init h) crowd_nodup hinit (by rw [crowd_length]; omega)
    (by rw [crowd_length]; omega)
  exact ⟨crowd_nodup, bar, chan, tr, s, hinit, hrun, hbad⟩

end Smelt.Dissem
