/-
# The dissemination barrier

`smlt_dissem_barrier_init` and `smlt_dissem_barrier_wait` of `src/barrier.c`.  The barrier keeps one
1:1 channel for each unordered pair of participants, and a square array of pointers to them in
which `[i][j]` and `[j][i]` are the same channel.  A wait goes through `rounds` rounds; in each it
notifies the participant `step` places up, waits for the one `step` places down, and doubles
`step`.

A channel is named by the turn of the two loops that created it.  `Sys.turn` is one turn of one
participant: the entry of a call, one attempt of a notification or of the wait for one, or the
return.  Participants are numbered by their place in `cores`; which node they run on only decides
which end of a channel they hold.

The loops of `init` index the array in `uint32_t`, the wait computes in `int`.  The array has
`num_threads` squared entries, so `my_id*num_threads+peer` leaves the range of an `int` when there
are more than 46340 participants (`overflow_run`).  Such a turn has no value, and neither has one
that finds no channel at its index; C says nothing of what follows, so `Step` allows anything.
`ceil(log2(n))` is the exact ceiling.
-/
import Smelt.Queuepair
import Smelt.Lib.Loop
import Smelt.Lib.Run
import Mathlib.Algebra.Group.Int.Defs
import Mathlib.Algebra.Group.Nat.Defs
import Mathlib.Data.Nat.Log
import Mathlib.Data.List.Nodup

namespace Smelt.Dissem

variable {B : Backend}

/-! ## 1. Setting up -/

/-- A channel made by `smlt_channel_create(.., 1, 1)`: the node that owns it, and the queue pair. -/
structure Channel (B : Backend) where
  owner : UInt32
  qp : B.State

/-- `chan->owner == smlt_node_self_id` picks `mp.send`, otherwise it is `mp.recv`. -/
def Channel.side (chan : Channel B) (self : UInt32) : Side :=
  if chan.owner = self then .src else .dst

/-- The turn `(i, j)` of the loops in which a channel was allocated. -/
abbrev ChanRef := ℕ × ℕ

/-- `struct smlt_dissem_barrier`; `num_threads` is an `int`. -/
structure Barrier where
  numThreads : ℤ
  rounds : ℕ
  cores : List UInt32
  channels : ℕ → Option ChanRef

/-- The channels that have been allocated. -/
abbrev Heap (B : Backend) := ChanRef → Option (Channel B)

/-- The index `i*num_cores+j`, a `uint32_t`. -/
def initPlace (n i j : ℕ) : ℕ := (i * n + j) % 2 ^ 32

/-- One turn of the inner loop: create the channel of `i` and `j` and enter it twice. -/
def initTurn (create : UInt32 → UInt32 → Except Errval B.State) (cores : List UInt32)
    (st : (ℕ → Option ChanRef) × Heap B) (ref : ChanRef) :
    Except Errval ((ℕ → Option ChanRef) × Heap B) :=
  let n := cores.length
  let src := cores.getD ref.1 0
  match create src (cores.getD ref.2 0) with
  | .error _ => .error [.chanCreate]
  | .ok qp =>
    .ok (Function.update (Function.update st.1 (initPlace n ref.1 ref.2) (some ref))
        (initPlace n ref.2 ref.1) (some ref),
      Function.update st.2 ref (some { owner := src, qp := qp }))

/-- The turns of the two loops: `i` below `n`, and `j` from `i` on. -/
def turns (n : ℕ) : List ChanRef :=
  (List.range n).flatMap fun i => (List.range' i (n - i)).map fun j => (i, j)

/-- `smlt_dissem_barrier_init`; `create` makes the queue pair of a channel.  `num_threads` gets the
`uint32_t` `num_cores`, which wraps. -/
def dissemBarrierInit (create : UInt32 → UInt32 → Except Errval B.State) (cores : List UInt32) :
    Except Errval (Barrier × Heap B) := do
  let st ← (turns cores.length).foldlM (initTurn create cores) (fun _ => none, fun _ => none)
  return ({ numThreads := Int.bmod cores.length (2 ^ 32), rounds := Nat.clog 2 cores.length,
            cores := cores, channels := st.1 }, st.2)

/-! ## 2. Waiting -/

/-- The value of an `int` expression: none outside the range. -/
def int (x : ℤ) : Option ℤ := if -2 ^ 31 ≤ x ∧ x < 2 ^ 31 then some x else none

/-- The search for the caller's own place. -/
def myId (bar : Barrier) (self : UInt32) : ℕ :=
  (List.range bar.numThreads.toNat).foldl
    (fun id i => if bar.cores[i]? = some self then i else id) 0

/-- `while (peer < 0) peer = peer + num_threads;`, up to a number of turns. -/
def wrapLoop (numThreads : ℕ) : ℕ → ℤ → ℤ
  | 0, peer => peer
  | turns + 1, peer => if peer < 0 then wrapLoop numThreads turns (peer + numThreads) else peer

/-- The loop: each turn adds at least one, so it ends within `-peer` turns. -/
def wrapPeer (numThreads : ℕ) (peer : ℤ) : ℤ := wrapLoop numThreads (-peer).toNat peer

/-- The loop with the count of the barrier.  A positive count brings a negative number up, and stays
in range; with any other the loop leaves the range of an `int` or does not end. -/
def Barrier.wrap (bar : Barrier) (peer : ℤ) : Option ℤ :=
  if 0 ≤ peer ∨ 0 < bar.numThreads then some (wrapPeer bar.numThreads.toNat peer) else none

/-- `bar->channels[my_id*bar->num_threads+peer]`. -/
def Barrier.entry (bar : Barrier) (id : ℕ) (peer : ℤ) : Option ChanRef := do
  let row ← int (id * bar.numThreads)
  let idx ← int (row + peer)
  if 0 ≤ idx then bar.channels idx.toNat else none

/-- Where a participant stands: before the notification or before the wait of a round, with its
`my_id`, the round `r` and `step`. -/
inductive Pc
  | idle
  | notify (id r step : ℕ)
  | recv (id r step : ℕ)
  | ret
  | failed
  deriving DecidableEq, Repr

/-- A participant: the waits it has returned from, and its place in the current one. -/
structure Part where
  done : ℕ
  pc : Pc
  deriving DecidableEq, Repr

/-- The condition of the loop over the rounds. -/
def loopTop (bar : Barrier) (id r step : ℕ) : Pc :=
  if r < bar.rounds then .notify id r step else .ret

structure Sys (B : Backend) where
  part : ℕ → Part
  chan : Heap B

/-- What a turn did.  `put i j k r`: in round `r` of its `k`-th wait `i` notified `j`;
`got i j k r`: in round `r` of its `k`-th wait `i` heard from `j`. -/
inductive Ev
  | enter (i k : ℕ)
  | put (i j k r : ℕ)
  | got (i j k r : ℕ)
  | ret (i k : ℕ)
  | quiet (i : ℕ)
  deriving DecidableEq, Repr

def Sys.setPc (s : Sys B) (i : ℕ) (pc : Pc) : Sys B :=
  { s with part := Function.update s.part i { s.part i with pc := pc } }

def Sys.setChan (s : Sys B) (ref : ChanRef) (chan : Channel B) : Sys B :=
  { s with chan := Function.update s.chan ref (some chan) }

/-- One attempt of the call `c` by `i`, on the channel `entry` of the array: it goes on to `next`,
turns again, or fails. -/
def Sys.chanTurn (s : Sys B) (i : ℕ) (entry : Option ChanRef) (self : UInt32) (c : Call)
    (next : Option Pc) (e : Ev) : Option (Sys B × Ev) := do
  let ref ← entry
  let chan ← s.chan ref
  let r := B.call chan.qp (chan.side self) c
  let s' := s.setChan ref { chan with qp := r.1 }
  match r.2 with
  | .err [] =>
    let pc ← next
    return (s'.setPc i pc, e)
  | .spin => return (s', .quiet i)
  | _ => return (s'.setPc i .failed, .quiet i)

/-- One turn of the participant `i` of `smlt_dissem_barrier_wait`. -/
def Sys.turn (bar : Barrier) (s : Sys B) (i : ℕ) : Option (Sys B × Ev) := do
  let self ← bar.cores[i]?
  let k := (s.part i).done
  match (s.part i).pc with
  | .idle => return (s.setPc i (loopTop bar (myId bar self) 0 1), .enter i k)
  | .notify id r step =>
    let up ← int (id + step)
    let peer := Int.tmod up bar.numThreads
    s.chanTurn i (bar.entry id peer) self .notify (some (.recv id r step)) (.put i peer.toNat k r)
  | .recv id r step =>
    let down ← int (id - step)
    let peer ← bar.wrap down
    s.chanTurn i (bar.entry id peer) self .recvNotify
      ((int (step * 2)).map fun twice => loopTop bar id (r + 1) twice.toNat)
      (.got i peer.toNat k r)
  | .ret =>
    return ({ s with part := Function.update s.part i { done := k + 1, pc := .idle } }, .ret i k)
  | .failed => none

/-- The turn of a participant that goes on has no value. -/
def Sys.Undefined (bar : Barrier) (s : Sys B) (i : ℕ) : Prop :=
  i < bar.cores.length ∧ (s.part i).pc ≠ .failed ∧ s.turn bar i = none

/-- The turns of the participants, in any order; after one without a value, anything. -/
def Step (bar : Barrier) (s : Sys B) (e : Ev) (s' : Sys B) : Prop :=
  ∃ i, s.turn bar i = some (s', e) ∨ s.Undefined bar i

/-- The start: the channels are made and nobody waits. -/
def Sys.init (chan : Heap B) : Sys B :=
  { part := fun _ => { done := 0, pc := .idle }, chan := chan }

/-! ## 3. What the loops compute -/

section Loops

variable {create : UInt32 → UInt32 → Except Errval B.State} {cores : List UInt32}

/-- A value that fits. -/
theorem int_eq {x : ℤ} (hlow : -2 ^ 31 ≤ x) (hhigh : x < 2 ^ 31) : int x = some x :=
  if_pos ⟨hlow, hhigh⟩

theorem int_eq_none {x : ℤ} (h : 2 ^ 31 ≤ x) : int x = none :=
  if_neg fun hx => absurd hx.2 (Int.not_lt.mpr h)

/-- A count of participants that is an `int` is kept. -/
theorem bmod_count {n : ℕ} (h : n < 2 ^ 31) : Int.bmod n (2 ^ 32) = n :=
  Int.bmod_eq_of_le (by omega) (by omega)

/-- With distinct ids, every node finds its place. -/
theorem myId_eq {bar : Barrier} (hnum : bar.numThreads = bar.cores.length) (h : bar.cores.Nodup)
    {i : ℕ} {self : UInt32} (hi : bar.cores[i]? = some self) : myId bar self = i := by
  obtain ⟨hlt, rfl⟩ := List.getElem?_eq_some_iff.mp hi
  -- up to `m` the search has found `i` if it has passed it
  have hsearch : ∀ m ≤ bar.cores.length, (List.range m).foldl
      (fun id j => if bar.cores[j]? = some bar.cores[i] then j else id) 0 =
        if i < m then i else 0 := by
    intro m
    induction m with
    | zero => simp
    | succ m ih =>
      intro hm
      rw [List.range_succ, List.foldl_append, ih (by omega)]
      have hiff : bar.cores[m]? = some bar.cores[i] ↔ m = i := by
        rw [List.getElem?_eq_getElem (by omega), Option.some.injEq, h.getElem_inj_iff]
      simp only [List.foldl_cons, List.foldl_nil, hiff]
      split <;> rename_i hcase
      · rw [if_pos (by omega), hcase]
      · by_cases him : i < m
        · rw [if_pos him, if_pos (by omega)]
        · rw [if_neg him, if_neg (by omega)]
  rw [myId, hnum, Int.toNat_natCast, hsearch _ (Nat.le_refl _), if_pos hlt]

theorem wrapLoop_of_nonneg (n turns : ℕ) {peer : ℤ} (h : 0 ≤ peer) :
    wrapLoop n turns peer = peer := by
  cases turns with
  | zero => rfl
  | succ turns => exact if_neg (Int.not_lt.mpr h)

/-- The loop ends where its condition fails. -/
theorem wrapPeer_nonneg {n : ℕ} (hn : 0 < n) (peer : ℤ) : 0 ≤ wrapPeer n peer := by
  have hloop : ∀ (turns : ℕ) (p : ℤ), -p ≤ turns → 0 ≤ wrapLoop n turns p := by
    intro turns
    induction turns with
    | zero =>
      intro p hp
      simp only [wrapLoop]
      omega
    | succ turns ih =>
      intro p hp
      simp only [wrapLoop]
      split
      · exact ih _ (by omega)
      · omega
  exact hloop _ peer (by omega)

/-- Down by less than the number of participants, the loop turns at most once. -/
theorem wrapPeer_eq {n i s : ℕ} (hs : s < n) :
    (wrapPeer n ((i : ℤ) - s)).toNat = if s ≤ i then i - s else i + n - s := by
  unfold wrapPeer
  split
  · rw [wrapLoop_of_nonneg _ _ (by omega)]
    omega
  · obtain ⟨turns, hturns⟩ : ∃ turns, (-((i : ℤ) - s)).toNat = turns + 1 :=
      ⟨s - i - 1, by omega⟩
    rw [hturns, wrapLoop, if_pos (by omega), wrapLoop_of_nonneg _ _ (by omega)]
    omega

/-- As an integer, and in the loop of the barrier. -/
theorem Barrier.wrap_eq {bar : Barrier} {n i s : ℕ} (hnum : bar.numThreads = n) (hs : s < n) :
    bar.wrap ((i : ℤ) - s) = some ((if s ≤ i then i - s else i + n - s : ℕ) : ℤ) := by
  have hnonneg := wrapPeer_nonneg (Nat.lt_of_le_of_lt (Nat.zero_le s) hs) ((i : ℤ) - s)
  rw [Barrier.wrap, if_pos (.inr (by omega)), hnum, Int.toNat_natCast, ← wrapPeer_eq hs,
    Int.toNat_of_nonneg hnonneg]

/-- The places are in the square array. -/
theorem square_lt {n i j : ℕ} (hi : i < n) (hj : j < n) : i * n + j < n * n := by
  rw [Nat.mul_comm i]
  exact Nat.mul_add_lt_mul_of_lt_of_lt hi hj

/-- Up to 46340 participants, every index fits. -/
theorem Barrier.entry_eq {bar : Barrier} {n i j : ℕ} (hnum : bar.numThreads = n) (hn : n ≤ 46340)
    (hi : i < n) (hj : j < n) : bar.entry i (j : ℕ) = bar.channels (i * n + j) := by
  have hplace := square_lt hi hj
  have hsquare : n * n ≤ 46340 * 46340 := Nat.mul_le_mul hn hn
  have hrow : (i : ℤ) * bar.numThreads = (i * n : ℕ) := by rw [hnum, Int.natCast_mul]
  simp only [Barrier.entry, hrow, Option.bind_eq_bind]
  rw [int_eq (by omega) (by omega), Option.bind_some, ← Int.natCast_add,
    int_eq (by omega) (by omega), Option.bind_some, if_pos (Int.natCast_nonneg _),
    Int.toNat_natCast]

theorem mem_turns {n i j : ℕ} : (i, j) ∈ turns n ↔ i ≤ j ∧ j < n := by
  simp only [turns, List.mem_flatMap, List.mem_range, List.mem_map, List.mem_range'_1,
    Prod.mk.injEq]
  constructor
  · rintro ⟨i', hi', j', hj', rfl, rfl⟩
    omega
  · intro h
    exact ⟨i, by omega, j, by omega, rfl, rfl⟩

/-- And no two are the same. -/
theorem place_inj {n i j i' j' : ℕ} (hj : j < n) (hj' : j' < n) (h : i * n + j = i' * n + j') :
    i = i' ∧ j = j' := by
  have hn : 0 < n := by omega
  have h1 : (i * n + j) / n = i := by
    rw [Nat.mul_comm, Nat.mul_add_div hn, Nat.div_eq_of_lt hj, Nat.add_zero]
  have h2 : (i' * n + j') / n = i' := by
    rw [Nat.mul_comm, Nat.mul_add_div hn, Nat.div_eq_of_lt hj', Nat.add_zero]
  have heq : i = i' := by rw [← h1, ← h2, h]
  subst heq
  exact ⟨rfl, by omega⟩

theorem initPlace_eq {n i j : ℕ} (hn : n ≤ 2 ^ 16) (hi : i < n) (hj : j < n) :
    initPlace n i j = i * n + j := by
  have hsquare : n * n ≤ 2 ^ 16 * 2 ^ 16 := Nat.mul_le_mul hn hn
  exact Nat.mod_eq_of_lt (Nat.lt_of_lt_of_le (square_lt hi hj) hsquare)

/-- What the loops have set up after the turns `done`. -/
structure SetUp (create : UInt32 → UInt32 → Except Errval B.State) (cores : List UInt32)
    (done : List ChanRef) (st : (ℕ → Option ChanRef) × Heap B) : Prop where
  place : ∀ i j, (i, j) ∈ done → st.1 (i * cores.length + j) = some (i, j) ∧
    st.1 (j * cores.length + i) = some (i, j)
  made : ∀ i j, (i, j) ∈ done → ∃ qp, create (cores.getD i 0) (cores.getD j 0) = .ok qp ∧
    st.2 (i, j) = some { owner := cores.getD i 0, qp := qp }

/-- One turn of the loops. -/
theorem setUp_turn (hn : cores.length ≤ 2 ^ 16) {done : List ChanRef}
    {st st' : (ℕ → Option ChanRef) × Heap B} {ref : ChanRef}
    (hle : ∀ r ∈ done, r.1 ≤ r.2 ∧ r.2 < cores.length) (href : ref.1 ≤ ref.2 ∧ ref.2 < cores.length)
    (h : SetUp create cores done st) (hturn : initTurn create cores st ref = .ok st') :
    SetUp create cores (done ++ [ref]) st' := by
  obtain ⟨a, b⟩ := ref
  unfold initTurn at hturn
  cases hc : create (cores.getD a 0) (cores.getD b 0) with
  | error e => simp only [hc, reduceCtorEq] at hturn
  | ok qp =>
    have hplaces : initPlace cores.length a b = a * cores.length + b ∧
        initPlace cores.length b a = b * cores.length + a :=
      ⟨initPlace_eq hn (Nat.lt_of_le_of_lt href.1 href.2) href.2,
        initPlace_eq hn href.2 (Nat.lt_of_le_of_lt href.1 href.2)⟩
    simp only [hc, hplaces, Except.ok.injEq] at hturn
    subst hturn
    constructor
    · intro i j hmem
      rcases List.mem_append.mp hmem with hmem | hmem
      · have hij := hle _ hmem
        obtain ⟨h1, h2⟩ := h.place i j hmem
        -- only the turn `(i, j)` writes the places of `(i, j)`
        by_cases heq : (i, j) = (a, b)
        · obtain ⟨rfl, rfl⟩ := Prod.mk.inj heq
          by_cases hd : i = j
          · subst hd
            simp
          · simp [Function.update_apply]
        · have hne : ∀ x y : ℕ, (x = i ∧ y = j ∨ x = j ∧ y = i) →
              x * cores.length + y ≠ b * cores.length + a ∧
              x * cores.length + y ≠ a * cores.length + b := by
            intro x y hxy
            refine ⟨fun he => heq ?_, fun he => heq ?_⟩
            · have := place_inj (by omega) (by omega) he
              rw [Prod.mk.injEq]
              omega
            · have := place_inj (by omega) (by omega) he
              rw [Prod.mk.injEq]
              omega
          have hp1 := hne i j (.inl ⟨rfl, rfl⟩)
          have hp2 := hne j i (.inr ⟨rfl, rfl⟩)
          simp only [Function.update_of_ne hp1.1, Function.update_of_ne hp1.2,
            Function.update_of_ne hp2.1, Function.update_of_ne hp2.2]
          exact ⟨h1, h2⟩
      · obtain ⟨rfl, rfl⟩ := Prod.mk.inj (List.mem_singleton.mp hmem)
        simp [Function.update_apply]
    · intro i j hmem
      by_cases heq : (i, j) = (a, b)
      · obtain ⟨rfl, rfl⟩ := Prod.mk.inj heq
        exact ⟨qp, hc, Function.update_self ..⟩
      · rcases List.mem_append.mp hmem with hmem | hmem
        · simp only [Function.update_of_ne heq]
          exact h.made i j hmem
        · exact absurd (List.mem_singleton.mp hmem) heq

theorem setUp_loop (hn : cores.length ≤ 2 ^ 16) {st : (ℕ → Option ChanRef) × Heap B}
    (hloop : (turns cores.length).foldlM (initTurn create cores) (fun _ => none, fun _ => none) =
      .ok st) : SetUp create cores (turns cores.length) st := by
  refine Loop.foldlM_done (SetUp create cores) ⟨by simp, by simp⟩ ?_ hloop
  intro done ref st st' hpre h hturn
  have hle : ∀ r ∈ done ++ [ref], r.1 ≤ r.2 ∧ r.2 < cores.length :=
    fun r hr => mem_turns.mp (hpre.subset hr)
  exact setUp_turn hn (fun r hr => hle r (List.mem_append_left _ hr))
    (hle ref (List.mem_append_right _ (List.mem_singleton_self ref))) h hturn

/-- **What `smlt_dissem_barrier_init` sets up**: as long as the indices do not wrap, one channel for
each unordered pair, in both of its places, owned by the lower of the two. -/
theorem dissemBarrierInit_spec {bar : Barrier} {chan : Heap B}
    (h : dissemBarrierInit create cores = .ok (bar, chan)) :
    bar.numThreads = Int.bmod cores.length (2 ^ 32) ∧ bar.rounds = Nat.clog 2 cores.length ∧
      bar.cores = cores ∧ (cores.length ≤ 2 ^ 16 → ∀ i j, i ≤ j → j < cores.length →
        bar.channels (i * cores.length + j) = some (i, j) ∧
        bar.channels (j * cores.length + i) = some (i, j) ∧
        ∃ qp, create (cores.getD i 0) (cores.getD j 0) = .ok qp ∧
          chan (i, j) = some { owner := cores.getD i 0, qp := qp }) := by
  unfold dissemBarrierInit at h
  rw [bind_eq_ok] at h
  obtain ⟨st, hloop, hret⟩ := h
  simp only [pure, Except.pure, Except.ok.injEq, Prod.mk.injEq] at hret
  obtain ⟨rfl, rfl⟩ := hret
  dsimp only
  refine ⟨rfl, rfl, rfl, fun hn i j hij hj => ?_⟩
  have hset := setUp_loop hn hloop
  have hmem : (i, j) ∈ turns cores.length := mem_turns.mpr ⟨hij, hj⟩
  exact ⟨(hset.place i j hmem).1, (hset.place i j hmem).2, hset.made i j hmem⟩

/-- The queue pairs are as they were created. -/
theorem dissemBarrierInit_fresh {fresh : B.State → Prop}
    (hcreate : ∀ src dst w, create src dst = .ok w → fresh w) {bar : Barrier} {chan : Heap B}
    (h : dissemBarrierInit create cores = .ok (bar, chan)) :
    ∀ ref c, chan ref = some c → fresh c.qp := by
  unfold dissemBarrierInit at h
  rw [bind_eq_ok] at h
  obtain ⟨st, hloop, hret⟩ := h
  simp only [pure, Except.pure, Except.ok.injEq, Prod.mk.injEq] at hret
  obtain ⟨-, rfl⟩ := hret
  refine Loop.foldlM_done (fun _ st => ∀ ref c, st.2 ref = some c → fresh c.qp)
    (fun ref c hc => by cases hc) ?_ hloop
  rintro done turn st st' - hst hturn ref c hc
  unfold initTurn at hturn
  cases hqp : create (cores.getD turn.1 0) (cores.getD turn.2 0) with
  | error e => simp only [hqp, reduceCtorEq] at hturn
  | ok qp =>
    simp only [hqp, Except.ok.injEq] at hturn
    subst hturn
    rcases eq_or_ne ref turn with rfl | hne
    · simp only [Function.update_self, Option.some.injEq] at hc
      subst hc
      exact hcreate _ _ _ hqp
    · simp only [Function.update_of_ne hne] at hc
      exact hst ref c hc

/-- With queue pairs to be had for the asking, the barrier is set up. -/
theorem dissemBarrierInit_ok (hcreate : ∀ src dst, ∃ qp, create src dst = .ok qp) :
    ∃ bar chan, dissemBarrierInit create cores = .ok (bar, chan) := by
  have hturn : ∀ (st : (ℕ → Option ChanRef) × Heap B) (ref : ChanRef),
      ∃ st', initTurn create cores st ref = .ok st' := by
    intro st ref
    obtain ⟨qp, hqp⟩ := hcreate (cores.getD ref.1 0) (cores.getD ref.2 0)
    simp only [initTurn, hqp]
    exact ⟨_, rfl⟩
  obtain ⟨st, hst⟩ := Loop.foldlM_total hturn (l := turns cores.length)
    (fun _ => none, fun _ => none)
  unfold dissemBarrierInit
  rw [hst]
  exact ⟨_, _, rfl⟩

end Loops

section Turn

variable {bar : Barrier} {s : Sys B} {i id r step : ℕ} {self : UInt32}

theorem turn_notify_eq (hself : bar.cores[i]? = some self)
    (hpc : (s.part i).pc = .notify id r step) :
    s.turn bar i = (int (id + step)).bind fun up =>
      s.chanTurn i (bar.entry id (Int.tmod up bar.numThreads)) self .notify
        (some (.recv id r step)) (.put i (Int.tmod up bar.numThreads).toNat (s.part i).done r) := by
  simp only [Sys.turn, hself, Option.bind_eq_bind, Option.bind_some]
  rw [hpc]

theorem turn_recv_eq (hself : bar.cores[i]? = some self) (hpc : (s.part i).pc = .recv id r step) :
    s.turn bar i = (int (id - step)).bind fun down => (bar.wrap down).bind fun peer =>
      s.chanTurn i (bar.entry id peer) self .recvNotify
        ((int (step * 2)).map fun twice => loopTop bar id (r + 1) twice.toNat)
        (.got i peer.toNat (s.part i).done r) := by
  simp only [Sys.turn, hself, Option.bind_eq_bind, Option.bind_some]
  rw [hpc]

end Turn

end Smelt.Dissem
