/-
# Channels

`inc/smlt_channel.h` and `src/channel.c`.  A channel with one destination is a UMP queue pair whose
`send` end belongs to the owner.  A channel with several is a single-writer multi-reader queue from
the owner to all of them, and one UMP queue pair for each destination on the way back:
`c.shm.recv[i]` is its sending end, and `c.shm.recv_owner[i]` the end the owner receives on.

`smlt_channel_send` looks at who calls it.  On a 1:n channel it ignores what the queues return, and
a caller that is neither the owner nor in `dst` goes through the loop without sending anything; all
of these end in the `return SMLT_SUCCESS` at the bottom.

The queue pairs are behind pointers: `none` is a `NULL` one, which a creation that failed leaves
behind, and a call that follows it does not return.
-/
import Smelt.Ump.Backend
import Smelt.Shm.Calls

namespace Smelt

/-! ## 1. The channel -/

/-- `struct smlt_channel`.  `qp i` is the pair of `c.mp.send[i]` and `c.mp.recv[i]`, or of
`c.shm.recv[i]` and `c.shm.recv_owner[i]`; the end named first is `Side.src`. -/
structure Channel where
  owner : ℕ
  trg : ℕ
  m : ℕ
  n : ℕ
  useShm : Bool
  qp : ℕ → Option Ump.World
  sendOwner : Option Swmr.World
  dst : List ℕ

/-- A channel in zeroed memory. -/
def Channel.zero : Channel where
  owner := 0
  trg := 0
  m := 0
  n := 0
  useShm := false
  qp _ := none
  sendOwner := none
  dst := []

/-- `SMLT_UMP_DEFAULT_SLOTS`: a page of messages. -/
def umpDefaultSlots : UInt16 := 64

/-- The loop of `smlt_channel_create` over the queue pairs of a 1:n channel. -/
def Channel.createPairs (alloc : ℕ → Side → Option ℕ) : List ℕ → Channel → Channel × Errval
  | [], ch => (ch, success)
  | i :: is, ch =>
    match Ump.queuepairInit (alloc i) umpDefaultSlots with
    | .error e => (ch, errPush e .chanCreate)
    | .ok w => createPairs alloc is { ch with qp := Function.update ch.qp i (some w) }

/-- `smlt_channel_create`.  `alloc i` are the allocations of the `i`-th queue pair; `none` is the
failed assertion on a channel with several sources and destinations. -/
def channelCreate (alloc : ℕ → Side → Option ℕ) (src dst : List ℕ) : Option (Channel × Errval) :=
  let numChan := if src.length > dst.length then src.length else dst.length
  if src.length > 1 ∧ dst.length > 1 then none
  else
    let ch := { Channel.zero with m := dst.length, n := src.length, owner := src.headD 0 }
    if dst.length = 1 then
      let ch := { ch with trg := dst.headD 0 }
      match Ump.queuepairInit (alloc 0) umpDefaultSlots with
      | .error e => some (ch, errPush e .chanCreate)
      | .ok w => some ({ ch with qp := Function.update ch.qp 0 (some w) }, success)
    else
      let ch := { ch with
        useShm := true
        sendOwner := some (Swmr.queueCreate numChan.toUInt16)
        dst := dst }
      some (ch.createPairs alloc (List.range numChan))

/-! ## 2. Sending -/

/-- `smlt_queuepair_send` on the end `d` of the `i`-th pair. -/
def Channel.qpSend (ch : Channel) (i : ℕ) (d : Side) (msg : Msg) : Option (Channel × Errval) :=
  match ch.qp i with
  | none => none
  | some w => (Ump.backend.send w d msg).map fun r =>
      ({ ch with qp := Function.update ch.qp i (some r.1) }, r.2)

/-- The loop of `smlt_channel_send` without shared memory. -/
def Channel.mpSend (self : ℕ) (msg : Msg) : List ℕ → Channel → Option (Channel × Errval)
  | [], ch => some (ch, success)
  | i :: is, ch =>
    match ch.qpSend i (if ch.owner = self then .src else .dst) msg with
    | none => none
    | some (ch, err) =>
      if errIsFail err then some (ch, errPush err .send) else mpSend self msg is ch

/-- The loop of `smlt_channel_send` on a 1:n channel by a caller that does not own it. -/
def Channel.shmSend (self : ℕ) (msg : Msg) : List ℕ → Channel → Option Channel
  | [], ch => some ch
  | i :: is, ch =>
    if ch.dst[i]? = some self then
      match ch.qpSend i .src msg with
      | none => none
      | some (ch, _) => shmSend self msg is ch
    else shmSend self msg is ch

/-- `smlt_channel_send` by the node `self`: one turn of each of its waiting loops. -/
def channelSend (self : ℕ) (ch : Channel) (msg : Msg) : Option (Channel × Errval) :=
  if !ch.useShm then ch.mpSend self msg (List.range (if ch.m > ch.n then ch.m else ch.n))
  else if ch.owner = self then
    match ch.sendOwner with
    | none => none
    | some w => (w.send msg).map fun r => ({ ch with sendOwner := some r.1 }, success)
  else (ch.shmSend self msg (List.range ch.m)).map fun ch => (ch, success)

/-! ## 3. What the loops do -/

section Loops

variable {ch ch' : Channel} {i : ℕ} {d : Side} {self : ℕ} {msg : Msg} {e : Errval}

theorem qpSend_spec (h : ch.qpSend i d msg = some (ch', e)) :
    ∃ w w' : Ump.World, ch.qp i = some w ∧ Ump.backend.send w d msg = some (w', e) ∧
      ch' = { ch with qp := Function.update ch.qp i (some w') } := by
  unfold Channel.qpSend at h
  split at h
  · cases h
  · rename_i w hw
    obtain ⟨⟨w', e'⟩, hsend, heq⟩ := Option.map_eq_some_iff.mp h
    obtain ⟨rfl, rfl⟩ := Prod.mk.inj heq
    exact ⟨w, w', hw, hsend, rfl⟩

/-- **The loop of a 1:n channel sends on the pairs whose destination is the caller**, and on no
other. -/
theorem shmSend_spec {is : List ℕ} (hnd : is.Nodup) (h : ch.shmSend self msg is = some ch') :
    (∃ qp, ch' = { ch with qp := qp }) ∧
      (∀ i, i ∈ is → ch.dst[i]? = some self → ∃ (w w' : Ump.World) (e : Errval), ch.qp i = some w ∧
        Ump.backend.send w .src msg = some (w', e) ∧ ch'.qp i = some w') ∧
      ∀ i, ¬ (i ∈ is ∧ ch.dst[i]? = some self) → ch'.qp i = ch.qp i := by
  induction is generalizing ch with
  | nil =>
    obtain rfl := Option.some.inj h
    exact ⟨⟨ch.qp, rfl⟩, fun i hi => absurd hi List.not_mem_nil, fun _ _ => rfl⟩
  | cons j is ih =>
    obtain ⟨hj, hnd⟩ := List.nodup_cons.mp hnd
    unfold Channel.shmSend at h
    split at h
    · rename_i hmatch
      split at h
      · cases h
      · rename_i ch₁ e hsend
        obtain ⟨w, w', hw, hqp, rfl⟩ := qpSend_spec hsend
        obtain ⟨hsame, hin, hout⟩ := ih hnd h
        refine ⟨hsame, ?_, ?_⟩
        · intro i hi hdst
          rcases List.mem_cons.mp hi with rfl | hi
          · have hlast := hout i fun hh => hj hh.1
            exact ⟨w, w', e, hw, hqp, hlast.trans (Function.update_self i (some w') ch.qp)⟩
          · have hne : i ≠ j := fun he => hj (he ▸ hi)
            obtain ⟨v, v', e', hv, hsend', hv'⟩ := hin i hi hdst
            have hv : Function.update ch.qp j (some w') i = some v := hv
            rw [Function.update_of_ne hne] at hv
            exact ⟨v, v', e', hv, hsend', hv'⟩
        · intro i hi
          have hne : i ≠ j := by
            rintro rfl
            exact hi ⟨List.mem_cons_self, hmatch⟩
          rw [hout i fun hh => hi ⟨List.mem_cons_of_mem _ hh.1, hh.2⟩]
          exact Function.update_of_ne hne _ _
    · rename_i hmatch
      obtain ⟨hsame, hin, hout⟩ := ih hnd h
      refine ⟨hsame, ?_, ?_⟩
      · intro i hi hdst
        rcases List.mem_cons.mp hi with rfl | hi
        · exact absurd hdst hmatch
        · exact hin i hi hdst
      · intro i hi
        exact hout i fun hh => hi ⟨List.mem_cons_of_mem _ hh.1, hh.2⟩

/-- What the loop over the queue pairs has created, and all of them when it succeeds. -/
theorem createPairs_spec {alloc : ℕ → Side → Option ℕ} {is : List ℕ} {e : Errval}
    (h : ch.createPairs alloc is = (ch', e)) :
    ∃ qp, ch' = { ch with qp := qp } ∧
      (∀ i, qp i = ch.qp i ∨
        ∃ w, qp i = some w ∧ Ump.queuepairInit (alloc i) umpDefaultSlots = .ok w) ∧
      (e = success → ∀ i ∈ is, qp i ≠ none) := by
  induction is generalizing ch with
  | nil =>
    obtain ⟨rfl, rfl⟩ := Prod.mk.inj h
    exact ⟨ch.qp, rfl, fun _ => .inl rfl, fun _ i hi => absurd hi List.not_mem_nil⟩
  | cons j is ih =>
    unfold Channel.createPairs at h
    cases hqp : Ump.queuepairInit (alloc j) umpDefaultSlots with
    | error err =>
      rw [hqp] at h
      obtain ⟨rfl, rfl⟩ := Prod.mk.inj h
      exact ⟨ch.qp, rfl, fun _ => .inl rfl, fun he => by cases he⟩
    | ok w =>
      rw [hqp] at h
      obtain ⟨qp, rfl, hmade, hall⟩ := ih h
      have hstep : ∀ i, qp i = ch.qp i ∨
          ∃ w, qp i = some w ∧ Ump.queuepairInit (alloc i) umpDefaultSlots = .ok w := by
        intro i
        rcases hmade i with hi | hi
        · by_cases hij : i = j
          · subst hij
            exact .inr ⟨w, by simpa using hi, hqp⟩
          · exact .inl (by simpa [hij] using hi)
        · exact .inr hi
      refine ⟨qp, rfl, hstep, fun he i hi => ?_⟩
      rcases List.mem_cons.mp hi with rfl | hi
      · rcases hmade i with hsame | ⟨v, hv, -⟩
        · simp [hsame]
        · simp [hv]
      · exact hall he i hi

/-- A channel with one queue pair sends on it, from the end that is the caller's. -/
theorem channelSend_single (hshm : ch.useShm = false) (hm : ch.m = 1) (hn : ch.n = 1)
    (h : channelSend self ch msg = some (ch', success)) :
    ∃ w w' : Ump.World, ch.qp 0 = some w ∧
      Ump.backend.send w (if ch.owner = self then .src else .dst) msg = some (w', success) ∧
      ch' = { ch with qp := Function.update ch.qp 0 (some w') } := by
  have hrange : List.range 1 = [0] := rfl
  simp only [channelSend, hshm, hm, hn, Bool.not_false, if_true, Nat.lt_irrefl, gt_iff_lt, if_false,
    hrange, Channel.mpSend] at h
  split at h
  · cases h
  · rename_i ch₁ e hsend
    obtain ⟨w, w', hw, hqp, rfl⟩ := qpSend_spec hsend
    cases e with
    | nil =>
      simp only [errIsFail, List.isEmpty_nil, Bool.not_true, Bool.false_eq_true, if_false,
        Option.some.injEq, Prod.mk.injEq] at h
      exact ⟨w, w', hw, hqp, h.1.symm⟩
    | cons code rest => simp [errIsFail, errPush, success] at h

end Loops

end Smelt
