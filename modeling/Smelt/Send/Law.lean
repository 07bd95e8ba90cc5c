/-
# A successful send is a delivered send, when it fits

The contract of `Path.lean` for the five ways to send: `smlt_queuepair_send` on the three backends
(`Pair.lean`), `smlt_channel_send` on a 1:n channel, and `smlt_send` between the nodes of a mesh.
Each of them can return `SMLT_SUCCESS` without having delivered anything, and `success_iff_fits`
says exactly when:

* a message is longer than a slot of the queue it goes to;
* the caller of `smlt_channel_send` is not the owner, and is not exactly once among
  the destinations;
* a node sends to ITSELF: its channel to itself was never created, and has no queue pair to fail on.

In all other cases the message is delivered: one queue of the destination has one message more,
which carries all the words, and every other message, control word and queue is as it was.  All
this goes as long as every send fits: after one that does not, a queue may be in no order to take
the next.  A 1:n channel has 2 to 63 destinations here, the layout of its queue being wrong for
more (`Swmr.geometry_sound_iff`).
-/
import Smelt.Send.Pair
import Smelt.Node

namespace Smelt.Send

open Ring

/-! ## 1. 1:n channels -/

/-- A queue nothing is ever put into. -/
def View.empty : View where
  readers := [[]]
  next := 0
  ctrl _ := 0

/-- The queues of a 1:n channel: from the owner to the `R` readers, and the two directions of the
queue pair of each destination. -/
inductive ChanQueue
  | owner
  | pair (i : ℕ) (d : Side)
  deriving DecidableEq

/-- A single-writer multi-reader queue with `R` readers. -/
def swmrView (R : ℕ) (w : Swmr.World) : View where
  readers := (List.range R).map fun i =>
    Swmr.announced (w.dst i).numSlots.toNat (w.dst i).lPos.toNat (w.dst i).nextSeq w.shm.slots
  next := w.src.wrap.lPos.toNat
  ctrl slot := w.shm.slots slot 0

/-- A UMP queue pair behind a pointer. -/
def qpView (d : Side) : Option Ump.World → View
  | none => .empty
  | some w => umpView w d

theorem qpView_readers_ne (d : Side) (w : Option Ump.World) : (qpView d w).readers ≠ [] := by
  cases w <;> exact List.cons_ne_nil _ _

def chanView (ch : Channel) : ChanQueue → View
  | .owner =>
    match ch.sendOwner with
    | none => .empty
    | some w => swmrView ch.m w
  | .pair i d => qpView d (ch.qp i)

/-- The calls on the queues of a channel, but for the sends: the owner's notifications, receives,
and the calls on the queue pairs. -/
inductive ChanAct
  | notify
  | recv (i : ℕ) (payload : Bool)
  | call (i : ℕ) (d : Side) (c : Call)

def chanAct (ch : Channel) : ChanAct → Option Channel
  | .notify =>
    match ch.sendOwner with
    | none => none
    | some w => (w.sendRaw none).map fun w' => { ch with sendOwner := some w' }
  | .recv i payload =>
    match ch.sendOwner with
    | none => none
    | some w =>
      if i < ch.m then
        (w.recvRaw i payload).map fun w' => { ch with sendOwner := some w' }
      else none
  | .call i d c =>
    match ch.qp i with
    | none => none
    | some w =>
      (quietCall Ump.backend w d c).map fun w' =>
        { ch with qp := Function.update ch.qp i (some w') }

/-- `smlt_channel_send` on a 1:n channel.  A caller that does not own the channel reaches the owner
through one of its queue pairs. -/
def channelPath : Path where
  State := Channel
  Caller := ℕ
  Queue := ChanQueue
  Act := ChanAct
  Init ch := ∃ alloc owner dst e, 2 ≤ dst.length ∧ dst.length < 2 ^ 16 ∧
    channelCreate alloc [owner] dst = some (ch, e)
  act := chanAct
  send ch self msg := channelSend self ch msg
  dest ch self q := if ch.owner = self then q = .owner else ∃ i, i < ch.m ∧ q = .pair i .src
  view := chanView
  Fits ch self msg := ch.m ≤ 63 ∧ msg.words.toNat ≤ 7 ∧
    (ch.owner = self ∨ ∃! i : ℕ, ch.dst[i]? = some self)
  Few ch := ch.m ≤ 63

/-- A 1:n channel between the calls. -/
structure ChanOk (ch : Channel) : Prop where
  shm : ch.useShm = true
  dst : ch.dst.length = ch.m
  readers : 1 ≤ ch.m
  owner : ch.m ≤ 63 → ∃ w N, ch.sendOwner = some w ∧ w.Ok N ch.m
  pairs : ∀ i w, ch.qp i = some w → ∃ q, Ump.Holds w q

theorem chanOk_create {alloc : ℕ → Side → Option ℕ} {owner : ℕ} {dst : List ℕ} {ch : Channel}
    {e : Errval} (htwo : 2 ≤ dst.length) (hmax : dst.length < 2 ^ 16)
    (h : channelCreate alloc [owner] dst = some (ch, e)) : ChanOk ch := by
  have hcount : (dst.length.toUInt16).toNat = dst.length :=
    UInt16.toNat_ofNat'.trans (Nat.mod_eq_of_lt hmax)
  have hone : ¬ dst.length = 1 := by omega
  have hlen : ¬ 1 > dst.length := by omega
  simp only [channelCreate, List.length_singleton, gt_iff_lt, Nat.lt_irrefl, false_and, if_false,
    hone, hlen, Option.some.injEq] at h
  obtain ⟨qp, rfl, hmade, -⟩ := createPairs_spec h
  refine ⟨rfl, rfl, Nat.le_of_succ_le htwo, fun hfew => ?_, fun i w hw => ?_⟩
  · have hfew : dst.length ≤ 63 := hfew
    obtain ⟨N, -, hok⟩ := Swmr.ok_create (by omega : 1 ≤ (dst.length.toUInt16).toNat)
      (by omega : (dst.length.toUInt16).toNat ≤ 63)
    rw [hcount] at hok
    exact ⟨_, N, rfl, hok⟩
  · rcases hmade i with hnone | ⟨v, hv, hinit⟩
    · cases hnone.symm.trans hw
    · obtain rfl := Option.some.inj (hv.symm.trans hw)
      exact ⟨_, Ump.holds_init hinit⟩

theorem chanOk_act {ch ch' : Channel} {a : ChanAct} (h : ChanOk ch)
    (ha : chanAct ch a = some ch') : ChanOk ch' := by
  cases a with
  | notify =>
    simp only [chanAct] at ha
    split at ha
    · cases ha
    · rename_i w hw
      obtain ⟨w', hs, rfl⟩ := Option.map_eq_some_iff.mp ha
      refine { h with owner := fun hfew => ?_ }
      obtain ⟨v, N, hv, hok⟩ := h.owner hfew
      obtain rfl := Option.some.inj (hw.symm.trans hv)
      exact ⟨w', N, rfl, Swmr.ok_send hok hs⟩
  | recv i payload =>
    simp only [chanAct] at ha
    split at ha
    · cases ha
    · rename_i w hw
      split at ha
      · obtain ⟨w', hr, rfl⟩ := Option.map_eq_some_iff.mp ha
        refine { h with owner := fun hfew => ?_ }
        obtain ⟨v, N, hv, hok⟩ := h.owner hfew
        obtain rfl := Option.some.inj (hw.symm.trans hv)
        exact ⟨w', N, rfl, Swmr.ok_recv hok ‹_› hr⟩
      · cases ha
  | call i d c =>
    simp only [chanAct] at ha
    split at ha
    · cases ha
    · rename_i v hv
      obtain ⟨v', hq, rfl⟩ := Option.map_eq_some_iff.mp ha
      refine { h with pairs := fun j u hu => ?_ }
      rcases eq_or_ne j i with rfl | hj
      · obtain rfl : v' = u := by simpa using hu
        exact ump_quiet (h.pairs j v hv) hq
      · simp only [Function.update_of_ne hj] at hu
        exact h.pairs j u hu

/-- The number of destinations stays. -/
theorem chanAct_m {ch ch' : Channel} {a : ChanAct} (ha : chanAct ch a = some ch') :
    ch'.m = ch.m := by
  cases a with
  | notify =>
    simp only [chanAct] at ha
    split at ha
    · cases ha
    · obtain ⟨w', -, rfl⟩ := Option.map_eq_some_iff.mp ha
      rfl
  | recv i payload =>
    simp only [chanAct] at ha
    split at ha
    · cases ha
    · split at ha
      · obtain ⟨w', -, rfl⟩ := Option.map_eq_some_iff.mp ha
        rfl
      · cases ha
  | call i d c =>
    simp only [chanAct] at ha
    split at ha
    · cases ha
    · obtain ⟨w', -, rfl⟩ := Option.map_eq_some_iff.mp ha
      rfl

/-! ### The owner -/

/-- **A send by the writer that returns is one message more for every reader.** -/
theorem swmr_appends {N R : ℕ} {w w' : Swmr.World} {msg : Msg} (h : w.Ok N R)
    (hw : msg.words.toNat ≤ 7) (hs : w.sendRaw (some msg.data) = some w') :
    Appends msg.payload (swmrView R w) (swmrView R w') := by
  obtain ⟨hdst, -, hslots⟩ := Swmr.sendRaw_frame hs
  constructor
  · refine ⟨Swmr.words msg.data, ?_, ShmQp.payload_prefix_words hw⟩
    simp only [swmrView, List.map_map]
    refine List.map_congr_left fun i hi => ?_
    have hann := h.send hs (List.mem_range.mp hi)
    have hN : (w.dst i).numSlots.toNat = N := by
      obtain ⟨m, items, r, hinv⟩ := h
      exact (hinv.reader i (List.mem_range.mp hi)).slots
    rw [Function.comp_apply, hdst, hN]
    rw [hdst] at hann
    rw [hann]
    conv_lhs => rw [hslots, words_of_stores]
  · intro slot hslot
    simp only [swmrView, hslots]
    exact header_of_stores _ hslot

variable {ch ch' : Channel} {self : ℕ} {msg : Msg} {e : Errval}

theorem channel_owner (h : ChanOk ch) (hfew : ch.m ≤ 63) (ho : ch.owner = self)
    (hs : channelSend self ch msg = some (ch', e)) :
    (channelPath.Delivered ch self msg ch' ↔ msg.words.toNat ≤ 7) ∧ ChanOk ch' := by
  obtain ⟨w, N, hw, hok⟩ := h.owner hfew
  simp only [channelSend, h.shm, Bool.not_true, Bool.false_eq_true, if_false, ho, if_true, hw] at hs
  obtain ⟨⟨w', e'⟩, hsend, heq⟩ := Option.map_eq_some_iff.mp hs
  obtain ⟨rfl, -⟩ := Prod.mk.inj heq
  have hdest : ∀ q, channelPath.dest ch self q ↔ q = .owner := fun q => by
    simp [channelPath, ho]
  have hview : chanView ch .owner = swmrView ch.m w := by simp only [chanView, hw]
  unfold Swmr.World.send at hsend
  split at hsend
  · rename_i hle
    have hle := UInt32.le_iff_toNat_le.mp hle
    obtain ⟨w'', hraw, heq⟩ := Option.map_eq_some_iff.mp hsend
    obtain ⟨rfl, -⟩ := Prod.mk.inj heq
    refine ⟨⟨fun _ => hle, fun _ => ⟨.owner, (hdest _).mpr rfl, ?_, ?_⟩⟩,
      { h with shm := rfl, owner := fun _ => ⟨w'', N, rfl, Swmr.ok_send hok hraw⟩ }⟩
    · change Appends _ (chanView ch .owner) (swmrView ch.m w'')
      rw [hview]
      exact swmr_appends hok hle hraw
    · intro q hq
      cases q with
      | owner => exact absurd rfl hq
      | pair i d => rfl
  · -- the message is too long, and nothing happens
    rename_i hlong
    obtain ⟨rfl, -⟩ := Prod.mk.inj (Option.some.inj hsend)
    refine ⟨⟨?_, fun hle => absurd (UInt32.le_iff_toNat_le.mpr hle) hlong⟩,
      { h with shm := rfl, owner := fun _ => ⟨w, N, rfl, hok⟩ }⟩
    rintro ⟨q, hq, happ, -⟩
    obtain rfl := (hdest q).mp hq
    have hreaders : (swmrView ch.m w).readers ≠ [] := by
      have := h.readers
      simp only [swmrView, ne_eq, List.map_eq_nil_iff, List.range_eq_nil]
      omega
    have happ : Appends msg.payload (chanView ch .owner) (swmrView ch.m w) := happ
    rw [hview] at happ
    exact absurd rfl (happ.ne hreaders)

/-! ### The other nodes -/

theorem channel_reader (h : ChanOk ch) (ho : ch.owner ≠ self)
    (hs : channelSend self ch msg = some (ch', e)) :
    (channelPath.Delivered ch self msg ch' ↔
      msg.words.toNat ≤ 7 ∧ ∃! i : ℕ, ch.dst[i]? = some self) ∧
      (msg.words.toNat ≤ 7 → ChanOk ch') := by
  simp only [channelSend, h.shm, Bool.not_true, Bool.false_eq_true, if_false, ho] at hs
  obtain ⟨ch'', hloop, heq⟩ := Option.map_eq_some_iff.mp hs
  obtain ⟨rfl, -⟩ := Prod.mk.inj heq
  obtain ⟨⟨qp, hqp⟩, hin, hout⟩ := shmSend_spec List.nodup_range hloop
  have hbound : ∀ i : ℕ, ch.dst[i]? = some self → i ∈ List.range ch.m := fun i hi => by
    rw [List.mem_range, ← h.dst]
    exact (List.getElem?_eq_some_iff.mp hi).1
  have hdest : ∀ q, channelPath.dest ch self q ↔ ∃ i, i < ch.m ∧ q = .pair i .src := fun q => by
    simp [channelPath, ho]
  -- a destination that is the caller gets the message, and the others see nothing
  have hsent : ∀ i : ℕ, ch.dst[i]? = some self →
      (Appends msg.payload (chanView ch (.pair i .src)) (chanView ch'' (.pair i .src)) ↔
        msg.words.toNat ≤ 7) ∧
      chanView ch'' (.pair i .dst) = chanView ch (.pair i .dst) := by
    intro i hi
    obtain ⟨w, w', e', hw, hsend, hw'⟩ := hin i (hbound i hi) hi
    obtain ⟨q, hq⟩ := h.pairs i w hw
    simp only [chanView, hw, hw', qpView]
    exact ⟨(ump_send hq (ump_send_success hsend)).1, (ump_send hq (ump_send_success hsend)).2.1⟩
  have hskip : ∀ i d, ch.dst[i]? ≠ some self →
      chanView ch'' (.pair i d) = chanView ch (.pair i d) := by
    intro i d hi
    simp only [chanView, hout i fun hh => hi hh.2]
  refine ⟨?_, fun hle => ?_⟩
  · constructor
    · rintro ⟨q, hq, happ, hother⟩
      obtain ⟨i, -, rfl⟩ := (hdest q).mp hq
      have hi : ch.dst[i]? = some self := by
        by_contra hne
        exact happ.ne (qpView_readers_ne _ _) (hskip i .src hne)
      refine ⟨(hsent i hi).1.mp happ, i, hi, fun j hj => ?_⟩
      by_contra hne
      have hsame := hother (.pair j .src) (fun he => hne (ChanQueue.pair.inj he).1)
      exact ((hsent j hj).1.mpr ((hsent i hi).1.mp happ)).ne (qpView_readers_ne _ _) hsame
    · rintro ⟨hle, i, hi, huniq⟩
      refine ⟨.pair i .src, (hdest _).mpr ⟨i, List.mem_range.mp (hbound i hi), rfl⟩,
        (hsent i hi).1.mpr hle, ?_⟩
      intro q hq
      cases q with
      | owner =>
        rw [hqp]
        rfl
      | pair j d =>
        by_cases hj : ch.dst[j]? = some self
        · obtain rfl := huniq j hj
          cases d with
          | src => exact absurd rfl hq
          | dst => exact (hsent j hj).2
        · exact hskip j d hj
  · -- the queue pairs that were sent on are in order, and the others as they were
    subst hqp
    refine { h with pairs := fun i v hv => ?_ }
    by_cases hi : ch.dst[i]? = some self
    · obtain ⟨w, w', e', hw, hsend, hw'⟩ := hin i (hbound i hi) hi
      obtain rfl := Option.some.inj (hw'.symm.trans hv)
      obtain ⟨q, hq⟩ := h.pairs i w hw
      exact (ump_send hq (ump_send_success hsend)).2.2 hle
    · exact h.pairs i v ((hout i fun hh => hi hh.2).symm.trans hv)

/-- A send leaves the number of destinations. -/
theorem channelSend_m (h : ch.useShm = true) (hs : channelSend self ch msg = some (ch', e)) :
    ch'.m = ch.m := by
  simp only [channelSend, h, Bool.not_true, Bool.false_eq_true, if_false] at hs
  split at hs
  · split at hs
    · cases hs
    · obtain ⟨r, -, heq⟩ := Option.map_eq_some_iff.mp hs
      obtain ⟨rfl, -⟩ := Prod.mk.inj heq
      rfl
  · obtain ⟨ch'', hloop, heq⟩ := Option.map_eq_some_iff.mp hs
    obtain ⟨rfl, -⟩ := Prod.mk.inj heq
    obtain ⟨⟨qp, rfl⟩, -⟩ := shmSend_spec List.nodup_range hloop
    rfl

theorem channelPath_law : channelPath.Law ChanOk where
  init := fun ⟨_, _, _, _, htwo, hmax, h⟩ => chanOk_create htwo hmax h
  act := chanOk_act
  fits := by
    rintro ch self msg ch' h hs ⟨hfew, hle, hcaller⟩
    by_cases ho : ch.owner = self
    · obtain ⟨hiff, hok⟩ := channel_owner h hfew ho hs
      exact ⟨hiff.mpr hle, hok⟩
    · obtain ⟨hiff, hok⟩ := channel_reader h ho hs
      exact ⟨hiff.mpr ⟨hle, hcaller.resolve_left ho⟩, hok hle⟩
  only := by
    intro ch self msg ch' h hfew hs hdel
    by_cases ho : ch.owner = self
    · exact ⟨hfew, (channel_owner h hfew ho hs).1.mp hdel, .inl ho⟩
    · obtain ⟨hle, huniq⟩ := (channel_reader h ho hs).1.mp hdel
      exact ⟨hfew, hle, .inr huniq⟩
  few := by
    rintro ch e ch' h hfew hstep
    have hm : ch'.m = ch.m := by
      cases e with
      | act a => exact chanAct_m hstep
      | sent x =>
        obtain ⟨rfl, rfl, hsend⟩ := hstep
        exact channelSend_m h.shm hsend
    exact Nat.le_trans (Nat.le_of_eq hm) hfew

/-! ## 2. Nodes -/

/-- The end of a channel that belongs to the node `i`. -/
def sideOf (ch : Channel) (i : ℕ) : Side := if ch.owner = i then .src else .dst

/-- The queue from the node `q.1` to the node `q.2`, where `q.1` finds it. -/
def meshView (mesh : Mesh) (q : ℕ × ℕ) : View :=
  match mesh.chan q.2 q.1 with
  | none => .empty
  | some key => qpView (sideOf (mesh.link key) q.1) ((mesh.link key).qp 0)

/-- A new state of the queue pair of one channel. -/
def setPair (mesh : Mesh) (key : ℕ × ℕ) (w : Ump.World) : Mesh :=
  { mesh with
    link := Function.update mesh.link key
      { mesh.link key with qp := Function.update (mesh.link key).qp 0 (some w) } }

/-- A call by one end of the queue pair of a channel, but for a send that succeeds. -/
def meshAct (mesh : Mesh) (a : (ℕ × ℕ) × Side × Call) : Option Mesh :=
  match (mesh.link a.1).qp 0 with
  | none => none
  | some w =>
    (quietCall Ump.backend w a.2.1 a.2.2).map (setPair mesh a.1)

/-- `smlt_send` by the node `who.1` to the node `who.2`. -/
def nodePath : Path where
  State := Mesh
  Caller := ℕ × ℕ
  Queue := ℕ × ℕ
  Act := (ℕ × ℕ) × Side × Call
  Init mesh := ∃ alloc numProc, mesh = smltInit alloc numProc
  act := meshAct
  send mesh who msg := smltSend who.1 who.2 mesh msg
  dest _ who q := q = who
  view := meshView
  Fits _ who msg := msg.words.toNat ≤ 7 ∧ who.2 ≠ who.1
  Few _ := True

/-- A mesh between the calls. -/
structure MeshOk (mesh : Mesh) : Prop where
  chan : ∀ a b, mesh.chan a b =
    if a ≠ b ∧ a < mesh.count ∧ b < mesh.count then some (min a b, max a b) else none
  link : ∀ key : ℕ × ℕ, key.1 < key.2 → key.2 < mesh.count →
    (mesh.link key).owner = key.1 ∧ (mesh.link key).m = 1 ∧ (mesh.link key).n = 1 ∧
      (mesh.link key).useShm = false
  pairs : ∀ key w, (mesh.link key).qp 0 = some w → ∃ q, Ump.Holds w q

theorem meshOk_init (alloc : ℕ × ℕ → Side → Option ℕ) (numProc : ℕ) :
    MeshOk (smltInit alloc numProc) where
  chan a b := by rw [smltInit_chan, smltInit_count]
  link key hlt hcount := by
    rw [smltInit_count] at hcount
    rw [smltInit_link, if_pos ⟨hlt, hcount⟩]
    obtain ⟨h1, h2, h3, h4, -⟩ := linkCreate_spec alloc key
    exact ⟨h1, h2, h3, h4⟩
  pairs key w hw := by
    rw [smltInit_link] at hw
    split at hw
    · exact ⟨_, Ump.holds_init ((linkCreate_spec alloc key).2.2.2.2 0 w hw)⟩
    · cases hw

theorem MeshOk.setPair {mesh : Mesh} (h : MeshOk mesh) {key : ℕ × ℕ} {w' : Ump.World}
    (hw' : ∃ q, Ump.Holds w' q) : MeshOk (setPair mesh key w') where
  chan := h.chan
  link k hlt hcount := by
    by_cases hk : k = key
    · subst hk
      simpa [Send.setPair] using h.link k hlt hcount
    · simpa [Send.setPair, hk] using h.link k hlt hcount
  pairs k v hv := by
    by_cases hk : k = key
    · subst hk
      obtain rfl : w' = v := by simpa [Send.setPair] using hv
      exact hw'
    · exact h.pairs k v (by simpa [Send.setPair, hk] using hv)

theorem meshOk_act {mesh mesh' : Mesh} {a : (ℕ × ℕ) × Side × Call} (h : MeshOk mesh)
    (ha : meshAct mesh a = some mesh') : MeshOk mesh' := by
  unfold meshAct at ha
  split at ha
  · cases ha
  · rename_i w hw
    obtain ⟨w', hq, rfl⟩ := Option.map_eq_some_iff.mp ha
    exact h.setPair (ump_quiet (h.pairs a.1 w hw) hq)

/-- The view of a queue whose channel is `key`, before and after a new state of its queue pair. -/
theorem meshView_self {mesh : Mesh} {key q : ℕ × ℕ} {w : Ump.World}
    (hkey : mesh.chan q.2 q.1 = some key) (hw : (mesh.link key).qp 0 = some w) :
    meshView mesh q = umpView w (sideOf (mesh.link key) q.1) := by
  simp only [meshView, hkey, hw, qpView]

theorem meshView_setPair {mesh : Mesh} {key q : ℕ × ℕ} {w' : Ump.World}
    (hkey : mesh.chan q.2 q.1 = some key) :
    meshView (setPair mesh key w') q = umpView w' (sideOf (mesh.link key) q.1) := by
  simp only [meshView, setPair, hkey, Function.update_self, qpView, sideOf]

/-- The queues of the other channels are not touched. -/
theorem meshView_other {mesh : Mesh} {key q : ℕ × ℕ} {w' : Ump.World}
    (hkey : mesh.chan q.2 q.1 ≠ some key) :
    meshView (setPair mesh key w') q = meshView mesh q := by
  simp only [meshView, setPair]
  cases hq : mesh.chan q.2 q.1 with
  | none => rfl
  | some key' =>
    have hne : key' ≠ key := fun he => hkey (hq.trans (congrArg some he))
    simp only [Function.update_of_ne hne]

theorem node_other {mesh : Mesh} {nid : ℕ} {key : ℕ × ℕ} (h : MeshOk mesh)
    (hkey : mesh.chan nid self = some key)
    (hs : channelSend self (mesh.link key) msg = some (ch', success)) :
    (nodePath.Delivered mesh (self, nid) msg
        { mesh with link := Function.update mesh.link key ch' } ↔ msg.words.toNat ≤ 7) ∧
      (msg.words.toNat ≤ 7 → MeshOk { mesh with link := Function.update mesh.link key ch' }) := by
  have hchan := h.chan nid self
  rw [hkey] at hchan
  split at hchan
  · rename_i hnodes
    obtain rfl := Option.some.inj hchan
    obtain ⟨howner, hm, hn, hshm⟩ := h.link (min nid self, max nid self)
      (by omega : min nid self < max nid self) (by omega : max nid self < mesh.count)
    obtain ⟨w, w', hw, hsend, rfl⟩ := channelSend_single hshm hm hn hs
    obtain ⟨q, hq⟩ := h.pairs _ w hw
    obtain ⟨hiff, hother, hkeep⟩ := ump_send hq hsend
    -- the other direction of the channel is the other end's
    have hside : sideOf (mesh.link (min nid self, max nid self)) nid =
        (sideOf (mesh.link (min nid self, max nid self)) self).other := by
      have hcases : min nid self = nid ∧ min nid self ≠ self ∨
          min nid self = self ∧ min nid self ≠ nid := by omega
      rcases hcases with ⟨h1, h2⟩ | ⟨h1, h2⟩
      · rw [sideOf, sideOf, howner, if_pos h1, if_neg h2]
        rfl
      · rw [sideOf, sideOf, howner, if_neg h2, if_pos h1]
        rfl
    have hself : Appends msg.payload (meshView mesh (self, nid))
        (meshView (setPair mesh (min nid self, max nid self) w') (self, nid)) ↔
        msg.words.toNat ≤ 7 := by
      rw [meshView_self hkey hw, meshView_setPair hkey]
      exact hiff
    refine ⟨⟨?_, fun hle => ?_⟩, fun hle => h.setPair (hkeep hle)⟩
    · rintro ⟨q', rfl, happ, -⟩
      exact hself.mp happ
    · refine ⟨(self, nid), rfl, hself.mpr hle, ?_⟩
      rintro ⟨i, j⟩ hne
      by_cases hq' : mesh.chan j i = some (min nid self, max nid self)
      · have hchan' := h.chan j i
        rw [hq'] at hchan'
        split at hchan'
        · obtain ⟨rfl, rfl⟩ : i = nid ∧ j = self := by
            obtain ⟨h1, h2⟩ := Prod.mk.inj (Option.some.inj hchan')
            have hne : ¬ (i = self ∧ j = nid) := fun he => hne (Prod.ext he.1 he.2)
            omega
          change meshView (setPair mesh (min i j, max i j) w') (i, j) = meshView mesh (i, j)
          rw [meshView_self hq' hw, meshView_setPair hq', hside]
          exact hother
        · cases hchan'
      · exact meshView_other hq'
  · cases hchan

/-- A node has no channel to itself: the loop over its `m = n = 0` queue pairs is empty. -/
theorem node_self {mesh : Mesh} {nid : ℕ} (hnone : mesh.chan nid self = none) :
    ¬ nodePath.Delivered mesh (self, nid) msg mesh := by
  rintro ⟨q, rfl, happ, -⟩
  have hview : meshView mesh (self, nid) = .empty := by simp only [meshView, hnone]
  have happ : Appends msg.payload (meshView mesh (self, nid)) (meshView mesh (self, nid)) := happ
  rw [hview] at happ
  exact happ.ne (List.cons_ne_nil _ _) rfl

/-- **A node that sends to another one reaches it, and one that sends to itself reaches nobody.** -/
theorem node_send {mesh mesh' : Mesh} {nid : ℕ} (h : MeshOk mesh)
    (hs : smltSend self nid mesh msg = some (mesh', success)) :
    (nodePath.Delivered mesh (self, nid) msg mesh' ↔ msg.words.toNat ≤ 7 ∧ nid ≠ self) ∧
      (msg.words.toNat ≤ 7 ∧ nid ≠ self → MeshOk mesh') := by
  simp only [smltSend] at hs
  have hchan := h.chan nid self
  split at hs
  · split at hs
    · rename_i hnid hself
      split at hs
      · rename_i hnone
        obtain ⟨⟨ch', e⟩, -, heq⟩ := Option.map_eq_some_iff.mp hs
        obtain ⟨rfl, -⟩ := Prod.mk.inj heq
        have hsame : ¬ (msg.words.toNat ≤ 7 ∧ nid ≠ self) := by
          rintro ⟨-, hne⟩
          rw [hnone, if_pos ⟨hne, hnid, hself⟩] at hchan
          cases hchan
        exact ⟨⟨fun hd => absurd hd (node_self hnone), fun hfits => absurd hfits hsame⟩,
          fun _ => h⟩
      · rename_i key hkey
        obtain ⟨⟨ch', e⟩, hsend, heq⟩ := Option.map_eq_some_iff.mp hs
        obtain ⟨rfl, rfl⟩ := Prod.mk.inj heq
        have hne : nid ≠ self := by
          rintro rfl
          rw [hkey, if_neg fun hh => hh.1 rfl] at hchan
          cases hchan
        obtain ⟨hiff, hok⟩ := node_other h hkey hsend
        exact ⟨hiff.trans ⟨fun hle => ⟨hle, hne⟩, fun hfits => hfits.1⟩, fun hfits => hok hfits.1⟩
    · cases hs
  · cases (Prod.mk.inj (Option.some.inj hs)).2

theorem nodePath_law : nodePath.Law MeshOk where
  init := by
    rintro mesh ⟨alloc, numProc, rfl⟩
    exact meshOk_init alloc numProc
  act := meshOk_act
  fits := by
    rintro mesh ⟨self, nid⟩ msg mesh' h hs hfits
    obtain ⟨hiff, hok⟩ := node_send h hs
    exact ⟨hiff.mpr hfits, hok hfits⟩
  only := by
    rintro mesh ⟨self, nid⟩ msg mesh' h - hs hdel
    exact (node_send h hs).1.mp hdel
  few _ _ _ := trivial

/-! ## 3. The law -/

/-- The ways to send. -/
inductive Via
  | ump
  | ffq
  | shm
  | channel
  | node
  deriving DecidableEq, Repr

def Via.path : Via → Path
  | .ump => umpPath
  | .ffq => ffqPath
  | .shm => shmPath
  | .channel => channelPath
  | .node => nodePath

/-- **Sends that return `SMLT_SUCCESS` deliver their messages exactly as long as they fit.**  For
each way to send and every run of calls on the system, with messages of any length, any callers and
any destinations: if all sends that succeeded fitted, then all of them were delivered; and if all of
them were delivered, then all of them fitted, on a 1:n channel where the number of destinations
does.  `Fits` asks for at most seven words, or eight on FFQ, the first not being the reserved one;
on a 1:n channel for at most 63 destinations and a caller that is the owner or exactly once among
them; and between nodes for a destination that is another node. -/
theorem success_iff_fits (via : Via) {s₀ s : via.path.State} {tr : List via.path.Event}
    (hinit : via.path.Init s₀) (hrun : Run via.path.Step s₀ tr s) :
    ((∀ x ∈ Path.sends tr, x.Fits) → ∀ x ∈ Path.sends tr, x.Delivered) ∧
      (via.path.Few s₀ → (∀ x ∈ Path.sends tr, x.Delivered) → ∀ x ∈ Path.sends tr, x.Fits) := by
  cases via with
  | ump => exact ⟨fun h => (umpPath_law.delivers hinit hrun h).2,
      fun hfew => umpPath_law.fitted hinit hfew hrun⟩
  | ffq => exact ⟨fun h => (ffqPath_law.delivers hinit hrun h).2,
      fun hfew => ffqPath_law.fitted hinit hfew hrun⟩
  | shm => exact ⟨fun h => (shmPath_law.delivers hinit hrun h).2,
      fun hfew => shmPath_law.fitted hinit hfew hrun⟩
  | channel => exact ⟨fun h => (channelPath_law.delivers hinit hrun h).2,
      fun hfew => channelPath_law.fitted hinit hfew hrun⟩
  | node => exact ⟨fun h => (nodePath_law.delivers hinit hrun h).2,
      fun hfew => nodePath_law.fitted hinit hfew hrun⟩

/-- Three nodes; node 2 sends a word to node 0, and then two more. -/
theorem success_iff_fits_node :
    ∃ mesh₁ mesh₂ : Mesh,
      smltSend 2 0 (smltInit (fun _ _ => some 4096) 3) ⟨1, fun _ => 7⟩ = some (mesh₁, success) ∧
      smltSend 2 0 mesh₁ ⟨2, fun _ => 9⟩ = some (mesh₂, success) ∧
      nodePath.Delivered (smltInit (fun _ _ => some 4096) 3) (2, 0) ⟨1, fun _ => 7⟩ mesh₁ ∧
      nodePath.Delivered mesh₁ (2, 0) ⟨2, fun _ => 9⟩ mesh₂ := by
  obtain ⟨mesh₁, mesh₂, h₁, h₂⟩ : ∃ mesh₁ mesh₂ : Mesh,
      smltSend 2 0 (smltInit (fun _ _ => some 4096) 3) ⟨1, fun _ => 7⟩ = some (mesh₁, success) ∧
      smltSend 2 0 mesh₁ ⟨2, fun _ => 9⟩ = some (mesh₂, success) := ⟨_, _, rfl, rfl⟩
  refine ⟨mesh₁, mesh₂, h₁, h₂, ?_⟩
  have hinit : nodePath.Init (smltInit (fun _ _ => some 4096) 3) := ⟨_, _, rfl⟩
  generalize smltInit (fun _ _ => some 4096) 3 = mesh₀ at h₁ hinit ⊢
  let x₁ : nodePath.Sent := ⟨mesh₀, ((2, 0) : ℕ × ℕ), ⟨1, fun _ => 7⟩, mesh₁⟩
  let x₂ : nodePath.Sent := ⟨mesh₁, ((2, 0) : ℕ × ℕ), ⟨2, fun _ => 9⟩, mesh₂⟩
  have hrun : Run nodePath.Step mesh₀ ([] ++ [.sent x₁] ++ [.sent x₂]) mesh₂ :=
    .snoc (.snoc .nil ⟨rfl, rfl, h₁⟩) ⟨rfl, rfl, h₂⟩
  have hfits₁ : x₁.Fits := ⟨show (1 : UInt32).toNat ≤ 7 by decide, show (0 : ℕ) ≠ 2 by decide⟩
  have hfits₂ : x₂.Fits := ⟨show (2 : UInt32).toNat ≤ 7 by decide, show (0 : ℕ) ≠ 2 by decide⟩
  have hnone : ∀ x ∈ Path.sends ([] : List nodePath.Event), x.Fits := fun x hx => nomatch hx
  have hdel := (success_iff_fits .node hinit hrun).1
    (Path.forall_sends_snoc.mpr ⟨Path.forall_sends_snoc.mpr ⟨hnone, hfits₁⟩, hfits₂⟩)
  obtain ⟨hfirst, hsecond⟩ := Path.forall_sends_snoc.mp hdel
  exact ⟨(Path.forall_sends_snoc.mp hfirst).2, hsecond⟩

/-- **Each way to send can succeed without delivering.**  On a new UMP queue pair the eighth word of
a message overwrites the control word of the next slot; with the value `1` the receiver finds TWO
messages.  FFQ sends eight of nine words, and SHM sends nothing.  A node that is not part of a 1:n
channel can send on it, and a node can send to itself. -/
theorem success_undelivered :
    (∃ w w', Ump.queuepairInit (fun _ => some 4096) 64 = .ok w ∧
      Ump.backend.send w .src ⟨8, fun _ => 1⟩ = some (w', success) ∧
      (umpView w .src).ctrl 1 = 0 ∧ (umpView w' .src).ctrl 1 = 1 ∧
      (umpView w' .src).readers.map List.length = [2] ∧
      ¬ umpPath.Delivered w .src ⟨8, fun _ => 1⟩ w') ∧
    (∃ w w', Ffq.queuepairInit (fun _ => some fun _ _ => 0) 64 = .ok w ∧
      Ffq.backend.send w .src ⟨9, fun _ => 1⟩ = some (w', success) ∧
      ¬ ffqPath.Delivered w .src ⟨9, fun _ => 1⟩ w') ∧
    (∃ w', ShmQp.backend.send ShmQp.queuepairCreate .src ⟨8, fun _ => 1⟩ = some (w', success) ∧
      ¬ shmPath.Delivered ShmQp.queuepairCreate .src ⟨8, fun _ => 1⟩ w') ∧
    (∃ ch ch', channelCreate (fun _ _ => some 4096) [0] [1, 2] = some (ch, success) ∧
      channelSend 3 ch ⟨1, fun _ => 1⟩ = some (ch', success) ∧
      ¬ channelPath.Delivered ch (3 : ℕ) ⟨1, fun _ => 1⟩ ch') ∧
    ∃ mesh', smltSend 1 1 (smltInit (fun _ _ => some 4096) 2) ⟨1, fun _ => 1⟩ =
        some (mesh', success) ∧
      ¬ nodePath.Delivered (smltInit (fun _ _ => some 4096) 2) (1, 1) ⟨1, fun _ => 1⟩ mesh' := by
  refine ⟨⟨_, _, rfl, rfl, rfl, rfl, rfl, fun hd => ?_⟩, ⟨_, _, rfl, rfl, fun hd => ?_⟩,
    ⟨_, rfl, fun hd => ?_⟩, ⟨_, _, rfl, rfl, fun hd => ?_⟩, _, rfl, fun hd => ?_⟩
  · have hfits := umpPath_law.only (umpPath_law.init ⟨fun _ => some 4096, 64, rfl⟩) trivial rfl hd
    exact absurd hfits (by decide : ¬ (8 : UInt32).toNat ≤ 7)
  · have hfits := ffqPath_law.only
      (ffqPath_law.init ⟨fun _ => some fun _ _ => 0, 64, by decide, rfl⟩) trivial rfl hd
    exact absurd hfits.1 (by decide : ¬ (9 : UInt32).toNat ≤ 8)
  · have hfits := shmPath_law.only (shmPath_law.init rfl) trivial rfl hd
    exact absurd hfits (by decide : ¬ (8 : UInt32).toNat ≤ 7)
  · have hfits := channelPath_law.only (channelPath_law.init
      ⟨fun _ _ => some 4096, 0, [1, 2], _, by decide, by decide, rfl⟩)
      (show 2 ≤ 63 by decide) rfl hd
    rcases hfits.2.2 with howner | ⟨i, hi, -⟩
    · exact absurd howner (by decide : ¬ (0 : ℕ) = 3)
    · have hmem : (3 : ℕ) ∈ [1, 2] := List.mem_of_getElem? hi
      exact absurd hmem (by decide)
  · have hfits := nodePath_law.only (nodePath_law.init ⟨_, _, rfl⟩) trivial rfl hd
    exact absurd rfl hfits.2

end Smelt.Send
