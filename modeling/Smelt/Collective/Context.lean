/-
# Collectives on a context

The collectives of the source know no tree.  A node asks the context for its channels, and what it
is given are pointers into the arrays that `smlt_context_create` has filled; which end of a channel
it has comes out of a comparison of the channel's owner with its own id, in every call.

`CtxSys.turn` is one turn of a node in these terms: ids of nodes, queries of the context, operations
of channels (`sendProg`, `recvProg` and the others).  `context_refines` relates it to the machine
over a tree (`Sys.turn`): on a context that was created from a topology that is a tree, the two take
the same turns, one for one.  So what is proved of the runs over a tree holds of the runs on a
context, and nothing else can happen there.

A node looks up its channels at the start of a call.  Here it does so in every turn, which is the
same: creation is the last to write to the pointers and the counts.
-/
import Smelt.Collective.Finish
import Smelt.Node.Routing
import Smelt.Topology.Trees

namespace Smelt

open Send (sideOf)

/-! ## 1. The channels of a created context -/

/-- `smlt_context_node_get_child_idx`; the id is not tested. -/
def contextNodeGetChildIdx (ctx : SmltContext) (nid : ℕ) : Option ℕ :=
  (ctx.nidToNode nid).map fun x => (ctx.node x).index

/-- The context after an operation on one of its channels. -/
def SmltContext.setChannel (ctx : SmltContext) (ptr : ChannelPtr) (ch : Channel) : SmltContext :=
  { ctx with
    node := Function.update ctx.node ptr.1
      { ctx.node ptr.1 with children := Function.update (ctx.node ptr.1).children ptr.2 ch } }

section Channels

variable {ctx : SmltContext} {ptr ptr' : ChannelPtr} {ch : Channel} {nid : ℕ}

@[simp] theorem channel_setChannel :
    (ctx.setChannel ptr ch).channel ptr' = if ptr' = ptr then ch else ctx.channel ptr' := by
  obtain ⟨x, i⟩ := ptr
  obtain ⟨y, j⟩ := ptr'
  simp only [SmltContext.channel, SmltContext.setChannel, Prod.mk.injEq]
  by_cases hx : y = x
  · subst hx
    by_cases hj : j = i
    · simp [hj]
    · simp [hj]
  · simp [hx]

/-- An operation on a channel changes nothing that the queries look at. -/
theorem setChannel_node (x : ℕ) :
    ((ctx.setChannel ptr ch).node x).parent = (ctx.node x).parent ∧
      ((ctx.setChannel ptr ch).node x).numChildren = (ctx.node x).numChildren ∧
      ((ctx.setChannel ptr ch).node x).index = (ctx.node x).index := by
  by_cases hx : x = ptr.1
  · subst hx
    simp [SmltContext.setChannel]
  · simp [SmltContext.setChannel, hx]

@[simp] theorem getChildrenChannels_setChannel :
    getChildrenChannels (ctx.setChannel ptr ch) nid = getChildrenChannels ctx nid := by
  unfold getChildrenChannels
  simp only [(setChannel_node _).2.1]
  rfl

@[simp] theorem getParentChannel_setChannel :
    getParentChannel (ctx.setChannel ptr ch) nid = getParentChannel ctx nid := by
  unfold getParentChannel SmltContext.lookup
  simp only [apply_ite (Option.map ContextNode.parent), Option.map_map, Function.comp_def,
    (setChannel_node _).1]
  rfl

@[simp] theorem contextNodeIsRoot_setChannel :
    contextNodeIsRoot (ctx.setChannel ptr ch) nid = contextNodeIsRoot ctx nid := by
  unfold contextNodeIsRoot
  simp only [(setChannel_node _).1]
  rfl

@[simp] theorem contextNodeGetChildIdx_setChannel :
    contextNodeGetChildIdx (ctx.setChannel ptr ch) nid = contextNodeGetChildIdx ctx nid := by
  unfold contextNodeGetChildIdx
  simp only [(setChannel_node _).2.2]
  rfl

end Channels

section Create

universe u

variable {ι : Type u} {alloc : ℕ → ℕ → ℕ → Side → Option ℕ} {topo : Topology} {t : WiredTree ι}
  {pos : ι → ℕ} {ctx : SmltContext}

/-- What the first pass puts into the array of the node at position `x`. -/
theorem createChannels_made {x : ℕ} {n n' : ContextNode}
    (hrun : createChannels alloc topo x n = some n') :
    ∀ i, i < (topo.node x).numChildren → ∃ child e, (topo.node x).children i = some child ∧
      channelCreate (alloc x i) [(topo.node x).nodeId] [(topo.node child).nodeId] =
        some (n'.children i, e) := by
  refine Loop.foldlM_keeps (fun k n => ∀ i, i < k → ∃ child e,
    (topo.node x).children i = some child ∧
      channelCreate (alloc x i) [(topo.node x).nodeId] [(topo.node child).nodeId] =
        some (n.children i, e)) (fun i hi => absurd hi (Nat.not_lt_zero i)) ?_ hrun
  intro k n n' hk hI hturn i hi
  obtain ⟨child, hchild, hturn⟩ := Option.bind_eq_some_iff.mp hturn
  obtain ⟨⟨chan, e⟩, hcreate, hturn⟩ := Option.bind_eq_some_iff.mp hturn
  obtain rfl := Option.some.inj hturn
  by_cases hik : i = k
  · subst hik
    exact ⟨child, e, hchild, by simpa using hcreate⟩
  · simp only [Function.update_of_ne hik]
    exact hI i (by omega)

/-- The third pass leaves the arrays alone. -/
theorem linkParent_children {ctx' : SmltContext} {i : ℕ} (hrun : linkParent topo ctx i = some ctx')
    (x : ℕ) : (ctx'.node x).children = (ctx.node x).children := by
  unfold linkParent at hrun
  simp only at hrun
  split at hrun
  · rw [Option.some.inj hrun]
  · obtain ⟨parent, -, hrun⟩ := Option.bind_eq_some_iff.mp hrun
    obtain ⟨n, -, hrun⟩ := Option.bind_eq_some_iff.mp hrun
    -- whichever branch it is, the stores go to the parent pointer and the index
    obtain ⟨node, rfl, hsame⟩ : ∃ node : ContextNode,
        ctx' = { ctx with node := Function.update ctx.node n node } ∧
          node.children = (ctx.node n).children := by
      split at hrun
      · obtain ⟨childUseShm, -, hrun⟩ := Option.bind_eq_some_iff.mp hrun
        split at hrun
        · exact ⟨_, (Option.some.inj hrun).symm, rfl⟩
        · exact ⟨_, (Option.some.inj hrun).symm, rfl⟩
      · exact ⟨_, (Option.some.inj hrun).symm, rfl⟩
    by_cases hx : x = n
    · simp only [hx, Function.update_self, hsame]
    · simp only [Function.update_of_ne hx]

/-- **Every entry of a children array is a channel that was created for it.** -/
theorem contextCreate_made (h : IsTree topo t pos) (hrun : contextCreate alloc topo = some ctx)
    {p c : ι} {i : ℕ} (hc : (t.children p)[i]? = some c) :
    ∃ e, channelCreate (alloc (pos p) i) [topo.nid pos p] [topo.nid pos c] =
      some (ctx.channel (pos p, i), e) := by
  obtain ⟨ctx₁, hrun₁, hrun⟩ := Option.bind_eq_some_iff.mp hrun
  have hfirst : ∀ v, pos v < topo.numNodes → ∀ (i : ℕ) (c : ι), (t.children v)[i]? = some c →
      ∃ e, channelCreate (alloc (pos v) i) [topo.nid pos v] [topo.nid pos c] =
        some (ctx₁.channel (pos v, i), e) := by
    refine Loop.foldlM_keeps (fun k ctx => ∀ v, pos v < k → ∀ (i : ℕ) (c : ι),
      (t.children v)[i]? = some c → ∃ e, channelCreate (alloc (pos v) i) [topo.nid pos v]
        [topo.nid pos c] = some (ctx.channel (pos v, i), e))
      (fun v hv => absurd hv (Nat.not_lt_zero _)) ?_ hrun₁
    intro k ctx ctx' hk hI hturn v hv i c hc
    obtain ⟨n, hmade, hturn⟩ := Option.bind_eq_some_iff.mp hturn
    obtain ⟨n', hshm, hturn⟩ := Option.bind_eq_some_iff.mp hturn
    obtain rfl := Option.some.inj hturn
    by_cases hvk : pos v = k
    · subst hvk
      obtain rfl : n = n' := by simpa [createShmChannel, h.noShm v] using hshm
      have hi : i < (topo.node (pos v)).numChildren := by
        rw [h.numChildren v]
        exact (List.getElem?_eq_some_iff.mp hc).1
      obtain ⟨child, e, hchild, hcreate⟩ := createChannels_made hmade i hi
      rw [(h.child v i c hc).1] at hchild
      obtain rfl := Option.some.inj hchild
      exact ⟨e, by simpa [SmltContext.channel, Topology.nid] using hcreate⟩
    · simp only [SmltContext.channel, Function.update_of_ne hvk]
      exact hI v (by omega) i c hc
  have hsecond : ∀ x, (((List.range topo.numNodes).foldl enterNode ctx₁).node x) = ctx₁.node x := by
    intro x
    induction topo.numNodes with
    | zero => rfl
    | succ k ih =>
      rw [List.range_succ, List.foldl_append]
      exact ih
  have hthird : ∀ x, (ctx.node x).children = (ctx₁.node x).children := by
    refine Loop.foldlM_keeps
      (fun _ ctx => ∀ x, (ctx.node x).children = (ctx₁.node x).children) ?_ ?_
      hrun
    · intro x
      rw [hsecond]
    · intro i ctx ctx' _ hI hturn x
      rw [linkParent_children hturn, hI]
  have hsame : ctx.channel (pos p, i) = ctx₁.channel (pos p, i) := by
    simp only [SmltContext.channel, hthird]
  rw [hsame]
  exact hfirst p (h.lt p) i c hc

/-- A channel between two nodes: what `smlt_channel_create` returns, when its queue pair could be
created. -/
theorem channelCreate_link {alloc : ℕ → Side → Option ℕ} {src dst : ℕ} {ch : Channel} {e : Errval}
    {w : Ump.World} (hrun : channelCreate alloc [src] [dst] = some (ch, e))
    (hqp : Ump.queuepairInit (alloc 0) umpDefaultSlots = .ok w) :
    IsLink ch src ∧ ch.trg = dst ∧ ch.qp 0 = some w := by
  simp only [channelCreate, hqp] at hrun
  simp only [List.length_singleton, gt_iff_lt, Nat.lt_irrefl, and_self, if_false, if_true,
    Option.some.injEq, Prod.mk.injEq] at hrun
  obtain ⟨rfl, -⟩ := hrun
  exact ⟨⟨rfl, rfl, rfl, rfl⟩, rfl, by simp⟩

/-- Every id below the number of nodes is the id of a node. -/
theorem IsTree.exists_nid (h : IsTree topo t pos) {x : ℕ} (hx : x < topo.numNodes) :
    ∃ u, topo.nid pos u = x := by
  choose node hnode using h.surj
  have hinj : Function.Injective fun x : Fin topo.numNodes =>
      (⟨topo.nid pos (node x x.isLt), h.nid_lt _⟩ : Fin topo.numNodes) := by
    intro x y hxy
    have hsame := h.nid_inj (Fin.mk.inj hxy)
    have hpos := congrArg pos hsame
    rw [hnode, hnode] at hpos
    exact Fin.ext hpos
  obtain ⟨y, hy⟩ := (Finite.injective_iff_surjective.mp hinj) ⟨x, hx⟩
  exact ⟨_, Fin.mk.inj hy⟩

end Create

/-! ## 2. The machine -/

/-- The id of the node at the other end. -/
def Channel.peer (ch : Channel) (self : ℕ) : ℕ := if ch.owner = self then ch.trg else ch.owner

/-- A channel with one queue pair, after a call on it. -/
def Channel.setPair (ch : Channel) (w : Ump.World) : Channel :=
  { ch with qp := Function.update ch.qp 0 (some w) }

/-- One turn of the waiting loop of an operation on a channel with one queue pair: it has come to
its end, or the call `c` that it makes has to turn again.  `none` when it follows a queue pair that
is not there. -/
def Channel.turn {α : Type} (ch : Channel) (self : ℕ) (prog : ChanProg α) (c : Call) :
    Option (Channel × Option α) :=
  match prog.run Channel.handle ch with
  | some (ch, a) => some (ch, some a)
  | none => (ch.qp 0).map fun w => (ch.setPair (w.call (sideOf ch self) c).1, none)

namespace Collective

/-- `smlt_channel_send` or `smlt_channel_notify`. -/
def Kind.sendProg (self : ℕ) (ch : Channel) : Kind → List Word → ChanProg Errval
  | .payload, buf => Smelt.sendProg self ch (.ofList buf)
  | .notify, _ => notifyProg self ch

/-- `smlt_channel_recv` or `smlt_channel_recv_notification`. -/
def Kind.recvProg (self : ℕ) (ch : Channel) :
    Kind → List Word → ChanProg (Errval × Option (List Word))
  | .payload, buf => Smelt.recvProg 0 self ch buf.length.toUInt32
  | .notify, _ => (recvNotificationProg 0 self ch).bind fun err => .ret (err, none)

/-- `smlt_channel_recv_index` or `smlt_channel_recv_notification`. -/
def Kind.downProg (self : ℕ) (ch : Channel) (index : ℕ) :
    Kind → List Word → ChanProg (Errval × Option (List Word))
  | .payload, buf => recvIndexProg self ch buf.length.toUInt32 index
  | .notify, _ => (recvNotificationProg 0 self ch).bind fun err => .ret (err, none)

/-- The nodes, by their ids, and the context they share. -/
structure CtxSys where
  node : ℕ → Node
  ctx : SmltContext

def CtxSys.setNode (s : CtxSys) (self : ℕ) (nd : Node) : CtxSys :=
  { s with node := Function.update s.node self nd }

def CtxSys.setChannel (s : CtxSys) (ptr : ChannelPtr) (ch : Channel) : CtxSys :=
  { s with ctx := s.ctx.setChannel ptr ch }

/-- The call returns an error: a query failed. -/
def CtxSys.fail (s : CtxSys) (self : ℕ) : CtxSys × Ev ℕ :=
  (s.setNode self { s.node self with pc := .failed }, .quiet self)

section Entry

variable (ctx : SmltContext) (self : ℕ)

/-- The entry of `smlt_broadcast` and `smlt_broadcast_notify`. -/
def ctxBroadcastEntry (kind : Kind) : Pc :=
  match contextNodeIsRoot ctx self with
  | some true => .sendDown kind 0
  | some false => .recvDown kind
  | none => .failed

/-- The entry of `smlt_reduce` and `smlt_reduce_notify`. -/
def ctxReduceEntry (kind : Kind) : Pc :=
  match getChildrenChannels ctx self with
  | some (_, count) => .gather kind (List.replicate count false) 0 0
  | none => .failed

/-- Where a call starts. -/
def Coll.ctxEntry : Coll → Pc
  | .broadcast => ctxBroadcastEntry ctx self .payload
  | .broadcastNotify => ctxBroadcastEntry ctx self .notify
  | .reduce (some _) => ctxReduceEntry ctx self .payload
  | .reduce none => ctxReduceEntry ctx self .notify
  | .reduceNotify => ctxReduceEntry ctx self .notify
  | .reduceAll (some _) => ctxReduceEntry ctx self .payload
  | .reduceAll none => ctxReduceEntry ctx self .notify
  | .barrierWait => ctxReduceEntry ctx self .notify

/-- Where a call goes on after its reduction. -/
def Coll.ctxAfterReduce : Coll → Pc
  | .reduceAll _ => ctxBroadcastEntry ctx self .payload
  | .barrierWait => ctxBroadcastEntry ctx self .notify
  | _ => .ret

end Entry

/-- One turn of a send by `self`; `onFail` is where a send that returns an error leaves it. -/
def CtxSys.send (s : CtxSys) (self : ℕ) (ptr : ChannelPtr) (kind : Kind) (next onFail : Pc) :
    Option (CtxSys × Ev ℕ) :=
  let nd := s.node self
  let ch := s.ctx.channel ptr
  (ch.turn self (kind.sendProg self ch nd.buf) (kind.send nd.buf)).map fun r =>
    let s := s.setChannel ptr r.1
    match r.2 with
    | none => (s, .quiet self)
    | some err =>
      if errIsFail err then (s.setNode self { nd with pc := onFail }, .quiet self)
      else (s.setNode self { nd with pc := next },
        .put self (ch.peer self) nd.done (kind.words nd.buf))

/-- One turn of a receive by `self`, by the operation `prog`. -/
def CtxSys.recv (s : CtxSys) (self : ℕ) (ptr : ChannelPtr) (kind : Kind)
    (prog : ChanProg (Errval × Option (List Word))) (next : Pc) : Option (CtxSys × Ev ℕ) :=
  let nd := s.node self
  let ch := s.ctx.channel ptr
  (ch.turn self prog (kind.recv nd.buf)).map fun r =>
    let s := s.setChannel ptr r.1
    match r.2 with
    | none => (s, .quiet self)
    | some (err, ws) =>
      if errIsFail err then (s.setNode self { nd with pc := .failed }, .quiet self)
      else (s.setNode self { nd with pc := next, buf := ws.getD nd.buf },
        .got self (ch.peer self) nd.done (ws.getD []))

/-- One turn of the node `self`.  `none`: it has nothing left to do, or it does not come back. -/
def CtxSys.turn (sc : Script ℕ) (s : CtxSys) (self : ℕ) : Option (CtxSys × Ev ℕ) :=
  let nd := s.node self
  match nd.pc with
  | .idle =>
    match sc.calls[nd.done]? with
    | none => none
    | some call =>
      some (s.setNode self { nd with
        pc := call.ctxEntry s.ctx self
        buf := call.firstBuf (sc.input self nd.done) (sc.msg self nd.done) }, .enter self nd.done)
  | .gather kind recv num i =>
    match getChildrenChannels s.ctx self with
    | none => some (s.fail self)
    | some ((x, base), count) =>
      if num < count then
        let ch := s.ctx.channel (x, base + i)
        let polled := s.setNode self { nd with pc := .gather kind recv num (nextChild count i) }
        if recv[i]? = some false then
          match (canRecvProg self ch).run Channel.handle ch with
          | none => none
          | some (_, true) => s.recv self (x, base + i) kind (kind.recvProg self ch nd.buf)
              (.gather kind (recv.set i true) (num + 1) (nextChild count i))
          | some (_, false) => some (polled, .quiet self)
        else some (polled, .quiet self)
      else some (s.setNode self { nd with pc := .sendUp kind }, .quiet self)
  | .sendUp kind =>
    match sc.calls[nd.done]? with
    | none => none
    | some call =>
      match getParentChannel s.ctx self with
      | none => some (s.fail self)
      | some none => some (s.setNode self { nd with pc := call.ctxAfterReduce s.ctx self },
          .quiet self)
      -- the error value of this send is dropped
      | some (some ptr) => s.send self ptr kind (call.ctxAfterReduce s.ctx self)
          (call.ctxAfterReduce s.ctx self)
  | .recvDown kind =>
    match getParentChannel s.ctx self, contextNodeGetChildIdx s.ctx self with
    | some (some ptr), some index => s.recv self ptr kind
        (kind.downProg self (s.ctx.channel ptr) index nd.buf) (.sendDown kind 0)
    | none, _ => some (s.fail self)
    | _, _ => none
  | .sendDown kind i =>
    match getChildrenChannels s.ctx self with
    | none => some (s.fail self)
    | some ((x, base), count) =>
      if i < count then s.send self (x, base + i) kind (.sendDown kind (i + 1)) .failed
      else some (s.setNode self { nd with pc := .ret }, .quiet self)
  | .ret => some (s.setNode self { nd with done := nd.done + 1, pc := .idle },
      .ret self nd.done nd.buf)
  | .failed => none

/-- The start: nobody has called anything. -/
def CtxSys.init (ctx : SmltContext) : CtxSys where
  node _ := { done := 0, pc := .idle, buf := [] }
  ctx := ctx

/-! ## 3. A channel and its queue pair -/

section Backend

variable {B : Backend} {w : B.State} {d : Side}

/-- An operation of the queue pair that transmits returns when its attempt succeeds, -/
theorem send_of_put {msg : Msg} {xs : List Word}
    (h : (Call.trySend msg).put? (B.call w d (.trySend msg)).2 = some xs) :
    B.send w d msg = some ((B.call w d (.trySend msg)).1, success) := by
  rw [Backend.send]
  generalize B.call w d (.trySend msg) = r at h
  obtain ⟨w', (_ | ⟨code, e⟩) | ws | _⟩ := r
  · rfl
  all_goals cases h

theorem notify_of_put {xs : List Word} (h : Call.notify.put? (B.call w d .notify).2 = some xs) :
    B.notify w d = some ((B.call w d .notify).1, success) := by
  rw [Backend.notify]
  generalize B.call w d .notify = r at h
  obtain ⟨w', (_ | ⟨code, e⟩) | ws | _⟩ := r
  · rfl
  all_goals cases h

/-- and does not return when it has to turn again. -/
theorem send_of_blocks {msg : Msg}
    (h : (Call.trySend msg).blocks (B.call w d (.trySend msg)).2 = true) :
    B.send w d msg = none := by
  rw [Backend.send]
  generalize B.call w d (.trySend msg) = r at h
  obtain ⟨w', e | ws | _⟩ := r
  · exact if_pos (beq_iff_eq.mp h)
  · rfl
  · rfl

theorem notify_of_blocks (h : Call.notify.blocks (B.call w d .notify).2 = true) :
    B.notify w d = none := by
  rw [Backend.notify]
  generalize B.call w d .notify = r at h
  obtain ⟨w', e | ws | _⟩ := r
  · cases h
  · rfl
  · rfl

/-- The same for those that receive. -/
theorem recv_of_got {words : UInt32} {ys : List Word}
    (h : (Call.tryRecv words).got? (B.call w d (.tryRecv words)).2 = some ys) :
    B.recv w d words = some ((B.call w d (.tryRecv words)).1, success, some ys) := by
  rw [Backend.recv]
  generalize B.call w d (.tryRecv words) = r at h
  obtain ⟨w', e | ws | _⟩ := r
  · cases e <;> cases h
  · obtain rfl := Option.some.inj h
    rfl
  · cases h

theorem recv0_of_got {ys : List Word}
    (h : Call.recvNotify.got? (B.call w d .recvNotify).2 = some ys) :
    ys = [] ∧ B.recv0 w d = some ((B.call w d .recvNotify).1, success) := by
  rw [Backend.recv0]
  generalize B.call w d .recvNotify = r at h
  obtain ⟨w', (_ | ⟨code, e⟩) | ws | _⟩ := r
  · exact ⟨(Option.some.inj h).symm, rfl⟩
  all_goals cases h

theorem recv_of_blocks {words : UInt32}
    (h : (Call.tryRecv words).blocks (B.call w d (.tryRecv words)).2 = true) :
    B.recv w d words = none := by
  rw [Backend.recv]
  generalize B.call w d (.tryRecv words) = r at h
  obtain ⟨w', e | ws | _⟩ := r
  · exact if_pos (beq_iff_eq.mp h)
  · cases h
  · rfl

theorem recv0_of_blocks (h : Call.recvNotify.blocks (B.call w d .recvNotify).2 = true) :
    B.recv0 w d = none := by
  rw [Backend.recv0]
  generalize B.call w d .recvNotify = r at h
  obtain ⟨w', e | ws | _⟩ := r
  · cases h
  · rfl
  · rfl

end Backend

section Turn

variable {ch : Channel} {owner self : ℕ} {w : Ump.World}

/-- A call on the caller's end of a link. -/
theorem link_onPair (h : IsLink ch owner) (hw : ch.qp 0 = some w) {β : Type}
    (f : Ump.World → Side → Option (Ump.World × β)) :
    ch.onPair (ch.mpPlace self 0) f =
      (f w (sideOf ch self)).map fun r => (ch.setPair r.1, r.2) := by
  have hshm : (ch.mpPlace self 0).isShm = ch.useShm := (mpPlace_isShm 0).trans h.useShm.symm
  simp only [Channel.onPair, if_pos hshm, mpPlace_index, mpPlace_side, hw]
  rfl

/-- The body of a sending operation on a link is its loop over the one queue pair. -/
theorem run_sendingProg (h : IsLink ch owner)
    {pair : ℕ → (Errval → ChanProg Errval) → ChanProg Errval} {queue : ChanProg Errval}
    {own : ℕ → ChanProg Errval → ChanProg Errval} {r : Option (Ump.World × Errval)}
    (hpair : ∀ k, (pair 0 k).run Channel.handle ch =
      (r.map fun r => (ch.setPair r.1, r.2)).bind fun r => (k r.2).run Channel.handle r.1) :
    (sendingProg self ch pair queue own).run Channel.handle ch = r.map fun r =>
      (ch.setPair r.1, if errIsFail r.2 then errPush r.2 .send else success) := by
  have hloop : sendingProg self ch pair queue own = eachPair pair [0] := by
    rw [sendingProg, h.useShm, h.range]
    rfl
  rw [hloop, eachPair, hpair]
  cases r with
  | none => rfl
  | some r =>
    rw [Option.map_some, Option.map_some, Option.bind_some]
    by_cases herr : errIsFail r.2 = true
    · simp only [herr, if_true]
      rfl
    · simp only [herr]
      rfl

/-- A sending operation is the one on the queue pair. -/
theorem run_sendProg (h : IsLink ch owner) (hw : ch.qp 0 = some w) {msg : Msg}
    {r : Option (Ump.World × Errval)} (hr : Ump.backend.send w (sideOf ch self) msg = r) :
    (Smelt.sendProg self ch msg).run Channel.handle ch = r.map fun r =>
      (ch.setPair r.1, if errIsFail r.2 then errPush r.2 .send else success) :=
  run_sendingProg h fun k => by
    rw [← hr, ← link_onPair h hw fun w d => Ump.backend.send w d msg]
    rfl

theorem run_notifyProg (h : IsLink ch owner) (hw : ch.qp 0 = some w)
    {r : Option (Ump.World × Errval)} (hr : Ump.backend.notify w (sideOf ch self) = r) :
    (notifyProg self ch).run Channel.handle ch = r.map fun r =>
      (ch.setPair r.1, if errIsFail r.2 then errPush r.2 .send else success) :=
  run_sendingProg h fun k => by
    rw [← hr, ← link_onPair h hw fun w d => Ump.backend.notify w d]
    rfl

/-- A receiving operation on a link, whichever it is: `m = n`. -/
theorem run_recvProg (h : IsLink ch owner) (hw : ch.qp 0 = some w) {words : UInt32}
    {r : Option (Ump.World × Errval × Option (List Word))}
    (hr : Ump.backend.recv w (sideOf ch self) words = r) :
    (Smelt.recvProg 0 self ch words).run Channel.handle ch =
        (r.map fun r => (ch.setPair r.1, r.2)) ∧
      ∀ index, (recvIndexProg self ch words index).run Channel.handle ch =
        r.map fun r => (ch.setPair r.1, r.2) := by
  have hcall : Channel.handle (.recv (ch.mpPlace self 0) words) ch =
      r.map fun r => (ch.setPair r.1, r.2) := by
    rw [← hr, ← link_onPair h hw fun w d => Ump.backend.recv w d words]
    rfl
  have hnm := h.n.trans h.m.symm
  constructor
  · rw [Smelt.recvProg, if_pos hnm, Prog.run, hcall]
    cases r <;> rfl
  · intro index
    rw [recvIndexProg, if_pos hnm, Prog.run, hcall]
    cases r <;> rfl

theorem run_recvNotificationProg (h : IsLink ch owner) (hw : ch.qp 0 = some w)
    {r : Option (Ump.World × Errval)} (hr : Ump.backend.recv0 w (sideOf ch self) = r) :
    ((recvNotificationProg 0 self ch).bind fun err =>
        (.ret (err, none) : ChanProg (Errval × Option (List Word)))).run Channel.handle ch =
      r.map fun r => (ch.setPair r.1, r.2, none) := by
  have hcall : Channel.handle (.recv0 (ch.mpPlace self 0)) ch =
      r.map fun r => (ch.setPair r.1, r.2) := by
    rw [← hr, ← link_onPair h hw fun w d => Ump.backend.recv0 w d]
    rfl
  rw [Prog.run_bind, recvNotificationProg, if_pos (h.n.trans h.m.symm), Prog.run, hcall]
  cases r <;> rfl

/-- Polling a link polls its queue pair, and changes nothing. -/
theorem run_canRecvProg (h : IsLink ch owner) (hw : ch.qp 0 = some w) :
    (canRecvProg self ch).run Channel.handle ch =
      some (ch, Ump.backend.canRecv w (sideOf ch self)) := by
  have hcall : Channel.handle (.canRecv (ch.mpPlace self 0)) ch =
      some (ch, Ump.backend.canRecv w (sideOf ch self)) := by
    have hsame : ch.setPair w = ch := by rw [Channel.setPair, ← hw, Function.update_eq_self]
    have hpair : ch.onPair (ch.mpPlace self 0) (fun w d => some (w, Ump.backend.canRecv w d)) =
        _ := link_onPair h hw _
    rwa [Option.map_some, hsame] at hpair
  rw [canRecvProg, h.range, allPairs, h.useShm]
  simp only [Bool.not_false, if_true, Prog.run, hcall, Option.bind_some, allPairs]
  cases Ump.backend.canRecv w (sideOf ch self) <;> rfl

/-- **A turn of a send is the attempt on the queue pair.**  It succeeds, and so does
the operation; -/
theorem turn_put (h : IsLink ch owner) (hw : ch.qp 0 = some w) {kind : Kind} {buf xs : List Word}
    (hput : (kind.send buf).put? (Ump.backend.call w (sideOf ch self) (kind.send buf)).2 =
      some xs) :
    ch.turn self (kind.sendProg self ch buf) (kind.send buf) =
      some (ch.setPair (Ump.backend.call w (sideOf ch self) (kind.send buf)).1, some success) := by
  cases kind with
  | payload => rw [Channel.turn, Kind.sendProg, run_sendProg h hw (send_of_put hput)]; rfl
  | notify => rw [Channel.turn, Kind.sendProg, run_notifyProg h hw (notify_of_put hput)]; rfl

/-- or it has to turn again, and the operation has not come to its end. -/
theorem turn_refused (h : IsLink ch owner) (hw : ch.qp 0 = some w) {kind : Kind} {buf : List Word}
    (hblocks : (kind.send buf).blocks
      (Ump.backend.call w (sideOf ch self) (kind.send buf)).2 = true) :
    ch.turn self (kind.sendProg self ch buf) (kind.send buf) =
      some (ch.setPair (Ump.backend.call w (sideOf ch self) (kind.send buf)).1, none) := by
  cases kind with
  | payload =>
    rw [Channel.turn, Kind.sendProg, run_sendProg h hw (send_of_blocks hblocks), hw]
    rfl
  | notify =>
    rw [Channel.turn, Kind.sendProg, run_notifyProg h hw (notify_of_blocks hblocks), hw]
    rfl

/-- The same for a receive, by any of the receiving operations. -/
theorem turn_got (h : IsLink ch owner) (hw : ch.qp 0 = some w) {kind : Kind} {buf ys : List Word}
    (hgot : (kind.recv buf).got? (Ump.backend.call w (sideOf ch self) (kind.recv buf)).2 = some ys)
    {prog : ChanProg (Errval × Option (List Word))}
    (hprog : prog = kind.recvProg self ch buf ∨ ∃ index, prog = kind.downProg self ch index buf) :
    ∃ ws, ch.turn self prog (kind.recv buf) =
        some (ch.setPair (Ump.backend.call w (sideOf ch self) (kind.recv buf)).1,
          some (success, ws)) ∧ ws.getD buf = kind.store buf ys ∧ ws.getD [] = ys := by
  cases kind with
  | payload =>
    obtain ⟨hrun, hindex⟩ := run_recvProg h hw (recv_of_got hgot)
    refine ⟨some ys, ?_, rfl, rfl⟩
    rcases hprog with rfl | ⟨index, rfl⟩
    · rw [Channel.turn, Kind.recvProg, hrun]
      rfl
    · rw [Channel.turn, Kind.downProg, hindex]
      rfl
  | notify =>
    obtain ⟨rfl, hrecv⟩ := recv0_of_got hgot
    have hrun := run_recvNotificationProg h hw hrecv
    refine ⟨none, ?_, rfl, rfl⟩
    rcases hprog with rfl | ⟨index, rfl⟩
    · rw [Channel.turn, Kind.recvProg, hrun]
      rfl
    · rw [Channel.turn, Kind.downProg, hrun]
      rfl

theorem turn_empty (h : IsLink ch owner) (hw : ch.qp 0 = some w) {kind : Kind} {buf : List Word}
    (hblocks : (kind.recv buf).blocks
      (Ump.backend.call w (sideOf ch self) (kind.recv buf)).2 = true)
    {prog : ChanProg (Errval × Option (List Word))}
    (hprog : prog = kind.recvProg self ch buf ∨ ∃ index, prog = kind.downProg self ch index buf) :
    ch.turn self prog (kind.recv buf) =
      some (ch.setPair (Ump.backend.call w (sideOf ch self) (kind.recv buf)).1, none) := by
  cases kind with
  | payload =>
    obtain ⟨hrun, hindex⟩ := run_recvProg h hw (recv_of_blocks hblocks)
    rcases hprog with rfl | ⟨index, rfl⟩
    · rw [Channel.turn, Kind.recvProg, hrun, hw]
      rfl
    · rw [Channel.turn, Kind.downProg, hindex, hw]
      rfl
  | notify =>
    have hrun := run_recvNotificationProg h hw (recv0_of_blocks hblocks)
    rcases hprog with rfl | ⟨index, rfl⟩
    · rw [Channel.turn, Kind.recvProg, hrun, hw]
      rfl
    · rw [Channel.turn, Kind.downProg, hrun, hw]
      rfl

end Turn

/-! ## 4. The machine over the tree -/

/-- An event in terms of other names. -/
def Ev.map {ι κ : Type} (f : ι → κ) : Ev ι → Ev κ
  | .enter u k => .enter (f u) k
  | .put u v k xs => .put (f u) (f v) k xs
  | .got u v k ys => .got (f u) (f v) k ys
  | .ret u k buf => .ret (f u) k buf
  | .quiet u => .quiet (f u)

/-- The buffers of the nodes of a tree, given by their ids. -/
def Script.comap {ι : Type} (sc : Script ℕ) (f : ι → ℕ) : Script ι where
  calls := sc.calls
  msg u := sc.msg (f u)
  input u := sc.input (f u)
  fits u := sc.fits (f u)

section Refine

variable {ι : Type} [DecidableEq ι] {topo : Topology} {t : WiredTree ι} {pos : ι → ℕ}
  {sc : Script ℕ} {s s' : CtxSys} {S S' : Sys ι Ump.backend} {a : Net ι}

/-- The queries of the context answer with the tree. -/
structure Answers (topo : Topology) (t : WiredTree ι) (pos : ι → ℕ) (ctx : SmltContext) :
    Prop where
  children : ∀ u,
    getChildrenChannels ctx (topo.nid pos u) = some ((pos u, 0), (t.children u).length)
  parent : ∀ u, getParentChannel ctx (topo.nid pos u) = some (linkOf topo t pos u)
  isRoot : ∀ u, contextNodeIsRoot ctx (topo.nid pos u) = some (t.parent u).isNone
  index : ∀ u, ∃ index, contextNodeGetChildIdx ctx (topo.nid pos u) = some index

/-- The context stands for the tree: the same nodes, and the channel of `c` is a link between it and
its parent with the queue pair of `c`. -/
structure CtxRep (topo : Topology) (t : WiredTree ι) (pos : ι → ℕ) (s : CtxSys)
    (S : Sys ι Ump.backend) : Prop where
  node : ∀ u, s.node (topo.nid pos u) = S.node u
  answers : Answers topo t pos s.ctx
  link : ∀ (p c : ι) (i : ℕ), (t.children p)[i]? = some c →
    IsLink (s.ctx.channel (pos p, i)) (topo.nid pos p) ∧
      (s.ctx.channel (pos p, i)).trg = topo.nid pos c ∧
      (s.ctx.channel (pos p, i)).qp 0 = some (S.chan c)

/-- Both machines have nothing to do, or both take a turn and show the same. -/
inductive SameTurn (topo : Topology) (t : WiredTree ι) (pos : ι → ℕ) :
    Option (CtxSys × Ev ℕ) → Option (Sys ι Ump.backend × Ev ι) → Prop
  | none : SameTurn topo t pos none none
  | some {s : CtxSys} {S : Sys ι Ump.backend} {e : Ev ι} : CtxRep topo t pos s S →
      SameTurn topo t pos (some (s, e.map (topo.nid pos))) (some (S, e))

omit [DecidableEq ι] in
theorem Answers.setChannel {ctx : SmltContext} (h : Answers topo t pos ctx) (ptr : ChannelPtr)
    (ch : Channel) : Answers topo t pos (ctx.setChannel ptr ch) where
  children u := getChildrenChannels_setChannel.trans (h.children u)
  parent u := getParentChannel_setChannel.trans (h.parent u)
  isRoot u := contextNodeIsRoot_setChannel.trans (h.isRoot u)
  index u := (h.index u).imp fun _ hi => contextNodeGetChildIdx_setChannel.trans hi

omit [DecidableEq ι] in
/-- The entries and the continuations are those of the tree. -/
theorem Answers.entry {ctx : SmltContext} (h : Answers topo t pos ctx) (u : ι) (call : Coll) :
    call.ctxEntry ctx (topo.nid pos u) = call.entry t u ∧
      call.ctxAfterReduce ctx (topo.nid pos u) = call.afterReduce t u := by
  have hbroadcast : ∀ kind,
      ctxBroadcastEntry ctx (topo.nid pos u) kind = broadcastEntry t u kind := by
    intro kind
    rw [ctxBroadcastEntry, h.isRoot u, broadcastEntry]
    cases (t.parent u).isNone <;> rfl
  have hreduce : ∀ kind, ctxReduceEntry ctx (topo.nid pos u) kind = reduceEntry t u kind := by
    intro kind
    rw [ctxReduceEntry, h.children u, reduceEntry]
  constructor
  · rcases call with _ | _ | (_ | op) | _ | (_ | op) | _
    all_goals first | exact hbroadcast _ | exact hreduce _
  · rcases call with _ | _ | (_ | op) | _ | (_ | op) | _
    all_goals first | exact hbroadcast _ | rfl

section Step

variable (h : IsTree topo t pos)

include h

/-- Only the state of one node changes. -/
theorem CtxRep.setNode (hrep : CtxRep topo t pos s S) (u : ι) (nd : Node) :
    CtxRep topo t pos (s.setNode (topo.nid pos u) nd) (S.setNode u nd) where
  node v := by
    by_cases hv : v = u
    · subst hv
      simp [CtxSys.setNode, Sys.setNode]
    · have hne : topo.nid pos v ≠ topo.nid pos u := fun he => hv (h.nid_inj he)
      simp only [CtxSys.setNode, Sys.setNode, Function.update_of_ne hne, Function.update_of_ne hv]
      exact hrep.node v
  answers := hrep.answers
  link := hrep.link

/-- Only the queue pair of one channel changes. -/
theorem CtxRep.setChannel (hrep : CtxRep topo t pos s S) {p c : ι} {i : ℕ}
    (hc : (t.children p)[i]? = some c) (w : Ump.World) :
    CtxRep topo t pos (s.setChannel (pos p, i) ((s.ctx.channel (pos p, i)).setPair w))
      (S.setChan c w) where
  node := hrep.node
  answers := hrep.answers.setChannel _ _
  link q d j hd := by
    obtain ⟨hlink, htrg, hqp⟩ := hrep.link q d j hd
    by_cases hcd : d = c
    · subst hcd
      obtain rfl : q = p :=
        Option.some.inj ((t.parent_of_getElem? hd).symm.trans (t.parent_of_getElem? hc))
      obtain rfl : j = i := (h.child q j d hd).2.symm.trans (h.child q i d hc).2
      simp only [CtxSys.setChannel, channel_setChannel, if_true, Channel.setPair, Sys.setChan,
        Function.update_self]
      exact ⟨⟨hlink.owner, hlink.m, hlink.n, hlink.useShm⟩, htrg,
        congrArg some (Function.update_self d w S.chan).symm⟩
    · have hne : (pos q, j) ≠ (pos p, i) := by
        intro he
        obtain ⟨hpos, rfl⟩ := Prod.mk.inj he
        obtain rfl := h.inj hpos
        exact hcd (Option.some.inj (hd.symm.trans hc))
      simp only [CtxSys.setChannel, channel_setChannel, if_neg hne, Sys.setChan]
      exact ⟨hlink, htrg, hqp.trans (congrArg some (Function.update_of_ne hcd w S.chan).symm)⟩

/-- The comparison of the owner with the caller's id picks the caller's end, and the other end is
the other node's. -/
theorem CtxRep.ends (hrep : CtxRep topo t pos s S) {p c u v : ι} {i : ℕ}
    (hc : (t.children p)[i]? = some c) (hj : Joins t c u v) :
    sideOf (s.ctx.channel (pos p, i)) (topo.nid pos u) = side t c u ∧
      (s.ctx.channel (pos p, i)).peer (topo.nid pos u) = topo.nid pos v := by
  obtain ⟨hlink, htrg, -⟩ := hrep.link p c i hc
  have hp := t.parent_of_getElem? hc
  rw [sideOf, Channel.peer, hlink.owner, htrg, side, hp]
  rcases hj with ⟨hu, rfl⟩ | ⟨hv, rfl⟩
  · obtain rfl := Option.some.inj (hp.symm.trans hu)
    simp only [if_true, and_self]
  · obtain rfl := Option.some.inj (hp.symm.trans hv)
    have hne : ¬ topo.nid pos p = topo.nid pos u :=
      fun he => WiredTree.ne_parent hp (h.nid_inj he).symm
    have hne' : ¬ some p = some u := fun he => WiredTree.ne_parent hp (Option.some.inj he).symm
    rw [if_neg hne, if_neg hne, if_neg hne']
    exact ⟨rfl, rfl⟩

/-- A turn of a send. -/
theorem CtxRep.send (hrep : CtxRep topo t pos s S)
    (ha : Rep Ump.Holds t (sc.comap (topo.nid pos)) S a) {p c u v : ι} {i : ℕ}
    (hc : (t.children p)[i]? = some c) (hj : Joins t c u v) (hlen : (S.node u).buf.length ≤ 7)
    (kind : Kind) (next onFail : Pc) :
    SameTurn topo t pos (s.send (topo.nid pos u) (pos p, i) kind next onFail)
      (some (S.sendTurn t c u v kind next onFail)) := by
  obtain ⟨hlink, -, hqp⟩ := hrep.link p c i hc
  obtain ⟨hside, hpeer⟩ := hrep.ends h hc hj
  obtain ⟨hwords, htrans, hput⟩ := send_words kind hlen
  have hold := ha.chan p c (t.parent_of_getElem? hc)
  simp only [CtxSys.send, Sys.sendTurn, hrep.node, hpeer]
  cases hr : (kind.send (S.node u).buf).put?
      (Ump.backend.call (S.chan c) (side t c u) (kind.send (S.node u).buf)).2 with
  | some xs =>
    obtain rfl := hput _ _ hr
    rw [← hside] at hr ⊢
    rw [turn_put hlink hqp hr]
    exact .some (e := .put u v _ _) ((hrep.setChannel h hc _).setNode h u _)
  | none =>
    obtain ⟨hblocks, -, -⟩ := Ump.backend_isFifo.refuse hold hwords htrans hr
    rw [← hside] at hblocks ⊢
    rw [turn_refused hlink hqp hblocks, if_pos hblocks]
    exact .some (e := .quiet u) (hrep.setChannel h hc _)

/-- A turn of a receive. -/
theorem CtxRep.recv (hrep : CtxRep topo t pos s S)
    (ha : Rep Ump.Holds t (sc.comap (topo.nid pos)) S a) {p c u v : ι} {i : ℕ}
    (hc : (t.children p)[i]? = some c) (hj : Joins t c u v) (hlen : (S.node u).buf.length ≤ 7)
    (kind : Kind) (next : Pc) {prog : ChanProg (Errval × Option (List Word))}
    (hprog : prog = kind.recvProg (topo.nid pos u) (s.ctx.channel (pos p, i)) (S.node u).buf ∨
      ∃ index, prog =
        kind.downProg (topo.nid pos u) (s.ctx.channel (pos p, i)) index (S.node u).buf) :
    SameTurn topo t pos (s.recv (topo.nid pos u) (pos p, i) kind prog next)
      (some (S.recvTurn t c u v kind next)) := by
  obtain ⟨hlink, -, hqp⟩ := hrep.link p c i hc
  obtain ⟨hside, hpeer⟩ := hrep.ends h hc hj
  obtain ⟨-, hwords, htrans⟩ := recv_words kind hlen
  have hold := ha.chan p c (t.parent_of_getElem? hc)
  simp only [CtxSys.recv, Sys.recvTurn, hrep.node, hpeer]
  cases hr : (kind.recv (S.node u).buf).got?
      (Ump.backend.call (S.chan c) (side t c u) (kind.recv (S.node u).buf)).2 with
  | some ys =>
    rw [← hside] at hr ⊢
    obtain ⟨ws, hturn, hstore, hys⟩ := turn_got hlink hqp hr hprog
    rw [hturn]
    simp only [Option.map_some, errIsFail, success, List.isEmpty_nil, Bool.not_true,
      Bool.false_eq_true, if_false, hstore, hys]
    exact .some (e := .got u v _ _) ((hrep.setChannel h hc _).setNode h u _)
  | none =>
    obtain ⟨hblocks, -, -⟩ := Ump.backend_isFifo.empty hold hwords htrans hr
    rw [← hside] at hblocks ⊢
    rw [turn_empty hlink hqp hblocks hprog, if_pos hblocks]
    exact .some (e := .quiet u) (hrep.setChannel h hc _)

/-- A turn that changes the state of the node only. -/
theorem CtxRep.quiet (hrep : CtxRep topo t pos s S) (u : ι) (nd : Node) :
    SameTurn topo t pos (some (s.setNode (topo.nid pos u) nd, .quiet (topo.nid pos u)))
      (some (S.setNode u nd, .quiet u)) :=
  .some (e := .quiet u) (hrep.setNode h u nd)

/-- **The two machines take the same turns.** -/
theorem ctx_turn (hrep : CtxRep topo t pos s S)
    (ha : Rep Ump.Holds t (sc.comap (topo.nid pos)) S a) (u : ι) :
    SameTurn topo t pos (s.turn sc (topo.nid pos u)) (S.turn t (sc.comap (topo.nid pos)) u) := by
  have hok := ha.ok u
  rw [← ha.node] at hok
  have hlen : (S.node u).pc ≠ .idle → (S.node u).buf.length ≤ 7 := hok.buf_le
  have hpc := hok.pc
  simp only [CtxSys.turn, Sys.turn, hrep.node, hrep.answers.children, hrep.answers.parent]
  rcases hnd : S.node u with ⟨done, pc, buf⟩
  have hbuf : buf = (S.node u).buf := by rw [hnd]
  rw [hnd] at hpc
  cases pc with
  | idle =>
    cases hcall : sc.calls[done]? with
    | none =>
      simp only [Script.comap, hcall]
      exact .none
    | some call =>
      simp only [Script.comap, hcall, (hrep.answers.entry u call).1]
      exact .some (e := .enter u done) (hrep.setNode h u _)
  | gather kind recv num i =>
    obtain ⟨-, -, -, hi⟩ := hpc
    by_cases hlt : num < (t.children u).length
    · obtain ⟨c, hc⟩ : ∃ c, (t.children u)[i]? = some c :=
        ⟨_, List.getElem?_eq_getElem (by omega)⟩
      obtain ⟨hlink, -, hqp⟩ := hrep.link u c i hc
      have hj : Joins t c u c := .inl ⟨t.parent_of_getElem? hc, rfl⟩
      simp only [hlt, if_true, hc, Nat.zero_add, run_canRecvProg hlink hqp, (hrep.ends h hc hj).1]
      by_cases hflag : recv[i]? = some false
      · cases hpoll : Ump.backend.canRecv (S.chan c) (side t c u) with
        | true =>
          rw [if_pos hflag, if_pos ⟨hflag, rfl⟩, hbuf]
          exact hrep.recv h ha hc hj (hlen (by simp [hnd])) kind _ (.inl rfl)
        | false =>
          rw [if_pos hflag, if_neg fun hh => Bool.noConfusion hh.2]
          exact hrep.quiet h u _
      · rw [if_neg hflag, if_neg fun hh => hflag hh.1]
        exact hrep.quiet h u _
    · simp only [hlt, if_false]
      exact hrep.quiet h u _
  | sendUp kind =>
    obtain ⟨call, hcall, -⟩ := hpc
    have hcall' : sc.calls[done]? = some call := hcall
    simp only [hcall', (hrep.answers.entry u call).2, Script.comap]
    cases hp : t.parent u with
    | none =>
      simp only [linkOf, hp, Option.map_none]
      exact hrep.quiet h u _
    | some p =>
      simp only [linkOf, hp, Option.map_some]
      exact hrep.send h ha (h.getElem?_arrayIndex hp) (.inr ⟨hp, rfl⟩)
        (hlen (by simp [hnd])) kind _ _
  | recvDown kind =>
    obtain ⟨-, hparent⟩ := hpc
    obtain ⟨p, hp⟩ := Option.ne_none_iff_exists'.mp hparent
    obtain ⟨index, hindex⟩ := hrep.answers.index u
    simp only [linkOf, hp, Option.map_some, hindex, hbuf]
    exact hrep.recv h ha (h.getElem?_arrayIndex hp) (.inr ⟨hp, rfl⟩) (hlen (by simp [hnd]))
      kind _ (.inr ⟨index, rfl⟩)
  | sendDown kind i =>
    by_cases hi : i < (t.children u).length
    · have hc := List.getElem?_eq_getElem hi
      simp only [if_pos hi, hc, Nat.zero_add]
      exact hrep.send h ha hc (.inl ⟨t.parent_of_getElem? hc, rfl⟩) (hlen (by simp [hnd])) kind
        _ _
    · simp only [if_neg hi, List.getElem?_eq_none (Nat.le_of_not_lt hi)]
      exact hrep.quiet h u _
  | ret => exact .some (e := .ret u done buf) (hrep.setNode h u _)
  | failed => exact hpc.elim

end Step

/-! ## 5. Runs -/

/-- The turns of the nodes of the topology, in any order. -/
def CtxStep (topo : Topology) (sc : Script ℕ) (s : CtxSys) (e : Ev ℕ) (s' : CtxSys) : Prop :=
  ∃ self, self < topo.numNodes ∧ s.turn sc self = some (s', e)

omit [DecidableEq ι] in
/-- A created context, at the start: its queue pairs are new. -/
theorem ctxRep_init {alloc : ℕ → ℕ → ℕ → Side → Option ℕ} {ctx : SmltContext}
    (h : IsTree topo t pos)
    (hcreate : ∀ x i, ∃ w, Ump.queuepairInit (alloc x i 0) umpDefaultSlots = .ok w)
    (hctx : contextCreate alloc topo = some ctx) :
    ∃ chan : ι → Ump.World, (∀ c, c ≠ t.root →
        Ump.queuepairInit (alloc (((linkOf topo t pos c).getD (0, 0)).1)
          ((linkOf topo t pos c).getD (0, 0)).2 0) umpDefaultSlots = .ok (chan c)) ∧
      CtxRep topo t pos (CtxSys.init ctx) (Sys.init chan) := by
  choose pair hpair using hcreate
  refine ⟨fun c => pair ((linkOf topo t pos c).getD (0, 0)).1 ((linkOf topo t pos c).getD (0, 0)).2,
    fun c _ => hpair _ _, fun _ => rfl, ?_, ?_⟩
  · obtain ⟨ctx', hctx', hlinked⟩ := contextCreate_spec alloc h
    obtain rfl : ctx' = ctx := Option.some.inj (hctx'.symm.trans hctx)
    have hwired := hlinked.wired h
    refine ⟨hlinked.getChildrenChannels_eq, hlinked.getParentChannel_eq h, fun u => ?_, fun u => ?_⟩
    · obtain ⟨b, hb, hroot⟩ := hwired.isRoot u
      have hb' : contextNodeIsRoot (CtxSys.init ctx').ctx (topo.nid pos u) = some b := hb
      rw [hb', Option.some.injEq, Bool.eq_iff_iff, hroot, Option.isNone_iff_eq_none,
        t.parent_eq_none]
    · exact ⟨_, by rw [contextNodeGetChildIdx, CtxSys.init, hlinked.table u, Option.map_some]⟩
  · intro p c i hc
    obtain ⟨e, hmade⟩ := contextCreate_made h hctx hc
    have hlink : linkOf topo t pos c = some (pos p, i) := h.linkOf_eq_some.mpr hc
    have hch := channelCreate_link hmade (hpair (pos p) i)
    simp only [Sys.init, hlink, Option.getD_some]
    exact hch

section Invariant

variable (h : IsTree topo t pos)

include h

/-- A run on the context is a run over the tree, -/
theorem run_tree {chan : ι → Ump.World}
    (hinit : ∀ c, c ≠ t.root → Ump.Holds (chan c) fun _ => []) {s₀ : CtxSys}
    (hrep₀ : CtxRep topo t pos s₀ (Sys.init chan)) {tr : List (Ev ℕ)}
    (hrun : Run (CtxStep topo sc) s₀ tr s) :
    ∃ tr' S, Run (Step t (sc.comap (topo.nid pos))) (Sys.init chan) tr' S ∧
      tr = tr'.map (Ev.map (topo.nid pos)) ∧ CtxRep topo t pos s S := by
  refine Run.induct
    (fun tr s => ∃ tr' S, Run (Step t (sc.comap (topo.nid pos))) (Sys.init chan) tr' S ∧
      tr = tr'.map (Ev.map (topo.nid pos)) ∧ CtxRep topo t pos s S)
    ⟨[], _, .nil, rfl, hrep₀⟩ ?_ hrun
  rintro tr s e s' ⟨tr', S, hrun', rfl, hrep⟩ ⟨x, hx, hturn⟩
  obtain ⟨u, rfl⟩ := h.exists_nid hx
  obtain ⟨a, ha, -⟩ := reachable_net Ump.backend_isFifo hinit hrun'
  have hsame := ctx_turn h hrep ha u
  rw [hturn] at hsame
  generalize hS : S.turn t (sc.comap (topo.nid pos)) u = r at hsame
  cases hsame with
  | some hrep' => exact ⟨_, _, hrun'.snoc ⟨u, hS⟩, by simp, hrep'⟩

/-- and the other way round. -/
theorem run_ctx {chan : ι → Ump.World}
    (hinit : ∀ c, c ≠ t.root → Ump.Holds (chan c) fun _ => []) {s₀ : CtxSys}
    (hrep₀ : CtxRep topo t pos s₀ (Sys.init chan)) {tr : List (Ev ι)}
    (hrun : Run (Step t (sc.comap (topo.nid pos))) (Sys.init chan) tr S) :
    ∃ s, Run (CtxStep topo sc) s₀ (tr.map (Ev.map (topo.nid pos))) s ∧ CtxRep topo t pos s S := by
  induction hrun with
  | nil => exact ⟨s₀, .nil, hrep₀⟩
  | @snoc tr S S' e hrun hs ih =>
    obtain ⟨s, hrun', hrep⟩ := ih
    obtain ⟨u, hturn⟩ := hs
    obtain ⟨a, ha, -⟩ := reachable_net Ump.backend_isFifo hinit hrun
    have hsame := ctx_turn h hrep ha u
    rw [hturn] at hsame
    generalize hs : s.turn sc (topo.nid pos u) = r at hsame
    cases hsame with
    | some hrep' =>
      refine ⟨_, ?_, hrep'⟩
      rw [List.map_append]
      exact hrun'.snoc ⟨_, h.nid_lt u, hs⟩

end Invariant

/-- **Collectives on a context are collectives over its tree.**  On a context that
`smlt_context_create` has made from a topology that is a tree, with whatever ids, when its queue
pairs could be created: the runs of the nodes, by their ids, with the context's queries and the
operations of its channels, are the runs of the nodes of the tree, turn by turn in both directions;
and so no call ever returns an error. -/
theorem context_refines {alloc : ℕ → ℕ → ℕ → Side → Option ℕ} {ctx : SmltContext}
    (h : IsTree topo t pos)
    (hcreate : ∀ x i, ∃ w, Ump.queuepairInit (alloc x i 0) umpDefaultSlots = .ok w)
    (hctx : contextCreate alloc topo = some ctx) :
    ∃ chan : ι → Ump.World, (∀ c, c ≠ t.root → Ump.Holds (chan c) fun _ => []) ∧
      (∀ tr s, Run (CtxStep topo sc) (CtxSys.init ctx) tr s →
        (∃ tr' S, Run (Step t (sc.comap (topo.nid pos))) (Sys.init chan) tr' S ∧
          tr = tr'.map (Ev.map (topo.nid pos)) ∧ CtxRep topo t pos s S) ∧
        ∀ x, x < topo.numNodes → (s.node x).pc ≠ .failed) ∧
      ∀ tr' S, Run (Step t (sc.comap (topo.nid pos))) (Sys.init chan) tr' S →
        ∃ s, Run (CtxStep topo sc) (CtxSys.init ctx) (tr'.map (Ev.map (topo.nid pos))) s ∧
          CtxRep topo t pos s S := by
  obtain ⟨chan, hpair, hrep₀⟩ := ctxRep_init h hcreate hctx
  have hinit : ∀ c, c ≠ t.root → Ump.Holds (chan c) fun _ => [] :=
    fun c hc => Ump.holds_init (hpair c hc)
  refine ⟨chan, hinit, fun tr s hrun => ?_, fun tr' S hrun => run_ctx h hinit hrep₀ hrun⟩
  obtain ⟨tr', S, hrun', htr, hrep⟩ := run_tree h hinit hrep₀ hrun
  refine ⟨⟨tr', S, hrun', htr, hrep⟩, fun x hx => ?_⟩
  obtain ⟨u, rfl⟩ := h.exists_nid hx
  obtain ⟨a, ha, -⟩ := reachable_net Ump.backend_isFifo hinit hrun'
  have hok := (ha.ok u).pc
  rw [hrep.node, ha.node]
  intro hfail
  rw [hfail] at hok
  exact hok

end Refine

/-- One barrier of two nodes. -/
def meetIds : Script ℕ where
  calls := [.barrierWait]
  msg _ _ := []
  input _ _ := []
  fits _ _ := by decide

def meetIdsTrace : List (Ev ℕ) :=
  [.enter 1 0, .quiet 1, .put 1 0 0 [], .enter 0 0, .got 0 1 0 [], .quiet 0, .quiet 0,
    .put 0 1 0 [], .quiet 0, .ret 0 0 [], .got 1 0 0 [], .quiet 1, .ret 1 0 []]

theorem context_refines_meet :
    ∃ topo ctx s, topologyCreate 2 none "pair" = .ok topo ∧
      contextCreate (fun _ _ _ _ => some 0) topo = some ctx ∧
      Run.drive (fun s (x : Fin 2) => CtxSys.turn meetIds s x) (CtxSys.init ctx)
        [1, 1, 1, 0, 0, 0, 0, 0, 0, 0, 1, 1, 1] = some (meetIdsTrace, s) ∧
      ∃ (t : WiredTree (Fin 2)) (chan : Fin 2 → Ump.World) (tr : List (Ev (Fin 2)))
        (S : Sys (Fin 2) Ump.backend),
        Run (Step t (meetIds.comap (topo.nid Fin.val))) (Sys.init chan) tr S ∧
          meetIdsTrace = tr.map (Ev.map (topo.nid Fin.val)) := by
  obtain ⟨topo, htopo, hnum, -, htree, -⟩ :=
    default_isTree (by decide : 0 < 2) (by decide) "pair"
  have hrun : ((contextCreate (fun _ _ _ _ => some 0) topo).bind fun ctx =>
      (Run.drive (fun s (x : Fin 2) => CtxSys.turn meetIds s x) (CtxSys.init ctx)
        [1, 1, 1, 0, 0, 0, 0, 0, 0, 0, 1, 1, 1]).map Prod.fst) = some meetIdsTrace := by
    obtain rfl := Except.ok.inj htopo
    decide +kernel
  obtain ⟨ctx, hctx, hrun⟩ := Option.bind_eq_some_iff.mp hrun
  obtain ⟨⟨tr, s⟩, hdrive, htrace⟩ := Option.map_eq_some_iff.mp hrun
  obtain rfl : tr = meetIdsTrace := htrace
  obtain ⟨chan, -, hruns, -⟩ := context_refines htree (fun _ _ => ⟨_, rfl⟩) hctx
  obtain ⟨⟨tr', S, hrun', htr, -⟩, -⟩ := hruns _ s (Run.of_drive
    (fun s (x : Fin 2) s' e hturn => ⟨x, Nat.lt_of_lt_of_eq x.isLt hnum.symm, hturn⟩) hdrive)
  exact ⟨topo, ctx, s, htopo, hctx, hdrive, _, chan, tr', S, hrun', htr⟩

end Collective

end Smelt
