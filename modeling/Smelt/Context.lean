/-
# Contexts

`src/context.c`: the channels of a topology.  `smlt_context_create` goes over the topology three
times.  The first pass gives every node an array with one channel for each child; the second fills
the table from node ids to context nodes; the third sets each node's pointer to the channel of its
parent, found by the parent's id and the node's own child index.

A channel is an entry of a children array, and a pointer to it is the position of the node whose
array it is in and the index there (`ChannelPtr`).  Following a `NULL` pointer is `none`.  The error
of `smlt_channel_create` is not looked at; `alloc x i` are the allocations of the `i`-th channel of
the node at position `x`.

The passes use ids, positions and child indices side by side.  `contextCreate_wired` says that they
meet: on every topology that is a tree, whatever the order of the ids, the channel a node finds as
its parent's is the one its parent has for it.
-/
import Smelt.Channel
import Smelt.Lib.Tree
import Smelt.Lib.Loop
import Smelt.Topology.Model

namespace Smelt

/-! ## 1. The structures -/

/-- `&all_nodes[x].children[i]`. -/
abbrev ChannelPtr := ℕ × ℕ

/-- `struct smlt_context_node`. -/
structure ContextNode where
  nodeId : ℕ
  parent : Option ChannelPtr
  children : ℕ → Channel
  numChildren : ℕ
  index : ℕ

/-- A node in zeroed memory. -/
def ContextNode.zero : ContextNode where
  nodeId := 0
  parent := none
  children _ := .zero
  numChildren := 0
  index := 0

/-- `struct smlt_context`. -/
structure SmltContext where
  numNodes : ℕ
  maxNid : ℕ
  nidToNode : ℕ → Option ℕ
  node : ℕ → ContextNode

/-! ## 2. Creation -/

section Create

variable (alloc : ℕ → ℕ → ℕ → Side → Option ℕ) (topo : Topology)

/-- The loop over the children of the node at position `x`. -/
def createChannels (x : ℕ) (n : ContextNode) : Option ContextNode :=
  (List.range (topo.node x).numChildren).foldlM (fun n i => do
    let child ← (topo.node x).children i
    let dst := (topo.node child).nodeId
    let src := (topo.node x).nodeId
    let (chan, _) ← channelCreate (alloc x i) [src] [dst]
    return { n with children := Function.update n.children i chan }) n

/-- The channel to the shared-memory children, at the end of the array. -/
def createShmChannel (x : ℕ) (n : ContextNode) : Option ContextNode :=
  if (topo.node x).useShm ∧ (topo.node x).numChildrenShm ≠ 0 then do
    let dst ← (List.range (topo.node x).numChildrenShm).mapM fun i => do
      let child ← (topo.node x).childrenShm i
      return (topo.node child).nodeId
    let src := (topo.node x).nodeId
    let (chan, _) ← channelCreate (alloc x n.numChildren) [src] dst
    return { n with
      children := Function.update n.children n.numChildren chan
      numChildren := n.numChildren + 1 }
  else return n

/-- The first pass, at position `i`. -/
def allocateNode (ctx : SmltContext) (i : ℕ) : Option SmltContext := do
  let tn := topo.node i
  let n := { ctx.node i with nodeId := tn.nodeId, numChildren := tn.numChildren }
  let n ← createChannels alloc topo i n
  let n ← createShmChannel alloc topo i n
  return { ctx with
    node := Function.update ctx.node i n
    maxNid := if ctx.maxNid < tn.nodeId then tn.nodeId else ctx.maxNid }

/-- The second pass, at position `i`. -/
def enterNode (ctx : SmltContext) (i : ℕ) : SmltContext :=
  { ctx with nidToNode := Function.update ctx.nidToNode (ctx.node i).nodeId (some i) }

/-- The loop that looks for a node among the shared-memory children of `tp`. -/
def isShmChild (tp : TopologyNode) (i : ℕ) : Option Bool :=
  (List.range tp.numChildrenShm).foldlM (fun found j => do
    let child ← tp.childrenShm j
    return if (topo.node child).nodeId = i then true else found) false

/-- The third pass, at position `i`. -/
def linkParent (ctx : SmltContext) (i : ℕ) : Option SmltContext :=
  let tn := topo.node i
  match tn.parent with
  | none => some ctx
  | some p => do
    let tp := topo.node p
    let parent ← ctx.nidToNode tp.nodeId
    let n ← ctx.nidToNode tn.nodeId
    let node ←
      if tp.useShm then do
        let childUseShm ← isShmChild topo tp i
        if childUseShm then
          -- the last channel of the array; the subtraction is of 32 bits
          let last := ((ctx.node parent).numChildren + (2 ^ 32 - 1)) % 2 ^ 32
          pure { ctx.node n with parent := some (parent, last), index := tn.arrayIndexShm }
        else
          pure { ctx.node n with parent := some (parent, tn.arrayIndex), index := tn.arrayIndex }
      else pure { ctx.node n with parent := some (parent, tn.arrayIndex) }
    return { ctx with node := Function.update ctx.node n node }

/-- `smlt_context_create`. -/
def contextCreate : Option SmltContext := do
  let ctx : SmltContext :=
    { numNodes := topo.numNodes, maxNid := 0, nidToNode := fun _ => none, node := fun _ => .zero }
  let ctx ← (List.range topo.numNodes).foldlM (allocateNode alloc topo) ctx
  let ctx := (List.range topo.numNodes).foldl enterNode ctx
  (List.range topo.numNodes).foldlM (linkParent topo) ctx

end Create

/-! ## 3. Queries -/

/-- `ctx->nid_to_node[nid]`, behind the test of the id. -/
def SmltContext.lookup (ctx : SmltContext) (nid : ℕ) : Option ContextNode :=
  if ctx.maxNid < nid then none else (ctx.nidToNode nid).map ctx.node

/-- `smlt_context_node_get_parent_channel`: the pointer it returns, `NULL` at the root. -/
def getParentChannel (ctx : SmltContext) (nid : ℕ) : Option (Option ChannelPtr) :=
  (ctx.lookup nid).map ContextNode.parent

/-- `smlt_context_node_get_children_channels`: the array it returns, as a pointer to its first
entry, and the number of channels. -/
def getChildrenChannels (ctx : SmltContext) (nid : ℕ) : Option (ChannelPtr × ℕ) :=
  if ctx.maxNid < nid then none
  else (ctx.nidToNode nid).map fun x => ((x, 0), (ctx.node x).numChildren)

/-- `smlt_context_node_is_root`. -/
def contextNodeIsRoot (ctx : SmltContext) (nid : ℕ) : Option Bool :=
  if ctx.maxNid < nid then some false
  else (ctx.nidToNode nid).map fun x => (ctx.node x).parent.isNone

/-- `smlt_context_node_is_leaf`. -/
def contextNodeIsLeaf (ctx : SmltContext) (nid : ℕ) : Option Bool :=
  if ctx.maxNid < nid then some false
  else (ctx.nidToNode nid).map fun x => (ctx.node x).numChildren == 0

/-- The channel a pointer points to. -/
def SmltContext.channel (ctx : SmltContext) (ptr : ChannelPtr) : Channel :=
  (ctx.node ptr.1).children ptr.2

/-! ## 4. Trees -/

universe u

variable {ι : Type u}

/-- The id of a node of the tree. -/
def Topology.nid (topo : Topology) (pos : ι → ℕ) (u : ι) : ℕ := (topo.node (pos u)).nodeId

/-- The topology is the tree `t`, with the node `u` at position `pos u`; the ids are those below the
number of nodes, in any order, and nothing is shared memory. -/
structure IsTree (topo : Topology) (t : WiredTree ι) (pos : ι → ℕ) : Prop where
  inj : Function.Injective pos
  lt : ∀ u, pos u < topo.numNodes
  surj : ∀ x, x < topo.numNodes → ∃ u, pos u = x
  parent : ∀ u, (topo.node (pos u)).parent = (t.parent u).map pos
  numChildren : ∀ u, (topo.node (pos u)).numChildren = (t.children u).length
  child : ∀ (u : ι) (i : ℕ) (c : ι), (t.children u)[i]? = some c →
    (topo.node (pos u)).children i = some (pos c) ∧ (topo.node (pos c)).arrayIndex = i
  nid_lt : ∀ u, topo.nid pos u < topo.numNodes
  nid_inj : Function.Injective (topo.nid pos)
  noShm : ∀ u, (topo.node (pos u)).numChildrenShm = 0

/-- The pointer to the channel of `u` in the array of its parent. -/
def linkOf (topo : Topology) (t : WiredTree ι) (pos : ι → ℕ) (u : ι) : Option ChannelPtr :=
  (t.parent u).map fun p => (pos p, (topo.node (pos u)).arrayIndex)

/-- The context node of `u`, with its parent pointer. -/
structure NodeOk (topo : Topology) (t : WiredTree ι) (pos : ι → ℕ) (u : ι)
    (parent : Option ChannelPtr) (n : ContextNode) : Prop where
  nodeId : n.nodeId = topo.nid pos u
  parent : n.parent = parent
  numChildren : n.numChildren = (t.children u).length
  ends : ∀ (i : ℕ) (c : ι), (t.children u)[i]? = some c →
    (n.children i).owner = topo.nid pos u ∧ (n.children i).trg = topo.nid pos c

/-- A channel knows its two ends, also when its queue pair could not be created. -/
theorem channelCreate_pair (alloc : ℕ → Side → Option ℕ) (src dst : ℕ) :
    ∃ ch e, channelCreate alloc [src] [dst] = some (ch, e) ∧ ch.owner = src ∧ ch.trg = dst := by
  unfold channelCreate
  cases hqp : Ump.queuepairInit (alloc 0) umpDefaultSlots with
  | error e => exact ⟨_, _, by simp; exact ⟨rfl, rfl⟩, rfl, rfl⟩
  | ok w => exact ⟨_, _, by simp; exact ⟨rfl, rfl⟩, rfl, rfl⟩

section Passes

variable (alloc : ℕ → ℕ → ℕ → Side → Option ℕ) {topo : Topology} {t : WiredTree ι} {pos : ι → ℕ}
  (h : IsTree topo t pos)

include h

/-! ## 5. The three passes -/

/-- The first pass gives a node a channel for each child. -/
theorem createChannels_spec (u : ι) (n : ContextNode) :
    ∃ n', createChannels alloc topo (pos u) n = some n' ∧
      n' = { n with children := n'.children } ∧
      ∀ (i : ℕ) (c : ι), (t.children u)[i]? = some c →
        (n'.children i).owner = topo.nid pos u ∧ (n'.children i).trg = topo.nid pos c := by
  have hloop := Loop.foldlM_range (n := (topo.node (pos u)).numChildren)
    (f := fun n i => do
      let child ← (topo.node (pos u)).children i
      let dst := (topo.node child).nodeId
      let src := (topo.node (pos u)).nodeId
      let (chan, _) ← channelCreate (alloc (pos u) i) [src] [dst]
      return { n with children := Function.update n.children i chan })
    (fun k n' => n' = { n with children := n'.children } ∧
      ∀ (i : ℕ) (c : ι), i < k → (t.children u)[i]? = some c →
        (n'.children i).owner = topo.nid pos u ∧ (n'.children i).trg = topo.nid pos c)
    (s := n) ⟨rfl, fun i c hi => absurd hi (Nat.not_lt_zero i)⟩ ?_
  · obtain ⟨n', hrun, hsame, hends⟩ := hloop
    refine ⟨n', hrun, hsame, fun i c hc => hends i c ?_ hc⟩
    rw [h.numChildren u]
    exact (List.getElem?_eq_some_iff.mp hc).1
  · rintro i n' hi ⟨hsame, hends⟩
    rw [h.numChildren u] at hi
    have hc := List.getElem?_eq_getElem hi
    obtain ⟨ch, e, hcreate, howner, htrg⟩ := channelCreate_pair (alloc (pos u) i)
      (topo.nid pos u) (topo.nid pos (t.children u)[i])
    refine ⟨{ n' with children := Function.update n'.children i ch }, ?_, ?_, ?_⟩
    · simp only [(h.child u i _ hc).1, Option.bind_eq_bind, Option.bind_some]
      have hcreate : channelCreate (alloc (pos u) i) [(topo.node (pos u)).nodeId]
        [(topo.node (pos (t.children u)[i])).nodeId] = some (ch, e) := hcreate
      simp [hcreate]
    · rw [hsame]
    · intro j c hj hjc
      by_cases hji : j = i
      · subst hji
        rw [hc] at hjc
        obtain rfl := Option.some.inj hjc
        simp only [Function.update_self]
        exact ⟨howner, htrg⟩
      · simp only [Function.update_of_ne hji]
        exact hends j c (by omega) hjc

/-- The invariant of the first pass, before position `k`. -/
structure Allocated (topo : Topology) (t : WiredTree ι) (pos : ι → ℕ) (k : ℕ) (ctx : SmltContext) :
    Prop where
  node : ∀ u, pos u < k → NodeOk topo t pos u none (ctx.node (pos u))
  le_maxNid : ∀ u, pos u < k → topo.nid pos u ≤ ctx.maxNid
  unlinked : ∀ x, (ctx.node x).parent = none

theorem allocateNode_spec {ctx : SmltContext} {i : ℕ} (hi : i < topo.numNodes)
    (hctx : Allocated topo t pos i ctx) :
    ∃ ctx', allocateNode alloc topo ctx i = some ctx' ∧ Allocated topo t pos (i + 1) ctx' := by
  obtain ⟨u, rfl⟩ := h.surj i hi
  obtain ⟨n, hrun, hsame, hends⟩ := createChannels_spec alloc h u
    { ctx.node (pos u) with
      nodeId := (topo.node (pos u)).nodeId
      numChildren := (topo.node (pos u)).numChildren }
  have hshm : createShmChannel alloc topo (pos u) n = some n := by
    simp [createShmChannel, h.noShm u]
  refine ⟨_, by simp [allocateNode, hrun, hshm]; rfl, ?_, ?_, ?_⟩
  · intro v hv
    by_cases hvu : pos v = pos u
    · obtain rfl := h.inj hvu
      simp only [Function.update_self]
      refine ⟨?_, ?_, ?_, hends⟩
      · rw [hsame]
        rfl
      · rw [hsame]
        exact hctx.unlinked (pos v)
      · rw [hsame]
        exact h.numChildren v
    · simp only [Function.update_of_ne hvu]
      exact hctx.node v (by omega)
  · intro v hv
    have hmax : topo.nid pos v ≤
        if ctx.maxNid < topo.nid pos u then topo.nid pos u else ctx.maxNid := by
      by_cases hvu : pos v = pos u
      · obtain rfl := h.inj hvu
        split <;> omega
      · have hle := hctx.le_maxNid v (by omega)
        split <;> omega
    exact hmax
  · intro x
    by_cases hx : x = pos u
    · subst hx
      simp only [Function.update_self]
      rw [hsame]
      exact hctx.unlinked (pos u)
    · simp only [Function.update_of_ne hx]
      exact hctx.unlinked x

/-- The second pass enters every node under its id. -/
theorem enterNode_spec {ctx : SmltContext} (hctx : Allocated topo t pos topo.numNodes ctx) :
    ∃ table, (List.range topo.numNodes).foldl enterNode ctx = { ctx with nidToNode := table } ∧
      ∀ u, table (topo.nid pos u) = some (pos u) := by
  have hloop : ∀ k, k ≤ topo.numNodes →
      ∃ table, (List.range k).foldl enterNode ctx = { ctx with nidToNode := table } ∧
        ∀ u, pos u < k → table (topo.nid pos u) = some (pos u) := by
    intro k hk
    induction k with
    | zero => exact ⟨ctx.nidToNode, rfl, fun u hu => absurd hu (Nat.not_lt_zero _)⟩
    | succ k ih =>
      obtain ⟨table, hrun, htable⟩ := ih (by omega)
      obtain ⟨v, rfl⟩ := h.surj k hk
      rw [List.range_succ, List.foldl_append, hrun]
      refine ⟨Function.update table (topo.nid pos v) (some (pos v)), ?_, ?_⟩
      · simp only [List.foldl_cons, List.foldl_nil, enterNode, (hctx.node v (h.lt v)).nodeId]
      · intro u hu
        -- the ids are distinct: no entry is overwritten
        by_cases huv : u = v
        · rw [huv, Function.update_self]
        · rw [Function.update_of_ne fun he => huv (h.nid_inj he)]
          have hne : pos u ≠ pos v := fun he => huv (h.inj he)
          exact htable u (by omega)
  obtain ⟨table, hrun, htable⟩ := hloop topo.numNodes le_rfl
  exact ⟨table, hrun, fun u => htable u (h.lt u)⟩

/-- The invariant of the third pass, before position `k`. -/
structure Linked (topo : Topology) (t : WiredTree ι) (pos : ι → ℕ) (k : ℕ) (ctx : SmltContext) :
    Prop where
  node : ∀ u, NodeOk topo t pos u (if pos u < k then linkOf topo t pos u else none)
    (ctx.node (pos u))
  le_maxNid : ∀ u, topo.nid pos u ≤ ctx.maxNid
  table : ∀ u, ctx.nidToNode (topo.nid pos u) = some (pos u)

/-- Without shared-memory children the two branches of the third pass set the same pointer. -/
theorem linkParent_eq {ctx : SmltContext} {u p : ι} (hp : t.parent u = some p)
    (htable : ∀ v, ctx.nidToNode (topo.nid pos v) = some (pos v)) :
    ∃ index, linkParent topo ctx (pos u) = some { ctx with
      node := Function.update ctx.node (pos u)
        { ctx.node (pos u) with
          parent := some (pos p, (topo.node (pos u)).arrayIndex)
          index := index } } := by
  have hpar : (topo.node (pos u)).parent = some (pos p) := by rw [h.parent u, hp]; rfl
  have hpt : ctx.nidToNode (topo.node (pos p)).nodeId = some (pos p) := htable p
  have hut : ctx.nidToNode (topo.node (pos u)).nodeId = some (pos u) := htable u
  have hno : isShmChild topo (topo.node (pos p)) (pos u) = some false := by
    simp [isShmChild, h.noShm p]
  by_cases hshm : (topo.node (pos p)).useShm
  · exact ⟨(topo.node (pos u)).arrayIndex, by simp [linkParent, hpar, hpt, hut, hshm, hno]⟩
  · exact ⟨(ctx.node (pos u)).index, by simp [linkParent, hpar, hpt, hut, hshm]⟩

theorem linkParent_spec {ctx : SmltContext} {i : ℕ} (hi : i < topo.numNodes)
    (hctx : Linked topo t pos i ctx) :
    ∃ ctx', linkParent topo ctx i = some ctx' ∧ Linked topo t pos (i + 1) ctx' := by
  obtain ⟨u, rfl⟩ := h.surj i hi
  -- what a turn at `u` leaves is right when `u` has its link and the others are as before
  have hrest : ∀ v, v ≠ u → (pos v < pos u + 1 ↔ pos v < pos u) := by
    intro v hv
    have hne : pos v ≠ pos u := fun he => hv (h.inj he)
    omega
  cases hp : t.parent u with
  | none =>
    have hpar : (topo.node (pos u)).parent = none := by rw [h.parent u, hp]; rfl
    refine ⟨ctx, by simp [linkParent, hpar], ?_, hctx.le_maxNid, hctx.table⟩
    intro v
    have hv := hctx.node v
    by_cases hvu : v = u
    · subst hvu
      rw [if_neg (Nat.lt_irrefl _)] at hv
      rw [if_pos (Nat.lt_succ_self _), linkOf, hp]
      exact hv
    · simp only [hrest v hvu]
      exact hv
  | some p =>
    obtain ⟨index, hrun⟩ := linkParent_eq h hp hctx.table
    refine ⟨_, hrun, ?_, hctx.le_maxNid, hctx.table⟩
    intro v
    have hv := hctx.node v
    by_cases hvu : v = u
    · subst hvu
      rw [if_pos (Nat.lt_succ_self _), linkOf, hp]
      simp only [Function.update_self]
      exact ⟨hv.nodeId, rfl, hv.numChildren, hv.ends⟩
    · simp only [hrest v hvu, Function.update_of_ne fun he => hvu (h.inj he)]
      exact hv

/-- **What the three passes build**: a context in which every node has its channels and its link. -/
theorem contextCreate_spec :
    ∃ ctx, contextCreate alloc topo = some ctx ∧ Linked topo t pos topo.numNodes ctx := by
  obtain ⟨ctx₁, hrun₁, hctx₁⟩ := Loop.foldlM_range (f := allocateNode alloc topo)
    (Allocated topo t pos)
    (s := {
      numNodes := topo.numNodes, maxNid := 0, nidToNode := fun _ => none, node := fun _ => .zero })
    ⟨fun u hu => absurd hu (Nat.not_lt_zero _), fun u hu => absurd hu (Nat.not_lt_zero _),
      fun _ => rfl⟩
    fun i ctx hi hctx => allocateNode_spec alloc h hi hctx
  obtain ⟨table, hrun₂, htable⟩ := enterNode_spec h hctx₁
  obtain ⟨ctx₃, hrun₃, hctx₃⟩ := Loop.foldlM_range (f := linkParent topo) (Linked topo t pos)
    (s := { ctx₁ with nidToNode := table })
    ⟨fun u => by rw [if_neg (Nat.not_lt_zero _)]; exact hctx₁.node u (h.lt u),
      fun u => hctx₁.le_maxNid u (h.lt u), htable⟩
    fun i ctx hi hctx => linkParent_spec h hi hctx
  refine ⟨ctx₃, ?_, hctx₃⟩
  simp only [contextCreate, hrun₁, Option.bind_eq_bind, Option.bind_some, hrun₂, hrun₃]

end Passes

/-! ## 6. The wiring -/

/-- What the queries say of a context: the channels of a node and its children's are the same. -/
structure ContextWired (topo : Topology) (t : WiredTree ι) (pos : ι → ℕ) (ctx : SmltContext) :
    Prop where
  /-- the parent channel is the entry of the parent's array at the child index -/
  parent : ∀ u p, t.parent u = some p → ∃ (x base count : ℕ),
    getChildrenChannels ctx (topo.nid pos p) = some ((x, base), count) ∧
      (topo.node (pos u)).arrayIndex < count ∧
      getParentChannel ctx (topo.nid pos u) = some (some (x, base + (topo.node (pos u)).arrayIndex))
  /-- it is owned by the parent and goes to the node -/
  ends : ∀ u p ptr, t.parent u = some p → getParentChannel ctx (topo.nid pos u) = some (some ptr) →
    (ctx.channel ptr).owner = topo.nid pos p ∧ (ctx.channel ptr).trg = topo.nid pos u
  distinct : ∀ u v ptr, getParentChannel ctx (topo.nid pos u) = some (some ptr) →
    getParentChannel ctx (topo.nid pos v) = some (some ptr) → u = v
  covered : ∀ (p : ι) (x base count i : ℕ),
    getChildrenChannels ctx (topo.nid pos p) = some ((x, base), count) → i < count →
      ∃! u, getParentChannel ctx (topo.nid pos u) = some (some (x, base + i))
  isRoot : ∀ u, ∃ b, contextNodeIsRoot ctx (topo.nid pos u) = some b ∧ (b = true ↔ u = t.root)
  isLeaf : ∀ u, ∃ b,
    contextNodeIsLeaf ctx (topo.nid pos u) = some b ∧ (b = true ↔ t.children u = [])

section Queries

variable {topo : Topology} {t : WiredTree ι} {pos : ι → ℕ} {ctx : SmltContext}
  (h : IsTree topo t pos) (hctx : Linked topo t pos topo.numNodes ctx)

include h hctx

/-- Every node has its link when the third pass is over. -/
theorem Linked.parent_eq (u : ι) : (ctx.node (pos u)).parent = linkOf topo t pos u := by
  have := (hctx.node u).parent
  rwa [if_pos (h.lt u)] at this

theorem Linked.getParentChannel_eq (u : ι) :
    getParentChannel ctx (topo.nid pos u) = some (linkOf topo t pos u) := by
  rw [getParentChannel, SmltContext.lookup, if_neg (Nat.not_lt.mpr (hctx.le_maxNid u)),
    hctx.table u, Option.map_some, Option.map_some, hctx.parent_eq h u]

omit h in
theorem Linked.getChildrenChannels_eq (u : ι) :
    getChildrenChannels ctx (topo.nid pos u) = some ((pos u, 0), (t.children u).length) := by
  rw [getChildrenChannels, if_neg (Nat.not_lt.mpr (hctx.le_maxNid u)), hctx.table u,
    Option.map_some, (hctx.node u).numChildren]

omit hctx in
/-- The child index of a node is its place in the array of its parent. -/
theorem IsTree.getElem?_arrayIndex {u p : ι} (hp : t.parent u = some p) :
    (t.children p)[(topo.node (pos u)).arrayIndex]? = some u := by
  obtain ⟨i, hi⟩ := List.getElem?_of_mem ((t.mem_children p u).mpr hp)
  rwa [(h.child p i u hi).2]

omit hctx in
/-- A link determines the node it is the link of. -/
theorem IsTree.linkOf_eq_some {u p : ι} {i : ℕ} :
    linkOf topo t pos u = some (pos p, i) ↔ (t.children p)[i]? = some u := by
  constructor
  · intro hlink
    obtain ⟨q, hq, heq⟩ := Option.map_eq_some_iff.mp hlink
    obtain ⟨hpos, rfl⟩ := Prod.mk.inj heq
    obtain rfl := h.inj hpos
    exact h.getElem?_arrayIndex hq
  · intro hi
    rw [linkOf, WiredTree.parent_of_getElem? hi, Option.map_some, (h.child p i u hi).2]

theorem Linked.wired : ContextWired topo t pos ctx where
  parent u p hp := by
    refine ⟨pos p, 0, (t.children p).length, hctx.getChildrenChannels_eq p,
      (List.getElem?_eq_some_iff.mp (h.getElem?_arrayIndex hp)).1, ?_⟩
    rw [hctx.getParentChannel_eq h, h.linkOf_eq_some.mpr (h.getElem?_arrayIndex hp), Nat.zero_add]
  ends u p ptr hp hptr := by
    rw [hctx.getParentChannel_eq h, h.linkOf_eq_some.mpr (h.getElem?_arrayIndex hp)] at hptr
    obtain rfl := Option.some.inj (Option.some.inj hptr)
    exact (hctx.node p).ends _ u (h.getElem?_arrayIndex hp)
  distinct u v ptr hu hv := by
    rw [hctx.getParentChannel_eq h] at hu hv
    have hlink := Option.some.inj hu
    obtain ⟨p, hp, rfl⟩ := Option.map_eq_some_iff.mp hlink
    have h1 := h.linkOf_eq_some.mp hlink
    have h2 := h.linkOf_eq_some.mp (Option.some.inj hv)
    exact Option.some.inj (h1.symm.trans h2)
  covered p x base count i hchan hi := by
    rw [hctx.getChildrenChannels_eq p] at hchan
    simp only [Option.some.injEq, Prod.mk.injEq] at hchan
    obtain ⟨⟨rfl, rfl⟩, rfl⟩ := hchan
    have hc := List.getElem?_eq_getElem hi
    refine ⟨(t.children p)[i], ?_, ?_⟩
    · show getParentChannel ctx _ = _
      rw [hctx.getParentChannel_eq h, h.linkOf_eq_some.mpr hc, Nat.zero_add]
    · intro v hv
      rw [hctx.getParentChannel_eq h, Nat.zero_add] at hv
      have hcv := h.linkOf_eq_some.mp (Option.some.inj hv)
      exact Option.some.inj (hcv.symm.trans hc)
  isRoot u := by
    refine ⟨(linkOf topo t pos u).isNone, ?_, ?_⟩
    · rw [contextNodeIsRoot, if_neg (Nat.not_lt.mpr (hctx.le_maxNid u)), hctx.table u,
        Option.map_some, hctx.parent_eq h u]
    · rw [← t.parent_eq_none u, linkOf, Option.isNone_map, Option.isNone_iff_eq_none]
  isLeaf u := by
    refine ⟨(t.children u).length == 0, ?_, ?_⟩
    · rw [contextNodeIsLeaf, if_neg (Nat.not_lt.mpr (hctx.le_maxNid u)), hctx.table u,
        Option.map_some, (hctx.node u).numChildren]
    · rw [beq_iff_eq, List.length_eq_zero_iff]

end Queries

/-- **The context is wired as the topology is**: on every tree, whichever channels could be created
and whatever the order of the ids, `smlt_context_create` returns, each node's parent channel is the
entry for it in its parent's array and of no other, and the root and the leaves are those of the
tree. -/
theorem contextCreate_wired (alloc : ℕ → ℕ → ℕ → Side → Option ℕ) {topo : Topology}
    {t : WiredTree ι} {pos : ι → ℕ} (h : IsTree topo t pos) :
    ∃ ctx, contextCreate alloc topo = some ctx ∧ ContextWired topo t pos ctx := by
  obtain ⟨ctx, hrun, hctx⟩ := contextCreate_spec alloc h
  exact ⟨ctx, hrun, hctx.wired h⟩

/-- One edge, from the node with id 1 to the one with id 0. -/
def edgeTopology : Topology where
  name := "edge"
  root := 0
  numNodes := 2
  node x :=
    if x = 0 then { TopologyNode.zero with
      children := fun i => if i = 0 then some 1 else none
      nodeId := 1
      numChildren := 1 }
    else { TopologyNode.zero with parent := some 0 }

theorem contextCreate_wired_edge :
    ∃ ctx, contextCreate (fun _ _ _ _ => some 0) edgeTopology = some ctx ∧
      ContextWired edgeTopology WiredTree.pair (fun u => if u then 1 else 0) ctx :=
  contextCreate_wired _ {
    inj := by decide
    lt := by decide
    surj := by
      intro x hx
      obtain rfl | rfl : x = 0 ∨ x = 1 := by
        have : x < 2 := hx
        omega
      · exact ⟨false, rfl⟩
      · exact ⟨true, rfl⟩
    parent := by decide
    numChildren := by decide
    child := by
      rintro (_ | _) i c hc
      · obtain ⟨hi, rfl⟩ := List.getElem?_eq_some_iff.mp hc
        obtain rfl : i = 0 := by
          have : i < 1 := hi
          omega
        exact ⟨rfl, rfl⟩
      · exact absurd hc (by simp [WiredTree.pair])
    nid_lt := by decide
    nid_inj := by decide
    noShm := by decide }

end Smelt
