/-
# The default topology is the heap tree

`smlt_topology_create` without a model links `smlt_get_num_proc()` nodes into a binary tree.  The
link to the parent and the links to the children come from two formulas: node `i` is child `0` of
`i / 2` when `i` is odd and child `1` of `i / 2 - 1` when it is even, and its own children are
`2 * i + 1` and `2 * i + 2` as far as there are that many nodes.

Both are the tree of a binary heap (`WiredTree.heap`), so what is known of rooted trees carries
over: every node is at the end of exactly one path of children pointers.  The indices are `unsigned
int`, and `2 * i + 2` does not wrap below `2 ^ 31` nodes.
-/
import Smelt.Lib.Tree
import Smelt.Topology.Parse

namespace Smelt

universe u

/-! ## 1. Following children pointers -/

/-- The node at the end of a path from `x`, which names a place below `num_children` at
each node. -/
def Topology.follow (topo : Topology) (x : ℕ) : List ℕ → Option ℕ
  | [] => some x
  | i :: path =>
    if i < (topo.node x).numChildren then
      ((topo.node x).children i).bind fun y => topo.follow y path
    else none

/-- A topology whose children pointers are those of a tree has the tree's paths. -/
theorem Topology.follow_eq_walk {ι : Type u} {topo : Topology} {t : WiredTree ι} {id : ι → ℕ}
    (hnum : ∀ u, (topo.node (id u)).numChildren = (t.children u).length)
    (hchild : ∀ (u : ι) (i : ℕ) (c : ι), (t.children u)[i]? = some c →
      (topo.node (id u)).children i = some (id c)) (u : ι) (path : List ℕ) :
    topo.follow (id u) path = (t.walk u path).map id := by
  induction path generalizing u with
  | nil => rfl
  | cons i path ih =>
    rw [Topology.follow, WiredTree.walk, hnum]
    by_cases hi : i < (t.children u).length
    · have hget := List.getElem?_eq_getElem hi
      rw [if_pos hi, hchild u i _ hget, hget, Option.bind_some, Option.bind_some, ih]
    · rw [if_neg hi, List.getElem?_eq_none (Nat.le_of_not_lt hi)]
      rfl

/-! ## 2. What the loop leaves behind -/

/-- What the turn `i` of the loop stores into its node. -/
def binaryFields (numThreads i : ℕ) (node : TopologyNode) : TopologyNode :=
  (binaryNode numThreads { Topology.zero with node := fun _ => node } i).node i

theorem binaryNode_node (numThreads : ℕ) (topo : Topology) (i z : ℕ) :
    (binaryNode numThreads topo i).node z =
      if z = i then binaryFields numThreads i (topo.node i) else topo.node z := by
  simp only [binaryFields, binaryNode, Topology.modify_node, if_true]
  by_cases hz : z = i
  · subst hz
    simp only [if_true]
  · simp only [hz, if_false]

/-- Each node is written in its own turn only. -/
theorem createBinaryTree_node {n x : ℕ} (hx : x < n) (topo : Topology) :
    (createBinaryTree n topo).node x = binaryFields n x (topo.node x) := by
  have hloop : ∀ k, ((List.range k).foldl (binaryNode n) { topo with root := 0 }).node x =
      if x < k then binaryFields n x (topo.node x) else topo.node x := by
    intro k
    induction k with
    | zero => simp
    | succ k ih =>
      rw [List.range_succ, List.foldl_append, List.foldl_cons, List.foldl_nil, binaryNode_node, ih]
      by_cases hk : x = k
      · subst hk
        simp [ih]
      · have hiff : x < k + 1 ↔ x < k := by omega
        simp [hk, hiff]
  rw [createBinaryTree, hloop, if_pos hx]

theorem createBinaryTree_root (n : ℕ) (topo : Topology) : (createBinaryTree n topo).root = 0 :=
  foldl_root (f := binaryNode n) (fun _ _ => rfl) (List.range n) { topo with root := 0 }

/-- The link to the parent, in a cleared node. -/
theorem binary_parent (x : ℕ) (node : TopologyNode) (hparent : node.parent = none)
    (hid : node.nodeId = 0) (hindex : node.arrayIndex = 0) :
    (if x = 0 then { node with parent := none, nodeId := 0 }
      else if x % 2 = 0 then { node with parent := some (x / 2 - 1), arrayIndex := 1 }
      else { node with parent := some (x / 2), arrayIndex := 0 }) =
    { node with
      parent := if x = 0 then none else some ((x - 1) / 2)
      arrayIndex := if x = 0 then 0 else (x + 1) % 2 } := by
  obtain ⟨⟩ := node
  simp only at hparent hid hindex
  by_cases h0 : x = 0
  · simp [h0, hid, hindex]
  · by_cases heven : x % 2 = 0
    · have h1 : x / 2 - 1 = (x - 1) / 2 := by omega
      have h2 : (x + 1) % 2 = 1 := by omega
      simp [h0, heven, h1, h2]
    · have h1 : x / 2 = (x - 1) / 2 := by omega
      have h2 : (x + 1) % 2 = 0 := by omega
      simp [h0, heven, h1, h2]

/-- The stores into the children array. -/
theorem binary_children (n x : ℕ) :
    (if 2 * x + 1 < n then
      if 2 * x + 2 < n then
        Function.update (Function.update (fun _ => none) 0 (some (2 * x + 1))) 1 (some (2 * x + 2))
      else Function.update (fun _ => none) 0 (some (2 * x + 1))
    else fun _ => none) =
    fun i => if i < 2 ∧ 2 * x + 1 + i < n then some (2 * x + 1 + i) else none := by
  funext i
  by_cases h1 : 2 * x + 1 < n
  · by_cases h2 : 2 * x + 2 < n
    · rcases i with _ | _ | i
      · simp [h1, h2]
      · simp [h1, h2]
      · simp [h1, h2]
    · rcases i with _ | i
      · simp [h1, h2]
      · have hno : ¬ (i + 1 < 2 ∧ 2 * x + 1 + (i + 1) < n) := by omega
        rw [if_pos h1, if_neg h2, if_neg hno, Function.update_of_ne (Nat.succ_ne_zero i)]
  · have hno : ¬ (i < 2 ∧ 2 * x + 1 + i < n) := by omega
    rw [if_neg h1, if_neg hno]

/-- **The links of a node**, from cleared memory. -/
theorem binaryFields_zero {n x : ℕ} (hlt : n < 2 ^ 31) (hx : x < n) :
    binaryFields n x .zero = { TopologyNode.zero with
      topology := true
      parent := if x = 0 then none else some ((x - 1) / 2)
      children := fun i => if i < 2 ∧ 2 * x + 1 + i < n then some (2 * x + 1 + i) else none
      nodeId := x
      arrayIndex := if x = 0 then 0 else (x + 1) % 2
      numChildren := if 2 * x + 2 < n then 2 else if 2 * x + 1 < n then 1 else 0
      isLeaf := decide (n ≤ 2 * x + 1) } := by
  have hleft : (x * 2 + 1) % 2 ^ 32 = 2 * x + 1 := by omega
  have hright : (x * 2 + 2) % 2 ^ 32 = 2 * x + 2 := by omega
  rw [← binary_children]
  simp only [binaryFields, binaryNode, Topology.modify_node, if_true, hleft, hright]
  rw [binary_parent x { TopologyNode.zero with topology := true, useShm := false } rfl rfl rfl]
  by_cases h1 : 2 * x + 1 < n
  · have hge : ¬ n ≤ 2 * x + 1 := by omega
    by_cases h2 : 2 * x + 2 < n
    · simp only [h1, h2, hge, if_true, decide_false]
      rfl
    · simp only [h1, h2, hge, if_true, if_false, decide_false]
      rfl
  · have hge : n ≤ 2 * x + 1 := by omega
    have h2 : ¬ 2 * x + 2 < n := by omega
    simp only [h1, h2, hge, if_false, decide_true]
    rfl

/-! ## 3. The heap tree -/

/-- The topology over the nodes `0` to `n - 1` is a tree under node `0`, and its links agree. -/
structure SpanningTree (topo : Topology) (n : ℕ) : Prop where
  root : topo.root = 0
  parentless : ∀ x, x < n → (topologyNodeIsRoot (topo.node x) = true ↔ x = 0)
  /-- a node stands where its index says -/
  linked : ∀ x, x < n → x ≠ 0 → ∃ p, p < n ∧ (topo.node x).parent = some p ∧
    topologyNodeGetChildIdx (topo.node x) < (topo.node p).numChildren ∧
    (topo.node p).children (topologyNodeGetChildIdx (topo.node x)) = some x
  /-- and every entry stands for a child -/
  entry : ∀ x i, x < n → i < (topo.node x).numChildren →
    ∃ c, c < n ∧ (topo.node x).children i = some c ∧ (topo.node c).parent = some x
  reached : ∀ x, x < n → ∃! path, topo.follow topo.root path = some x
  leaf : ∀ x, x < n → topologyNodeIsLeaf (topo.node x) = (topo.node x).isLeaf ∧
    ((topo.node x).isLeaf = true ↔ (topo.node x).numChildren = 0)

/-- The number of children of a node of the heap tree. -/
theorem heap_length {n : ℕ} (hn : 0 < n) (u : Fin n) : ((WiredTree.heap n hn).children u).length =
    if 2 * (u : ℕ) + 2 < n then 2 else if 2 * (u : ℕ) + 1 < n then 1 else 0 := by
  simp only [WiredTree.heap]
  split
  · rfl
  · split <;> rfl

/-- Their places. -/
theorem heap_getElem? {n i : ℕ} (hn : 0 < n) {u c : Fin n}
    (h : ((WiredTree.heap n hn).children u)[i]? = some c) : i < 2 ∧ (c : ℕ) = 2 * u + 1 + i := by
  simp only [WiredTree.heap] at h
  split at h
  · rcases i with _ | _ | i
    · exact ⟨by decide, by simp [← Option.some.inj h]⟩
    · exact ⟨by decide, by simp [← Option.some.inj h]⟩
    · cases h
  · split at h
    · rcases i with _ | i
      · exact ⟨by decide, by simp [← Option.some.inj h]⟩
      · cases h
    · cases h

/-- **The default topology is a spanning tree with consistent links**, for every number of threads
below `2 ^ 31`. -/
theorem binary_tree_spans {n : ℕ} (hpos : 1 ≤ n) (hlt : n < 2 ^ 31) (name : String) :
    ∃ topo, topologyCreate n none name = .ok topo ∧ topo.numNodes = n ∧ SpanningTree topo n := by
  refine ⟨_, rfl, rfl, ?_⟩
  have hnode : ∀ x, x < n →
      ({ createBinaryTree n .zero with numNodes := n, name := name } : Topology).node x = _ :=
    fun x hx => (createBinaryTree_node hx .zero).trans (binaryFields_zero hlt hx)
  have hroot :
      ({ createBinaryTree n .zero with numNodes := n, name := name } : Topology).root = 0 :=
    createBinaryTree_root n .zero
  generalize ({ createBinaryTree n .zero with numNodes := n, name := name } : Topology) = topo
    at hnode hroot ⊢
  refine ⟨hroot, ?_, ?_, ?_, ?_, ?_⟩
  · intro x hx
    rw [hnode x hx, topologyNodeIsRoot]
    by_cases h0 : x = 0 <;> simp [h0]
  · intro x hx h0
    refine ⟨(x - 1) / 2, by omega, ?_, ?_, ?_⟩
    · rw [hnode x hx]
      simp only [h0, if_false]
    · rw [topologyNodeGetChildIdx, hnode x hx, hnode _ (by omega)]
      simp only [h0, if_false]
      split
      · omega
      · split <;> omega
    · rw [topologyNodeGetChildIdx, hnode x hx, hnode _ (by omega)]
      have hback : 2 * ((x - 1) / 2) + 1 + (x + 1) % 2 = x := by omega
      simp only [h0, if_false, hback]
      rw [if_pos ⟨Nat.mod_lt _ (by decide), hx⟩]
  · intro x i hx hi
    rw [hnode x hx] at hi ⊢
    simp only at hi ⊢
    have hin : i < 2 ∧ 2 * x + 1 + i < n := by
      split at hi
      · omega
      · split at hi <;> omega
    refine ⟨2 * x + 1 + i, hin.2, if_pos hin, ?_⟩
    rw [hnode _ hin.2]
    have hup : (2 * x + 1 + i - 1) / 2 = x := by omega
    simp only [hup, show ¬ 2 * x + 1 + i = 0 by omega, if_false]
  · intro x hx
    -- the pointers are those of the heap tree, and its paths are unique
    have hfollow : ∀ path, topo.follow topo.root path =
        ((WiredTree.heap n hpos).walk (WiredTree.heap n hpos).root path).map Fin.val := by
      intro path
      rw [hroot]
      refine @Topology.follow_eq_walk (Fin n) topo (WiredTree.heap n hpos) Fin.val ?_ ?_
        (WiredTree.heap n hpos).root path
      · intro u
        rw [hnode u u.isLt, heap_length]
      · intro u i c hc
        obtain ⟨hi, hc⟩ := heap_getElem? hpos hc
        have hcn := c.isLt
        rw [hnode u u.isLt]
        simp only
        rw [if_pos (by omega), hc]
    obtain ⟨path, hpath, huniq⟩ := (WiredTree.heap n hpos).existsUnique_walk ⟨x, hx⟩
    refine ⟨path, ?_, fun path' hpath' => huniq path' ?_⟩
    · simp only [hfollow, hpath, Option.map_some]
    · simp only [hfollow] at hpath'
      obtain ⟨u, hu, hux⟩ := Option.map_eq_some_iff.mp hpath'
      simp only [hu, Option.some.injEq, Fin.ext_iff, hux]
  · intro x hx
    rw [topologyNodeIsLeaf, hnode x hx]
    simp only [TopologyNode.zero, beq_self_eq_true, Bool.and_true, decide_eq_true_eq]
    constructor
    · rw [Bool.eq_iff_iff, beq_iff_eq, decide_eq_true_iff]
      split
      · omega
      · split <;> omega
    · split
      · omega
      · split <;> omega

theorem binary_tree_spans_five :
    ∃ topo, topologyCreate 5 none "tree" = .ok topo ∧ topo.numNodes = 5 ∧ SpanningTree topo 5 :=
  binary_tree_spans (by decide) (by decide) "tree"

end Smelt
