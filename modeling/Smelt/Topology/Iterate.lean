/-
# Going through the nodes of a topology

`smlt_topology_get_first_node` and `smlt_topology_node_next` go through the array of the nodes, and
`smlt_topology_node_is_last` says where it ends: it takes the number of nodes from the topology,
which it reaches over the BACK POINTER of the node it is asked about.

The binary tree sets the back pointer of every node.  The parser sets it where it stores a child, so
only in nodes that have one, and every tree has a node without (`WiredTree.exists_leaf`).  So the
nodes of the default topology can be gone through, and those of a model never
(`node_iteration_iff`): the iteration comes to a leaf, or to a node that takes no part, and follows
a null pointer.
-/
import Smelt.Topology.Binary
import Smelt.Topology.Leafs

namespace Smelt

/-! ## 1. The iteration -/

/-- `smlt_topology_get_first_node`. -/
def topologyGetFirstNode (_topo : Topology) : ℕ := 0

/-- `smlt_topology_node_next`. -/
def topologyNodeNext (x : ℕ) : ℕ := x + 1

/-- `smlt_topology_node_is_last`; `none` when it follows a back pointer that is not set. -/
def topologyNodeIsLast (topo : Topology) (x : ℕ) : Option Bool :=
  if (topo.node x).topology then some (x == (topo.numNodes + 2 ^ 32 - 1) % 2 ^ 32) else none

/-- The nodes from `x` to the one that says it is the last.  `none` when one of them cannot say, or
after `fuel` nodes. -/
def Topology.iterate (topo : Topology) : ℕ → ℕ → Option (List ℕ)
  | 0, _ => none
  | fuel + 1, x =>
    (topologyNodeIsLast topo x).bind fun isLast =>
      if isLast then some [x] else (topo.iterate fuel (topologyNodeNext x)).map (x :: ·)

/-- **The iteration is complete**: every node has its back pointer, and every node is visited once,
in the order of the array. -/
structure Topology.Iterates (topo : Topology) : Prop where
  backPointer : ∀ x, x < topo.numNodes → (topo.node x).topology = true
  visits : ∃ fuel, topo.iterate fuel (topologyGetFirstNode topo) = some (List.range topo.numNodes)

section Iterate

variable {topo : Topology}

theorem topologyNodeIsLast_eq {x : ℕ} (hx : x < topo.numNodes) (hlt : topo.numNodes < 2 ^ 32)
    (hback : (topo.node x).topology = true) :
    topologyNodeIsLast topo x = some (x + 1 == topo.numNodes) := by
  have hlast : (topo.numNodes + 2 ^ 32 - 1) % 2 ^ 32 = topo.numNodes - 1 := by omega
  rw [topologyNodeIsLast, if_pos hback, hlast, Option.some.injEq, Bool.eq_iff_iff, beq_iff_eq,
    beq_iff_eq]
  omega

/-- From node `x` there are `k` nodes to go. -/
theorem iterate_eq (hlt : topo.numNodes < 2 ^ 32)
    (hback : ∀ x, x < topo.numNodes → (topo.node x).topology = true) {k : ℕ} (hk : 0 < k) {x : ℕ}
    (hx : x + k = topo.numNodes) : topo.iterate k x = some (List.range' x k) := by
  induction k generalizing x with
  | zero => omega
  | succ k ih =>
    have hin : x < topo.numNodes := by omega
    rw [Topology.iterate, topologyNodeIsLast_eq hin hlt (hback x hin), Option.bind_some,
      List.range'_succ]
    by_cases hend : x + 1 = topo.numNodes
    · obtain rfl : k = 0 := by omega
      rw [if_pos (beq_iff_eq.mpr hend)]
      rfl
    · rw [if_neg (mt beq_iff_eq.mp hend), topologyNodeNext, ih (by omega) (by omega)]
      rfl

/-- Back pointers are all that the iteration needs. -/
theorem iterates_iff (hpos : 0 < topo.numNodes) (hlt : topo.numNodes < 2 ^ 32) :
    topo.Iterates ↔ ∀ x, x < topo.numNodes → (topo.node x).topology = true := by
  refine ⟨fun h => h.backPointer, fun hback => ⟨hback, topo.numNodes, ?_⟩⟩
  rw [topologyGetFirstNode, iterate_eq hlt hback hpos (Nat.zero_add _), List.range_eq_range']

end Iterate

/-! ## 2. Back pointers -/

/-- The binary tree has all of them. -/
theorem createBinaryTree_topology {n x : ℕ} (hx : x < n) :
    ((createBinaryTree n .zero).node x).topology = true := by
  -- neither the link to the parent nor those to the children touch it
  rw [createBinaryTree_node hx, binaryFields, binaryNode, Topology.modify_node, if_pos rfl]
  simp only [apply_ite TopologyNode.topology, ite_self]

section Model

universe u

variable {ι : Type u} {m : GeneratedModel} {t : WiredTree ι} {id : ι → ℕ}

/-- The row of a leaf has no child number in it. -/
theorem Encodes.not_isChild_of_leaf (h : Encodes m t id) {u : ι} (hleaf : t.children u = []) {y : ℕ}
    (hy : y < m.len.toNat) : ¬ m.IsChild (id u) y := by
  rintro ⟨hpos, hle⟩
  obtain ⟨u', v, hu, rfl, hedge⟩ := h.other (id u) y (h.lt u) hy (Nat.ne_of_gt hpos)
  obtain rfl := h.inj hu
  rcases hedge with hp | hc
  · have hent := h.parent u v hp
    simp only [topoMatrixParent, topoMatrixMaxMp] at hent hle
    omega
  · rw [hleaf] at hc
    exact absurd hc List.not_mem_nil

/-- **A leaf has no back pointer.** -/
theorem Encodes.leaf_topology (h : Encodes m t id) {topo : Topology}
    (hparse : parseModel m .zero = .ok topo) {u : ι} (hleaf : t.children u = []) :
    (topo.node (id u)).topology = false := by
  have hnone := Loop.last_eq_none.mpr fun y hy => h.not_isChild_of_leaf hleaf hy
  rw [parseModel_node hparse (h.lt u)]
  dsimp only
  rw [hnone]
  rfl

end Model

/-! ## 3. Which topologies can be gone through -/

/-- What a topology is created from: some threads, or a model that encodes a tree. -/
def TopologySource (numProc : UInt32) : Option GeneratedModel → Prop
  | none => 1 ≤ numProc.toNat
  | some m => ∃ (ι : Type) (t : WiredTree ι) (id : ι → ℕ), Encodes m t id

/-- **The nodes of a topology can be gone through exactly when it was created without a model.** -/
theorem node_iteration_iff {numProc : UInt32} {model : Option GeneratedModel} {name : String}
    {topo : Topology} (hsource : TopologySource numProc model)
    (hcreate : topologyCreate numProc.toNat model name = .ok topo) :
    topo.Iterates ↔ model = none := by
  cases model with
  | none =>
    obtain rfl := Except.ok.inj hcreate
    refine iff_of_true ?_ rfl
    have hpos : 1 ≤ numProc.toNat := hsource
    refine (iterates_iff ?_ numProc.toNat_lt).mpr fun x hx => createBinaryTree_topology hx
    exact hpos
  | some m =>
    refine iff_of_false (fun hiter => ?_) (Option.some_ne_none m)
    obtain ⟨ι, t, id, henc⟩ := hsource
    obtain ⟨topo', hparse, hret⟩ := bind_eq_ok.mp hcreate
    obtain rfl := Except.ok.inj hret
    have : Finite ι := Finite.of_injective (fun u => (⟨id u, henc.lt u⟩ : Fin m.len.toNat))
      fun u v huv => henc.inj (Fin.mk.inj huv)
    obtain ⟨u, hleaf⟩ := t.exists_leaf
    have hback : (topo'.node (id u)).topology = true := hiter.backPointer (id u) (henc.lt u)
    rw [henc.leaf_topology hparse hleaf] at hback
    cases hback

theorem node_iteration_iff_threads :
    ∃ topo, topologyCreate (5 : UInt32).toNat none "tree" = .ok topo ∧ topo.Iterates :=
  have hsource : TopologySource 5 none := Nat.le_of_ble_eq_true rfl
  ⟨_, rfl, (node_iteration_iff hsource rfl).mpr rfl⟩

/-- **The iteration over a model of two nodes stops at the leaf**, which has no back pointer. -/
theorem leaf_not_visited :
    Encodes (rootedEdge false) WiredTree.pair (rootedEdgeId false) ∧
      ∃ topo, topologyCreate 0 (some (rootedEdge false)) "edge" = .ok topo ∧
        topologyNodeIsLast topo (rootedEdgeId false false) = some false ∧
        topologyNodeIsLast topo (rootedEdgeId false true) = none ∧ ¬ topo.Iterates := by
  refine ⟨edge_encodes false, _, rfl, ?_, rfl, fun hiter => ?_⟩
  · exact topologyNodeIsLast_eq (by decide) (by decide) rfl
  · have hback := hiter.backPointer 1 (by decide)
    cases hback

end Smelt
