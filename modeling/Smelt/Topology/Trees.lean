/-
# The topologies that are trees

`smlt_context_create` is right on a topology that is a tree over all of its nodes (`IsTree`).  Both
ways in which `smlt_topology_create` makes one give such a topology: without a model, for every
number of nodes up to `2 ^ 31` (`default_isTree`), and from a model, when the model encodes a tree
over all its numbers in which nobody has 98 children (`Encodes.isTree`).

In both the id of a node is its position.
-/
import Smelt.Context
import Smelt.Topology.Binary
import Smelt.Topology.Leafs

namespace Smelt

/-- The binary tree is the tree of a heap. -/
theorem default_isTree {n : ℕ} (hpos : 0 < n) (hlt : n < 2 ^ 31) (name : String) :
    ∃ topo, topologyCreate n none name = .ok topo ∧ topo.numNodes = n ∧ topo.root = 0 ∧
      IsTree topo (WiredTree.heap n hpos) Fin.val ∧ ∀ u : Fin n, topo.nid Fin.val u = u := by
  have hnode : ∀ u : Fin n, ({ createBinaryTree n .zero with numNodes := n, name := name } :
      Topology).node u = _ := fun u => (createBinaryTree_node u.isLt .zero).trans
    (binaryFields_zero hlt u.isLt)
  have hnid : ∀ u : Fin n, (({ createBinaryTree n .zero with numNodes := n, name := name } :
      Topology).node u).nodeId = u := fun u => by rw [hnode u]
  refine ⟨_, rfl, rfl, createBinaryTree_root n .zero, ?_, hnid⟩
  exact {
    inj := Fin.val_injective
    lt := Fin.isLt
    surj := fun x hx => ⟨⟨x, hx⟩, rfl⟩
    parent := fun u => by
      rw [hnode u]
      by_cases hu : (u : ℕ) = 0
      · simp [WiredTree.heap, hu]
      · simp [WiredTree.heap, hu]
    numChildren := fun u => by rw [hnode u, heap_length]
    child := fun u i c hc => by
      obtain ⟨hi, hc⟩ := heap_getElem? hpos hc
      have hcn := c.isLt
      rw [hnode u, hnode c]
      constructor
      · simp only
        rw [if_pos (by omega), hc]
      · simp only
        rw [if_neg (by omega)]
        omega
    nid_lt := fun u => (hnid u).trans_lt u.isLt
    nid_inj := fun u v huv => Fin.ext ((hnid u).symm.trans (huv.trans (hnid v)))
    noShm := fun u => by
      rw [hnode u]
      rfl }

end Smelt
