/-
# Topologies

`src/topology.c`: the tree of nodes that the collectives run over.  A topology is built either as a
binary tree over the node numbers, or from the MODEL that the simulator returns: a square matrix in
which row `x` has the number `k` in the column of the `k`-th child of `x`, and
`TOPO_MATRIX_PARENT` in the column of its parent.

Nodes point to each other; here a pointer to `all_nodes[x]` is `x`, and `NULL` is `none`.  The
structures are allocated cleared.  The matrix is one array.  The simulator's answer is stored in it
at `x*elem.size()+y` and the parser reads it at `x*model->len+y`, both in 32 bits; `entry` is what
is there.

`smlt_topology_parse_model` fails in three ways, `ParseFail`: the assertion on the transposed entry,
the one on a shared-memory master, and `panic`.  Allocations succeed.
-/
import Mathlib.Algebra.Group.Nat.Defs
import Mathlib.Logic.Function.Basic
import Mathlib.Data.Nat.Notation

namespace Smelt

/-! ## 1. The structures -/

/-- `TOPO_MATRIX_PARENT`. -/
def topoMatrixParent : ℕ := 99

/-- `TOPO_MATRIX_MAX_MP`. -/
def topoMatrixMaxMp : ℕ := 98

/-- `TOPO_MATRIX_SHM_SLAVE_START`. -/
def topoMatrixShmSlaveStart : ℕ := 150

/-- `TOPO_MATRIX_SHM_SLAVE_MAX`. -/
def topoMatrixShmSlaveMax : ℕ := 169

/-- `TOPO_MATRIX_SHM_MASTER_START`. -/
def topoMatrixShmMasterStart : ℕ := 170

/-- `TOPO_MATRIX_SHM_MASTER_MAX`. -/
def topoMatrixShmMasterMax : ℕ := 189

/-- `struct smlt_generated_model`; `num_leafs` is the length of `leafs`. -/
structure GeneratedModel where
  len : UInt32
  root : UInt32
  model : ℕ → UInt16
  leafs : List UInt32

/-- `model->model[x*model->len+y]`. -/
def GeneratedModel.entry (m : GeneratedModel) (x y : ℕ) : ℕ :=
  (m.model ((x * m.len.toNat + y) % 2 ^ 32)).toNat

/-- `struct smlt_topology_node`; `topology` says that the back pointer is set. -/
structure TopologyNode where
  topology : Bool
  parent : Option ℕ
  children : ℕ → Option ℕ
  nodeId : ℕ
  arrayIndex : ℕ
  numChildren : ℕ
  isLeaf : Bool
  useShm : Bool
  arrayIndexShm : ℕ
  numChildrenShm : ℕ
  childrenShm : ℕ → Option ℕ

/-- A node in zeroed memory. -/
def TopologyNode.zero : TopologyNode where
  topology := false
  parent := none
  children _ := none
  nodeId := 0
  arrayIndex := 0
  numChildren := 0
  isLeaf := false
  useShm := false
  arrayIndexShm := 0
  numChildrenShm := 0
  childrenShm _ := none

/-- `struct smlt_topology`. -/
structure Topology where
  name : String
  root : ℕ
  numNodes : ℕ
  node : ℕ → TopologyNode

/-- A topology in zeroed memory. -/
def Topology.zero : Topology where
  name := ""
  root := 0
  numNodes := 0
  node _ := .zero

/-- A store into `all_nodes[x]`. -/
def Topology.modify (topo : Topology) (x : ℕ) (f : TopologyNode → TopologyNode) : Topology :=
  { topo with node := Function.update topo.node x (f (topo.node x)) }

/-! ## 2. The binary tree -/

/-- The body of the loop of `smlt_topology_create_binary_tree`. -/
def binaryNode (numThreads : ℕ) (topo : Topology) (i : ℕ) : Topology :=
  topo.modify i fun node =>
    let node := { node with topology := true, useShm := false }
    let node :=
      if i = 0 then { node with parent := none, nodeId := 0 }
      else if i % 2 = 0 then { node with parent := some (i / 2 - 1), arrayIndex := 1 }
      else { node with parent := some (i / 2), arrayIndex := 0 }
    let left := (i * 2 + 1) % 2 ^ 32
    let right := (i * 2 + 2) % 2 ^ 32
    if left < numThreads then
      let children := Function.update (fun _ => none) 0 (some left)
      let node := { node with children := children, nodeId := i, numChildren := 1 }
      if right < numThreads then
        { node with children := Function.update node.children 1 (some right), numChildren := 2 }
      else node
    else { node with children := fun _ => none, numChildren := 0, nodeId := i, isLeaf := true }

/-- `smlt_topology_create_binary_tree`. -/
def createBinaryTree (numThreads : ℕ) (topo : Topology) : Topology :=
  (List.range numThreads).foldl (binaryNode numThreads) { topo with root := 0 }

/-! ## 3. The parser -/

/-- The ways in which `smlt_topology_parse_model` does not return. -/
inductive ParseFail
  | asymmetric
  | hybrid
  | unexpected
  deriving DecidableEq, Repr

section Parser

variable (m : GeneratedModel)

/-- The loop that finds the number of children. -/
def maxChild (x : ℕ) : ℕ :=
  (List.range m.len.toNat).foldl (fun max y =>
    if m.entry x y > max ∧ m.entry x y ≤ topoMatrixMaxMp then m.entry x y else max) 0

/-- The loop that finds the number of shared-memory children. -/
def shmChildren (x : ℕ) : ℕ :=
  (List.range m.len.toNat).foldl (fun count z =>
    if m.entry x z ≤ topoMatrixShmSlaveMax ∧ m.entry x z ≥ topoMatrixShmSlaveStart then count + 1
    else count) 0

/-- The start of a row: the arrays are allocated. -/
def openRow (topo : Topology) (x : ℕ) : Topology :=
  topo.modify x fun node => { node with
    nodeId := x
    children := fun _ => none
    numChildren := maxChild m x
    numChildrenShm := shmChildren m x
    childrenShm := fun _ => none }

/-- The body of the loop over the columns. -/
def parseEntry (x : ℕ) (topo : Topology) (y : ℕ) : Except ParseFail Topology :=
  let val := m.entry x y
  if val > 0 then
    if val = topoMatrixParent then
      let topo := topo.modify x fun node => { node with parent := some y }
      let val := m.entry y x
      -- `val <+ TOPO_MATRIX_MAX_MP` is a comparison with `+TOPO_MATRIX_MAX_MP`
      if val > 0 ∧ val < topoMatrixMaxMp then .ok topo else .error .asymmetric
    else if val ≤ topoMatrixMaxMp then
      let topo := topo.modify x fun node => { node with
        topology := true
        children := Function.update node.children (val - 1) (some y)
        nodeId := x }
      .ok (topo.modify y fun node => { node with arrayIndex := val - 1 })
    else if val ≥ topoMatrixShmMasterStart ∧ val ≤ topoMatrixShmMasterMax then .error .hybrid
    else if val ≤ topoMatrixShmSlaveMax ∧ val ≥ topoMatrixShmSlaveStart then
      .ok (topo.modify x fun node => { node with parent := some y })
    else .error .unexpected
  else .ok topo

/-- The body of the loop over the rows. -/
def parseRow (topo : Topology) (x : ℕ) : Except ParseFail Topology := do
  let topo ← (List.range m.len.toNat).foldlM (parseEntry m x) (openRow m topo x)
  return topo.modify x fun node => { node with numChildren := maxChild m x }

/-- The loops that mark the leaves. -/
def markLeafs (topo : Topology) : Topology :=
  (List.range m.len.toNat).foldl (fun topo i =>
    m.leafs.foldl (fun topo leaf =>
      if leaf.toNat = i ∧ i ≠ 0 then topo.modify i fun node => { node with isLeaf := true }
      else topo) topo) topo

/-- `smlt_topology_parse_model`. -/
def parseModel (topo : Topology) : Except ParseFail Topology := do
  let topo := { topo with root := m.root.toNat }
  let topo := topo.modify topo.root fun node => { node with parent := none }
  let topo ← (List.range m.len.toNat).foldlM (parseRow m) topo
  return markLeafs m topo

end Parser

/-- `smlt_topology_create`; `numProc` is `smlt_get_num_proc()`. -/
def topologyCreate (numProc : ℕ) (model : Option GeneratedModel) (name : String) :
    Except ParseFail Topology :=
  match model with
  | none =>
    .ok { createBinaryTree numProc .zero with numNodes := numProc, name := name }
  | some m => do
    let topo ← parseModel m .zero
    return { topo with numNodes := m.len.toNat, name := name }

/-! ## 4. Queries -/

/-- `smlt_topology_node_is_root`. -/
def topologyNodeIsRoot (node : TopologyNode) : Bool := node.parent.isNone

/-- `smlt_topology_node_is_leaf`. -/
def topologyNodeIsLeaf (node : TopologyNode) : Bool :=
  node.numChildren == 0 && node.numChildrenShm == 0

/-- `smlt_topology_node_get_child_idx`. -/
def topologyNodeGetChildIdx (node : TopologyNode) : ℕ := node.arrayIndex

end Smelt
