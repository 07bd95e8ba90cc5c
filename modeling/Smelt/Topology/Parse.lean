/-
# What the model parser builds

`smlt_topology_parse_model` goes through the matrix once, row by row, and OVERWRITES: a node's
parent is the last column of its row that says so, the child at position `i` is the last column with
the number `i + 1`, and a node's `array_index` is the number it has in the last row that gives it
one.  The checks on the way look at the matrix only (`EntryOk`), so the parser returns exactly when
every entry passes its check, and then with this topology (`parseModel_eq_ok`, `parseModel_node`).
-/
import Smelt.Message
import Smelt.Topology.Model
import Smelt.Lib.Loop

namespace Smelt

open Loop

section

variable {m : GeneratedModel}

/-! ## 1. One entry -/

/-- Row `x` makes `y` the parent of `x`. -/
def GeneratedModel.IsParent (m : GeneratedModel) (x y : ℕ) : Prop :=
  m.entry x y = topoMatrixParent ∨
    topoMatrixShmSlaveStart ≤ m.entry x y ∧ m.entry x y ≤ topoMatrixShmSlaveMax

/-- Row `x` makes `y` a child of `x`. -/
def GeneratedModel.IsChild (m : GeneratedModel) (x y : ℕ) : Prop :=
  0 < m.entry x y ∧ m.entry x y ≤ topoMatrixMaxMp

instance (m : GeneratedModel) (x y : ℕ) : Decidable (m.IsParent x y) :=
  inferInstanceAs (Decidable (_ ∨ _))

instance (m : GeneratedModel) (x y : ℕ) : Decidable (m.IsChild x y) :=
  inferInstanceAs (Decidable (_ ∧ _))

/-- The entry passes the checks of the parser. -/
def GeneratedModel.EntryOk (m : GeneratedModel) (x y : ℕ) : Prop :=
  m.entry x y ≤ topoMatrixMaxMp ∨
    m.entry x y = topoMatrixParent ∧ 0 < m.entry y x ∧ m.entry y x < topoMatrixMaxMp ∨
    topoMatrixShmSlaveStart ≤ m.entry x y ∧ m.entry x y ≤ topoMatrixShmSlaveMax

/-- What an entry that passes does. -/
def applyEntry (m : GeneratedModel) (x : ℕ) (topo : Topology) (y : ℕ) : Topology :=
  if m.IsParent x y then topo.modify x fun node => { node with parent := some y }
  else if m.IsChild x y then
    (topo.modify x fun node => { node with
      topology := true
      children := Function.update node.children (m.entry x y - 1) (some y)
      nodeId := x }).modify y fun node => { node with arrayIndex := m.entry x y - 1 }
  else topo

theorem parseEntry_of_ok (x : ℕ) (topo : Topology) (y : ℕ) (h : m.EntryOk x y) :
    parseEntry m x topo y = .ok (applyEntry m x topo y) := by
  simp only [GeneratedModel.EntryOk, topoMatrixMaxMp, topoMatrixParent, topoMatrixShmSlaveStart,
    topoMatrixShmSlaveMax] at h
  simp only [parseEntry, applyEntry, GeneratedModel.IsParent, GeneratedModel.IsChild,
    topoMatrixMaxMp, topoMatrixParent, topoMatrixShmSlaveStart, topoMatrixShmSlaveMax,
    topoMatrixShmMasterStart, topoMatrixShmMasterMax]
  rcases Nat.eq_zero_or_pos (m.entry x y) with hzero | hpos
  · have h1 : ¬ m.entry x y > 0 := by omega
    simp [hzero]
  · rcases h with hle | ⟨hpar, hback⟩ | ⟨hlo, hhi⟩
    · have h1 : m.entry x y ≠ 99 := by omega
      have h2 : ¬ (150 ≤ m.entry x y ∧ m.entry x y ≤ 169) := by omega
      simp [hpos, hle, h1, h2]
    · simp [hpar, hback]
    · have h1 : m.entry x y ≠ 99 := by omega
      have h2 : ¬ m.entry x y ≤ 98 := by omega
      have h3 : ¬ 170 ≤ m.entry x y := by omega
      simp [hpos, h1, h2, h3, hlo, hhi]

theorem parseEntry_of_not_ok (x : ℕ) (topo : Topology) (y : ℕ) (h : ¬ m.EntryOk x y) :
    ∃ e, parseEntry m x topo y = .error e := by
  simp only [GeneratedModel.EntryOk, topoMatrixMaxMp, topoMatrixParent, topoMatrixShmSlaveStart,
    topoMatrixShmSlaveMax, not_or, not_and, Nat.not_le] at h
  obtain ⟨hle, hback, hshm⟩ := h
  simp only [parseEntry, topoMatrixMaxMp, topoMatrixParent, topoMatrixShmSlaveStart,
    topoMatrixShmSlaveMax, topoMatrixShmMasterStart, topoMatrixShmMasterMax]
  have h1 : m.entry x y > 0 := by omega
  have h2 : ¬ m.entry x y ≤ 98 := by omega
  by_cases hpar : m.entry x y = 99
  · have hfail : ¬ (m.entry y x > 0 ∧ m.entry y x < 98) := fun hh => hback hpar hh.1 hh.2
    exact ⟨.asymmetric, by simp [hpar, hfail]⟩
  · by_cases hmaster : m.entry x y ≥ 170 ∧ m.entry x y ≤ 189
    · exact ⟨.hybrid, by simp only [h1, hpar, h2, hmaster, and_self, if_true, if_false]⟩
    · have hslave : ¬ (m.entry x y ≤ 169 ∧ m.entry x y ≥ 150) := by
        rintro ⟨hhi, hlo⟩
        have := hshm hlo
        omega
      exact ⟨.unexpected, by simp only [h1, hpar, h2, hmaster, hslave, if_true, if_false]⟩

/-! ## 2. Loops without checks -/

/-- A row, when its entries pass. -/
def applyRow (m : GeneratedModel) (topo : Topology) (x : ℕ) : Topology :=
  ((List.range m.len.toNat).foldl (applyEntry m x) (openRow m topo x)).modify x
    fun node => { node with numChildren := maxChild m x }

theorem parseRow_eq_ok {topo topo' : Topology} {x : ℕ} :
    parseRow m topo x = .ok topo' ↔
      (∀ y, y < m.len.toNat → m.EntryOk x y) ∧ topo' = applyRow m topo x := by
  rw [parseRow, bind_eq_ok]
  constructor
  · rintro ⟨mid, hmid, hend⟩
    obtain ⟨hok, rfl⟩ := (foldlM_check (parseEntry_of_ok x) (parseEntry_of_not_ok x)).mp hmid
    exact ⟨fun y hy => hok y (List.mem_range.mpr hy), (Except.ok.inj hend).symm⟩
  · rintro ⟨hok, rfl⟩
    exact ⟨_, (foldlM_check (parseEntry_of_ok x) (parseEntry_of_not_ok x)).mpr
      ⟨fun y hy => hok y (List.mem_range.mp hy), rfl⟩, rfl⟩

/-- All rows, when all entries pass. -/
def applyRows (m : GeneratedModel) (topo : Topology) (n : ℕ) : Topology :=
  (List.range n).foldl (applyRow m) topo

/-- **The parser returns exactly when every entry passes its check.** -/
theorem parseModel_eq_ok {topo topo' : Topology} :
    parseModel m topo = .ok topo' ↔
      (∀ x, x < m.len.toNat → ∀ y, y < m.len.toNat → m.EntryOk x y) ∧
        topo' = markLeafs m (applyRows m ({ topo with root := m.root.toNat }.modify m.root.toNat
          fun node => { node with parent := none }) m.len.toNat) := by
  have hrow : ∀ (topo : Topology) (x : ℕ), (∀ y, y < m.len.toNat → m.EntryOk x y) →
      parseRow m topo x = .ok (applyRow m topo x) :=
    fun topo x hok => parseRow_eq_ok.mpr ⟨hok, rfl⟩
  have hfail : ∀ (topo : Topology) (x : ℕ), (¬ ∀ y, y < m.len.toNat → m.EntryOk x y) →
      ∃ e, parseRow m topo x = .error e := by
    intro topo x hnot
    cases hres : parseRow m topo x with
    | error e => exact ⟨e, rfl⟩
    | ok topo' => exact absurd (parseRow_eq_ok.mp hres).1 hnot
  rw [parseModel, bind_eq_ok]
  constructor
  · rintro ⟨mid, hmid, hend⟩
    obtain ⟨hok, rfl⟩ := (foldlM_check hrow hfail).mp hmid
    exact ⟨fun x hx => hok x (List.mem_range.mpr hx), (Except.ok.inj hend).symm⟩
  · rintro ⟨hok, rfl⟩
    exact ⟨_, (foldlM_check hrow hfail).mpr
      ⟨fun x hx => hok x (List.mem_range.mp hx), rfl⟩, rfl⟩

@[simp] theorem Topology.modify_node (topo : Topology) (x z : ℕ) (f : TopologyNode → TopologyNode) :
    (topo.modify x f).node z = if z = x then f (topo.node z) else topo.node z := by
  by_cases hz : z = x
  · subst hz
    simp [Topology.modify]
  · simp [Topology.modify, hz]

@[simp] theorem Topology.modify_root (topo : Topology) (x : ℕ) (f : TopologyNode → TopologyNode) :
    (topo.modify x f).root = topo.root := rfl

section Entry

variable (m) (x y z i : ℕ) (topo : Topology)

theorem not_isChild_of_isParent (h : m.IsParent x y) : ¬ m.IsChild x y := by
  simp only [GeneratedModel.IsParent, GeneratedModel.IsChild, topoMatrixMaxMp, topoMatrixParent,
    topoMatrixShmSlaveStart, topoMatrixShmSlaveMax] at h ⊢
  omega

/-- The node `z` after the entry in row `x` and column `y`. -/
theorem applyEntry_node : (applyEntry m x topo y).node z = { topo.node z with
    topology := if z = x ∧ m.IsChild x y then true else (topo.node z).topology
    parent := if z = x ∧ m.IsParent x y then some y else (topo.node z).parent
    children := if z = x ∧ m.IsChild x y
      then Function.update (topo.node z).children (m.entry x y - 1) (some y)
      else (topo.node z).children
    nodeId := if z = x ∧ m.IsChild x y then x else (topo.node z).nodeId
    arrayIndex := if z = y ∧ m.IsChild x y then m.entry x y - 1
      else (topo.node z).arrayIndex } := by
  by_cases hp : m.IsParent x y
  · have hc := not_isChild_of_isParent m x y hp
    by_cases hx : z = x
    · simp [applyEntry, hp, hc, hx]
    · simp [applyEntry, hp, hc, hx]
  · by_cases hc : m.IsChild x y
    · by_cases hx : z = x
      · by_cases hy : z = y
        · subst hx hy
          simp [applyEntry, hp, hc]
        · have hy' : x ≠ y := hx ▸ hy
          simp [applyEntry, hp, hc, hx, hy']
      · by_cases hy : z = y
        · have hx' : y ≠ x := hy ▸ hx
          simp [applyEntry, hp, hc, hy, hx']
        · simp [applyEntry, hp, hc, hx, hy]
    · simp [applyEntry, hp, hc]

/-- The node `z` after the first `n` columns of row `x`. -/
theorem applyEntries_node (n : ℕ) : ((List.range n).foldl (applyEntry m x) topo).node z =
    { topo.node z with
      topology := if z = x ∧ (last (m.IsChild x) n).isSome then true else (topo.node z).topology
      parent := if z = x then (last (m.IsParent x) n).or (topo.node z).parent
        else (topo.node z).parent
      children := fun i =>
        if z = x then (last (fun y => m.IsChild x y ∧ m.entry x y = i + 1) n).or
          ((topo.node z).children i)
        else (topo.node z).children i
      nodeId := if z = x ∧ (last (m.IsChild x) n).isSome then x else (topo.node z).nodeId
      arrayIndex := if z < n ∧ m.IsChild x z then m.entry x z - 1
        else (topo.node z).arrayIndex } := by
  induction n with
  | zero => simp [last]
  | succ n ih =>
    rw [List.range_succ, List.foldl_append, List.foldl_cons, List.foldl_nil, applyEntry_node, ih]
    simp only [TopologyNode.mk.injEq, and_true]
    refine ⟨?_, ?_, ?_, ?_, ?_⟩
    · by_cases hx : z = x <;> by_cases hc : m.IsChild x n <;> simp [hx, hc, last]
    · by_cases hx : z = x <;> by_cases hp : m.IsParent x n <;> simp [hx, hp, last]
    · funext i
      by_cases hx : z = x
      · by_cases hc : m.IsChild x n
        · have hpos : 0 < m.entry x n := hc.1
          by_cases hi : m.entry x n = i + 1
          · have hpred : m.entry x n - 1 = i := by omega
            simp [hx, hc, hi, last]
          · have hpred : i ≠ m.entry x n - 1 := by omega
            simp [hx, hc, hi, last, hpred]
        · simp [hx, hc, last]
      · simp [hx]
    · by_cases hx : z = x <;> by_cases hc : m.IsChild x n <;> simp [hx, hc, last]
    · by_cases hz : z = n
      · subst hz
        by_cases hc : m.IsChild x z <;> simp [hc]
      · have hlt : z < n + 1 ↔ z < n := by omega
        simp [hz, hlt]

/-- The node `z` after row `x`. -/
theorem applyRow_node : (applyRow m topo x).node z =
    { topo.node z with
      topology := if z = x ∧ (last (m.IsChild x) m.len.toNat).isSome then true
        else (topo.node z).topology
      parent := if z = x then (last (m.IsParent x) m.len.toNat).or (topo.node z).parent
        else (topo.node z).parent
      children := fun i =>
        if z = x then last (fun y => m.IsChild x y ∧ m.entry x y = i + 1) m.len.toNat
        else (topo.node z).children i
      nodeId := if z = x then x else (topo.node z).nodeId
      arrayIndex := if z < m.len.toNat ∧ m.IsChild x z then m.entry x z - 1
        else (topo.node z).arrayIndex
      numChildren := if z = x then maxChild m x else (topo.node z).numChildren
      numChildrenShm := if z = x then shmChildren m x else (topo.node z).numChildrenShm
      childrenShm := if z = x then fun _ => none else (topo.node z).childrenShm } := by
  rw [applyRow, Topology.modify_node, applyEntries_node, openRow, Topology.modify_node]
  by_cases hx : z = x
  · subst hx
    simp
  · simp [hx]

/-- The node `z` after the first `n` rows. -/
theorem applyRows_node (n : ℕ) : (applyRows m topo n).node z =
    { topo.node z with
      topology := if z < n ∧ (last (m.IsChild z) m.len.toNat).isSome then true
        else (topo.node z).topology
      parent := if z < n then (last (m.IsParent z) m.len.toNat).or (topo.node z).parent
        else (topo.node z).parent
      children := fun i =>
        if z < n then last (fun y => m.IsChild z y ∧ m.entry z y = i + 1) m.len.toNat
        else (topo.node z).children i
      nodeId := if z < n then z else (topo.node z).nodeId
      arrayIndex := if z < m.len.toNat
        then (last (fun x => m.IsChild x z) n).elim (topo.node z).arrayIndex
          fun x => m.entry x z - 1
        else (topo.node z).arrayIndex
      numChildren := if z < n then maxChild m z else (topo.node z).numChildren
      numChildrenShm := if z < n then shmChildren m z else (topo.node z).numChildrenShm
      childrenShm := if z < n then fun _ => none else (topo.node z).childrenShm } := by
  induction n with
  | zero => simp [applyRows, last]
  | succ n ih =>
    have hstep : applyRows m topo (n + 1) = applyRow m (applyRows m topo n) n := by
      simp [applyRows, List.range_succ]
    rw [hstep, applyRow_node, ih]
    simp only [TopologyNode.mk.injEq]
    by_cases hz : z = n
    · subst hz
      by_cases hlen : z < m.len.toNat <;> by_cases hc : m.IsChild z z <;> simp [hlen, hc, last]
    · have hlt : z < n + 1 ↔ z < n := by omega
      by_cases hlen : z < m.len.toNat <;> by_cases hc : m.IsChild n z <;>
        simp [hz, hlt, hlen, hc, last]

end Entry

/-- The leaves a model lists, `0` apart. -/
def GeneratedModel.ListsLeaf (m : GeneratedModel) (z : ℕ) : Prop :=
  z ≠ 0 ∧ ∃ leaf ∈ m.leafs, leaf.toNat = z

instance (m : GeneratedModel) (z : ℕ) : Decidable (m.ListsLeaf z) :=
  inferInstanceAs (Decidable (_ ∧ _))

theorem markLeaf_node (leafs : List UInt32) (i z : ℕ) (topo : Topology) :
    (leafs.foldl (fun topo leaf =>
      if leaf.toNat = i ∧ i ≠ 0 then topo.modify i fun node => { node with isLeaf := true }
      else topo) topo).node z =
    { topo.node z with
      isLeaf := if z = i ∧ i ≠ 0 ∧ ∃ leaf ∈ leafs, leaf.toNat = i then true
        else (topo.node z).isLeaf } := by
  induction leafs generalizing topo with
  | nil => simp
  | cons leaf leafs ih =>
    rw [List.foldl_cons, ih]
    by_cases hl : leaf.toNat = i ∧ i ≠ 0
    · by_cases hz : z = i <;> simp [hl, hz]
    · by_cases hi : i = 0
      · simp [hi]
      · have hne : leaf.toNat ≠ i := fun h => hl ⟨h, hi⟩
        simp [hne]

/-- The leaf flags are all that the last loops change. -/
theorem markLeafs_node (topo : Topology) (z : ℕ) :
    (markLeafs m topo).node z = { topo.node z with
      isLeaf := if z < m.len.toNat ∧ m.ListsLeaf z then true else (topo.node z).isLeaf } := by
  have hloop : ∀ n, ((List.range n).foldl (fun topo i =>
      m.leafs.foldl (fun topo leaf =>
        if leaf.toNat = i ∧ i ≠ 0 then topo.modify i fun node => { node with isLeaf := true }
        else topo) topo) topo).node z = { topo.node z with
      isLeaf := if z < n ∧ m.ListsLeaf z then true else (topo.node z).isLeaf } := by
    intro n
    induction n with
    | zero => simp
    | succ n ih =>
      rw [List.range_succ, List.foldl_append, List.foldl_cons, List.foldl_nil, markLeaf_node, ih]
      by_cases hz : z = n
      · subst hz
        simp [GeneratedModel.ListsLeaf]
      · have hlt : z < n + 1 ↔ z < n := by omega
        simp [hz, hlt]
  exact hloop m.len.toNat

/-- **What the parser builds**, from cleared memory. -/
theorem parseModel_node {topo : Topology} (h : parseModel m .zero = .ok topo) {z : ℕ}
    (hz : z < m.len.toNat) : topo.node z =
    { topology := (last (m.IsChild z) m.len.toNat).isSome
      parent := last (m.IsParent z) m.len.toNat
      children := fun i => last (fun y => m.IsChild z y ∧ m.entry z y = i + 1) m.len.toNat
      nodeId := z
      arrayIndex := (last (fun x => m.IsChild x z) m.len.toNat).elim 0 fun x => m.entry x z - 1
      numChildren := maxChild m z
      isLeaf := decide (m.ListsLeaf z)
      useShm := false
      arrayIndexShm := 0
      numChildrenShm := shmChildren m z
      childrenShm := fun _ => none } := by
  obtain ⟨-, rfl⟩ := parseModel_eq_ok.mp h
  have hstart : ({ Topology.zero with root := m.root.toNat }.modify m.root.toNat
      fun node => { node with parent := none }).node z = .zero := by
    simp [Topology.zero, TopologyNode.zero]
  rw [markLeafs_node, applyRows_node, hstart]
  simp [hz, TopologyNode.zero]

theorem foldl_root {α : Type} {f : Topology → α → Topology}
    (hf : ∀ topo a, (f topo a).root = topo.root) (l : List α) (topo : Topology) :
    (l.foldl f topo).root = topo.root := by
  induction l generalizing topo with
  | nil => rfl
  | cons a l ih => rw [List.foldl_cons, ih, hf]

end

end Smelt
