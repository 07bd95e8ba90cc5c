/-
# Rooted trees, by parent and by children

A tree of processes is wired twice: each node knows its parent, and each node has an array of its
children.  `WiredTree` carries both views with the proof that they agree, and the distance from
the root, which is what makes it a tree.

Two induction rules are used: from the root down (`induct_down`), and, when there are finitely many
nodes, from the leaves up (`induct_up`).

A path is a list of places in children arrays.  The root has exactly one path to each node
(`existsUnique_walk`).  `heap n` is the tree in which a binary heap of `n` entries is laid out.
-/
import Mathlib.Data.Set.Finite.Basic
import Mathlib.Data.Set.Finite.Lattice
import Mathlib.Data.List.Nodup
import Mathlib.Order.Bounds.Basic
import Mathlib.Data.Nat.Log
import Mathlib.Data.Fin.Basic

/-- A rooted tree: parent pointers, children arrays, and the distance from the root. -/
structure WiredTree (ι : Type*) where
  root : ι
  parent : ι → Option ι
  children : ι → List ι
  depth : ι → ℕ
  parent_eq_none : ∀ u, parent u = none ↔ u = root
  mem_children : ∀ p c, c ∈ children p ↔ parent c = some p
  nodup_children : ∀ p, (children p).Nodup
  depth_parent : ∀ p c, parent c = some p → depth c = depth p + 1

namespace WiredTree

variable {ι : Type*} (t : WiredTree ι)

/-- What holds of the root and of every child of a node it holds of, holds everywhere. -/
theorem induct_down {P : ι → Prop} (hroot : P t.root)
    (hchild : ∀ p c, t.parent c = some p → P p → P c) (u : ι) : P u := by
  induction hd : t.depth u generalizing u with
  | zero =>
    cases hp : t.parent u with
    | none => rwa [(t.parent_eq_none u).mp hp]
    | some p =>
      have := t.depth_parent p u hp
      omega
  | succ d ih =>
    cases hp : t.parent u with
    | none => rwa [(t.parent_eq_none u).mp hp]
    | some p =>
      have := t.depth_parent p u hp
      exact hchild p u hp (ih p (by omega))

/-- What holds of a node as soon as it holds of its children, holds everywhere. -/
theorem induct_up [Finite ι] {P : ι → Prop} (h : ∀ u, (∀ c, t.parent c = some u → P c) → P u)
    (u : ι) : P u := by
  obtain ⟨N, hN⟩ := (Set.finite_range t.depth).bddAbove
  have hle : ∀ v, t.depth v ≤ N := fun v => hN ⟨v, rfl⟩
  induction hd : N - t.depth u using Nat.strong_induction_on generalizing u with
  | _ d ih =>
    refine h u fun c hc => ih (N - t.depth c) ?_ c rfl
    have := t.depth_parent u c hc
    have := hle c
    omega

/-- A finite tree has a node without children. -/
theorem exists_leaf [Finite ι] : ∃ u, t.children u = [] := by
  refine t.induct_up (P := fun _ => ∃ u, t.children u = []) (fun u hchild => ?_) t.root
  cases hu : t.children u with
  | nil => exact ⟨u, hu⟩
  | cons c cs => exact hchild c ((t.mem_children u c).mp (hu ▸ List.mem_cons_self))

variable {t}

theorem ne_parent {p c : ι} (h : t.parent c = some p) : c ≠ p := by
  rintro rfl
  have := t.depth_parent _ _ h
  omega

/-- An edge has one direction. -/
theorem parent_asymm {p c : ι} (h : t.parent c = some p) : t.parent p ≠ some c := by
  intro h'
  have h1 := t.depth_parent _ _ h
  have h2 := t.depth_parent _ _ h'
  omega

/-- The place of a child in its parent's array. -/
theorem idxOf_children [DecidableEq ι] {u c : ι} {i : ℕ} (h : (t.children u)[i]? = some c) :
    (t.children u).idxOf c = i := by
  obtain ⟨hi, rfl⟩ := List.getElem?_eq_some_iff.mp h
  exact (t.nodup_children u).idxOf_getElem i hi

theorem parent_of_getElem? {u c : ι} {i : ℕ} (h : (t.children u)[i]? = some c) :
    t.parent c = some u :=
  (t.mem_children u c).mp (List.mem_of_getElem? h)

/-! ## Paths -/

/-- The node at the end of a path that starts at `u`. -/
def walk (t : WiredTree ι) (u : ι) : List ℕ → Option ι
  | [] => some u
  | i :: path => ((t.children u)[i]?).bind fun c => t.walk c path

theorem walk_concat (u : ι) (path : List ℕ) (i : ℕ) :
    t.walk u (path ++ [i]) = (t.walk u path).bind fun p => (t.children p)[i]? := by
  induction path generalizing u with
  | nil => cases h : (t.children u)[i]? <;> simp [walk, h]
  | cons j path ih => cases h : (t.children u)[j]? <;> simp [walk, h, ih]

/-- **The root has exactly one path to each node**: the last place of it is the node's own place at
its parent, and before that it is the path to the parent. -/
theorem existsUnique_walk (u : ι) : ∃! path, t.walk t.root path = some u := by
  refine t.induct_down (P := fun u => ∃! path, t.walk t.root path = some u) ?_ ?_ u
  · refine ⟨[], rfl, fun path hpath => ?_⟩
    rcases List.eq_nil_or_concat' path with rfl | ⟨init, i, rfl⟩
    · rfl
    · rw [walk_concat] at hpath
      obtain ⟨p, -, hi⟩ := Option.bind_eq_some_iff.mp hpath
      have hparent := (t.mem_children p t.root).mp (List.mem_of_getElem? hi)
      rw [(t.parent_eq_none t.root).mpr rfl] at hparent
      cases hparent
  · rintro p c hc ⟨path, hpath, huniq⟩
    obtain ⟨i, hi⟩ := List.getElem?_of_mem ((t.mem_children p c).mpr hc)
    refine ⟨path ++ [i], ?_, fun path' hpath' => ?_⟩
    · have hlast : t.walk t.root (path ++ [i]) = (t.children p)[i]? := by
        rw [walk_concat, hpath, Option.bind_some]
      exact hlast.trans hi
    · rcases List.eq_nil_or_concat' path' with rfl | ⟨init, j, rfl⟩
      · obtain rfl : t.root = c := Option.some.inj hpath'
        rw [(t.parent_eq_none t.root).mpr rfl] at hc
        cases hc
      · rw [walk_concat] at hpath'
        obtain ⟨q, hq, hj⟩ := Option.bind_eq_some_iff.mp hpath'
        -- the node before the last one is the parent, and a child has one place
        have hparent := (t.mem_children q c).mp (List.mem_of_getElem? hj)
        rw [hc] at hparent
        obtain rfl := Option.some.inj hparent
        have hij : j = i := by
          obtain ⟨hjlt, hjc⟩ := List.getElem?_eq_some_iff.mp hj
          obtain ⟨hilt, hic⟩ := List.getElem?_eq_some_iff.mp hi
          exact (t.nodup_children p).getElem_inj_iff.mp (hjc.trans hic.symm)
        rw [huniq init hq, hij]

/-! ## Examples of trees -/

/-- The tree of one edge: `true` under `false`. -/
def pair : WiredTree Bool where
  root := false
  parent u := if u then some false else none
  children u := if u then [] else [true]
  depth u := if u then 1 else 0
  parent_eq_none := by decide
  mem_children := by decide
  nodup_children := by decide
  depth_parent := by decide

/-- A child's level is one below its parent's. -/
theorem log_heap {p c : ℕ} (h : c = 2 * p + 1 ∨ c = 2 * p + 2) :
    Nat.log 2 (c + 1) = Nat.log 2 (p + 1) + 1 := by
  have hhalf : (c + 1) / 2 = p + 1 := by omega
  rw [Nat.log_of_one_lt_of_le (by decide) (by omega), hhalf]

/-- The tree of a binary heap: the children of `p` are `2 * p + 1` and `2 * p + 2`, as far as there
are that many nodes. -/
def heap (n : ℕ) (hn : 0 < n) : WiredTree (Fin n) where
  root := ⟨0, hn⟩
  parent c := if (c : ℕ) = 0 then none else some ⟨(c - 1) / 2, by omega⟩
  children p :=
    if h2 : 2 * p + 2 < n then [⟨2 * p + 1, by omega⟩, ⟨2 * p + 2, h2⟩]
    else if h1 : 2 * p + 1 < n then [⟨2 * p + 1, h1⟩]
    else []
  depth u := Nat.log 2 (u + 1)
  parent_eq_none u := by
    simp [Fin.ext_iff]
  mem_children p c := by
    have hc := c.isLt
    split
    · simp [Fin.ext_iff]
      omega
    · split
      · simp [Fin.ext_iff]
        omega
      · simp [Fin.ext_iff]
        omega
  nodup_children p := by
    split
    · simp
    · split
      · exact List.nodup_singleton _
      · exact List.nodup_nil
  depth_parent p c h := by
    split at h
    · cases h
    · obtain rfl := Option.some.inj h
      refine log_heap ?_
      simp only
      omega

end WiredTree
