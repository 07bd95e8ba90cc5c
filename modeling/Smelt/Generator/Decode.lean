/-
# Decoding the matrix

The array for the matrix has as many rows and columns as the document has rows, and entry `y` of row
`x` goes to `x*elem.size()+y`, in 32 bits.  Nothing compares the length of a row with the number of
rows, and an entry is cut to 16 bits.

So a short row leaves entries that were never stored, and a long one runs into the next row.  That
does no harm as long as it stays in the array: the next rows are stored over it.  `decoded_iff`
gives the condition, `Fits`.

What is in the array in the end is decided by the last store to each place (`foldl_rowsStores`).
For the entries of the matrix this is their own store, but for one size: with 65536 rows a long row
comes back to the beginning of the array.
-/
import Smelt.Generator.Document
import Smelt.Lib.Loop

namespace Smelt

namespace Generator

open Buffer

/-! ## 1. What the wrapper stores -/

/-- What an entry is stored as, when it can be converted. -/
def stored (val : Json) : Option UInt16 := val.asInt.map narrow

/-- The stores of a row, from column `y` on. -/
def rowStores (n x : ℕ) : List Json → ℕ → List (ℕ × Option UInt16)
  | [], _ => []
  | val :: vals, y => ((x * n + y) % 2 ^ 32, stored val) :: rowStores n x vals (y + 1)

/-- The stores of the rows, from row `x` on. -/
def rowsStores (n : ℕ) : List Json → ℕ → List (ℕ × Option UInt16)
  | [], _ => []
  | row :: rows, x => rowStores n x row.elems 0 ++ rowsStores n rows (x + 1)

section Stores

variable {n x y : ℕ} {vals rows : List Json} {k : Code (Option UInt16) (Option Parsed)}
  {m m' : ℕ → Option UInt16} {out : Parsed}

/-- A row of integers is stored to its end, -/
theorem storeRow_eq (hints : ∀ val ∈ vals, val.asInt ≠ none) :
    storeRow n x k vals y = storeEach k (rowStores n x vals y) := by
  induction vals generalizing y with
  | nil => rfl
  | cons val vals ih =>
    obtain ⟨hint, hrest⟩ := List.forall_mem_cons.mp hints
    obtain ⟨v, hv⟩ := Option.ne_none_iff_exists'.mp hint
    simp only [storeRow, rowStores, storeEach, stored, hv, Option.map_some, ih hrest]

theorem storeRows_eq (hints : ∀ row ∈ rows, ∀ val ∈ row.elems, val.asInt ≠ none) :
    storeRows n k rows x = storeEach k (rowsStores n rows x) := by
  induction rows generalizing x with
  | nil => rfl
  | cons row rows ih =>
    obtain ⟨hrow, hrest⟩ := List.forall_mem_cons.mp hints
    rw [storeRows, storeRow_eq hrow, ih hrest, rowsStores, storeEach_append]

/-- and no other is. -/
theorem ints_of_storeRow (h : (storeRow n x k vals y).run handle m = some (m', some out)) :
    ∀ val ∈ vals, val.asInt ≠ none := by
  induction vals generalizing y m with
  | nil => exact fun val hval => absurd hval List.not_mem_nil
  | cons val vals ih =>
    rw [storeRow] at h
    cases hint : val.asInt with
    | none =>
      rw [hint] at h
      cases h
    | some v =>
      rw [hint] at h
      exact List.forall_mem_cons.mpr ⟨by rw [hint]; exact Option.some_ne_none v, ih (y := y + 1) h⟩

theorem ints_of_storeRows (h : (storeRows n k rows x).run handle m = some (m', some out)) :
    ∀ row ∈ rows, ∀ val ∈ row.elems, val.asInt ≠ none := by
  induction rows generalizing x m with
  | nil => exact fun row hrow => absurd hrow List.not_mem_nil
  | cons row rows ih =>
    rw [storeRows] at h
    have hrow := ints_of_storeRow h
    rw [storeRow_eq hrow, run_storeEach] at h
    exact List.forall_mem_cons.mpr ⟨hrow, ih h⟩

/-- The stores of a row around the one of an entry, -/
theorem rowStores_split {j : ℕ} {val : Json} (hval : vals[j]? = some val) :
    ∃ before, rowStores n x vals y = before ++ ((x * n + (y + j)) % 2 ^ 32, stored val) ::
      rowStores n x (vals.drop (j + 1)) (y + (j + 1)) := by
  induction vals generalizing y j with
  | nil => cases hval
  | cons head vals ih =>
    cases j with
    | zero =>
      obtain rfl := Option.some.inj hval
      exact ⟨[], rfl⟩
    | succ j =>
      obtain ⟨before, heq⟩ := @ih (y + 1) j hval
      have hidx : ∀ k, y + 1 + k = y + (k + 1) := Nat.succ_add_eq_add_succ y
      rw [hidx, hidx] at heq
      exact ⟨_ :: before, congrArg (List.cons _) heq⟩

/-- and the stores of the matrix around those of a row. -/
theorem rowsStores_split {i : ℕ} {row : Json} (hrow : rows[i]? = some row) :
    ∃ before, rowsStores n rows x = before ++ (rowStores n (x + i) row.elems 0 ++
      rowsStores n (rows.drop (i + 1)) (x + (i + 1))) := by
  induction rows generalizing x i with
  | nil => cases hrow
  | cons head rows ih =>
    cases i with
    | zero =>
      obtain rfl := Option.some.inj hrow
      exact ⟨[], rfl⟩
    | succ i =>
      obtain ⟨before, heq⟩ := @ih (x + 1) i hrow
      have hidx : ∀ k, x + 1 + k = x + (k + 1) := Nat.succ_add_eq_add_succ x
      rw [hidx, hidx] at heq
      refine ⟨rowStores n x head.elems 0 ++ before, ?_⟩
      rw [rowsStores, heq, List.append_assoc]
      rfl

/-- Every store is the one of an entry. -/
theorem exists_of_mem_rowStores {p : ℕ × Option UInt16} (hp : p ∈ rowStores n x vals y) :
    ∃ j < vals.length, p.1 = (x * n + (y + j)) % 2 ^ 32 := by
  induction vals generalizing y with
  | nil => cases hp
  | cons val vals ih =>
    rcases List.mem_cons.mp hp with rfl | hp
    · exact ⟨0, Nat.succ_pos _, rfl⟩
    · obtain ⟨j, hj, hidx⟩ := ih hp
      rw [Nat.succ_add_eq_add_succ] at hidx
      exact ⟨j + 1, Nat.succ_lt_succ hj, hidx⟩

theorem exists_of_mem_rowsStores {p : ℕ × Option UInt16} (hp : p ∈ rowsStores n rows x) :
    ∃ i row j, rows[i]? = some row ∧ j < row.elems.length ∧ p.1 = ((x + i) * n + j) % 2 ^ 32 := by
  induction rows generalizing x with
  | nil => cases hp
  | cons row rows ih =>
    rcases List.mem_append.mp hp with hp | hp
    · obtain ⟨j, hj, hidx⟩ := exists_of_mem_rowStores hp
      rw [Nat.zero_add] at hidx
      exact ⟨0, row, j, rfl, hj, hidx⟩
    · obtain ⟨i, row', j, hi, hj, hidx⟩ := ih hp
      rw [Nat.succ_add_eq_add_succ] at hidx
      exact ⟨i + 1, row', j, hi, hj, hidx⟩

/-- An entry is stored. -/
theorem mem_rowsStores {i j : ℕ} {row val : Json} (hrow : rows[i]? = some row)
    (hval : row.elems[j]? = some val) :
    ((i * n + j) % 2 ^ 32, stored val) ∈ rowsStores n rows 0 := by
  obtain ⟨before, hrows⟩ := rowsStores_split (n := n) (x := 0) hrow
  obtain ⟨before', hvals⟩ := rowStores_split (n := n) (x := 0 + i) (y := 0) hval
  rw [Nat.zero_add, Nat.zero_add] at hvals
  rw [hrows, Nat.zero_add, hvals]
  refine List.mem_append_right _ (List.mem_append_left _ (List.mem_append_right _ ?_))
  exact List.mem_cons_self

/-- **An entry is in the array in the end** when no later row reaches its index.  A row itself does
not come back to it, as its length is counted with 32 bits. -/
theorem foldl_rowsStores {i j p : ℕ} {row val : Json} (hrow : rows[i]? = some row)
    (hval : row.elems[j]? = some val) (hp : (i * n + j) % 2 ^ 32 = p)
    (hlater : ∀ i' row', i < i' → rows[i']? = some row' →
      p < i' * n ∧ i' * n + row'.elems.length ≤ p + 2 ^ 32) :
    (rowsStores n rows 0).foldl (fun m p => Function.update m p.1 p.2) m p = stored val := by
  obtain ⟨before, hrows⟩ := rowsStores_split (n := n) (x := 0) hrow
  obtain ⟨before', hvals⟩ := rowStores_split (n := n) (x := 0 + i) (y := 0) hval
  rw [Nat.zero_add, Nat.zero_add, hp] at hvals
  rw [Nat.zero_add, hvals, List.append_assoc, List.cons_append, ← List.append_assoc] at hrows
  rw [hrows]
  refine foldl_store_last (p := (p, stored val)) fun q hq => ?_
  have hlen := row.length_elems_lt
  have hj := (List.getElem?_eq_some_iff.mp hval).1
  rcases List.mem_append.mp hq with hq | hq
  · obtain ⟨j', hj', hidx⟩ := exists_of_mem_rowStores hq
    rw [List.length_drop] at hj'
    rw [hidx, ← hp]
    dsimp only
    omega
  · obtain ⟨i', row', j', hi', hj', hidx⟩ := exists_of_mem_rowsStores hq
    rw [List.getElem?_drop] at hi'
    obtain ⟨hstart, hend⟩ := hlater _ row' (by omega) hi'
    rw [hidx, Nat.zero_add]
    dsimp only
    omega

end Stores

/-! ## 2. What the document says -/

/-- A member of the document, or the empty string. -/
def Json.member (doc : Json) (key : String) : Json := (doc.get key (.string "")).getD .null

/-- The rows of the matrix. -/
def Json.modelRows (doc : Json) : List Json := (doc.member "model").elems

/-- The entry in row `x` and column `y`. -/
def Json.entry (doc : Json) (x y : ℕ) : Option Json :=
  doc.modelRows[x]?.bind fun row => row.elems[y]?

/-- An entry of a row that is there. -/
theorem Json.entry_eq {doc row val : Json} {x y : ℕ} (hrow : doc.modelRows[x]? = some row)
    (hval : row.elems[y]? = some val) : doc.entry x y = some val := by
  rw [entry, hrow, Option.bind_some, hval]

theorem Json.exists_entry {doc row : Json} {x y : ℕ} (hrow : doc.modelRows[x]? = some row)
    (hy : y < row.elems.length) : ∃ val, row.elems[y]? = some val ∧ doc.entry x y = some val :=
  ⟨_, List.getElem?_eq_getElem hy, entry_eq hrow (List.getElem?_eq_getElem hy)⟩

/-- The list of leaves. -/
def Json.leafList (doc : Json) : List Json := (doc.member "leaf_nodes").elems

/-- **The document is decoded faithfully**: all stores are in the array, the array has the
document's entries, and the leaves are the document's. -/
structure Decoded (doc : Json) (model : ℕ → Option UInt16) (out : Parsed) : Prop where
  len : out.lenModel.toNat = doc.modelRows.length
  inside : (treeParseWrapper doc).Only anyWord fun q =>
    q.index < out.lenModel.toNat * out.lenModel.toNat
  entries : ∀ x y, x < out.lenModel.toNat → y < out.lenModel.toNat → ∃ val w,
    doc.entry x y = some val ∧ model (x * out.lenModel.toNat + y) = some w ∧
      val.number = some (w.toNat : ℚ)
  numLeafs : out.numLeafs.toNat = doc.leafList.length ∧ out.leafs.length = doc.leafList.length
  leafs : ∀ (i : ℕ) (leaf : Json), doc.leafList[i]? = some leaf → ∃ u : UInt32,
    out.leafs[i]? = some u ∧ leaf.number = some (u.toNat : ℚ)

/-- **The condition**: the matrix is no larger than 32 bits can index, no row is short, a longer row
ends within the array, the entries are numbers of 16 bits, and the leaves are numbers.

With 65536 rows the array is all that 32 bits can index, and a longer row comes back to its
beginning.  There it has to store what the matrix has, unless a later row does. -/
structure Fits (doc : Json) : Prop where
  size : doc.modelRows.length ≤ 2 ^ 16
  rows : ∀ (x : ℕ) (row : Json),
    doc.modelRows[x]? = some row → doc.modelRows.length ≤ row.elems.length
  ends : doc.modelRows.length < 2 ^ 16 → ∀ (x : ℕ) (row : Json), doc.modelRows[x]? = some row →
    x * doc.modelRows.length + row.elems.length ≤ doc.modelRows.length * doc.modelRows.length
  wraps : ∀ x y val p, doc.entry x y = some val → x * doc.modelRows.length + y = p + 2 ^ 32 →
    (∀ (x' : ℕ) (row' : Json), x < x' → doc.modelRows[x']? = some row' →
      x' * doc.modelRows.length + row'.elems.length ≤ p + 2 ^ 32) →
    ∃ val', doc.entry (p / doc.modelRows.length) (p % doc.modelRows.length) = some val' ∧
      stored val = stored val'
  numbers : ∀ x y val, y < doc.modelRows.length → doc.entry x y = some val →
    ∃ w : UInt16, val.number = some (w.toNat : ℚ)
  leafs : ∀ leaf ∈ doc.leafList, ∃ u : UInt32, leaf.number = some (u.toNat : ℚ)

/-! ## 3. Numbers -/

theorem toNat_ofInt {k : ℕ} (hk : k < 2 ^ 32) : (UInt32.ofInt k).toNat = k := by
  have hmod : ((k : ℤ) % 2 ^ 32).toNat = k := by omega
  rw [UInt32.ofInt, hmod]
  exact UInt32.toNat_ofNat_of_lt' hk

theorem ofInt_toNat (u : UInt32) : UInt32.ofInt u.toNat = u :=
  UInt32.toNat_inj.mp (toNat_ofInt u.toNat_lt)

theorem narrow_toNat (w : UInt16) : narrow w.toNat = w := by
  have hlt := w.toNat_lt
  rw [narrow, ← UInt16.toNat_inj, UInt32.toNat_toUInt16, toNat_ofInt (by omega)]
  exact Nat.mod_eq_of_lt hlt

/-- An entry of 16 bits is stored as the number that it is. -/
theorem stored_of_number {val : Json} {w : UInt16} (hint : val.asInt ≠ none)
    (hnum : val.number = some (w.toNat : ℚ)) : stored val = some w := by
  obtain ⟨v, hv⟩ := Option.ne_none_iff_exists'.mp hint
  obtain rfl := Json.asInt_of_number hv hnum
  rw [stored, hv, Option.map_some, narrow_toNat]

/-- What the loop over the leaves returns. -/
theorem readLeafs_spec {leafsJ : Json} {is : List ℕ} {us : List UInt32}
    (h : readLeafs leafsJ is = some us) :
    us.length = is.length ∧ ∀ (k i : ℕ), is[k]? = some i → ∃ leaf v,
      leafsJ.getIndex i = some leaf ∧ leaf.asInt = some v ∧ us[k]? = some (UInt32.ofInt v) := by
  induction is generalizing us with
  | nil =>
    obtain rfl := Option.some.inj h
    exact ⟨rfl, fun k i hi => by cases hi⟩
  | cons i is ih =>
    rw [readLeafs] at h
    obtain ⟨leaf, hleaf, h⟩ := Option.bind_eq_some_iff.mp h
    obtain ⟨v, hv, h⟩ := Option.bind_eq_some_iff.mp h
    obtain ⟨rest, hrest, h⟩ := Option.bind_eq_some_iff.mp h
    obtain rfl := Option.some.inj h
    obtain ⟨hlen, hall⟩ := ih hrest
    refine ⟨by rw [List.length_cons, List.length_cons, hlen], fun k i' hi' => ?_⟩
    cases k with
    | zero =>
      obtain rfl := Option.some.inj hi'
      exact ⟨leaf, v, hleaf, hv, rfl⟩
    | succ k => exact hall k i' hi'

/-- An index into a list of values. -/
theorem Json.getIndex_eq {v leaf leaf' : Json} {i : ℕ} (h : v.elems[i]? = some leaf)
    (h' : v.getIndex i = some leaf') : leaf' = leaf := by
  cases v with
  | array n elem =>
    simp only [elems, List.getElem?_map, Option.map_eq_some_iff] at h
    obtain ⟨j, hj, rfl⟩ := h
    obtain ⟨hlt, rfl⟩ := List.getElem?_eq_some_iff.mp hj
    rw [List.length_range] at hlt
    rw [getIndex, if_pos hlt] at h'
    rw [List.getElem_range]
    exact (Option.some.inj h').symm
  | null => cases h
  | int n => cases h
  | real q => cases h
  | string s => cases h
  | bool b => cases h
  | object n key value => cases h'

/-- The head of the wrapper. -/
theorem parseHead_spec {doc elem : Json} {out : Parsed} (h : parseHead doc = some (out, elem)) :
    elem = doc.member "model" ∧ out.lenModel = elem.size ∧
      out.numLeafs = (doc.member "leaf_nodes").size ∧
      readLeafs (doc.member "leaf_nodes") (List.range (doc.member "leaf_nodes").size.toNat) =
        some out.leafs := by
  rw [parseHead] at h
  obtain ⟨ln, -, h⟩ := Option.bind_eq_some_iff.mp h
  obtain ⟨lnval, -, h⟩ := Option.bind_eq_some_iff.mp h
  obtain ⟨git, -, h⟩ := Option.bind_eq_some_iff.mp h
  obtain ⟨u, -, h⟩ := Option.bind_eq_some_iff.mp h
  obtain ⟨leafsJ, hleafs, h⟩ := Option.bind_eq_some_iff.mp h
  obtain ⟨leafs, hread, h⟩ := Option.bind_eq_some_iff.mp h
  obtain ⟨elem', helem, h⟩ := Option.bind_eq_some_iff.mp h
  obtain ⟨rfl, rfl⟩ := Prod.mk.inj (Option.some.inj h)
  have hmember : doc.member "leaf_nodes" = leafsJ := by rw [Json.member, hleafs, Option.getD_some]
  refine ⟨by rw [Json.member, helem, Option.getD_some], rfl, by rw [hmember], ?_⟩
  rw [hmember]
  exact hread

/-! ## 4. When the document is decoded -/

/-- What is known of a run that returns `0`. -/
structure Returned (doc : Json) (model : ℕ → Option UInt16) (out : Parsed) : Prop where
  len : out.lenModel.toNat = doc.modelRows.length
  prog : treeParseWrapper doc =
    storeEach (.ret (some out)) (rowsStores doc.modelRows.length doc.modelRows 0)
  model : model = (rowsStores doc.modelRows.length doc.modelRows 0).foldl
    (fun m p => Function.update m p.1 p.2) fun _ => none
  ints : ∀ x y val, doc.entry x y = some val → val.asInt ≠ none
  numLeafs : out.numLeafs.toNat = doc.leafList.length ∧ out.leafs.length = doc.leafList.length
  leafs : ∀ (i : ℕ) (leaf : Json), doc.leafList[i]? = some leaf → ∃ v, leaf.asInt = some v ∧
    out.leafs[i]? = some (UInt32.ofInt v)

section Returned

variable {doc : Json} {model : ℕ → Option UInt16} {out : Parsed}

theorem returned
    (hrun : (treeParseWrapper doc).run handle (fun _ => none) = some (model, some out)) :
    Returned doc model out := by
  rw [treeParseWrapper] at hrun
  cases hhead : parseHead doc with
  | none =>
    rw [hhead] at hrun
    cases hrun
  | some head =>
    obtain ⟨out', elem⟩ := head
    rw [hhead] at hrun
    obtain ⟨helem, hlen, hnum, hread⟩ := parseHead_spec hhead
    have hsize : elem.size.toNat = doc.modelRows.length := by
      rw [Json.modelRows, ← helem, Json.length_elems]
    have hrows : elem.elems = doc.modelRows := by rw [Json.modelRows, helem]
    dsimp only at hrun
    rw [hsize, hrows] at hrun
    have hints := ints_of_storeRows hrun
    have hprog := storeRows_eq (n := doc.modelRows.length) (x := 0) (k := .ret (some out')) hints
    rw [hprog, run_storeEach] at hrun
    obtain ⟨hmodel, hout⟩ := Prod.mk.inj (Option.some.inj hrun)
    obtain rfl : out' = out := Option.some.inj hout
    obtain ⟨hcount, hall⟩ := readLeafs_spec hread
    rw [List.length_range] at hcount
    refine ⟨by rw [hlen, hsize], ?_, hmodel.symm, fun x y val hval => ?_, ⟨?_, ?_⟩,
      fun i leaf hleaf => ?_⟩
    · rw [treeParseWrapper, hhead]
      dsimp only
      rw [hsize, hrows, hprog]
    · obtain ⟨row, hrow, hy⟩ := Option.bind_eq_some_iff.mp hval
      exact hints row (List.mem_of_getElem? hrow) val (List.mem_of_getElem? hy)
    · rw [hnum, Json.leafList, Json.length_elems]
    · rw [hcount, Json.leafList, Json.length_elems]
    · have hi : i < (doc.member "leaf_nodes").size.toNat := by
        rw [← Json.length_elems]
        exact (List.getElem?_eq_some_iff.mp hleaf).1
      obtain ⟨leaf', v, hget, hv, hu⟩ := hall i i (List.getElem?_range hi)
      obtain rfl := Json.getIndex_eq hleaf hget
      exact ⟨v, hv, hu⟩

/-- The place of an entry is before the rows behind its own. -/
theorem place_lt {n x y z : ℕ} (hy : y < n) (hx : x < z) : x * n + y < z * n := by
  rw [Nat.mul_comm x]
  exact Nat.mul_add_lt_mul_of_lt_of_lt hx hy

/-- A matrix that is no larger than 32 bits can index. -/
theorem square_le {n : ℕ} (hn : n ≤ 2 ^ 16) : n * n ≤ 2 ^ 32 :=
  calc n * n ≤ 2 ^ 16 * 2 ^ 16 := Nat.mul_le_mul hn hn
    _ = 2 ^ 32 := by decide

theorem Fits.inside {x : ℕ} {row : Json} (hfits : Fits doc) (hrow : doc.modelRows[x]? = some row)
    {y : ℕ} (hy : y < row.elems.length) :
    (x * doc.modelRows.length + y) % 2 ^ 32 < doc.modelRows.length * doc.modelRows.length := by
  rcases Nat.lt_or_eq_of_le hfits.size with hlt | heq
  · have hend := hfits.ends hlt x row hrow
    exact Nat.lt_of_le_of_lt (Nat.mod_le _ _) (by omega)
  · rw [heq]
    exact Nat.mod_lt _ (by decide)

/-- Row `x` is so long that it comes back to the place `p`. -/
def Json.Reaches (doc : Json) (p x : ℕ) : Prop :=
  ∃ row, doc.modelRows[x]? = some row ∧
    p + 2 ^ 32 < x * doc.modelRows.length + row.elems.length

/-- There is a last one that does. -/
theorem Json.last_reaches {p x : ℕ} (hreach : doc.Reaches p x) :
    ∃ z, doc.Reaches p z ∧ ∀ (x' : ℕ) (row' : Json), z < x' → doc.modelRows[x']? = some row' →
      x' * doc.modelRows.length + row'.elems.length ≤ p + 2 ^ 32 := by
  classical
  obtain ⟨row, hrow, -⟩ := id hreach
  obtain ⟨z, hz⟩ := Loop.exists_last (List.getElem?_eq_some_iff.mp hrow).1 hreach
  obtain ⟨-, hreaches, hlast⟩ := Loop.last_eq_some.mp hz
  refine ⟨z, hreaches, fun x' row' hx' hrow' => not_lt.mp fun hlt => ?_⟩
  exact hlast x' hx' (List.getElem?_eq_some_iff.mp hrow').1 ⟨row', hrow', hlt⟩

/-- What is in the array in the end. -/
theorem Fits.final {x y : ℕ} {val : Json} {m : ℕ → Option UInt16} (hfits : Fits doc)
    (hentry : doc.entry x y = some val) (hy : y < doc.modelRows.length) :
    (rowsStores doc.modelRows.length doc.modelRows 0).foldl
      (fun m p => Function.update m p.1 p.2) m (x * doc.modelRows.length + y) = stored val := by
  obtain ⟨row, hrow, hval⟩ := Option.bind_eq_some_iff.mp hentry
  have hx := (List.getElem?_eq_some_iff.mp hrow).1
  have hplace : x * doc.modelRows.length + y < 2 ^ 32 :=
    Nat.lt_of_lt_of_le (place_lt hy hx) (square_le hfits.size)
  by_cases hreach : ∃ x', doc.Reaches (x * doc.modelRows.length + y) x'
  · -- the last row that comes back to the entry has to store what the entry is
    obtain ⟨_, hreach⟩ := hreach
    obtain ⟨x', ⟨row', hrow', hlong⟩, hlater⟩ := Json.last_reaches hreach
    have hx' := (List.getElem?_eq_some_iff.mp hrow').1
    have hstart : x' * doc.modelRows.length < 2 ^ 32 :=
      Nat.lt_of_lt_of_le (Nat.mul_lt_mul_of_pos_right hx' (Nat.zero_lt_of_lt hy))
        (square_le hfits.size)
    have hlen := row'.length_elems_lt
    obtain ⟨y', hy'⟩ : ∃ y', x' * doc.modelRows.length + y' =
        x * doc.modelRows.length + y + 2 ^ 32 :=
      ⟨x * doc.modelRows.length + y + 2 ^ 32 - x' * doc.modelRows.length, by omega⟩
    obtain ⟨val', hval', hentry'⟩ := Json.exists_entry hrow' (by omega : y' < row'.elems.length)
    obtain ⟨val'', hval'', hsame⟩ := hfits.wraps x' y' val' _ hentry' hy' hlater
    rw [Nat.mul_comm x, Nat.mul_add_div (Nat.zero_lt_of_lt hy), Nat.div_eq_of_lt hy, Nat.add_zero,
      Nat.mul_add_mod, Nat.mod_eq_of_lt hy, hentry] at hval''
    obtain rfl := Option.some.inj hval''
    rw [← hsame]
    refine foldl_rowsStores hrow' hval' (by omega) fun i row'' hi hrow'' =>
      ⟨?_, hlater i row'' hi hrow''⟩
    have hmono : x' * doc.modelRows.length ≤ i * doc.modelRows.length :=
      Nat.mul_le_mul_right _ (Nat.le_of_lt hi)
    omega
  · refine foldl_rowsStores hrow hval (Nat.mod_eq_of_lt hplace) fun i row' hi hrow' =>
      ⟨place_lt hy hi, ?_⟩
    exact not_lt.mp fun hlt => hreach ⟨i, row', hrow', hlt⟩

/-- **The condition is enough.** -/
theorem Returned.decoded (h : Returned doc model out) (hfits : Fits doc) :
    Decoded doc model out := by
  refine ⟨h.len, ?_, fun x y hx hy => ?_, h.numLeafs, fun i leaf hleaf => ?_⟩
  · rw [h.prog, h.len]
    refine only_storeEach.mpr ⟨fun p hp => ?_, trivial⟩
    obtain ⟨i, row, j, hrow, hj, hidx⟩ := exists_of_mem_rowsStores hp
    rw [Nat.zero_add] at hidx
    exact hidx ▸ hfits.inside hrow hj
  · rw [h.len] at hx hy ⊢
    obtain ⟨row, hrow⟩ : ∃ row, doc.modelRows[x]? = some row :=
      ⟨_, List.getElem?_eq_getElem hx⟩
    have hlong := hfits.rows x row hrow
    obtain ⟨val, -, hentry⟩ := Json.exists_entry hrow (Nat.lt_of_lt_of_le hy hlong)
    obtain ⟨w, hnum⟩ := hfits.numbers x y val hy hentry
    refine ⟨val, w, hentry, ?_, hnum⟩
    rw [h.model, hfits.final hentry hy, stored_of_number (h.ints x y val hentry) hnum]
  · obtain ⟨v, hv, hu⟩ := h.leafs i leaf hleaf
    obtain ⟨u, hnum⟩ := hfits.leafs leaf (List.mem_of_getElem? hleaf)
    obtain rfl := Json.asInt_of_number hv hnum
    rw [ofInt_toNat] at hu
    exact ⟨u, hu, hnum⟩

/-- A decoded document has no more rows than 32 bits can index. -/
theorem Decoded.size (h : Returned doc model out) (hdec : Decoded doc model out) :
    doc.modelRows.length ≤ 2 ^ 16 := by
  -- the last row of a larger matrix starts at an index that 32 bits do not count to
  by_contra hbig
  have hpos : 2 ^ 16 ≤ doc.modelRows.length - 1 := by omega
  have hentries := hdec.entries
  rw [h.len] at hentries
  obtain ⟨val, w, -, hw, -⟩ := hentries (doc.modelRows.length - 1) 0 (by omega) (by omega)
  have hplace : 2 ^ 32 ≤ (doc.modelRows.length - 1) * doc.modelRows.length + 0 :=
    calc 2 ^ 32 = 2 ^ 16 * 2 ^ 16 := by decide
      _ ≤ (doc.modelRows.length - 1) * doc.modelRows.length :=
        Nat.mul_le_mul hpos (Nat.le_of_lt (not_le.mp hbig))
  rw [h.model, foldl_store_of_not_mem fun p hp => ?_] at hw
  · cases hw
  · obtain ⟨i, row, j, -, -, hidx⟩ := exists_of_mem_rowsStores hp
    rw [hidx]
    exact Nat.ne_of_lt (Nat.lt_of_lt_of_le (Nat.mod_lt _ (by decide)) hplace)

/-- Its stores are in the array. -/
theorem Decoded.index_lt (h : Returned doc model out) (hdec : Decoded doc model out) {x y : ℕ}
    {val : Json} (hval : doc.entry x y = some val) :
    (x * doc.modelRows.length + y) % 2 ^ 32 < doc.modelRows.length * doc.modelRows.length := by
  have hinside := hdec.inside
  rw [h.prog, h.len] at hinside
  obtain ⟨row, hrow, hy⟩ := Option.bind_eq_some_iff.mp hval
  exact (only_storeEach.mp hinside).1 _ (mem_rowsStores hrow hy)

/-- Its rows end in the array, unless the array is all that 32 bits can index. -/
theorem Decoded.ends (h : Returned doc model out) (hdec : Decoded doc model out)
    (hlt : doc.modelRows.length < 2 ^ 16) {x : ℕ} {row : Json}
    (hrow : doc.modelRows[x]? = some row) :
    x * doc.modelRows.length + row.elems.length ≤ doc.modelRows.length * doc.modelRows.length := by
  by_contra hover
  have hx := (List.getElem?_eq_some_iff.mp hrow).1
  have hsquare : doc.modelRows.length * doc.modelRows.length < 2 ^ 32 :=
    calc doc.modelRows.length * doc.modelRows.length
        < 2 ^ 16 * 2 ^ 16 := Nat.mul_lt_mul'' hlt hlt
      _ = 2 ^ 32 := by decide
  have hstart : x * doc.modelRows.length ≤ doc.modelRows.length * doc.modelRows.length :=
    Nat.mul_le_mul_right _ (Nat.le_of_lt hx)
  -- the first entry of the row that is behind the array
  obtain ⟨y, hy⟩ := Nat.exists_eq_add_of_le hstart
  obtain ⟨val, -, hentry⟩ := Json.exists_entry hrow (by omega : y < row.elems.length)
  have hin := hdec.index_lt h hentry
  rw [← hy, Nat.mod_eq_of_lt hsquare] at hin
  exact absurd hin (Nat.lt_irrefl _)

/-- The last row that comes back to a place stores there what the matrix has. -/
theorem Decoded.wraps (h : Returned doc model out) (hdec : Decoded doc model out) {x y p : ℕ}
    {val : Json} (hval : doc.entry x y = some val)
    (hp : x * doc.modelRows.length + y = p + 2 ^ 32)
    (hlater : ∀ (x' : ℕ) (row' : Json), x < x' → doc.modelRows[x']? = some row' →
      x' * doc.modelRows.length + row'.elems.length ≤ p + 2 ^ 32) :
    ∃ val', doc.entry (p / doc.modelRows.length) (p % doc.modelRows.length) = some val' ∧
      stored val = stored val' := by
  have hentries := hdec.entries
  rw [h.len] at hentries
  obtain ⟨row, hrow, hy⟩ := Option.bind_eq_some_iff.mp hval
  have hlen := row.length_elems_lt
  have hylen := (List.getElem?_eq_some_iff.mp hy).1
  have hx := (List.getElem?_eq_some_iff.mp hrow).1
  have hpos : 0 < doc.modelRows.length := Nat.zero_lt_of_lt hx
  have hstart : x * doc.modelRows.length < 2 ^ 32 :=
    Nat.lt_of_lt_of_le (Nat.mul_lt_mul_of_pos_right hx hpos) (square_le (hdec.size h))
  have hplace : (x * doc.modelRows.length + y) % 2 ^ 32 = p := by omega
  have hin := hdec.index_lt h hval
  rw [hplace] at hin
  obtain ⟨val', w, hentry, hw, hnum⟩ := hentries (p / doc.modelRows.length)
    (p % doc.modelRows.length) (Nat.div_lt_of_lt_mul hin) (Nat.mod_lt p hpos)
  refine ⟨val', hentry, ?_⟩
  rw [stored_of_number (h.ints _ _ val' hentry) hnum, ← hw, Nat.div_add_mod', h.model]
  refine (foldl_rowsStores hrow hy hplace fun x' row' hx' hrow' =>
    ⟨?_, hlater x' row' hx' hrow'⟩).symm
  have hmono : x * doc.modelRows.length ≤ x' * doc.modelRows.length :=
    Nat.mul_le_mul_right _ (Nat.le_of_lt hx')
  omega

/-- **And it is necessary.** -/
theorem Decoded.fits (h : Returned doc model out) (hdec : Decoded doc model out) : Fits doc := by
  have hentries := hdec.entries
  rw [h.len] at hentries
  refine ⟨hdec.size h, fun x row hrow => ?_, fun hlt x row hrow => hdec.ends h hlt hrow,
    fun x y val p hval hp hlater => hdec.wraps h hval hp hlater, fun x y val hy hval => ?_,
    fun leaf hleaf => ?_⟩
  · have hx := (List.getElem?_eq_some_iff.mp hrow).1
    by_contra hshort
    obtain ⟨val, w, hentry, -, -⟩ := hentries x row.elems.length hx (not_le.mp hshort)
    rw [Json.entry, hrow, Option.bind_some, List.getElem?_eq_none (Nat.le_refl _)] at hentry
    cases hentry
  · obtain ⟨row, hrow, -⟩ := Option.bind_eq_some_iff.mp hval
    have hx := (List.getElem?_eq_some_iff.mp hrow).1
    obtain ⟨val', w, hentry, -, hnum⟩ := hentries x y hx hy
    obtain rfl := Option.some.inj (hentry.symm.trans hval)
    exact ⟨w, hnum⟩
  · obtain ⟨i, hi⟩ := List.getElem?_of_mem hleaf
    obtain ⟨u, -, hnum⟩ := hdec.leafs i leaf hi
    exact ⟨u, hnum⟩

end Returned

/-- **When the wrapper returns `0`, the document is decoded faithfully exactly if it fits.** -/
theorem decoded_iff {doc : Json} {model : ℕ → Option UInt16} {out : Parsed}
    (hrun : (treeParseWrapper doc).run handle (fun _ => none) = some (model, some out)) :
    Decoded doc model out ↔ Fits doc :=
  ⟨fun hdec => hdec.fits (returned hrun), fun hfits => (returned hrun).decoded hfits⟩

/-! ## 5. Documents -/

/-- An array of a document. -/
def Json.ofList (vs : List Json) : Json := .array (UInt32.ofNat vs.length) fun i => vs.getD i .null

/-- A document with the members of a model. -/
def modelDocument (root : ℤ) (leafs : List ℤ) (rows : List (List ℤ)) : Json :=
  .object 3 (fun i => ["leaf_nodes", "model", "root"].getD i "") fun i =>
    [Json.ofList (leafs.map .int), Json.ofList (rows.map fun row => Json.ofList (row.map .int)),
      .int root].getD i .null

/-- A document that fits. -/
theorem fits_two : Fits (modelDocument 0 [1] [[0, 1], [99, 0]]) where
  size := by decide
  rows
    | 0, _, rfl => by decide
    | 1, _, rfl => by decide
  ends _
    | 0, _, rfl => by decide
    | 1, _, rfl => by decide
  wraps
    | 0, 0, _, p, rfl, hp, _ => absurd hp (Nat.ne_of_lt (Nat.lt_add_left p (by decide)))
    | 0, 1, _, p, rfl, hp, _ => absurd hp (Nat.ne_of_lt (Nat.lt_add_left p (by decide)))
    | 1, 0, _, p, rfl, hp, _ => absurd hp (Nat.ne_of_lt (Nat.lt_add_left p (by decide)))
    | 1, 1, _, p, rfl, hp, _ => absurd hp (Nat.ne_of_lt (Nat.lt_add_left p (by decide)))
  numbers
    | 0, 0, _, _, rfl => ⟨0, rfl⟩
    | 0, 1, _, _, rfl => ⟨1, rfl⟩
    | 1, 0, _, _, rfl => ⟨99, rfl⟩
    | 1, 1, _, _, rfl => ⟨0, rfl⟩
  leafs := List.forall_mem_singleton.mpr ⟨1, rfl⟩

theorem decoded_iff_two : ∃ model out,
    (treeParseWrapper (modelDocument 0 [1] [[0, 1], [99, 0]])).run handle (fun _ => none) =
        some (model, some out) ∧ Decoded (modelDocument 0 [1] [[0, 1], [99, 0]]) model out :=
  ⟨_, _, rfl, (decoded_iff rfl).mpr fits_two⟩

/-- **The last row of this document is stored to a place behind the array.** -/
theorem long_row_outside : ∃ doc model out,
    (treeParseWrapper doc).run handle (fun _ => none) = some (model, some out) ∧
      ¬Decoded doc model out := by
  have hrun : ∃ model out,
      (treeParseWrapper (modelDocument 0 [1] [[0, 1], [99, 0, 7]])).run handle (fun _ => none) =
        some (model, some out) := ⟨_, _, rfl⟩
  obtain ⟨model, out, hrun⟩ := hrun
  refine ⟨_, model, out, hrun, fun hdec => ?_⟩
  have hend := (hdec.fits (returned hrun)).ends (by decide) 1
    (Json.ofList ([99, 0, 7].map .int)) rfl
  exact absurd hend (by decide)


end Generator

end Smelt
