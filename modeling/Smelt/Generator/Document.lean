/-
# The model document

`smlt_tree_parse_wrapper` of `contrib/sim.cpp` takes a model out of a JSON document: the root, the
list of leaves, and the matrix.  It does so with jsoncpp, which builds the tree of values of the
document and converts values; a conversion that fails throws, and the wrapper returns `-1`.

A value is what jsoncpp has of it.  An array, and an object in the order of its keys, has as
many elements as an `ArrayIndex` counts.  A `double` is a rational number here; the parser
builds no others.

The matrix is stored into an array allocated for it, entry by entry, so the wrapper is a program
over that array.  An entry is `none` until it is stored.  An index has 32 bits, and the counters it
is made of are taken to wrap with it.  Allocations succeed.
-/
import Smelt.Lib.Buffer
import Mathlib.Data.Rat.Defs
import Mathlib.Data.Rat.Cast.Order
import Mathlib.Data.UInt

namespace Smelt

namespace Generator

open Buffer

/-! ## 1. Values -/

/-- `Json::Value`; `intValue` and `uintValue` are one. -/
inductive Json
  | null
  | int (n : ℤ)
  | real (q : ℚ)
  | string (s : String)
  | bool (b : Bool)
  | array (size : UInt32) (elem : ℕ → Json)
  | object (size : UInt32) (key : ℕ → String) (value : ℕ → Json)

namespace Json

/-- `Value::size`. -/
def size : Json → UInt32
  | .array n _ => n
  | .object n _ _ => n
  | _ => 0

/-- The values from `begin()` to `end()`. -/
def elems : Json → List Json
  | .array n elem => (List.range n.toNat).map elem
  | .object n _ value => (List.range n.toNat).map value
  | _ => []

/-- `Value::get` of a key. -/
def get (v : Json) (key : String) (dflt : Json) : Option Json :=
  match v with
  | .null => some dflt
  | .object n keys value =>
    some (((List.range n.toNat).find? fun i => keys i == key).elim dflt value)
  | _ => none

/-- `Value::get` of an index, with `Json::Value()` for one that is not there. -/
def getIndex (v : Json) (i : ℕ) : Option Json :=
  match v with
  | .null => some .null
  | .array n elem => some (if i < n.toNat then elem i else .null)
  | _ => none

/-- `Value::asInt`. -/
def asInt : Json → Option ℤ
  | .null => some 0
  | .int n => if -2 ^ 31 ≤ n ∧ n < 2 ^ 31 then some n else none
  | .real q => if -2 ^ 31 ≤ q ∧ q ≤ 2 ^ 31 - 1 then some (q.num.tdiv q.den) else none
  | .bool b => some (if b then 1 else 0)
  | _ => none

/-- `Value::asString`, of which only the text would be printed. -/
def asString : Json → Option Unit
  | .array _ _ => none
  | .object _ _ _ => none
  | _ => some ()

/-- The number that a value is. -/
def number : Json → Option ℚ
  | .int n => some n
  | .real q => some q
  | _ => none

@[simp] theorem length_elems (v : Json) : v.elems.length = v.size.toNat := by
  cases v <;> simp [elems, size]

theorem length_elems_lt (v : Json) : v.elems.length < 2 ^ 32 := by
  rw [length_elems]
  exact v.size.toNat_lt

/-- A number that is natural is converted to itself. -/
theorem asInt_of_number {v : Json} {n : ℤ} {k : ℕ} (hn : v.asInt = some n)
    (hk : v.number = some (k : ℚ)) : n = k := by
  cases v with
  | int m =>
    rw [asInt] at hn
    split at hn
    · obtain rfl := Option.some.inj hn
      have hcast : (m : ℚ) = (k : ℚ) := Option.some.inj hk
      exact_mod_cast hcast
    · cases hn
  | real q =>
    rw [asInt] at hn
    split at hn
    · obtain rfl := Option.some.inj hn
      obtain rfl : q = (k : ℚ) := Option.some.inj hk
      rw [Rat.num_natCast, Rat.den_natCast]
      exact Int.tdiv_one _
    · cases hn
  | null => cases hk
  | string s => cases hk
  | bool b => cases hk
  | array n elem => cases hk
  | object n key value => cases hk

end Json

/-! ## 2. `smlt_tree_parse_wrapper` -/

/-- What the wrapper returns through its pointers, besides the matrix. -/
structure Parsed where
  tRoot : UInt32
  numLeafs : UInt32
  leafs : List UInt32
  lenModel : UInt32
  deriving DecidableEq, Repr

/-- The loop over the leaves. -/
def readLeafs (leafsJ : Json) : List ℕ → Option (List UInt32)
  | [] => some []
  | i :: is => do
    let leaf ← leafsJ.getIndex i
    let v ← leaf.asInt
    let rest ← readLeafs leafsJ is
    return UInt32.ofInt v :: rest

/-- The wrapper up to the matrix, with the value of the matrix. -/
def parseHead (root : Json) : Option (Parsed × Json) := do
  let ln ← root.get "root" (.string "")
  let lnval ← ln.asInt
  let gitRevision ← root.get "git-version" (.string "")
  gitRevision.asString
  let leafsJ ← root.get "leaf_nodes" (.string "")
  let leafs ← readLeafs leafsJ (List.range leafsJ.size.toNat)
  let elem ← root.get "model" (.string "")
  return ({ tRoot := UInt32.ofInt lnval, numLeafs := leafsJ.size, leafs := leafs,
            lenModel := elem.size }, elem)

/-- `(uint32_t) val.asInt()`, stored in 16 bits. -/
def narrow (v : ℤ) : UInt16 := (UInt32.ofInt v).toUInt16

/-- The loop over a row, from column `y` on. -/
def storeRow (n x : ℕ) (k : Code (Option UInt16) (Option Parsed)) :
    List Json → ℕ → Code (Option UInt16) (Option Parsed)
  | [], _ => k
  | val :: vals, y =>
    match val.asInt with
    | none => .ret none
    | some v =>
      .call (.store ((x * n + y) % 2 ^ 32) (some (narrow v))) fun _ => storeRow n x k vals (y + 1)

/-- The loop over the rows, from row `x` on. -/
def storeRows (n : ℕ) (k : Code (Option UInt16) (Option Parsed)) :
    List Json → ℕ → Code (Option UInt16) (Option Parsed)
  | [], _ => k
  | row :: rows, x => storeRow n x (storeRows n k rows (x + 1)) row.elems 0

/-- `smlt_tree_parse_wrapper`, on the array for the matrix.  It returns `0` with its results, and
`-1` with none. -/
def treeParseWrapper (root : Json) : Code (Option UInt16) (Option Parsed) :=
  match parseHead root with
  | none => .ret none
  | some (out, elem) => storeRows elem.size.toNat (.ret (some out)) elem.elems 0

end Generator

end Smelt
