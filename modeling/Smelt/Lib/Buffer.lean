/-
# Programs on a caller's buffer

A function that is handed a buffer reaches it by loads and stores of single words, so it is a
program over these two calls (`Code`).  What it may touch is then a property of its calls
(`Prog.Only`), which the loops here reduce to the indices they go through; and what it does is its
run on the words of the buffer.  The frame rule joins the two: a word that no store goes to keeps
its value.
-/
import Smelt.Lib.Prog
import Mathlib.Data.Nat.Init
import Mathlib.Logic.Function.Basic

namespace Buffer

/-- An access to the buffer, by index. -/
inductive Access (α : Type)
  | load (i : ℕ)
  | store (i : ℕ) (v : α)

variable {α β σ : Type}

/-- What comes back. -/
abbrev Access.Resp : Access α → Type
  | .load _ => α
  | .store _ _ => Unit

def Access.index : Access α → ℕ
  | .load i => i
  | .store i _ => i

def Access.stores : Access α → Bool
  | .load _ => false
  | .store _ _ => true

/-- A program with a buffer of words from `α`. -/
abbrev Code (α β : Type) := Prog (Access α) Access.Resp β

/-- A buffer may hold anything. -/
def anyWord (q : Access α) (_ : q.Resp) : Prop := True

/-- The accesses on the words of a buffer. -/
def handle : (q : Access α) → (ℕ → α) → Option ((ℕ → α) × q.Resp)
  | .load i, m => some (m, m i)
  | .store i v, m => some (Function.update m i v, ())

/-- The loop that loads the words `is`, in this order. -/
def loadEach (step : σ → ℕ → α → σ) (k : σ → Code α β) : List ℕ → σ → Code α β
  | [], s => k s
  | i :: is, s => .call (.load i) fun (v : α) => loadEach step k is (step s i v)

/-- The loop that stores words one after the other, from index `i` on. -/
def storeFrom (k : Code α β) : ℕ → List α → Code α β
  | _, [] => k
  | i, v :: vs => .call (.store i v) fun _ => storeFrom k (i + 1) vs

/-- The stores of a list, each with its index. -/
def storeEach (k : Code α β) : List (ℕ × α) → Code α β
  | [] => k
  | p :: ps => .call (.store p.1 p.2) fun _ => storeEach k ps

/-! ## 1. What a loop touches -/

section Touches

variable {P : Access α → Prop} {step : σ → ℕ → α → σ}

theorem only_storeFrom {k : Code α β} {i : ℕ} {vs : List α} :
    (storeFrom k i vs).Only anyWord P ↔
      (∀ (j : ℕ) (v : α), vs[j]? = some v → P (.store (i + j) v)) ∧ k.Only anyWord P := by
  induction vs generalizing i with
  | nil => simp [storeFrom]
  | cons v vs ih =>
    constructor
    · rintro ⟨hv, hrest⟩
      obtain ⟨hvs, hk⟩ := ih.mp (hrest () trivial)
      refine ⟨fun j w hw => ?_, hk⟩
      cases j with
      | zero =>
        obtain rfl := Option.some.inj hw
        exact hv
      | succ j =>
        rw [Nat.add_comm j 1, ← Nat.add_assoc]
        exact hvs j w hw
    · rintro ⟨hvs, hk⟩
      refine ⟨hvs 0 v rfl, fun _ _ => ih.mpr ⟨fun j w hw => ?_, hk⟩⟩
      rw [Nat.add_assoc, Nat.add_comm 1 j]
      exact hvs (j + 1) w hw

theorem only_storeEach {k : Code α β} {ps : List (ℕ × α)} :
    (storeEach k ps).Only anyWord P ↔ (∀ p ∈ ps, P (.store p.1 p.2)) ∧ k.Only anyWord P := by
  induction ps with
  | nil => simp [storeEach]
  | cons p ps ih =>
    rw [List.forall_mem_cons, and_assoc, ← ih]
    exact and_congr_right fun _ => ⟨fun h => h () trivial, fun h _ _ => h⟩

end Touches

/-! ## 2. What a program leaves alone -/

/-- **The frame rule.**  A word that no store of the program goes to keeps its value. -/
theorem frame {x : Code α β} {j : ℕ} (h : x.Only anyWord fun q => q.stores = true → q.index ≠ j)
    {m m' : ℕ → α} {b : β} (hrun : x.run handle m = some (m', b)) : m' j = m j := by
  induction x generalizing m with
  | ret a =>
    obtain ⟨rfl, -⟩ := Prod.mk.inj (Option.some.inj hrun)
    rfl
  | spin => cases hrun
  | call q k ih =>
    cases q with
    | load i => exact ih _ (h.2 _ trivial) hrun
    | store i v =>
      have hrest : m' j = Function.update m i v j := ih () (h.2 () trivial) hrun
      rw [hrest]
      exact Function.update_of_ne (Ne.symm (h.1 rfl)) _ _

/-! ## 3. What a loop does -/

theorem run_loadEach (step : σ → ℕ → α → σ) (k : σ → Code α β) (is : List ℕ) (s : σ) (m : ℕ → α) :
    (loadEach step k is s).run handle m =
      (k (is.foldl (fun s i => step s i (m i)) s)).run handle m := by
  induction is generalizing s with
  | nil => rfl
  | cons i is ih => exact ih (step s i (m i))

theorem run_storeEach (k : Code α β) (ps : List (ℕ × α)) (m : ℕ → α) :
    (storeEach k ps).run handle m =
      k.run handle (ps.foldl (fun m p => Function.update m p.1 p.2) m) := by
  induction ps generalizing m with
  | nil => rfl
  | cons p ps ih => exact ih (Function.update m p.1 p.2)

theorem storeEach_append (k : Code α β) (ps qs : List (ℕ × α)) :
    storeEach k (ps ++ qs) = storeEach (storeEach k qs) ps := by
  induction ps with
  | nil => rfl
  | cons p ps ih => simp only [List.cons_append, storeEach, ih]

/-- A word that none of the stores goes to, -/
theorem foldl_store_of_not_mem {ps : List (ℕ × α)} {m : ℕ → α} {j : ℕ} (h : ∀ p ∈ ps, p.1 ≠ j) :
    ps.foldl (fun m p => Function.update m p.1 p.2) m j = m j := by
  induction ps generalizing m with
  | nil => rfl
  | cons p ps ih =>
    obtain ⟨hp, hps⟩ := List.forall_mem_cons.mp h
    rw [List.foldl_cons, ih hps, Function.update_of_ne (Ne.symm hp)]

/-- and the last store to a word. -/
theorem foldl_store_last {ps qs : List (ℕ × α)} {p : ℕ × α} {m : ℕ → α}
    (h : ∀ q ∈ qs, q.1 ≠ p.1) :
    (ps ++ p :: qs).foldl (fun m p => Function.update m p.1 p.2) m p.1 = p.2 := by
  rw [List.foldl_append, List.foldl_cons, foldl_store_of_not_mem h, Function.update_self]

/-- The words `vs` in the buffer, from index `i` on. -/
def copyInto (m : ℕ → α) : ℕ → List α → ℕ → α
  | _, [] => m
  | i, v :: vs => copyInto (Function.update m i v) (i + 1) vs

theorem run_storeFrom (k : Code α β) (i : ℕ) (vs : List α) (m : ℕ → α) :
    (storeFrom k i vs).run handle m = k.run handle (copyInto m i vs) := by
  induction vs generalizing i m with
  | nil => rfl
  | cons v vs ih => exact ih (i + 1) (Function.update m i v)

/-- Outside of the words nothing changes, -/
theorem copyInto_of_not_mem {m : ℕ → α} {i j : ℕ} {vs : List α} (h : j < i ∨ i + vs.length ≤ j) :
    copyInto m i vs j = m j := by
  induction vs generalizing m i with
  | nil => rfl
  | cons v vs ih =>
    rw [List.length_cons] at h
    rw [copyInto, ih (by omega), Function.update_of_ne (by omega)]

/-- and inside they are what was copied. -/
theorem copyInto_getElem? {m : ℕ → α} {i k : ℕ} {vs : List α} {v : α} (h : vs[k]? = some v) :
    copyInto m i vs (i + k) = v := by
  induction vs generalizing m i k with
  | nil => cases h
  | cons w vs ih =>
    cases k with
    | zero =>
      obtain rfl := Option.some.inj h
      rw [Nat.add_zero, copyInto, copyInto_of_not_mem (.inl (Nat.lt_succ_self i)),
        Function.update_self]
    | succ k =>
      have hidx : i + (k + 1) = i + 1 + k := by omega
      rw [copyInto, hidx]
      exact ih h

/-! ## 4. Strings -/

/-- The loop that loads a string, up to the word `nul`.  It does not look for an end of
the buffer. -/
def loadString [DecidableEq α] (nul : α) (k : List α → Code α β) : ℕ → ℕ → List α → Code α β
  | 0, _, _ => .spin
  | fuel + 1, i, s => .call (.load i) fun (v : α) =>
      if v = nul then k s else loadString nul k fuel (i + 1) (s ++ [v])

section Strings

variable [DecidableEq α] {nul : α} {k : List α → Code α β} {P : Access α → Prop} {fuel i : ℕ}
  {s : List α}

theorem only_loadString (hload : ∀ i, P (.load i)) (hk : ∀ s, (k s).Only anyWord P) :
    (loadString nul k fuel i s).Only anyWord P := by
  induction fuel generalizing i s with
  | zero => trivial
  | succ fuel ih => exact Prog.only_call (hload i) fun v _ => Prog.only_ite (hk s) ih

/-- The string may end at once. -/
theorem only_of_loadString (h : (loadString nul k (fuel + 1) i s).Only anyWord P) :
    (k s).Only anyWord P := by
  have hrest : (if nul = nul then k s else loadString nul k fuel (i + 1) (s ++ [nul])).Only
      anyWord P := h.2 nul trivial
  rw [if_pos rfl] at hrest
  exact hrest

/-- A string that is in the buffer is loaded. -/
theorem run_loadString {m : ℕ → α} {vs : List α} (hvs : ∀ j v, vs[j]? = some v → m (i + j) = v)
    (hnul : nul ∉ vs) (hend : m (i + vs.length) = nul) (hfuel : vs.length < fuel) :
    (loadString nul k fuel i s).run handle m = (k (s ++ vs)).run handle m := by
  induction vs generalizing fuel i s with
  | nil =>
    obtain ⟨fuel, rfl⟩ := Nat.exists_eq_succ_of_ne_zero (Nat.ne_of_gt hfuel)
    have hnul' : m i = nul := hend
    rw [loadString, Prog.run_call rfl, if_pos hnul', List.append_nil]
  | cons v vs ih =>
    obtain ⟨fuel, rfl⟩ := Nat.exists_eq_succ_of_ne_zero (Nat.ne_of_gt (Nat.zero_lt_of_lt hfuel))
    have hv : m i = v := hvs 0 v rfl
    have hne : m i ≠ nul := fun heq => hnul (List.mem_cons.mpr (.inl (heq ▸ hv)))
    have hrest : ∀ j w, vs[j]? = some w → m (i + 1 + j) = w := by
      intro j w hw
      rw [Nat.succ_add_eq_add_succ]
      exact hvs (j + 1) w hw
    have hend' : m (i + 1 + vs.length) = nul := by
      rw [Nat.succ_add_eq_add_succ]
      exact hend
    rw [loadString, Prog.run_call rfl, if_neg hne,
      ih hrest (fun hmem => hnul (List.mem_cons_of_mem v hmem)) hend'
        (Nat.lt_of_succ_lt_succ hfuel), hv, List.append_assoc, List.singleton_append]

end Strings

end Buffer
