/-
# Who comes next in a list

`Follows l x y`: in the list `l`, `y` comes right behind `x`.  Where nobody is in it twice, the list
is a row: everybody but the last has one behind him (`exists_next`), nobody has two (`next_unique`)
or stands behind two (`prev_unique`).

A row changes when another is put behind it (`append_iff`) and when somebody leaves (`of_erase`).
-/
import Mathlib.Data.List.Infix
import Mathlib.Data.List.Nodup

/-- `y` comes right behind `x`. -/
def Follows {α : Type*} (l : List α) (x y : α) : Prop := [x, y] <:+: l

namespace Follows

variable {α : Type*} {l l' : List α} {a x y z : α}

/-! ## 1. Lists -/

theorem not_nil : ¬ Follows [] x y := by
  intro h
  cases List.infix_nil.mp h

theorem cons_iff : Follows (a :: l) x y ↔ x = a ∧ l.head? = some y ∨ Follows l x y := by
  have hone : [y] <+: l ↔ l.head? = some y := by
    cases l with
    | nil => simp
    | cons b l => simp [List.cons_prefix_cons, eq_comm]
  rw [Follows, List.infix_cons_iff, List.cons_prefix_cons, hone]
  rfl

theorem append_iff : Follows (l ++ l') x y ↔
    Follows l x y ∨ Follows l' x y ∨ l.getLast? = some x ∧ l'.head? = some y := by
  induction l with
  | nil => simp [not_nil]
  | cons a l ih =>
    rw [List.cons_append, cons_iff, cons_iff, ih]
    cases l with
    | nil => simp [not_nil, or_comm, eq_comm]
    | cons b l =>
      rw [List.cons_append, List.head?_cons, List.head?_cons, List.getLast?_cons_cons]
      tauto

theorem mem_left (h : Follows l x y) : x ∈ l := h.subset List.mem_cons_self

theorem mem_right (h : Follows l x y) : y ∈ l :=
  h.subset (List.mem_cons_of_mem _ List.mem_cons_self)

/-- Everybody but the last has one behind him. -/
theorem exists_next (hx : x ∈ l) (hlast : l.getLast? ≠ some x) : ∃ y, Follows l x y := by
  induction l with
  | nil => cases hx
  | cons a l ih =>
    cases l with
    | nil => exact absurd (by rw [List.mem_singleton.mp hx, List.getLast?_singleton]) hlast
    | cons b l =>
      rw [List.getLast?_cons_cons] at hlast
      rcases List.mem_cons.mp hx with rfl | hx
      · exact ⟨b, cons_iff.mpr (.inl ⟨rfl, rfl⟩)⟩
      · obtain ⟨y, hy⟩ := ih hx hlast
        exact ⟨y, cons_iff.mpr (.inr hy)⟩

/-- Everybody but the first stands behind somebody. -/
theorem exists_prev (hy : y ∈ l) (hhead : l.head? ≠ some y) : ∃ x, Follows l x y := by
  induction l with
  | nil => cases hy
  | cons a l ih =>
    have hy : y ∈ l := (List.mem_cons.mp hy).resolve_left fun heq =>
      hhead (by rw [heq, List.head?_cons])
    rcases eq_or_ne l.head? (some y) with hl | hl
    · exact ⟨a, cons_iff.mpr (.inl ⟨rfl, hl⟩)⟩
    · obtain ⟨x, hx⟩ := ih hy hl
      exact ⟨x, cons_iff.mpr (.inr hx)⟩

/-- What goes on from one to the next comes to the last. -/
theorem last_of {P : α → Prop} (hstep : ∀ x y, Follows l x y → P x → P y) (hx : x ∈ l) (hP : P x) :
    ∃ z, l.getLast? = some z ∧ P z := by
  induction l generalizing x with
  | nil => cases hx
  | cons a l ih =>
    cases l with
    | nil =>
      obtain rfl := List.mem_singleton.mp hx
      exact ⟨x, rfl, hP⟩
    | cons b l =>
      rw [List.getLast?_cons_cons]
      have hrest : ∀ x y, Follows (b :: l) x y → P x → P y := fun x y h =>
        hstep x y (cons_iff.mpr (.inr h))
      rcases List.mem_cons.mp hx with rfl | hx
      · exact ih hrest List.mem_cons_self (hstep x b (cons_iff.mpr (.inl ⟨rfl, rfl⟩)) hP)
      · exact ih hrest hx hP

/-! ## 2. Rows -/

theorem not_head (hl : l.Nodup) (h : Follows l x y) : l.head? ≠ some y := by
  cases l with
  | nil => exact absurd h not_nil
  | cons a l =>
    rintro heq
    obtain rfl := Option.some.inj heq
    have hnot := (List.nodup_cons.mp hl).1
    rcases cons_iff.mp h with ⟨-, hhead⟩ | h
    · exact hnot (List.mem_of_mem_head? hhead)
    · exact hnot h.mem_right

theorem not_last (hl : l.Nodup) (h : Follows l x y) : l.getLast? ≠ some x := by
  induction l with
  | nil => exact absurd h not_nil
  | cons a l ih =>
    obtain ⟨hnot, hl⟩ := List.nodup_cons.mp hl
    cases l with
    | nil =>
      rcases cons_iff.mp h with ⟨-, hhead⟩ | h
      · cases hhead
      · exact absurd h not_nil
    | cons b l =>
      rw [List.getLast?_cons_cons]
      rcases cons_iff.mp h with ⟨rfl, -⟩ | h
      · exact fun hlast => hnot (List.mem_of_getLast? hlast)
      · exact ih hl h

theorem ne (hl : l.Nodup) (h : Follows l x y) : x ≠ y := by
  have hpair : [x, y].Nodup := hl.sublist h.sublist
  simpa using hpair

/-- Nobody has two behind him. -/
theorem next_unique (hl : l.Nodup) (hy : Follows l x y) (hz : Follows l x z) : y = z := by
  induction l with
  | nil => exact absurd hy not_nil
  | cons a l ih =>
    obtain ⟨hnot, hl⟩ := List.nodup_cons.mp hl
    rcases cons_iff.mp hy with ⟨rfl, hhead⟩ | hy <;> rcases cons_iff.mp hz with ⟨heq, hhead'⟩ | hz
    · exact Option.some.inj (hhead.symm.trans hhead')
    · exact absurd hz.mem_left hnot
    · exact absurd (heq ▸ hy.mem_left) hnot
    · exact ih hl hy hz

/-- Nobody stands behind two. -/
theorem prev_unique (hl : l.Nodup) (hx : Follows l x z) (hy : Follows l y z) : x = y := by
  induction l with
  | nil => exact absurd hx not_nil
  | cons a l ih =>
    obtain ⟨-, hl'⟩ := List.nodup_cons.mp hl
    rcases cons_iff.mp hx with ⟨hxa, hhead⟩ | hx' <;> rcases cons_iff.mp hy with ⟨hya, hhead'⟩ | hy'
    · rw [hxa, hya]
    · exact absurd hhead (not_head hl' hy')
    · exact absurd hhead' (not_head hl' hx')
    · exact ih hl' hx' hy'

/-- Somebody has left: the one before him now has the one behind him. -/
theorem of_erase [DecidableEq α] (hl : l.Nodup) (h : Follows (l.erase z) x y) :
    Follows l x y ∧ x ≠ z ∧ y ≠ z ∨ Follows l x z ∧ Follows l z y := by
  have hx : x ≠ z := (hl.mem_erase_iff.mp h.mem_left).1
  have hy : y ≠ z := (hl.mem_erase_iff.mp h.mem_right).1
  induction l with
  | nil => exact absurd h not_nil
  | cons a l ih =>
    obtain ⟨-, hl'⟩ := List.nodup_cons.mp hl
    rcases eq_or_ne a z with rfl | ha
    · rw [List.erase_cons_head] at h
      exact .inl ⟨cons_iff.mpr (.inr h), hx, hy⟩
    · rw [List.erase_cons_tail (by simpa using ha)] at h
      rcases cons_iff.mp h with ⟨rfl, hhead⟩ | h
      · cases l with
        | nil => cases hhead
        | cons b l =>
          rcases eq_or_ne b z with rfl | hb
          · rw [List.erase_cons_head] at hhead
            exact .inr ⟨cons_iff.mpr (.inl ⟨rfl, rfl⟩),
              cons_iff.mpr (.inr (cons_iff.mpr (.inl ⟨rfl, hhead⟩)))⟩
          · rw [List.erase_cons_tail (by simpa using hb)] at hhead
            exact .inl ⟨cons_iff.mpr (.inl ⟨rfl, hhead⟩), hx, hy⟩
      · rcases ih hl' h with ⟨h, -⟩ | ⟨h, h'⟩
        · exact .inl ⟨cons_iff.mpr (.inr h), hx, hy⟩
        · exact .inr ⟨cons_iff.mpr (.inr h), cons_iff.mpr (.inr h')⟩

theorem head?_erase [DecidableEq α] (hz : l.head? ≠ some z) : (l.erase z).head? = l.head? := by
  cases l with
  | nil => rfl
  | cons a l => rw [List.erase_cons_tail (by simpa using hz), List.head?_cons, List.head?_cons]

theorem getLast?_erase [DecidableEq α] (hz : l.getLast? ≠ some z) :
    (l.erase z).getLast? = l.getLast? := by
  induction l with
  | nil => rfl
  | cons a l ih =>
    cases l with
    | nil => rw [List.erase_cons_tail (by simpa using hz), List.erase_nil]
    | cons b l =>
      rw [List.getLast?_cons_cons] at hz
      rcases eq_or_ne a z with rfl | ha
      · rw [List.erase_cons_head, List.getLast?_cons_cons]
      · rw [List.erase_cons_tail (by simpa using ha), List.getLast?_cons_cons, ← ih hz]
        cases hrest : (b :: l).erase z with
        | nil =>
          have hlast := ih hz
          rw [hrest, List.getLast?_cons] at hlast
          cases hlast
        | cons c l' => rw [List.getLast?_cons_cons]

end Follows
