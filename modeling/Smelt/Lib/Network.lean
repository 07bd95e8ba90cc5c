/-
# Networks of deterministic processes

Each process runs a deterministic program: what it does next depends on what it has done so far.  An
action either is done at once (`emit`), and may put an item on the process's own stream, or takes
the next item of one other stream and is done when there is one (`take`).  A process cannot ask
whether an item is there.

Then the order in which the processes step does not matter: of two histories that a process has in
two runs, one goes on where the other stops (`determinate`), and when the process has come to its
end in both they are the same (`determinate_end`).  The proof compares one run, step by step, with
what the END of the other one says of each entry (`Made`).
-/
import Smelt.Lib.Run
import Mathlib.Logic.Function.Basic
import Mathlib.Data.List.Infix

/-- What a process does next: it is done with the entry `e`, or it takes an item `x` and is done
with `f x`. -/
inductive Network.Action (α ε : Type*)
  | emit (e : ε)
  | take (f : α → ε)

/-- Processes, each with a program and the stream it takes from.  `out` is what an entry of a
history puts on the stream of its process, and `takes` says that it took an item. -/
structure Network (ι α ε : Type*) where
  src : ι → ι
  out : ε → Option α
  takes : ε → Bool
  prog : ι → List ε → Option (Network.Action α ε)

namespace Network

variable {ι α ε : Type*} (N : Network ι α ε)

/-- What a history has put on the stream. -/
def stream (h : List ε) : List α := h.filterMap N.out

/-- How many items a history has taken. -/
def taken (h : List ε) : ℕ := h.countP N.takes

/-- With the histories `H`, process `i` can add `e` to the history `h`. -/
def Made (H : ι → List ε) (i : ι) (h : List ε) (e : ε) : Prop :=
  N.prog i h = some (.emit e) ∨
    ∃ f x, N.prog i h = some (.take f) ∧ (N.stream (H (N.src i)))[N.taken h]? = some x ∧ e = f x

/-- One step of process `i`. -/
def Step [DecidableEq ι] (H : ι → List ε) (i : ι) (H' : ι → List ε) : Prop :=
  ∃ e, N.Made H i (H i) e ∧ H' = Function.update H i (H i ++ [e])

/-- Every entry of every history was made. -/
def Explained (H : ι → List ε) : Prop :=
  ∀ (i : ι) (k : ℕ) (e : ε), (H i)[k]? = some e → N.Made H i ((H i).take k) e

variable {N} {H H' : ι → List ε} {i : ι} {h : List ε} {e e' : ε}

/-- An item on a stream stays in its place. -/
theorem stream_getElem? {h h' : List ε} (hp : h <+: h') {k : ℕ} {x : α}
    (hx : (N.stream h)[k]? = some x) : (N.stream h')[k]? = some x := by
  have hk := (List.getElem?_eq_some_iff.mp hx).1
  obtain ⟨t, ht⟩ := hp.filterMap N.out
  have ht : N.stream h ++ t = N.stream h' := ht
  rw [← ht, List.getElem?_append_left hk]
  exact hx

/-- What was made stays made. -/
theorem Made.mono (hp : ∀ j, H j <+: H' j) (hm : N.Made H i h e) : N.Made H' i h e := by
  rcases hm with hemit | ⟨f, x, htake, hx, rfl⟩
  · exact .inl hemit
  · exact .inr ⟨f, x, htake, stream_getElem? (hp _) hx, rfl⟩

/-- **There is one entry to make**, when the streams do not contradict each other. -/
theorem Made.unique (hcomp : H (N.src i) <+: H' (N.src i) ∨ H' (N.src i) <+: H (N.src i))
    (hm : N.Made H i h e) (hm' : N.Made H' i h e') : e = e' := by
  rcases hm with hemit | ⟨f, x, htake, hx, rfl⟩
  · rcases hm' with hemit' | ⟨f', x', htake', -, -⟩
    · cases hemit.symm.trans hemit'
      rfl
    · cases hemit.symm.trans htake'
  · rcases hm' with hemit' | ⟨f', x', htake', hx', rfl⟩
    · cases htake.symm.trans hemit'
    · cases htake.symm.trans htake'
      have hxx : x = x' := by
        rcases hcomp with hp | hp
        · exact Option.some.inj ((stream_getElem? hp hx).symm.trans hx')
        · exact Option.some.inj (hx.symm.trans (stream_getElem? hp hx'))
      rw [hxx]

variable [DecidableEq ι]

theorem prefix_update (H : ι → List ε) (i : ι) (e : ε) (j : ι) :
    H j <+: Function.update H i (H i ++ [e]) j := by
  by_cases hj : j = i
  · rw [hj, Function.update_self]
    exact List.prefix_append _ _
  · rw [Function.update_of_ne hj]

theorem Explained.step (hex : N.Explained H) (hs : N.Step H i H') : N.Explained H' := by
  obtain ⟨e, hmade, rfl⟩ := hs
  have hgrow := prefix_update H i e
  intro j k e' he'
  by_cases hj : j = i
  · subst hj
    rw [Function.update_self] at he' ⊢
    rcases Run.getElem?_snoc.mp he' with hold | ⟨rfl, rfl⟩
    · have hk := (List.getElem?_eq_some_iff.mp hold).1
      rw [List.take_append_of_le_length hk.le]
      exact (hex j k e' hold).mono hgrow
    · rw [List.take_left]
      exact hmade.mono hgrow
  · rw [Function.update_of_ne hj] at he' ⊢
    exact (hex j k e' he').mono hgrow

theorem explained_run {tr : List ι} (hrun : Run N.Step (fun _ => []) tr H) : N.Explained H :=
  Run.induct (fun _ H => N.Explained H) (fun _ _ _ he => by simp at he)
    (fun _ _ _ _ hex hs => hex.step hs) hrun

/-- **Networks are determinate**: of the histories of a process in two runs, one is a prefix of the
other. -/
theorem determinate {tr tr' : List ι} (hrun : Run N.Step (fun _ => []) tr H)
    (hrun' : Run N.Step (fun _ => []) tr' H') (j : ι) : H j <+: H' j ∨ H' j <+: H j := by
  have hex := explained_run hrun'
  revert j
  refine Run.induct (fun _ H => ∀ j, H j <+: H' j ∨ H' j <+: H j)
    (fun j => .inl List.nil_prefix) ?_ hrun
  rintro - H i H₁ hcomp ⟨e, hmade, rfl⟩ j
  by_cases hj : j = i
  · subst hj
    rw [Function.update_self]
    rcases hcomp j with ⟨t, ht⟩ | hp
    · cases t with
      | nil =>
        rw [List.append_nil] at ht
        exact .inr (ht ▸ List.prefix_append _ _)
      | cons e' t =>
        -- the other run has an entry at this place, and it is the same
        have he' : (H' j)[(H j).length]? = some e' := by
          rw [← ht, List.getElem?_append_right le_rfl, Nat.sub_self]
          rfl
        have hmade' := hex j _ e' he'
        rw [← ht, List.take_left] at hmade'
        have hee := hmade.unique (hcomp _) hmade'
        refine .inl ⟨t, ?_⟩
        rw [← ht, hee, List.append_assoc]
        rfl
    · exact .inr (hp.trans (List.prefix_append _ _))
  · rw [Function.update_of_ne hj]
    exact hcomp j

/-- A process that has come to its end in both runs has done the same. -/
theorem determinate_end {tr tr' : List ι} (hrun : Run N.Step (fun _ => []) tr H)
    (hrun' : Run N.Step (fun _ => []) tr' H') {j : ι} (hend : N.prog j (H j) = none)
    (hend' : N.prog j (H' j) = none) : H j = H' j := by
  have hstop : ∀ {H₁ H₂ : ι → List ε}, N.Explained H₂ → N.prog j (H₁ j) = none →
      H₁ j <+: H₂ j → H₁ j = H₂ j := by
    intro H₁ H₂ hex hnone hp
    obtain ⟨t, ht⟩ := hp
    cases t with
    | nil => rwa [List.append_nil] at ht
    | cons e t =>
      have he : (H₂ j)[(H₁ j).length]? = some e := by
        rw [← ht, List.getElem?_append_right le_rfl, Nat.sub_self]
        rfl
      have hmade := hex j _ e he
      rw [← ht, List.take_left] at hmade
      rcases hmade with hemit | ⟨f, x, htake, -, -⟩
      · rw [hnone] at hemit
        cases hemit
      · rw [hnone] at htake
        cases htake
  rcases determinate hrun hrun' j with hp | hp
  · exact hstop (explained_run hrun') hend hp
  · exact (hstop (explained_run hrun) hend' hp).symm

end Network
