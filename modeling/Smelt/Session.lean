/-
# Two programs on one queue pair

A program has one end of a queue pair and calls `smlt_queuepair_send`, `smlt_queuepair_notify`,
`smlt_queuepair_recv` and `smlt_queuepair_recv0` on it.  What it calls next depends on what its
calls have done so far (`Done`).  The two ends are interleaved access by access.

A `Line` is one direction of a queue pair, taken apart into the accesses of its calls: after an
access the call goes on, or it returns.  A return on which the loops of the interface turn
(`Call.blocks`) is not one that the program sees: it is in the same call again.

What the programs can tell of a line is whether it is a FIFO to which they have to WAIT
(`Line.IsFifo`).  Then a session is a run of a network of deterministic processes
(`session_network`), and a network has one outcome, whatever the line and the interleaving.
-/
import Smelt.Queuepair
import Smelt.Lib.Network

namespace Smelt

/-! ## 1. Sessions -/

/-- One direction of a queue pair.  `access` is the next access of a call, with the result when
the call returns; `receiving` says that the receiving end is inside a call. -/
structure Line where
  State : Type
  access : State → Call → Option (State × Option Ret)
  canRecv : State → Bool
  receiving : State → Bool

/-- What a call that has returned did: it put in the item `xs`, it took one and has the words `ys`
of it, or it did neither and returned `r`. -/
inductive Done
  | sent (xs : List Word)
  | received (ys : List Word)
  | failed (r : Ret)
  deriving DecidableEq

def Done.sent? : Done → Option (List Word)
  | .sent xs => some xs
  | _ => none

def Done.received? : Done → Option (List Word)
  | .received ys => some ys
  | _ => none

/-- The items a program has put in. -/
def sents (h : List Done) : List (List Word) := h.filterMap Done.sent?

/-- How many items it has taken. -/
def taken (h : List Done) : ℕ := h.countP fun e => e.received?.isSome

/-- The direction a call by the end `d` works on, named by the end that transmits in it. -/
def Call.way (c : Call) (d : Side) : Side := if c.transmits then d else d.other

/-- What is recorded of a call that returned `r`, when the item before it is `item`.  A buffer that
is longer than the item holds, behind it, what the slot happened to hold; a program does not look
there. -/
def Call.done (c : Call) (r : Ret) (item : List Word) : Done :=
  match c.put? r with
  | some xs => .sent xs
  | none =>
    match c.got? r with
    | some ys => .received (ys.take item.length)
    | none => .failed r

/-- A call that has not returned, and one that turns again, leave no record. -/
def Call.record (c : Call) (item : List Word) : Option Ret → List Done
  | none => []
  | some r => if c.blocks r then [] else [c.done r item]

/-- The two programs: the next call of an end, or its end. -/
abbrev Programs := Side → List Done → Option Call

/-- A queue pair between two accesses, with the history of each end. -/
structure Session (L : Line) where
  line : Side → L.State
  hist : Side → List Done

/-- The item that it is the turn of the end `d` to take. -/
def turn (hist : Side → List Done) (d : Side) : List Word :=
  ((sents (hist d.other))[taken (hist d)]?).getD []

/-- The next access of the end `d`. -/
def Session.step {L : Line} (prog : Programs) (s : Session L) (d : Side) : Option (Session L) :=
  match prog d (s.hist d) with
  | none => none
  | some c =>
    match L.access (s.line (c.way d)) c with
    | none => none
    | some (l, r) => some {
        line := Function.update s.line (c.way d) l
        hist := Function.update s.hist d (s.hist d ++ c.record (turn s.hist d) r) }

/-- A session, by the ends that make the accesses. -/
def SessionStep {L : Line} (prog : Programs) (s : Session L) (d : Side) (s' : Session L) : Prop :=
  s.step prog d = some s'

/-- An access that finds the line `Ready` for the call. -/
def ReadyStep {L : Line} (Ready : L.State → Call → Prop) (prog : Programs) (s : Session L)
    (d : Side) (s' : Session L) : Prop :=
  SessionStep prog s d s' ∧ ∀ c, prog d (s.hist d) = some c → Ready (s.line (c.way d)) c

/-- The same, to be run. -/
def Session.readyStep {L : Line} (Ready : L.State → Call → Prop) [∀ s c, Decidable (Ready s c)]
    (prog : Programs) (s : Session L) (d : Side) : Option (Session L × Side) :=
  match prog d (s.hist d) with
  | none => none
  | some c => if Ready (s.line (c.way d)) c then (s.step prog d).map fun s' => (s', d) else none

theorem readyStep_of_some {L : Line} {Ready : L.State → Call → Prop} [∀ s c, Decidable (Ready s c)]
    {prog : Programs} (s : Session L) (d : Side) (s' : Session L) (d' : Side)
    (h : s.readyStep Ready prog d = some (s', d')) : ReadyStep Ready prog s d' s' := by
  unfold Session.readyStep at h
  split at h
  · cases h
  · rename_i c hc
    split at h
    · rename_i hready
      obtain ⟨s'', hs, heq⟩ := Option.map_eq_some_iff.mp h
      obtain ⟨rfl, rfl⟩ := Prod.mk.inj heq
      exact ⟨hs, fun c' hc' => Option.some.inj (hc.symm.trans hc') ▸ hready⟩
    · cases h

/-- Nothing has been called. -/
def Session.start {L : Line} (line : Side → L.State) : Session L where
  line := line
  hist := fun _ => []

/-- **Every call that has returned did what it is for**: the call that made entry `k` of a history
put its own item in, or it took the item that was its turn and has the words of it. -/
def Answered {L : Line} (prog : Programs) (s : Session L) : Prop :=
  ∀ (d : Side) (k : ℕ) (e : Done), (s.hist d)[k]? = some e →
    ∃ c, prog d ((s.hist d).take k) = some c ∧
      match c with
      | .trySend msg => e = .sent msg.payload
      | .notify => e = .sent []
      | .tryRecv words => ∃ xs, (sents (s.hist d.other))[taken ((s.hist d).take k)]? = some xs ∧
          e = .received (xs.take words.toNat)
      | .recvNotify => ∃ xs, (sents (s.hist d.other))[taken ((s.hist d).take k)]? = some xs ∧
          e = .received []

/-! ## 2. Lines that are FIFOs -/

/-- What an access of a call does to the items of its direction: nothing, or it returns and has put
one in, or taken one out, or has to turn again. -/
def Call.Outcome (c : Call) (q q' : List (List Word)) : Option Ret → Prop
  | none => q' = q
  | some r => (∃ xs, c.put? r = some xs ∧ q' = q ++ [xs]) ∨
      (∃ xs ys, c.got? r = some ys ∧ ys.length = c.words ∧ Agree xs ys ∧ q = xs :: q') ∨
      (c.blocks r = true ∧ q' = q)

/-- **A line that is a FIFO**, for the calls that are `Legal` and find it `Ready`.  `holds` reads
the items off the line, and `stands` says that the half of the line that makes the call is outside
all calls or in this one. -/
structure Line.IsFifo (L : Line) (Legal : Call → Prop) (Ready : L.State → Call → Prop)
    (holds : L.State → List (List Word) → Prop) (stands : L.State → Call → Prop) : Prop where
  /-- the half that has not returned is in the same call, and otherwise outside all calls; the other
  half stands where it stood -/
  access : ∀ {s q c s' r}, holds s q → stands s c → Legal c → Ready s c →
    L.access s c = some (s', r) → ∃ q', holds s' q' ∧ c.Outcome q q' r ∧
      (∀ c', c'.transmits = c.transmits → (r = none → c' = c) → stands s' c') ∧
      ∀ c', c'.transmits ≠ c.transmits → stands s c' → stands s' c'
  poll : ∀ {s q}, holds s q → L.receiving s = false → (L.canRecv s = true ↔ q ≠ [])

theorem Line.IsFifo.mono {L : Line} {Legal Legal' : Call → Prop} {Ready : L.State → Call → Prop}
    {holds : L.State → List (List Word) → Prop} {stands : L.State → Call → Prop}
    (h : L.IsFifo Legal Ready holds stands) (hle : ∀ c, Legal' c → Legal c) :
    L.IsFifo Legal' Ready holds stands :=
  { h with access := fun hq hs hc hr hl => h.access hq hs (hle _ hc) hr hl }

/-- What a call asks of a FIFO. -/
def Call.action : Call → Network.Action (List Word) Done
  | .trySend msg => .emit (.sent msg.payload)
  | .notify => .emit (.sent [])
  | .tryRecv words => .take fun xs => .received (xs.take words.toNat)
  | .recvNotify => .take fun _ => .received []

/-- The programs as deterministic processes, each of which takes what the other has put in. -/
def network (prog : Programs) : Network Side (List Word) Done where
  src := Side.other
  out := Done.sent?
  takes e := e.received?.isSome
  prog d h := (prog d h).map Call.action

/-- The items that were put into a direction and have not been taken. -/
def items (hist : Side → List Done) (d : Side) : List (List Word) :=
  (sents (hist d)).drop (taken (hist d.other))

/-- Each direction has the items sent and not received, and the ends stand in their calls. -/
structure Session.Good {L : Line} (prog : Programs) (holds : L.State → List (List Word) → Prop)
    (stands : L.State → Call → Prop) (s : Session L) : Prop where
  line : ∀ d, holds (s.line d) (items s.hist d)
  count : ∀ d, taken (s.hist d.other) ≤ (sents (s.hist d)).length
  /-- a half of an end stands in the end's call, or for any when that is one of the other half -/
  stands : ∀ d c, (∀ c₀, prog d (s.hist d) = some c₀ → c₀.transmits = c.transmits → c = c₀) →
    stands (s.line (c.way d)) c

section Histories

variable {prog : Programs} {hist : Side → List Done} {d : Side} {c : Call} {xs : List Word}

@[simp] theorem sents_concat (h : List Done) (e : Done) :
    sents (h ++ [e]) = sents h ++ e.sent?.toList := by
  simp [sents, List.filterMap_append, List.filterMap_cons, List.filterMap_nil]
  cases e.sent? <;> rfl

@[simp] theorem taken_concat (h : List Done) (e : Done) :
    taken (h ++ [e]) = taken h + if e.received?.isSome then 1 else 0 := by
  simp [taken, List.countP_append, List.countP_singleton]

theorem items_update_sent (hcount : taken (hist d.other) ≤ (sents (hist d)).length) :
    items (Function.update hist d (hist d ++ [.sent xs])) =
      Function.update (items hist) d (items hist d ++ [xs]) := by
  have hne := d.other_ne
  funext e
  by_cases he : e = d
  · subst he
    simp only [items, Function.update_self, Function.update_of_ne hne, sents_concat]
    exact List.drop_append_of_le_length hcount
  · obtain rfl := Side.eq_other he
    simp [items, hne, Done.received?]

theorem items_update_received {q : List (List Word)} {ys : List Word}
    (hq : items hist d.other = xs :: q) :
    items (Function.update hist d (hist d ++ [.received ys])) =
      Function.update (items hist) d.other q := by
  have hne := d.other_ne
  funext e
  by_cases he : e = d
  · subst he
    simp [items, hne, Ne.symm hne, Done.sent?]
  · obtain rfl := Side.eq_other he
    simp only [items, Side.other_other] at hq
    simp only [items, Side.other_other, Function.update_self, Function.update_of_ne hne,
      taken_concat]
    show (sents (hist d.other)).drop (taken (hist d) + 1) = q
    rw [← List.drop_drop, hq]
    rfl

/-- An item that was taken had been put in. -/
theorem lt_of_items {q : List (List Word)} (hq : items hist d.other = xs :: q) :
    (sents (hist d.other))[taken (hist d)]? = some xs ∧
      taken (hist d) < (sents (hist d.other)).length := by
  simp only [items, Side.other_other] at hq
  have hget := congrArg (fun l => l[0]?) hq
  simp only [List.getElem?_drop, Nat.add_zero, List.getElem?_cons_zero] at hget
  exact ⟨hget, (List.getElem?_eq_some_iff.mp hget).1⟩

theorem action_of_put? {r : Ret} (h : c.put? r = some xs) : c.action = .emit (.sent xs) := by
  cases c with
  | trySend msg =>
    rcases r with (_ | _) | _ | _ <;> cases h
    rfl
  | notify =>
    rcases r with (_ | _) | _ | _ <;> cases h
    rfl
  | tryRecv words => cases r <;> cases h
  | recvNotify => cases r <;> cases h

theorem action_of_got? {r : Ret} {ys : List Word} (h : c.got? r = some ys)
    (hlen : ys.length = c.words) (hag : Agree xs ys) :
    ∃ f, c.action = .take f ∧ f xs = .received (ys.take xs.length) := by
  cases c with
  | trySend msg => cases r <;> cases h
  | notify => cases r <;> cases h
  | tryRecv words =>
    refine ⟨_, rfl, ?_⟩
    have hag : ys.take xs.length = xs.take ys.length := hag
    rw [hag, hlen]
    rfl
  | recvNotify =>
    refine ⟨_, rfl, ?_⟩
    rw [List.eq_nil_of_length_eq_zero hlen, List.take_nil]

/-- What the histories are after an access. -/
structure After (prog : Programs) (hist hist' : Side → List Done) (d : Side) (r : Option Ret)
    (way : Side) (q : List (List Word)) : Prop where
  items : items hist' = Function.update (items hist) way q
  count : ∀ d, taken (hist' d.other) ≤ (sents (hist' d)).length
  step : hist' = hist ∨ (network prog).Step hist d hist'
  other : hist' d.other = hist d.other
  same : r = none → hist' d = hist d

theorem after_silent (hcount : ∀ d, taken (hist d.other) ≤ (sents (hist d)).length)
    (r : Option Ret) (way : Side) :
    After prog hist (Function.update hist d (hist d ++ [])) d r way (items hist way) := by
  rw [List.append_nil, Function.update_eq_self]
  exact ⟨(Function.update_eq_self _ _).symm, hcount, .inl rfl, rfl, fun _ => rfl⟩

theorem after_sent (hcount : ∀ d, taken (hist d.other) ≤ (sents (hist d)).length) {r : Ret}
    (hc : prog d (hist d) = some c) (hput : c.put? r = some xs) :
    After prog hist (Function.update hist d (hist d ++ [.sent xs])) d (some r) d
      (items hist d ++ [xs]) where
  items := items_update_sent (hcount d)
  count := by
    have hne := d.other_ne
    intro e
    by_cases he : e = d
    · subst he
      have := hcount e
      simp [hne]
      omega
    · obtain rfl := Side.eq_other he
      have := hcount d.other
      simpa [hne, Done.received?] using this
  step := by
    refine .inr ⟨.sent xs, .inl ?_, rfl⟩
    simp only [network, hc, Option.map_some, action_of_put? hput]
  other := Function.update_of_ne d.other_ne _ _
  same := fun h => by cases h

theorem after_received (hcount : ∀ d, taken (hist d.other) ≤ (sents (hist d)).length) {r : Ret}
    {ys : List Word} {q : List (List Word)} (hc : prog d (hist d) = some c)
    (hgot : c.got? r = some ys) (hlen : ys.length = c.words) (hag : Agree xs ys)
    (hq : items hist d.other = xs :: q) :
    After prog hist (Function.update hist d (hist d ++ [.received (ys.take xs.length)])) d (some r)
      d.other q where
  items := items_update_received hq
  count := by
    have hne := d.other_ne
    intro e
    by_cases he : e = d
    · subst he
      have := hcount e
      simpa [hne, Done.sent?] using this
    · obtain rfl := Side.eq_other he
      have := (lt_of_items hq).2
      simp [hne, Done.received?]
      omega
  step := by
    obtain ⟨f, hf, hfx⟩ := action_of_got? hgot hlen hag
    refine .inr ⟨.received (ys.take xs.length), .inr ⟨f, xs, ?_, (lt_of_items hq).1, hfx.symm⟩, rfl⟩
    simp only [network, hc, Option.map_some, hf]
  other := Function.update_of_ne d.other_ne _ _
  same := fun h => by cases h

end Histories

section Sessions

variable {L : Line} {Legal : Call → Prop} {Ready : L.State → Call → Prop}
  {holds : L.State → List (List Word) → Prop} {stands : L.State → Call → Prop} {prog : Programs}
  {s s' : Session L} {d : Side} {c : Call}

theorem step_eq_some : s.step prog d = some s' ↔ ∃ c l r, prog d (s.hist d) = some c ∧
    L.access (s.line (c.way d)) c = some (l, r) ∧
    s' = { line := Function.update s.line (c.way d) l
           hist := Function.update s.hist d (s.hist d ++ c.record (turn s.hist d) r) } := by
  unfold Session.step
  cases hc : prog d (s.hist d) with
  | none => simp
  | some c =>
    cases hl : L.access (s.line (c.way d)) c with
    | none => simp [hl]
    | some lr =>
      obtain ⟨l, r⟩ := lr
      simp [hl, eq_comm]

/-- An end whose program has not ended has an access to make, if its line never stops a call. -/
theorem exists_step (haccess : ∀ (l : L.State) (c : Call), ∃ l' r, L.access l c = some (l', r))
    (hc : prog d (s.hist d) ≠ none) : ∃ s', SessionStep prog s d s' := by
  obtain ⟨c, hc⟩ := Option.ne_none_iff_exists'.mp hc
  obtain ⟨l, r, hl⟩ := haccess (s.line (c.way d)) c
  exact ⟨_, step_eq_some.mpr ⟨c, l, r, hc, hl, rfl⟩⟩

theorem way_ne_iff {c c' : Call} : c'.way d ≠ c.way d ↔ c'.transmits ≠ c.transmits := by
  have hne := d.other_ne
  unfold Call.way
  cases c.transmits <;> cases c'.transmits <;> simp [hne, Ne.symm hne]

theorem way_other_iff {c c' : Call} : c'.way d.other = c.way d ↔ c'.transmits ≠ c.transmits := by
  have hne := d.other_ne
  unfold Call.way
  cases c.transmits <;> cases c'.transmits <;> simp [hne, Ne.symm hne]

/-- The ends stand in their calls after an access as well. -/
theorem stands_step (h : s.Good prog holds stands) {l : L.State} {r : Option Ret}
    (hc : prog d (s.hist d) = some c)
    (hnext : ∀ c', c'.transmits = c.transmits → (r = none → c' = c) → stands l c')
    (hframe : ∀ c', c'.transmits ≠ c.transmits → stands (s.line (c.way d)) c' → stands l c')
    {hist : Side → List Done} (hother : hist d.other = s.hist d.other)
    (hsame : r = none → hist d = s.hist d) (e : Side) (c' : Call)
    (hc' : ∀ c₀, prog e (hist e) = some c₀ → c₀.transmits = c'.transmits → c' = c₀) :
    stands (Function.update s.line (c.way d) l (c'.way e)) c' := by
  by_cases he : e = d
  · subst he
    by_cases htr : c'.transmits = c.transmits
    · have hway : c'.way e = c.way e := by rw [Call.way, Call.way, htr]
      rw [hway, Function.update_self]
      exact hnext c' htr fun hr => hc' c (by rw [hsame hr, hc]) htr.symm
    · -- the other half of this end is outside all calls
      rw [Function.update_of_ne (way_ne_iff.mpr htr)]
      refine h.stands e c' fun c₀ hc₀ htr₀ => ?_
      obtain rfl : c = c₀ := Option.some.inj (hc.symm.trans hc₀)
      exact absurd htr₀.symm htr
  · obtain rfl := Side.eq_other he
    rw [hother] at hc'
    have hstood := h.stands d.other c' hc'
    by_cases htr : c'.transmits = c.transmits
    · rw [Function.update_of_ne fun hway => way_other_iff.mp hway htr]
      exact hstood
    · have hway : c'.way d.other = c.way d := way_other_iff.mpr htr
      rw [hway, Function.update_self]
      rw [hway] at hstood
      exact hframe c' htr hstood

/-- What an access does to the histories follows from what it does to the items. -/
theorem after_of_outcome {hist : Side → List Done}
    (hcount : ∀ d, taken (hist d.other) ≤ (sents (hist d)).length) (hc : prog d (hist d) = some c)
    {r : Option Ret} {q : List (List Word)} (hout : c.Outcome (items hist (c.way d)) q r) :
    After prog hist (Function.update hist d (hist d ++ c.record (turn hist d) r)) d r
      (c.way d) q := by
  cases r with
  | none =>
    obtain rfl : q = items hist (c.way d) := hout
    exact after_silent hcount none _
  | some r =>
    rcases hout with ⟨xs, hput, rfl⟩ | ⟨xs, ys, hgot, hlen, hag, hq⟩ | ⟨hblocks, rfl⟩
    · have hway : c.way d = d := if_pos (transmits_of_put? hput)
      have hrec : c.record (turn hist d) (some r) = [.sent xs] := by
        simp [Call.record, not_blocks_of_put? hput, Call.done, hput]
      rw [hrec, hway]
      exact after_sent hcount hc hput
    · have htr := receives_of_got? hgot
      have hway : c.way d = d.other := if_neg (by rw [htr]; exact Bool.false_ne_true)
      rw [hway] at hq ⊢
      have hrec : c.record (turn hist d) (some r) = [.received (ys.take xs.length)] := by
        simp [Call.record, not_blocks_of_got? hgot, Call.done, hgot, put?_of_receives htr, turn,
          (lt_of_items hq).1]
      rw [hrec]
      exact after_received hcount hc hgot hlen hag hq
    · have hrec : c.record (turn hist d) (some r) = [] := if_pos hblocks
      rw [hrec]
      exact after_silent hcount _ _

/-- **One access**: nothing that shows, or a step of the network. -/
theorem good_step (hfifo : L.IsFifo Legal Ready holds stands)
    (hprog : ∀ d h c, prog d h = some c → Legal c) (h : s.Good prog holds stands)
    (hs : ReadyStep Ready prog s d s') :
    s'.Good prog holds stands ∧ (s'.hist = s.hist ∨ (network prog).Step s.hist d s'.hist) := by
  obtain ⟨hs, hready⟩ := hs
  obtain ⟨c, l, r, hc, hl, rfl⟩ := step_eq_some.mp hs
  have hcur : stands (s.line (c.way d)) c := h.stands d c fun c₀ hc₀ _ =>
    Option.some.inj (hc.symm.trans hc₀)
  obtain ⟨q, hq, hout, hnext, hframe⟩ :=
    hfifo.access (h.line (c.way d)) hcur (hprog d _ c hc) (hready c hc) hl
  have hafter := after_of_outcome h.count hc hout
  refine ⟨⟨fun e => ?_, hafter.count, fun e c' hc' => ?_⟩, hafter.step⟩
  · rw [hafter.items]
    by_cases he : e = c.way d
    · subst he
      simpa using hq
    · simpa [he] using h.line e
  · exact stands_step h hc hnext hframe hafter.other hafter.same e c' hc'

/-- **A session is a run of the network of its programs.** -/
theorem session_network (hfifo : L.IsFifo Legal Ready holds stands)
    (hprog : ∀ d h c, prog d h = some c → Legal c) {line : Side → L.State}
    (hholds : ∀ d, holds (line d) []) (hstands : ∀ d c, stands (line d) c) {tr : List Side}
    (hrun : Run (ReadyStep Ready prog) (Session.start line) tr s) :
    s.Good prog holds stands ∧ ∃ tr', Run (network prog).Step (fun _ => []) tr' s.hist := by
  refine Run.induct
    (fun _ s => s.Good prog holds stands ∧ ∃ tr', Run (network prog).Step (fun _ => []) tr' s.hist)
    ⟨⟨hholds, fun _ => Nat.le_refl 0, fun _ _ _ => hstands _ _⟩, [], .nil⟩ ?_ hrun
  rintro - s d s' ⟨hgood, tr', hnet⟩ hs
  obtain ⟨hgood', hsame | hstep⟩ := good_step hfifo hprog hgood hs
  · exact ⟨hgood', tr', hsame ▸ hnet⟩
  · exact ⟨hgood', _, hnet.snoc hstep⟩

/-- **In such a session every call that returns has put in one item or taken one**, in order. -/
theorem answered_of_network {tr : List Side}
    (hrun : Run (network prog).Step (fun _ => []) tr s.hist) : Answered prog s := by
  intro d k e he
  have hmade := Network.explained_run hrun d k e he
  simp only [Network.Made, network, Option.map_eq_some_iff] at hmade
  rcases hmade with ⟨c, hc, hact⟩ | ⟨f, xs, ⟨c, hc, hact⟩, hxs, rfl⟩
  · refine ⟨c, hc, ?_⟩
    cases c with
    | trySend msg => exact (Network.Action.emit.inj hact).symm
    | notify => exact (Network.Action.emit.inj hact).symm
    | tryRecv words => cases hact
    | recvNotify => cases hact
  · refine ⟨c, hc, ?_⟩
    cases c with
    | trySend msg => cases hact
    | notify => cases hact
    | tryRecv words => exact ⟨xs, hxs, congrFun (Network.Action.take.inj hact).symm xs⟩
    | recvNotify => exact ⟨xs, hxs, congrFun (Network.Action.take.inj hact).symm xs⟩

end Sessions

/-- The two histories after the accesses of `turns`. -/
def outcome {L : Line} (Ready : L.State → Call → Prop) [∀ s c, Decidable (Ready s c)]
    (prog : Programs) (line : Option (Side → L.State)) (turns : List Side) :
    Option (List Done × List Done) :=
  line.bind fun line =>
    (Run.drive (Session.readyStep Ready prog) (Session.start line) turns).map fun r =>
      (r.2.hist .src, r.2.hist .dst)

theorem run_of_outcome {L : Line} {Ready : L.State → Call → Prop} [∀ s c, Decidable (Ready s c)]
    {prog : Programs} {line : Option (Side → L.State)} {turns : List Side} {src dst : List Done}
    (h : outcome Ready prog line turns = some (src, dst)) :
    ∃ l tr s, line = some l ∧ Run (ReadyStep Ready prog) (Session.start l) tr s ∧
      s.hist .src = src ∧ s.hist .dst = dst := by
  obtain ⟨l, hl, h⟩ := Option.bind_eq_some_iff.mp h
  obtain ⟨⟨tr, s⟩, hdrive, h⟩ := Option.map_eq_some_iff.mp h
  obtain ⟨hsrc, hdst⟩ := Prod.mk.inj h
  exact ⟨l, tr, s, hl, Run.of_drive readyStep_of_some hdrive, hsrc, hdst⟩

end Smelt
