/-
# The queue-pair interface

`inc/smlt_queuepair.h`: every backend fills in the same table of functions, and everything above
it goes through that table.  A `Backend` is the table, over the state that the two ends of a
queue pair share; `Call` is one call through it.

The blocking functions of the interface are loops: `smlt_queuepair_send` repeats `try_send` while
it returns `SMLT_ERR_QUEUE_FULL`, `smlt_queuepair_recv` repeats `try_recv` while it returns
`SMLT_ERR_QUEUE_EMPTY`, and the backends' notification calls turn inside.  A step here is one
turn, and `Call.blocks` says that the caller has to turn again.

`Backend.IsFifo` is what the layers above rely on: each direction is a FIFO that refuses nothing
when it is empty.  It is a property of a backend, proved for UMP in `Ump/Refine.lean`.
-/
import Smelt.Message
import Smelt.Lib.Fifo
import Mathlib.Logic.Function.Basic

namespace Smelt

/-! ## 1. Calls -/

/-- The two ends of a queue pair. -/
inductive Side
  | src
  | dst
  deriving DecidableEq, Repr

/-- The other end. -/
def Side.other : Side → Side
  | .src => .dst
  | .dst => .src

@[simp] theorem Side.other_other (d : Side) : d.other.other = d := by cases d <;> rfl

@[simp] theorem Side.other_ne (d : Side) : d.other ≠ d := by cases d <;> decide

theorem Side.eq_other {s d : Side} (h : s ≠ d) : s = d.other := by
  cases s <;> cases d <;> first | rfl | exact absurd rfl h

/-- A call on a queue pair by one of its ends: `f.send.try_send`, `f.send.notify`,
`f.recv.try_recv` into a message of `words` words, and `f.recv.notify`. -/
inductive Call
  | trySend (msg : Msg)
  | notify
  | tryRecv (words : UInt32)
  | recvNotify

/-- What became of a call: it returned an error value, it returned success with the words of a
message, or it is still turning in its waiting loop. -/
inductive Ret
  | err (e : Errval)
  | msg (ws : List Word)
  | spin
  deriving DecidableEq

/-- The calls that go through `tx`; the others go through `rx`. -/
def Call.transmits : Call → Bool
  | .trySend _ => true
  | .notify => true
  | .tryRecv _ => false
  | .recvNotify => false

/-- The words a call transfers. -/
def Call.words : Call → Nat
  | .trySend msg => msg.words.toNat
  | .notify => 0
  | .tryRecv words => words.toNat
  | .recvNotify => 0

/-- What a transmitting call shows. -/
def Call.put? : Call → Ret → Option (List Word)
  | .trySend msg, .err [] => some msg.payload
  | .notify, .err [] => some []
  | _, _ => none

/-- What a receiving call shows. -/
def Call.got? : Call → Ret → Option (List Word)
  | .tryRecv _, .msg ws => some ws
  | .recvNotify, .err [] => some []
  | _, _ => none

/-- The caller has to turn again: the loop conditions of `smlt_queuepair_send` and
`smlt_queuepair_recv`, and the loops inside the notification calls. -/
def Call.blocks : Call → Ret → Bool
  | .trySend _, .err e => e == [.queueFull]
  | .tryRecv _, .err e => e == [.queueEmpty]
  | _, .spin => true
  | _, _ => false

theorem put?_of_receives {c : Call} (hc : c.transmits = false) (r : Ret) : c.put? r = none := by
  cases c <;> first | rfl | cases hc

theorem got?_of_transmits {c : Call} (hc : c.transmits = true) (r : Ret) : c.got? r = none := by
  cases c <;> first | rfl | cases hc

theorem transmits_of_put? {c : Call} {r : Ret} {xs : List Word} (h : c.put? r = some xs) :
    c.transmits = true := by
  cases hc : c.transmits with
  | true => rfl
  | false => simp [put?_of_receives hc] at h

theorem receives_of_got? {c : Call} {r : Ret} {ys : List Word} (h : c.got? r = some ys) :
    c.transmits = false := by
  cases hc : c.transmits with
  | false => rfl
  | true => simp [got?_of_transmits hc] at h

theorem not_blocks_of_put? {c : Call} {r : Ret} {xs : List Word} (h : c.put? r = some xs) :
    c.blocks r = false := by
  rcases r with (_ | _) | _ | _ <;> cases c <;> first | rfl | simp [Call.put?] at h

theorem not_blocks_of_got? {c : Call} {r : Ret} {ys : List Word} (h : c.got? r = some ys) :
    c.blocks r = false := by
  rcases r with (_ | _) | _ | _ <;> cases c <;> first | rfl | simp [Call.got?] at h

/-! ## 2. Readings -/

/-- The reading of an item: the words that were both sent and asked for. -/
def Agree (sent rcvd : List Word) : Prop := rcvd.take sent.length = sent.take rcvd.length

theorem agree_of_getElem? {sent rcvd : List Word}
    (h : ∀ (j : ℕ) (x y : Word), sent[j]? = some x → rcvd[j]? = some y → y = x) :
    Agree sent rcvd := by
  refine List.ext_getElem (by simp [Nat.min_comm]) fun j h1 h2 => ?_
  simp only [List.length_take] at h1 h2
  have hs : j < sent.length := by omega
  have hr : j < rcvd.length := by omega
  simpa using h j sent[j] rcvd[j] (List.getElem?_eq_getElem hs) (List.getElem?_eq_getElem hr)

/-- A reading of as many words as were sent is what was sent. -/
theorem Agree.eq_of_length {sent rcvd : List Word} (h : Agree sent rcvd)
    (hlen : rcvd.length = sent.length) : rcvd = sent := by
  unfold Agree at h
  rwa [hlen, List.take_length, ← hlen, List.take_length] at h

/-- A reading of a message is a reading of what the message begins with. -/
theorem Agree.of_prefix {xs sent rcvd : List Word} (h : Agree sent rcvd) (hxs : xs <+: sent) :
    Agree xs rcvd := by
  have hle : xs.length ≤ sent.length := hxs.length_le
  have htake : sent.take xs.length = xs := (List.prefix_iff_eq_take.mp hxs).symm
  calc rcvd.take xs.length
      = (rcvd.take sent.length).take xs.length := by rw [List.take_take, Nat.min_eq_left hle]
    _ = (sent.take rcvd.length).take xs.length := by rw [show rcvd.take sent.length = _ from h]
    _ = (sent.take xs.length).take rcvd.length := by
        rw [List.take_take, List.take_take, Nat.min_comm]
    _ = xs.take rcvd.length := by rw [htake]

/-- What a receive of `rcvd.1` words gets of an item: as many words as it asked for, and those of
the item as far as both go. -/
def Gets (sent : List Word) (rcvd : ℕ × List Word) : Prop :=
  rcvd.2.length = rcvd.1 ∧ Agree sent rcvd.2

/-- A receive of no more words than were sent gets the first of them. -/
theorem Gets.eq_take {sent ys : List Word} {w : ℕ} (h : Gets sent (w, ys)) (hw : w ≤ sent.length) :
    ys = sent.take w := by
  obtain ⟨hlen, hag⟩ := h
  have hlen : ys.length = w := hlen
  have hag : ys.take sent.length = sent.take ys.length := hag
  rw [hlen, List.take_of_length_le (hlen ▸ hw)] at hag
  exact hag

/-! ## 3. The table -/

/-- The function table of `struct smlt_qp`, over the state its two ends share. -/
structure Backend where
  State : Type
  call : State → Side → Call → State × Ret
  canRecv : State → Side → Bool

/-- `smlt_queuepair_send`: one turn of its loop.  `none` is a call that has not returned. -/
def Backend.send (B : Backend) (w : B.State) (d : Side) (msg : Msg) :
    Option (B.State × Errval) :=
  match B.call w d (.trySend msg) with
  | (w', .err e) => if e = [.queueFull] then none else some (w', e)
  | _ => none

theorem Backend.send_eq_some {B : Backend} {w w' : B.State} {d : Side} {msg : Msg} {e : Errval} :
    B.send w d msg = some (w', e) ↔
      B.call w d (.trySend msg) = (w', .err e) ∧ e ≠ [.queueFull] := by
  rw [Backend.send]
  rcases B.call w d (.trySend msg) with ⟨w'', e'' | ws | _⟩
  · by_cases hfull : e'' = [.queueFull]
    · simp only [hfull, if_true, reduceCtorEq, Prod.mk.injEq, Ret.err.injEq, false_iff, not_and]
      rintro ⟨-, rfl⟩ h
      exact h rfl
    · simp only [hfull, if_false, Option.some.injEq, Prod.mk.injEq, Ret.err.injEq]
      constructor
      · rintro ⟨rfl, rfl⟩
        exact ⟨⟨rfl, rfl⟩, hfull⟩
      · exact fun h => h.1
  · simp
  · simp

/-- `smlt_queuepair_notify`. -/
def Backend.notify (B : Backend) (w : B.State) (d : Side) : Option (B.State × Errval) :=
  match B.call w d .notify with
  | (w', .err e) => some (w', e)
  | _ => none

/-- `smlt_queuepair_recv` into a message of `words` words: one turn of its loop. -/
def Backend.recv (B : Backend) (w : B.State) (d : Side) (words : UInt32) :
    Option (B.State × Errval × Option (List Word)) :=
  match B.call w d (.tryRecv words) with
  | (w', .err e) => if e = [.queueEmpty] then none else some (w', e, none)
  | (w', .msg ws) => some (w', success, some ws)
  | (_, .spin) => none

/-- `smlt_queuepair_recv0`. -/
def Backend.recv0 (B : Backend) (w : B.State) (d : Side) : Option (B.State × Errval) :=
  match B.call w d .recvNotify with
  | (w', .err e) => some (w', e)
  | _ => none

theorem Backend.notify_eq_some {B : Backend} {w w' : B.State} {d : Side} {e : Errval} :
    B.notify w d = some (w', e) ↔ B.call w d .notify = (w', .err e) := by
  rw [Backend.notify]
  rcases B.call w d .notify with ⟨w'', e'' | ws | _⟩ <;> simp

theorem Backend.recv_eq_some {B : Backend} {w w' : B.State} {d : Side} {words : UInt32}
    {e : Errval} {ws : Option (List Word)} :
    B.recv w d words = some (w', e, ws) ↔
      B.call w d (.tryRecv words) = (w', .err e) ∧ e ≠ [.queueEmpty] ∧ ws = none ∨
        ∃ ys, B.call w d (.tryRecv words) = (w', .msg ys) ∧ e = success ∧ ws = some ys := by
  rw [Backend.recv]
  rcases B.call w d (.tryRecv words) with ⟨w'', e'' | ys | _⟩
  · by_cases hempty : e'' = [.queueEmpty]
    · simp only [hempty, if_true, reduceCtorEq, Prod.mk.injEq, Ret.err.injEq, and_false, false_and,
        exists_false, or_false, false_iff, not_and]
      rintro ⟨-, rfl⟩ h
      exact absurd rfl h
    · simp only [hempty, if_false, Option.some.injEq, Prod.mk.injEq, Ret.err.injEq, reduceCtorEq,
        and_false, false_and, exists_false, or_false]
      constructor
      · rintro ⟨rfl, rfl, rfl⟩
        exact ⟨⟨rfl, rfl⟩, hempty, rfl⟩
      · rintro ⟨⟨rfl, rfl⟩, -, rfl⟩
        exact ⟨rfl, rfl, rfl⟩
  · simp only [Option.some.injEq, Prod.mk.injEq, reduceCtorEq, and_false, false_and, Ret.msg.injEq,
      false_or]
    constructor
    · rintro ⟨rfl, rfl, rfl⟩
      exact ⟨ys, ⟨rfl, rfl⟩, rfl, rfl⟩
    · rintro ⟨zs, ⟨rfl, rfl⟩, rfl, rfl⟩
      exact ⟨rfl, rfl, rfl⟩
  · simp

/-- **A backend that is a FIFO in each direction.**  `holds w q` reads the contents off the
state: `q d` is what `d` has sent and the other end has not received. -/
structure Backend.IsFifo (B : Backend) (holds : B.State → (Side → List (List Word)) → Prop) :
    Prop where
  put : ∀ {w q d c xs}, holds w q → c.words ≤ 7 → c.put? (B.call w d c).2 = some xs →
    holds (B.call w d c).1 (Function.update q d (q d ++ [xs]))
  /-- a send is refused only while something is outstanding -/
  refuse : ∀ {w q d c}, holds w q → c.words ≤ 7 → c.transmits = true →
    c.put? (B.call w d c).2 = none →
    c.blocks (B.call w d c).2 = true ∧ q d ≠ [] ∧ holds (B.call w d c).1 q
  got : ∀ {w q d c ys}, holds w q → c.words ≤ 7 → c.got? (B.call w d c).2 = some ys →
    ys.length = c.words ∧ ∃ xs rest, q d.other = xs :: rest ∧ Agree xs ys ∧
      holds (B.call w d c).1 (Function.update q d.other rest)
  empty : ∀ {w q d c}, holds w q → c.words ≤ 7 → c.transmits = false →
    c.got? (B.call w d c).2 = none →
    c.blocks (B.call w d c).2 = true ∧ q d.other = [] ∧ holds (B.call w d c).1 q
  poll : ∀ {w q d}, holds w q → (B.canRecv w d = true ↔ q d.other ≠ [])

/-- The law for each of several readings of the state is the law for whichever holds. -/
theorem Backend.IsFifo.ofExists {ι : Type} {B : Backend}
    {holds : ι → B.State → (Side → List (List Word)) → Prop} (h : ∀ i, B.IsFifo (holds i)) :
    B.IsFifo fun w q => ∃ i, holds i w q where
  put := fun ⟨i, hq⟩ hc hput => ⟨i, (h i).put hq hc hput⟩
  refuse := by
    rintro w q d c ⟨i, hq⟩ hc htr hput
    obtain ⟨hblocks, hne, hq'⟩ := (h i).refuse hq hc htr hput
    exact ⟨hblocks, hne, i, hq'⟩
  got := by
    rintro w q d c ys ⟨i, hq⟩ hc hgot
    obtain ⟨hlen, xs, rest, hx, hag, hq'⟩ := (h i).got hq hc hgot
    exact ⟨hlen, xs, rest, hx, hag, i, hq'⟩
  empty := by
    rintro w q d c ⟨i, hq⟩ hc htr hgot
    obtain ⟨hblocks, hnil, hq'⟩ := (h i).empty hq hc htr hgot
    exact ⟨hblocks, hnil, i, hq'⟩
  poll := fun ⟨i, hq⟩ => (h i).poll hq

section Receive

variable {B : Backend} {holds : B.State → (Side → List (List Word)) → Prop} {w : B.State}
  {q : Side → List (List Word)} {d : Side} {xs : List Word} {rest : List (List Word)}

/-- A receiving call on a direction that holds a message takes it. -/
theorem Backend.IsFifo.takes (h : B.IsFifo holds) (hq : holds w q) {c : Call} (hw : c.words ≤ 7)
    (hc : c.transmits = false) (hhead : q d.other = xs :: rest) :
    ∃ ys, c.got? (B.call w d c).2 = some ys ∧ ys.length = c.words ∧ Agree xs ys ∧
      holds (B.call w d c).1 (Function.update q d.other rest) := by
  cases hgot : c.got? (B.call w d c).2 with
  | none =>
    obtain ⟨-, hnil, -⟩ := h.empty hq hw hc hgot
    rw [hnil] at hhead
    cases hhead
  | some ys =>
    obtain ⟨hlen, xs', rest', hx, hag, hq'⟩ := h.got hq hw hgot
    obtain ⟨rfl, rfl⟩ := List.cons.inj (hx.symm.trans hhead)
    exact ⟨ys, rfl, hlen, hag, hq'⟩

/-- **A receive takes the oldest message**, with a reading of it. -/
theorem Backend.IsFifo.recv (h : B.IsFifo holds) (hq : holds w q) {words : UInt32}
    (hw : words.toNat ≤ 7) (hhead : q d.other = xs :: rest) :
    ∃ w' ys, B.recv w d words = some (w', success, some ys) ∧ ys.length = words.toNat ∧
      Agree xs ys ∧ holds w' (Function.update q d.other rest) := by
  obtain ⟨ys, hgot, hlen, hag, hq'⟩ := h.takes (c := .tryRecv words) hq hw rfl hhead
  refine ⟨_, ys, Backend.recv_eq_some.mpr (.inr ⟨ys, ?_, rfl, rfl⟩), hlen, hag, hq'⟩
  generalize hcall : B.call w d (.tryRecv words) = r at hgot
  obtain ⟨w', e | zs | _⟩ := r
  · simp [Call.got?] at hgot
  · obtain rfl := Option.some.inj hgot
    rfl
  · simp [Call.got?] at hgot

/-- And so does a receive of a notification. -/
theorem Backend.IsFifo.recv0 (h : B.IsFifo holds) (hq : holds w q)
    (hhead : q d.other = xs :: rest) :
    ∃ w', B.recv0 w d = some (w', success) ∧ holds w' (Function.update q d.other rest) := by
  obtain ⟨ys, hgot, -, -, hq'⟩ := h.takes (c := .recvNotify) hq (Nat.zero_le 7) rfl hhead
  refine ⟨(B.call w d .recvNotify).1, ?_, hq'⟩
  rw [Backend.recv0]
  generalize B.call w d .recvNotify = r at hgot
  obtain ⟨w', (_ | ⟨code, e⟩) | zs | _⟩ := r
  · rfl
  · simp [Call.got?] at hgot
  · simp [Call.got?] at hgot
  · simp [Call.got?] at hgot

end Receive

/-- What a call of the end `d` with the result `r` did to the contents: it put an item in, it took
one out, or it has to turn again. -/
def Call.Effect (c : Call) (r : Ret) (d : Side) (q q' : Side → List (List Word)) : Prop :=
  (∃ xs, c.put? r = some xs ∧ q' = Function.update q d (q d ++ [xs])) ∨
    (∃ ys xs rest, c.got? r = some ys ∧ q d.other = xs :: rest ∧ Gets xs (c.words, ys) ∧
      q' = Function.update q d.other rest) ∨
    (c.blocks r = true ∧ q' = q)

/-- A backend that is a FIFO for the calls that are `Legal`. -/
def Backend.FifoOn (B : Backend) (Legal : Call → Prop)
    (holds : B.State → (Side → List (List Word)) → Prop) : Prop :=
  ∀ w q d c, holds w q → Legal c →
    ∃ q', holds (B.call w d c).1 q' ∧ c.Effect (B.call w d c).2 d q q'

/-- A call that returned did what it is for. -/
theorem Call.Effect.send {msg : Msg} {e : Errval} {d : Side} {q q' : Side → List (List Word)}
    (h : (Call.trySend msg).Effect (.err e) d q q') (hfull : e ≠ [.queueFull]) : e = success := by
  rcases h with ⟨xs, hput, -⟩ | ⟨ys, xs, rest, hgot, -⟩ | ⟨hblocks, -⟩
  · cases e with
    | nil => rfl
    | cons code e => simp [Call.put?] at hput
  · simp [Call.got?] at hgot
  · exact absurd (beq_iff_eq.mp hblocks) hfull

theorem Call.Effect.notify {e : Errval} {d : Side} {q q' : Side → List (List Word)}
    (h : Call.notify.Effect (.err e) d q q') : e = success := by
  rcases h with ⟨xs, hput, -⟩ | ⟨ys, xs, rest, hgot, -⟩ | ⟨hblocks, -⟩
  · cases e with
    | nil => rfl
    | cons code e => simp [Call.put?] at hput
  · simp [Call.got?] at hgot
  · cases hblocks

/-- A receive does not return an error. -/
theorem Call.Effect.recv {words : UInt32} {e : Errval} {d : Side} {q q' : Side → List (List Word)}
    (h : (Call.tryRecv words).Effect (.err e) d q q') : e = [.queueEmpty] := by
  rcases h with ⟨xs, hput, -⟩ | ⟨ys, xs, rest, hgot, -⟩ | ⟨hblocks, -⟩
  · simp [Call.put?] at hput
  · simp [Call.got?] at hgot
  · exact beq_iff_eq.mp hblocks

/-- A FIFO takes every call of up to seven words. -/
theorem Backend.IsFifo.fifoOn {B : Backend} {holds : B.State → (Side → List (List Word)) → Prop}
    (h : B.IsFifo holds) : B.FifoOn (fun c => c.words ≤ 7) holds := by
  intro w q d c hq hc
  cases htr : c.transmits with
  | true =>
    cases hput : c.put? (B.call w d c).2 with
    | some xs => exact ⟨_, h.put hq hc hput, .inl ⟨xs, hput, rfl⟩⟩
    | none =>
      obtain ⟨hblocks, -, hq'⟩ := h.refuse hq hc htr hput
      exact ⟨q, hq', .inr (.inr ⟨hblocks, rfl⟩)⟩
  | false =>
    cases hgot : c.got? (B.call w d c).2 with
    | some ys =>
      obtain ⟨hlen, xs, rest, hx, hag, hq'⟩ := h.got hq hc hgot
      exact ⟨_, hq', .inr (.inl ⟨ys, xs, rest, hgot, hx, ⟨hlen, hag⟩, rfl⟩)⟩
    | none =>
      obtain ⟨hblocks, -, hq'⟩ := h.empty hq hc htr hgot
      exact ⟨q, hq', .inr (.inr ⟨hblocks, rfl⟩)⟩

end Smelt
