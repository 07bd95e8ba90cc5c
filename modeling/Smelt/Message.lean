/-
# Messages and error values

The data every layer of the library passes around: 64-bit payload words, the `smlt_msg` that a
caller hands to a send or a receive, and the `errval_t` that comes back.

`smlt_err_push` shifts an error code in at the bottom of the value, so an `errval_t` is a stack
of codes, the newest first; `SMLT_SUCCESS` is the empty stack.  The tests `err == SMLT_ERR_...`
of the retry loops compare the whole stack.
-/
import Mathlib.Init

namespace Smelt

/-- `uint64_t`, the payload word of every backend. -/
abbrev Word := UInt64

/-- The codes of `enum smlt_err_code` that the modelled functions return. -/
inductive ErrCode
  | nodeInvald
  | mallocFail
  | inval
  | badAlignment
  | topologyInit
  | generator
  | destroyUmp
  | chanCreate
  | chanDestroy
  | chanWouldBlock
  | queueEmpty
  | queueFull
  | queueInit
  | send
  deriving DecidableEq, Repr

/-- `errval_t`: the pushed codes, newest first. -/
abbrev Errval := List ErrCode

/-- `SMLT_SUCCESS`. -/
def success : Errval := []

/-- `smlt_err_push`. -/
def errPush (err : Errval) (code : ErrCode) : Errval := code :: err

/-- A failing step of a larger operation, with the operation's own code pushed. -/
def pushErr {α : Type} (code : ErrCode) : Except Errval α → Except Errval α
  | .error err => .error (errPush err code)
  | .ok a => .ok a

@[simp] theorem pushErr_eq_ok {α : Type} {code : ErrCode} {r : Except Errval α} {a : α} :
    pushErr code r = .ok a ↔ r = .ok a := by
  cases r <;> simp [pushErr]

/-- A sequence succeeds when both of its halves do. -/
theorem bind_eq_ok {ε α β : Type} {x : Except ε α} {f : α → Except ε β} {b : β} :
    (x >>= f) = .ok b ↔ ∃ a, x = .ok a ∧ f a = .ok b := by
  cases x <;> simp [bind, Except.bind]

theorem eq_ok_of_toOption {ε α : Type} {x : Except ε α} {a : α} (h : x.toOption = some a) :
    x = .ok a := by
  cases x with
  | error e => cases h
  | ok b => exact congrArg _ (Option.some.inj h)

/-- `smlt_err_is_fail`. -/
def errIsFail (err : Errval) : Bool := !err.isEmpty

/-- `struct smlt_msg`: `words` counts the words to transfer, `data` is the caller's buffer. -/
structure Msg where
  words : UInt32
  data : Nat → Word

/-- The words a message asks to transfer: `data[0 .. words-1]`. -/
def Msg.payload (msg : Msg) : List Word := (List.range msg.words.toNat).map msg.data

@[simp] theorem Msg.length_payload (msg : Msg) : msg.payload.length = msg.words.toNat := by
  simp [Msg.payload]

@[simp] theorem Msg.getElem_payload (msg : Msg) {i : Nat} (h : i < msg.payload.length) :
    msg.payload[i] = msg.data i := by
  simp [Msg.payload]

end Smelt
