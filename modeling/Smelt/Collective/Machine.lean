/-
# Collectives over a tree

`src/broadcast.c`, `src/reduction.c` and `smlt_barrier_wait` of `src/barrier.c`, on a context whose
channels are all 1:1 message-passing channels.  Every node runs the same sequence of collective
calls at its own speed; the only thing that passes between them is what goes through the
channels of the tree.

`Sys.turn` is one turn of one node: a turn of a polling loop, one attempt of a send or a receive
that blocks, or the step to the next statement.  The nodes are deterministic; the interleaving is
the choice of who turns next (`Step`).

A node's place in a call is a `Pc`, whose constructors are the loops of the source:

* `gather`, the polling loop of `smlt_reduce` and `smlt_reduce_notify`, with its `recv` flags;
* `sendUp`, the send to the parent after it;
* `recvDown`, the receive from the parent in `smlt_broadcast` and `smlt_broadcast_notify`;
* `sendDown`, the loop of `smlt_broadcast_subtree` and `smlt_broadcast_notify_subtree`.

Note what `smlt_reduce` does with a child's message: it receives it INTO the result buffer.  The
operation is applied once, to the node's own input, before anything is received.
-/
import Smelt.Queuepair
import Smelt.Lib.Tree

namespace Smelt

/-- A message of the words of a list. -/
def Msg.ofList (xs : List Word) : Msg :=
  { words := xs.length.toUInt32, data := fun i => xs.getD i 0 }

namespace Collective

/-! ## 1. Calls -/

/-- `smlt_reduce_fn_t`: combine `src` into the buffer `dest`, which keeps its length. -/
structure Op where
  run : List Word → List Word → List Word
  length_run : ∀ dest src, (run dest src).length = dest.length

/-- A collective call. -/
inductive Coll
  | broadcast
  | broadcastNotify
  | reduce (operation : Option Op)
  | reduceNotify
  | reduceAll (operation : Option Op)
  | barrierWait

/-- The calls every node makes, in order, and the buffers it passes to each: `msg u k` is the
message of a broadcast and the result buffer of a reduction.  A message has room in a slot. -/
structure Script (ι : Type) where
  calls : List Coll
  msg : ι → ℕ → List Word
  input : ι → ℕ → List Word
  fits : ∀ u k, (msg u k).length ≤ 7

/-- Whether a phase moves payloads (`smlt_channel_send`, `smlt_channel_recv`) or notifications
(`smlt_channel_notify`, `smlt_channel_recv_notification`). -/
inductive Kind
  | payload
  | notify
  deriving DecidableEq, Repr

/-- The attempt a blocking send repeats. -/
def Kind.send : Kind → List Word → Call
  | .payload, buf => .trySend (.ofList buf)
  | .notify, _ => .notify

/-- The attempt a blocking receive repeats. -/
def Kind.recv : Kind → List Word → Call
  | .payload, buf => .tryRecv buf.length.toUInt32
  | .notify, _ => .recvNotify

/-- The buffer after a receive. -/
def Kind.store : Kind → List Word → List Word → List Word
  | .payload, _, ys => ys
  | .notify, buf, _ => buf

/-! ## 2. A node -/

/-- Where a node stands in its current call. -/
inductive Pc
  | idle
  | gather (kind : Kind) (recv : List Bool) (numRecv i : ℕ)
  | sendUp (kind : Kind)
  | recvDown (kind : Kind)
  | sendDown (kind : Kind) (i : ℕ)
  | ret
  /-- the call returned an error, or panicked -/
  | failed
  deriving DecidableEq, Repr

/-- A node: the calls it has returned from, its place in the current one, and the buffer it
passed to it. -/
structure Node where
  done : ℕ
  pc : Pc
  buf : List Word
  deriving DecidableEq, Repr

section Entry

variable {ι : Type} (t : WiredTree ι) (u : ι)

/-- The entry of `smlt_broadcast` and `smlt_broadcast_notify`: the root only sends. -/
def broadcastEntry (kind : Kind) : Pc :=
  if (t.parent u).isNone then .sendDown kind 0 else .recvDown kind

/-- The entry of the polling loop: no flag is set. -/
def reduceEntry (kind : Kind) : Pc :=
  .gather kind (List.replicate (t.children u).length false) 0 0

/-- Where a call starts. -/
def Coll.entry : Coll → Pc
  | .broadcast => broadcastEntry t u .payload
  | .broadcastNotify => broadcastEntry t u .notify
  | .reduce (some _) => reduceEntry t u .payload
  | .reduce none => reduceEntry t u .notify
  | .reduceNotify => reduceEntry t u .notify
  | .reduceAll (some _) => reduceEntry t u .payload
  | .reduceAll none => reduceEntry t u .notify
  | .barrierWait => reduceEntry t u .notify

/-- Where a call goes on after its reduction. -/
def Coll.afterReduce : Coll → Pc
  | .reduceAll _ => broadcastEntry t u .payload
  | .barrierWait => broadcastEntry t u .notify
  | _ => .ret

end Entry

/-- The buffer at the start of a call: `operation(result, input)` comes first. -/
def Coll.firstBuf : Coll → List Word → List Word → List Word
  | .reduce (some op), input, msg => op.run msg input
  | .reduceAll (some op), input, msg => op.run msg input
  | _, _, msg => msg

/-- `i++; if (i == count) i = 0;`. -/
def nextChild (count i : ℕ) : ℕ := if i + 1 = count then 0 else i + 1

/-! ## 3. The system -/

variable {ι : Type} [DecidableEq ι] {B : Backend}

/-- The nodes and the channels between them; `chan c` joins `c` to its parent, who owns it. -/
structure Sys (ι : Type) (B : Backend) where
  node : ι → Node
  chan : ι → B.State

/-- The end of the channel of `c` that `self` uses: `chan->owner == smlt_node_self_id` picks
`mp.send`, otherwise it is `mp.recv`. -/
def side (t : WiredTree ι) (c self : ι) : Side :=
  if t.parent c = some self then .src else .dst

/-- What a turn did.  `put u v k xs`: in its `k`-th call `u` sent `xs` to `v`; `got u v k ys`: in
its `k`-th call `u` received `ys` from `v`; `ret u k buf`: the `k`-th call of `u` returned, with
`buf` in its buffer. -/
inductive Ev (ι : Type)
  | enter (u : ι) (k : ℕ)
  | put (u v : ι) (k : ℕ) (xs : List Word)
  | got (u v : ι) (k : ℕ) (ys : List Word)
  | ret (u : ι) (k : ℕ) (buf : List Word)
  | quiet (u : ι)
  deriving DecidableEq, Repr

def Sys.setNode (s : Sys ι B) (u : ι) (nd : Node) : Sys ι B :=
  { s with node := Function.update s.node u nd }

def Sys.setChan (s : Sys ι B) (c : ι) (w : B.State) : Sys ι B :=
  { s with chan := Function.update s.chan c w }

/-- One attempt of a blocking send by `u` to `v` on the channel of `c`; `onFail` is where a send
that returns an error leaves the caller. -/
def Sys.sendTurn (t : WiredTree ι) (s : Sys ι B) (c u v : ι) (kind : Kind) (next onFail : Pc) :
    Sys ι B × Ev ι :=
  let nd := s.node u
  let r := B.call (s.chan c) (side t c u) (kind.send nd.buf)
  match (kind.send nd.buf).put? r.2 with
  | some xs => ((s.setChan c r.1).setNode u { nd with pc := next }, .put u v nd.done xs)
  | none =>
    if (kind.send nd.buf).blocks r.2 then (s.setChan c r.1, .quiet u)
    else ((s.setChan c r.1).setNode u { nd with pc := onFail }, .quiet u)

/-- One attempt of a blocking receive by `u` from `v` on the channel of `c`. -/
def Sys.recvTurn (t : WiredTree ι) (s : Sys ι B) (c u v : ι) (kind : Kind) (next : Pc) :
    Sys ι B × Ev ι :=
  let nd := s.node u
  let r := B.call (s.chan c) (side t c u) (kind.recv nd.buf)
  match (kind.recv nd.buf).got? r.2 with
  | some ys =>
    ((s.setChan c r.1).setNode u { nd with pc := next, buf := kind.store nd.buf ys },
      .got u v nd.done ys)
  | none =>
    if (kind.recv nd.buf).blocks r.2 then (s.setChan c r.1, .quiet u)
    else ((s.setChan c r.1).setNode u { nd with pc := .failed }, .quiet u)

/-- One turn of the node `u`.  `none`: it has nothing left to do. -/
def Sys.turn (t : WiredTree ι) (sc : Script ι) (s : Sys ι B) (u : ι) : Option (Sys ι B × Ev ι) :=
  let nd := s.node u
  let count := (t.children u).length
  match nd.pc with
  | .idle =>
    match sc.calls[nd.done]? with
    | none => none
    | some call =>
      some (s.setNode u { nd with
        pc := call.entry t u
        buf := call.firstBuf (sc.input u nd.done) (sc.msg u nd.done) }, .enter u nd.done)
  | .gather kind recv num i =>
    if num < count then
      match (t.children u)[i]? with
      | none => none
      | some c =>
        if recv[i]? = some false ∧ B.canRecv (s.chan c) (side t c u) = true then
          some (s.recvTurn t c u c kind
            (.gather kind (recv.set i true) (num + 1) (nextChild count i)))
        else
          some (s.setNode u { nd with pc := .gather kind recv num (nextChild count i) }, .quiet u)
    else some (s.setNode u { nd with pc := .sendUp kind }, .quiet u)
  | .sendUp kind =>
    match sc.calls[nd.done]? with
    | none => none
    | some call =>
      match t.parent u with
      | none => some (s.setNode u { nd with pc := call.afterReduce t u }, .quiet u)
      -- the error value of this send is dropped
      | some p => some (s.sendTurn t u u p kind (call.afterReduce t u) (call.afterReduce t u))
  | .recvDown kind =>
    match t.parent u with
    | none => none
    | some p => some (s.recvTurn t u u p kind (.sendDown kind 0))
  | .sendDown kind i =>
    match (t.children u)[i]? with
    | none => some (s.setNode u { nd with pc := .ret }, .quiet u)
    | some c => some (s.sendTurn t c u c kind (.sendDown kind (i + 1)) .failed)
  | .ret => some (s.setNode u { nd with done := nd.done + 1, pc := .idle }, .ret u nd.done nd.buf)
  | .failed => none

/-- The turns of the nodes, in any order. -/
def Step (t : WiredTree ι) (sc : Script ι) (s : Sys ι B) (e : Ev ι) (s' : Sys ι B) : Prop :=
  ∃ u, s.turn t sc u = some (s', e)

/-- The start: nobody has called anything. -/
def Sys.init (chan : ι → B.State) : Sys ι B :=
  { node := fun _ => { done := 0, pc := .idle, buf := [] }, chan := chan }

end Collective

end Smelt
