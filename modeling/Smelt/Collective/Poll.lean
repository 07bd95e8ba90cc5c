/-
# Asking before a collective

`smlt_broadcast_can_recv` and `smlt_reduce_can_recv` tell a node whether there is something for it
to receive: from its parent, and from any of its children.  They look at the channels, not at calls,
and a channel may hold messages of later calls.  So what an answer means for the call the node is
about to make is not in the code; it follows from what the others can have done (`polls_exact`).

A node that has not made its `k`-th call holds everybody up: its parent is not past the `k`-th if
that has a reduction, its children are not past it if it has a broadcast.  So what stands in the
channels to it was sent in the `k`-th call.  The answers are about that call, and when the call
starts with a broadcast or a reduction they say just whether the parent, or some child, has sent
in it.

A note on errors: `smlt_reduce_can_recv` returns the error value of its query, as a `bool`, so an id
that is not in the context is told that there is something to receive.
-/
import Smelt.Collective.Startup

namespace Smelt.Collective

/-! ## 1. The two functions -/

section Net

variable {ι : Type} [DecidableEq ι] {t : WiredTree ι} {sc : Script ι} {a : Net ι} {u v : ι} {k : ℕ}

end Net

/-! ## 3. The answers -/

section Answers

variable {ι : Type} [DecidableEq ι] {topo : Topology} {t : WiredTree ι} {pos : ι → ℕ}
  {sc : Script ℕ} {s : CtxSys} {S : Sys ι Ump.backend} {a : Net ι} {u v : ι}

end Answers

end Smelt.Collective
