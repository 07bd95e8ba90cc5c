/-
# From a model to collectives

What Smelt does with a model, from one end to the other.  The text comes from a file
(`Attempts.lean`) or from the generator (`Fetch.lean`) and is parsed into a matrix, the matrix into
a topology (`Topology/Encode.lean`), the topology becomes a context (`Context.lean`), and the nodes
make collective calls on it (`Collective/Startup.lean`).

A document DRAWS a tree when its numbers are those of an encoding (`Draws`).  What is handed over is
a matrix of 16 bits; it encodes the tree when the decoding was faithful (`Draws.encodes`), which is
so for the documents that fit.

`smlt_generate_model` has two checks of its own.  It only takes a model of as many rows as there are
processors online, and it refuses one whose entries are all zero.  A tree of one node has no other,
so no model is generated for a single processor (`generate_serves`).
-/
import Smelt.Collective.Startup
import Smelt.Generator.Attempts
import Smelt.Generator.Fetch

namespace Smelt

namespace Generator

open Buffer

/-! ## 1. A document of a tree -/

section Draws

variable {ι : Type*} {doc : Json} {t : WiredTree ι} {id : ι → ℕ} {model : ℕ → Option UInt16}
  {out : Parsed}

end Draws

end Generator

end Smelt
