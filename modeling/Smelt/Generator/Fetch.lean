/-
# Receiving a model

`smlt_tree_config_request` receives the document of the generator into a buffer of 1000 bytes, puts
a `'\0'` behind what a `recv` has left there, and appends the string in the buffer.  A `recv` of all
1000 bytes has its `'\0'` behind the buffer.

The loop is a program over the bytes from the buffer on.  One round is `run_recv`; what it
is handed in the end is the concatenation of what was received, however the network has
split it (`run_recvLoop`).

The connection is opened before the loop, and is not modelled.
-/
import Smelt.Generator.Document

namespace Smelt

namespace Generator

open Buffer

/-! ## 1. The loop -/

/-- What `recv` returns: a positive number of bytes, with the bytes, `0`, or `-1`. -/
inductive Received
  | data (bytes : List UInt8)
  | closed
  | error

/-- The loop over `recv`, on the bytes from `incomming_data_buffer` on, with what `rec` is.  It
leaves `rec`, or returns `1`; with no answer from `recv` it waits.  `fuel` is for the length of
a string. -/
def recvLoop (fuel : ℕ) : List Received → List UInt8 → Code UInt8 (Option (List UInt8))
  | [], _ => .spin
  | .data bytes :: stream, rec =>
    storeFrom (.call (.store bytes.length 0) fun _ =>
      loadString 0 (fun s => recvLoop fuel stream (rec ++ s)) fuel 0 []) 0 bytes
  | .closed :: _, rec => .ret (some rec)
  | .error :: _, _ => .ret none

/-- `smlt_tree_config_request` from the loop on.  `reader` is what jsoncpp makes of a string without
its last byte; `none` is the return of `1`. -/
def treeConfigRequest (reader : List UInt8 → Json) (fuel : ℕ) (stream : List Received)
    (buffer : ℕ → UInt8) : Option (Option ((ℕ → Option UInt16) × Option Parsed)) := do
  let received ← (recvLoop fuel stream []).run handle buffer
  match received.2 with
  | none => return none
  | some rec => return some (← (treeParseWrapper (reader rec)).run handle fun _ => none)

/-- The answers for the chunks and the end of the stream. -/
def delivery (chunks : List (List UInt8)) : List Received := chunks.map .data ++ [.closed]

/-! ## 2. What it does -/

section Loop

variable {fuel : ℕ} {chunk rec : List UInt8} {chunks : List (List UInt8)} {stream : List Received}
  {m : ℕ → UInt8}

/-- **One round** appends what was received. -/
theorem run_recv (hfuel : chunk.length < fuel) (hnul : 0 ∉ chunk) :
    (recvLoop fuel (.data chunk :: stream) rec).run handle m =
      (recvLoop fuel stream (rec ++ chunk)).run handle
        (Function.update (copyInto m 0 chunk) chunk.length 0) := by
  rw [recvLoop, run_storeFrom, Prog.run_call rfl]
  refine run_loadString (fun j v hv => ?_) hnul ?_ hfuel
  · have hj := (List.getElem?_eq_some_iff.mp hv).1
    rw [Nat.zero_add, Function.update_of_ne (Nat.ne_of_lt hj)]
    have hcopied := copyInto_getElem? (m := m) (i := 0) hv
    rw [Nat.zero_add] at hcopied
    exact hcopied
  · rw [Nat.zero_add, Function.update_self]

/-- **The loop** appends all that was received. -/
theorem run_recvLoop (rec : List UInt8) (m : ℕ → UInt8)
    (hfuel : ∀ chunk ∈ chunks, chunk.length < fuel) (hnul : ∀ chunk ∈ chunks, 0 ∉ chunk) :
    ∃ m', (recvLoop fuel (delivery chunks) rec).run handle m =
      some (m', some (rec ++ chunks.flatten)) := by
  induction chunks generalizing rec m with
  | nil => exact ⟨m, by rw [List.flatten_nil, List.append_nil]; rfl⟩
  | cons chunk chunks ih =>
    obtain ⟨hlen, hlens⟩ := List.forall_mem_cons.mp hfuel
    obtain ⟨hchunk, hchunks⟩ := List.forall_mem_cons.mp hnul
    obtain ⟨m', hrun⟩ := ih (rec ++ chunk)
      (Function.update (copyInto m 0 chunk) chunk.length 0) hlens hchunks
    refine ⟨m', ?_⟩
    rw [List.flatten_cons, ← List.append_assoc, ← hrun]
    exact run_recv hlen hchunk

/-- Where it stores. -/
theorem only_recvLoop {size : ℕ} :
    (recvLoop (fuel + 1) (delivery chunks) rec).Only anyWord
        (fun q => q.stores = true → q.index < size) ↔
      ∀ chunk ∈ chunks, chunk.length < size := by
  induction chunks generalizing rec with
  | nil => exact ⟨fun _ chunk hchunk => absurd hchunk List.not_mem_nil, fun _ => trivial⟩
  | cons chunk chunks ih =>
    have hround : (recvLoop (fuel + 1) (delivery (chunk :: chunks)) rec) =
        storeFrom (.call (.store chunk.length 0) fun _ => loadString 0
          (fun s => recvLoop (fuel + 1) (delivery chunks) (rec ++ s)) (fuel + 1) 0 [])
        0 chunk := rfl
    rw [hround, only_storeFrom, List.forall_mem_cons]
    constructor
    · rintro ⟨-, hend, hrest⟩
      exact ⟨hend rfl, ih.mp (only_of_loadString
        (k := fun s => recvLoop (fuel + 1) (delivery chunks) (rec ++ s)) (hrest () trivial))⟩
    · rintro ⟨hlen, hlens⟩
      refine ⟨fun j v hv _ => ?_, fun _ => hlen, fun _ _ => ?_⟩
      · have hj := (List.getElem?_eq_some_iff.mp hv).1
        exact Nat.lt_trans (by rw [Access.index]; omega) hlen
      · exact only_loadString (fun i hload => by cases hload) fun s => ih.mpr hlens

end Loop

/-! ## 3. A reply and its chunks -/

/-- The ways of the socket to deliver a reply. -/
structure Delivers (reply : List UInt8) (chunks : List (List UInt8)) : Prop where
  concat : chunks.flatten = reply
  sizes : ∀ chunk ∈ chunks, 1 ≤ chunk.length ∧ chunk.length ≤ 1000

/-- **The reply is fetched**: the stores are in the buffer, and the reply is what the wrapper is
handed. -/
structure Fetched (fuel : ℕ) (reply : List UInt8) (chunks : List (List UInt8)) : Prop where
  inside : (recvLoop fuel (delivery chunks) []).Only anyWord fun q => q.stores = true →
    q.index < 1000
  handed : ∀ buffer, ∃ buffer',
    (recvLoop fuel (delivery chunks) []).run handle buffer = some (buffer', some reply)

theorem Fetched.result {fuel : ℕ} {reply : List UInt8} {chunks : List (List UInt8)}
    (h : Fetched fuel reply chunks) (reader : List UInt8 → Json) (buffer : ℕ → UInt8) :
    treeConfigRequest reader fuel (delivery chunks) buffer =
      ((treeParseWrapper (reader reply)).run handle fun _ => none).map some := by
  obtain ⟨buffer', hrun⟩ := h.handed buffer
  rw [treeConfigRequest, hrun]
  exact Option.map_eq_bind.symm

/-- **A reply is fetched exactly if no `recv` fills the buffer**, and then in one way. -/
theorem fetched_iff {fuel : ℕ} {reply : List UInt8} {chunks : List (List UInt8)}
    (hfuel : 1000 < fuel) (hnul : 0 ∉ reply) (h : Delivers reply chunks) :
    (Fetched fuel reply chunks ↔ ∀ chunk ∈ chunks, chunk.length ≠ 1000) ∧
      ∀ chunks', Delivers reply chunks' → (∀ chunk ∈ chunks, chunk.length ≠ 1000) →
        (∀ chunk ∈ chunks', chunk.length ≠ 1000) → ∀ reader buffer buffer',
          treeConfigRequest reader fuel (delivery chunks) buffer =
            treeConfigRequest reader fuel (delivery chunks') buffer' := by
  obtain ⟨fuel, rfl⟩ := Nat.exists_eq_succ_of_ne_zero (Nat.ne_of_gt (Nat.zero_lt_of_lt hfuel))
  have henough : ∀ chunks, Delivers reply chunks → (∀ chunk ∈ chunks, chunk.length ≠ 1000) →
      Fetched (fuel + 1) reply chunks := by
    intro chunks h hfull
    refine ⟨only_recvLoop.mpr fun chunk hchunk =>
      Nat.lt_of_le_of_ne (h.sizes chunk hchunk).2 (hfull chunk hchunk), fun buffer => ?_⟩
    obtain ⟨buffer', hrun⟩ := run_recvLoop [] buffer
      (fun chunk hchunk => Nat.lt_of_le_of_lt (h.sizes chunk hchunk).2 hfuel)
      fun chunk hchunk hzero => hnul (h.concat ▸ List.mem_flatten_of_mem hchunk hzero)
    rw [List.nil_append, h.concat] at hrun
    exact ⟨buffer', hrun⟩
  refine ⟨⟨fun hfetched chunk hchunk => ?_, henough chunks h⟩,
    fun chunks' h' hfull hfull' reader buffer buffer' => ?_⟩
  · exact Nat.ne_of_lt (only_recvLoop.mp hfetched.inside chunk hchunk)
  · rw [(henough chunks h hfull).result reader buffer,
      (henough chunks' h' hfull').result reader buffer']

theorem fetched_iff_split : Fetched 1001 [123, 125, 10] [[123], [125, 10]] ∧
    ∀ reader buffer, treeConfigRequest reader 1001 (delivery [[123], [125, 10]]) buffer =
      treeConfigRequest reader 1001 (delivery [[123, 125, 10]]) buffer := by
  have hsplit : Delivers [123, 125, 10] [[123], [125, 10]] := ⟨rfl, by decide⟩
  have hwhole : Delivers [123, 125, 10] [[123, 125, 10]] := ⟨rfl, by decide⟩
  obtain ⟨hiff, hsame⟩ := fetched_iff (Nat.lt_succ_self 1000) (by decide) hsplit
  exact ⟨hiff.mpr (by decide), fun reader buffer =>
    hsame _ hwhole (by decide) (by decide) reader buffer buffer⟩

/-- **The `'\0'` of a full buffer is stored behind it.** -/
theorem full_recv_outside : ∃ fuel reply chunks, 1000 < fuel ∧ 0 ∉ reply ∧
    Delivers reply chunks ∧ ¬Fetched fuel reply chunks := by
  refine ⟨1001, List.replicate 1000 32, [List.replicate 1000 32], by decide, fun hzero => ?_,
    ⟨List.append_nil _, ?_⟩, fun hfetched => ?_⟩
  · cases List.eq_of_mem_replicate hzero
  · rw [List.forall_mem_singleton, List.length_replicate]
    decide
  · have hlt := only_recvLoop.mp hfetched.inside _ List.mem_cons_self
    rw [List.length_replicate] at hlt
    exact absurd hlt (Nat.lt_irrefl _)

end Generator

end Smelt
