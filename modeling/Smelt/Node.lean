/-
# Nodes

`src/smlt.c` and `inc/smlt_node.h`: the nodes that `smlt_init` creates, the mesh of 1:1 channels
between them, and `smlt_send`, `smlt_notify` and `smlt_recv`, which find the channel in the OTHER
node, at the caller's id.

`smlt_init` creates the channel of two nodes once, in the node with the smaller id, and copies the
structure into the other node.  What is copied are pointers, so both entries are the same queue
pair; here an entry is the name of the channel it is a copy of.  No channel is created from a node
to itself: that entry stays as the allocation cleared it, with no queue pair and `m = n = 0`.

The error of `smlt_channel_create` is not looked at.
-/
import Smelt.Channel.Calls

namespace Smelt

/-! ## 1. The mesh -/

/-- The nodes: `chan i j` is `smlt_gbl_all_nodes[i]->chan[j]`, and `link` has the channels. -/
structure Mesh where
  count : ℕ
  chan : ℕ → ℕ → Option (ℕ × ℕ)
  link : ℕ × ℕ → Channel

/-- The nodes without their channels. -/
def Mesh.nodes (numProc : ℕ) : Mesh where
  count := numProc
  chan _ _ := none
  link _ := .zero

/-- The channel of the nodes `i` and `j`, created by `smlt_channel_create(&chan, &i, &j, 1, 1)`. -/
def linkCreate (alloc : ℕ × ℕ → Side → Option ℕ) (key : ℕ × ℕ) : Channel :=
  match channelCreate (fun _ => alloc key) [key.1] [key.2] with
  | none => .zero
  | some (ch, _) => ch

/-- The body of the loops of `smlt_init` that set up the channels. -/
def Mesh.connect (alloc : ℕ × ℕ → Side → Option ℕ) (mesh : Mesh) (key : ℕ × ℕ) : Mesh :=
  { mesh with
    chan := fun a b => if (a, b) = key ∨ (b, a) = key then some key else mesh.chan a b
    link := Function.update mesh.link key (linkCreate alloc key) }

/-- `smlt_init` with `eagerly` set. -/
def smltInit (alloc : ℕ × ℕ → Side → Option ℕ) (numProc : ℕ) : Mesh :=
  (List.range numProc).foldl (fun mesh i =>
    (List.range' (i + 1) (numProc - (i + 1))).foldl (fun mesh j => mesh.connect alloc (i, j)) mesh)
    (Mesh.nodes numProc)

/-- `smlt_send` by the node `self`, through `smlt_node_send`.  `smlt_get_node_by_id` gives `NULL`
for an id that no node has; a caller that is not a node has no entry in `chan`. -/
def smltSend (self nid : ℕ) (mesh : Mesh) (msg : Msg) : Option (Mesh × Errval) :=
  if nid < mesh.count then
    if self < mesh.count then
      match mesh.chan nid self with
      | none => (channelSend self .zero msg).map fun r => (mesh, r.2)
      | some key => (channelSend self (mesh.link key) msg).map fun r =>
          ({ mesh with link := Function.update mesh.link key r.1 }, r.2)
    else none
  else some (mesh, [.nodeInvald])

/-- The way from a node id to a channel, which `smlt_send` takes too; `inval` is returned when no
node has the id. -/
def Mesh.onNode {β : Type} (self nid : ℕ) (mesh : Mesh) (inval : β)
    (f : Channel → Option (Channel × β)) : Option (Mesh × β) :=
  if nid < mesh.count then
    if self < mesh.count then
      match mesh.chan nid self with
      | none => (f .zero).map fun r => (mesh, r.2)
      | some key => (f (mesh.link key)).map fun r =>
          ({ mesh with link := Function.update mesh.link key r.1 }, r.2)
    else none
  else some (mesh, inval)

/-- `smlt_notify` by the node `self`, through `smlt_node_notify`. -/
def smltNotify (self nid : ℕ) (mesh : Mesh) : Option (Mesh × Errval) :=
  mesh.onNode self nid [.nodeInvald] (channelNotify self)

/-- `smlt_recv` by the node `self` into a message of `words` words, through `smlt_node_recv`.  The
channels have `m = n`: the loop that the fuel is for is not entered. -/
def smltRecv (self nid : ℕ) (mesh : Mesh) (words : UInt32) :
    Option (Mesh × Errval × Option (List Word)) :=
  mesh.onNode self nid ([.nodeInvald], none) fun ch => channelRecv 0 self ch words

theorem smltSend_eq_onNode (self nid : ℕ) (mesh : Mesh) (msg : Msg) :
    smltSend self nid mesh msg =
      mesh.onNode self nid [.nodeInvald] fun ch => channelSend self ch msg := rfl

/-! ## 2. What `smlt_init` sets up -/

/-- The pairs of nodes, in the order of the loops. -/
def meshPairs (numProc : ℕ) : List (ℕ × ℕ) :=
  (List.range numProc).flatMap fun i =>
    (List.range' (i + 1) (numProc - (i + 1))).map fun j => (i, j)

theorem mem_meshPairs {numProc : ℕ} {key : ℕ × ℕ} :
    key ∈ meshPairs numProc ↔ key.1 < key.2 ∧ key.2 < numProc := by
  obtain ⟨i, j⟩ := key
  simp only [meshPairs, List.mem_flatMap, List.mem_range, List.mem_map, List.mem_range'_1,
    Prod.mk.injEq]
  constructor
  · rintro ⟨i', hi', j', ⟨hlo, hhi⟩, rfl, rfl⟩
    omega
  · rintro ⟨hij, hj⟩
    exact ⟨i, by omega, j, by omega, rfl, rfl⟩

theorem smltInit_eq (alloc : ℕ × ℕ → Side → Option ℕ) (numProc : ℕ) :
    smltInit alloc numProc =
      (meshPairs numProc).foldl (Mesh.connect alloc) (Mesh.nodes numProc) := by
  rw [smltInit, meshPairs, List.foldl_flatMap]
  simp only [List.foldl_map]

/-- After connecting some pairs of nodes. -/
theorem connect_spec (alloc : ℕ × ℕ → Side → Option ℕ) {keys : List (ℕ × ℕ)}
    (hlt : ∀ key ∈ keys, key.1 < key.2) (mesh : Mesh) :
    (keys.foldl (Mesh.connect alloc) mesh).count = mesh.count ∧
      (∀ a b, (keys.foldl (Mesh.connect alloc) mesh).chan a b =
        if (min a b, max a b) ∈ keys then some (min a b, max a b) else mesh.chan a b) ∧
      ∀ key, (keys.foldl (Mesh.connect alloc) mesh).link key =
        if key ∈ keys then linkCreate alloc key else mesh.link key := by
  induction keys generalizing mesh with
  | nil => simp
  | cons key keys ih =>
    obtain ⟨hcount, hchan, hlink⟩ := ih (fun k hk => hlt k (List.mem_cons_of_mem _ hk))
      (mesh.connect alloc key)
    refine ⟨hcount, ?_, ?_⟩
    · intro a b
      have hkey : (a, b) = key ∨ (b, a) = key ↔ (min a b, max a b) = key := by
        have := hlt key List.mem_cons_self
        obtain ⟨i, j⟩ := key
        simp only [Prod.mk.injEq] at this ⊢
        omega
      rw [List.foldl_cons, hchan]
      simp only [List.mem_cons, Mesh.connect]
      by_cases hmem : (min a b, max a b) ∈ keys
      · rw [if_pos hmem, if_pos (.inr hmem)]
      · by_cases heq : (min a b, max a b) = key
        · rw [if_neg hmem, if_pos (hkey.mpr heq), if_pos (.inl heq), heq]
        · rw [if_neg hmem, if_neg (hkey.not.mpr heq), if_neg]
          rintro (h | h)
          · exact heq h
          · exact hmem h
    · intro k
      rw [List.foldl_cons, hlink]
      simp only [List.mem_cons, Mesh.connect]
      by_cases hmem : k ∈ keys
      · rw [if_pos hmem, if_pos (.inr hmem)]
      · by_cases heq : k = key
        · rw [if_neg hmem, if_pos (.inl heq), heq, Function.update_self]
        · rw [if_neg hmem, Function.update_of_ne heq, if_neg]
          rintro (h | h)
          · exact heq h
          · exact hmem h

/-- **Any two nodes share one channel, and no node has one to itself.** -/
theorem smltInit_chan (alloc : ℕ × ℕ → Side → Option ℕ) (numProc a b : ℕ) :
    (smltInit alloc numProc).chan a b =
      if a ≠ b ∧ a < numProc ∧ b < numProc then some (min a b, max a b) else none := by
  obtain ⟨-, hchan, -⟩ := connect_spec alloc (fun key hk => (mem_meshPairs.mp hk).1)
    (Mesh.nodes numProc)
  rw [smltInit_eq, hchan, Mesh.nodes]
  have hiff : (min a b, max a b) ∈ meshPairs numProc ↔ a ≠ b ∧ a < numProc ∧ b < numProc := by
    rw [mem_meshPairs]
    omega
  simp only [hiff]

theorem smltInit_count (alloc : ℕ × ℕ → Side → Option ℕ) (numProc : ℕ) :
    (smltInit alloc numProc).count = numProc := by
  rw [smltInit_eq]
  exact (connect_spec alloc (fun key hk => (mem_meshPairs.mp hk).1) (Mesh.nodes numProc)).1

theorem smltInit_link (alloc : ℕ × ℕ → Side → Option ℕ) {numProc : ℕ} (key : ℕ × ℕ) :
    (smltInit alloc numProc).link key =
      if key.1 < key.2 ∧ key.2 < numProc then linkCreate alloc key else .zero := by
  obtain ⟨-, -, hlink⟩ := connect_spec alloc (fun key hk => (mem_meshPairs.mp hk).1)
    (Mesh.nodes numProc)
  rw [smltInit_eq, hlink]
  simp only [mem_meshPairs, Mesh.nodes]

/-- The channel is the smaller node's, and has one queue pair, if it could be allocated. -/
theorem linkCreate_spec (alloc : ℕ × ℕ → Side → Option ℕ) (key : ℕ × ℕ) :
    (linkCreate alloc key).owner = key.1 ∧ (linkCreate alloc key).m = 1 ∧
      (linkCreate alloc key).n = 1 ∧ (linkCreate alloc key).useShm = false ∧
      ∀ i w, (linkCreate alloc key).qp i = some w →
        Ump.queuepairInit (alloc key) umpDefaultSlots = .ok w := by
  unfold linkCreate channelCreate
  cases hqp : Ump.queuepairInit (alloc key) umpDefaultSlots with
  | error e => simp [Channel.zero]
  | ok w =>
    have hpair : ∀ i v, Function.update (fun _ => none) 0 (some w) i = some v → w = v := by
      intro i v hv
      by_cases hi : i = 0
      · rw [hi, Function.update_self] at hv
        exact Option.some.inj hv
      · rw [Function.update_of_ne hi] at hv
        cases hv
    simpa [hqp, Channel.zero] using hpair

end Smelt
