/-
# Routing between nodes

Two nodes share one channel, and both hold a copy of it: node `i` finds it in node `j` at its own
index, and node `j` in node `i`.  Which of the two directions of the queue pair a call takes depends
on who owns the channel.

Here all nodes call `smlt_send`, `smlt_notify` and `smlt_recv` in any order, and a call that has to
wait turns between the steps of the others (`NodeEv.turn`).  `routed` says that the ordered pairs of
nodes and the directions of the queue pairs correspond one to one (`route`), and that each direction
holds what was sent on its pair of nodes and is not received yet.

What is asked of the queue pairs is that they are FIFOs for the calls that are made (`FifoOn`).  For
UMP, which `smlt_init` takes, that is so for messages of up to seven words (`Ump.backend_isFifo`).
-/
import Smelt.Node
import Smelt.Send.Law

namespace Smelt

open Send (sideOf setPair)

/-! ## 1. The machine -/

/-- What happens: a call of the node `self` to the node `nid` returns, or it has turned once in its
waiting loop. -/
inductive NodeEv
  | send (self nid : ℕ) (msg : Msg) (e : Errval)
  | notify (self nid : ℕ) (e : Errval)
  | recv (self nid : ℕ) (words : UInt32) (e : Errval) (ws : Option (List Word))
  | turn (self nid : ℕ) (c : Call)

/-- The call on the queue pair. -/
def NodeEv.call : NodeEv → Call
  | .send _ _ msg _ => .trySend msg
  | .notify _ _ _ => .notify
  | .recv _ _ words _ _ => .tryRecv words
  | .turn _ _ c => c

/-- One step of one of the nodes. -/
def NodeStep (mesh : Mesh) (ev : NodeEv) (mesh' : Mesh) : Prop :=
  match ev with
  | .send self nid msg e => smltSend self nid mesh msg = some (mesh', e)
  | .notify self nid e => smltNotify self nid mesh = some (mesh', e)
  | .recv self nid words e ws => smltRecv self nid mesh words = some (mesh', e, ws)
  | .turn self nid c => ∃ key w, mesh.chan nid self = some key ∧ (mesh.link key).qp 0 = some w ∧
      c.blocks (w.call (sideOf (mesh.link key) self) c).2 = true ∧
      mesh' = setPair mesh key (w.call (sideOf (mesh.link key) self) c).1

/-- What an event is for the ordered pair `i`, `j`: `i` sends to `j`, or `j` receives from `i`, with
the number of words it asks for. -/
def NodeEv.see (i j : ℕ) : NodeEv → Option (Fifo.Ev (List Word) (ℕ × List Word))
  | .send self nid msg [] => if self = i ∧ nid = j then some (.send msg.payload) else none
  | .notify self nid [] => if self = i ∧ nid = j then some (.send []) else none
  | .recv self nid words [] (some ws) =>
    if self = j ∧ nid = i then some (.recv (words.toNat, ws)) else none
  | _ => none

/-- The items node `i` has sent or notified with destination `j`, in order. -/
def sentTo (i j : ℕ) (tr : List NodeEv) : List (List Word) :=
  Fifo.sends (tr.filterMap (NodeEv.see i j))

/-- The items node `j` has obtained from `smlt_recv(i)`, in order, each with the number of words
asked for. -/
def obtained (i j : ℕ) (tr : List NodeEv) : List (ℕ × List Word) :=
  Fifo.recvs (tr.filterMap (NodeEv.see i j))

/-- The direction of a queue pair that goes from `i` to `j`: the channel, and the sending end. -/
def route (i j : ℕ) : (ℕ × ℕ) × Side := ((min i j, max i j), if i < j then .src else .dst)

theorem route_inj {i j a b : ℕ} (h : route i j = route a b) :
    i = a ∧ j = b := by
  simp only [route, Prod.mk.injEq] at h
  obtain ⟨⟨hmin, hmax⟩, hside⟩ := h
  split at hside
  · split at hside
    · omega
    · cases hside
  · split at hside
    · cases hside
    · omega

/-- The way back is the other direction of the same queue pair. -/
theorem route_swap {i j : ℕ} (hij : i ≠ j) : route j i = ((route i j).1, (route i j).2.other) := by
  simp only [route, Nat.min_comm j i, Nat.max_comm j i, Prod.mk.injEq, true_and]
  rcases Nat.lt_or_gt_of_ne hij with hlt | hlt
  · rw [if_neg (by omega), if_pos hlt]
    rfl
  · rw [if_pos hlt, if_neg (by omega)]
    rfl

/-! ## 2. The channels -/

/-- A channel of the mesh. -/
structure IsLink (ch : Channel) (owner : ℕ) : Prop where
  owner : ch.owner = owner
  m : ch.m = 1
  n : ch.n = 1
  useShm : ch.useShm = false

section Links

variable {ch ch' : Channel} {self owner : ℕ} {e : Errval}

/-- A call on the end of a link that is the caller's. -/
theorem onPair_link {β : Type} {f : Ump.World → Side → Option (Ump.World × β)} {b : β}
    (h : ch.onPair (ch.mpPlace self 0) f = some (ch', b)) : ∃ w w', ch.qp 0 = some w ∧
      f w (sideOf ch self) = some (w', b) ∧
      ch' = { ch with qp := Function.update ch.qp 0 (some w') } := by
  obtain ⟨w, w', hw, hf, hch⟩ := onPair_some h
  rw [mpPlace_index] at hw hch
  rw [mpPlace_side] at hf
  exact ⟨w, w', hw, hf, hch⟩

theorem IsLink.range (h : IsLink ch owner) : List.range ch.numChan = [0] := by
  rw [Channel.numChan, h.m, h.n]
  rfl

/-- What is left of the sending loop after the one call. -/
theorem eachPair_last {act : ℕ → (Errval → ChanProg Errval) → ChanProg Errval} {err : Errval}
    {ch₁ : Channel}
    (h : Prog.run Channel.handle
      (if errIsFail err then .ret (errPush err .send) else eachPair act []) ch₁ = some (ch', e)) :
    ch' = ch₁ ∧ (err = success → e = success) := by
  by_cases herr : errIsFail err = true
  · rw [if_pos herr] at h
    obtain ⟨rfl, -⟩ := Prod.mk.inj (Option.some.inj h)
    refine ⟨rfl, fun hok => ?_⟩
    rw [hok] at herr
    cases herr
  · rw [if_neg herr] at h
    obtain ⟨rfl, rfl⟩ := Prod.mk.inj (Option.some.inj h)
    exact ⟨rfl, fun _ => rfl⟩

theorem IsLink.send (h : IsLink ch owner) {msg : Msg}
    (hs : channelSend self ch msg = some (ch', e)) : ∃ w w' e', ch.qp 0 = some w ∧
      Ump.backend.send w (sideOf ch self) msg = some (w', e') ∧
      ch' = { ch with qp := Function.update ch.qp 0 (some w') } ∧ (e' = success → e = success) := by
  rw [channelSend_eq_run fun hshm => absurd (h.useShm.symm.trans hshm) Bool.false_ne_true, sendProg,
    sendingProg, h.useShm, h.range] at hs
  obtain ⟨⟨ch₁, e'⟩, hcall, hrest⟩ := Option.bind_eq_some_iff.mp hs
  obtain ⟨w, w', hw, hsend, rfl⟩ :=
    onPair_link (f := fun w d => Ump.backend.send w d msg) hcall
  obtain ⟨rfl, hok⟩ := eachPair_last hrest
  exact ⟨w, w', e', hw, hsend, rfl, hok⟩

theorem IsLink.notify (h : IsLink ch owner) (hs : channelNotify self ch = some (ch', e)) :
    ∃ w w' e', ch.qp 0 = some w ∧ Ump.backend.notify w (sideOf ch self) = some (w', e') ∧
      ch' = { ch with qp := Function.update ch.qp 0 (some w') } ∧ (e' = success → e = success) := by
  rw [channelNotify, notifyProg, sendingProg, h.useShm, h.range] at hs
  obtain ⟨⟨ch₁, e'⟩, hcall, hrest⟩ := Option.bind_eq_some_iff.mp hs
  obtain ⟨w, w', hw, hsend, rfl⟩ :=
    onPair_link (f := fun w d => Ump.backend.notify w d) hcall
  obtain ⟨rfl, hok⟩ := eachPair_last hrest
  exact ⟨w, w', e', hw, hsend, rfl, hok⟩

theorem IsLink.recv (h : IsLink ch owner) {words : UInt32} {ws : Option (List Word)}
    (hr : channelRecv 0 self ch words = some (ch', e, ws)) : ∃ w w', ch.qp 0 = some w ∧
      Ump.backend.recv w (sideOf ch self) words = some (w', e, ws) ∧
      ch' = { ch with qp := Function.update ch.qp 0 (some w') } := by
  rw [channelRecv, recvProg, if_pos (h.n.trans h.m.symm)] at hr
  obtain ⟨⟨ch₁, r⟩, hcall, hrest⟩ := Option.bind_eq_some_iff.mp hr
  obtain ⟨rfl, rfl⟩ := Prod.mk.inj (Option.some.inj hrest)
  exact onPair_link (f := fun w d => Ump.backend.recv w d words) hcall

end Links

/-! ## 3. The step -/

section Step

variable {Legal : Call → Prop} {holds : Ump.World → (Side → List (List Word)) → Prop} {n : ℕ}
  {mesh mesh' : Mesh} {Q : ℕ × ℕ → Side → List (List Word)}

/-- The mesh of `n` nodes, with the contents of the directions of its queue pairs. -/
structure MeshHolds (holds : Ump.World → (Side → List (List Word)) → Prop) (n : ℕ) (mesh : Mesh)
    (Q : ℕ × ℕ → Side → List (List Word)) : Prop where
  count : mesh.count = n
  chan : ∀ a b, mesh.chan a b =
    if a ≠ b ∧ a < n ∧ b < n then some (min a b, max a b) else none
  link : ∀ key : ℕ × ℕ, key.1 < key.2 → key.2 < n → IsLink (mesh.link key) key.1
  pair : ∀ key : ℕ × ℕ, key.1 < key.2 → key.2 < n →
    ∃ w, (mesh.link key).qp 0 = some w ∧ holds w (Q key)

theorem meshHolds_init {alloc : ℕ × ℕ → Side → Option ℕ}
    (hinit : ∀ alloc w, Ump.queuepairInit alloc umpDefaultSlots = .ok w → holds w fun _ => [])
    (hcreate : ∀ key : ℕ × ℕ, key.1 < key.2 → key.2 < n →
      ∃ w, Ump.queuepairInit (alloc key) umpDefaultSlots = .ok w) :
    MeshHolds holds n (smltInit alloc n) fun _ _ => [] where
  count := smltInit_count alloc n
  chan := smltInit_chan alloc n
  link key hlt hn := by
    rw [smltInit_link, if_pos ⟨hlt, hn⟩]
    obtain ⟨howner, hm, hn, hshm, -⟩ := linkCreate_spec alloc key
    exact ⟨howner, hm, hn, hshm⟩
  pair key hlt hn := by
    obtain ⟨w, hw⟩ := hcreate key hlt hn
    refine ⟨w, ?_, hinit _ w hw⟩
    rw [smltInit_link, if_pos ⟨hlt, hn⟩]
    simp [linkCreate, channelCreate, hw]

/-- What the call of `self` to `nid` with the result `r` is for the ordered pair `i`, `j`. -/
def shows (self nid i j : ℕ) (c : Call) (r : Ret) : Option (Fifo.Ev (List Word) (ℕ × List Word)) :=
  if self = i ∧ nid = j then (c.put? r).map .send
  else if self = j ∧ nid = i then (c.got? r).map fun ys => .recv (c.words, ys)
  else none

section Shows

variable {self nid i j : ℕ} {c : Call} {r : Ret}

theorem shows_put {xs : List Word} (h : c.put? r = some xs) :
    shows self nid i j c r = if self = i ∧ nid = j then some (.send xs) else none := by
  rw [shows, h, got?_of_transmits (transmits_of_put? h), Option.map_none, ite_self]
  rfl

theorem shows_got {ys : List Word} (h : c.got? r = some ys) (hij : i ≠ j) :
    shows self nid i j c r = if self = j ∧ nid = i then some (.recv (c.words, ys)) else none := by
  rw [shows, h, put?_of_receives (receives_of_got? h)]
  by_cases hto : self = i ∧ nid = j
  · rw [if_pos hto, if_neg fun hfrom => hij (hto.1.symm.trans hfrom.1)]
    rfl
  · rw [if_neg hto]
    rfl

theorem shows_blocks (h : c.blocks r = true) : shows self nid i j c r = none := by
  have hput : c.put? r = none := by
    cases hput : c.put? r with
    | none => rfl
    | some xs => exact absurd (h.symm.trans (not_blocks_of_put? hput)) Bool.noConfusion
  have hgot : c.got? r = none := by
    cases hgot : c.got? r with
    | none => rfl
    | some ys => exact absurd (h.symm.trans (not_blocks_of_got? hgot)) Bool.noConfusion
  rw [shows, hput, hgot, Option.map_none, Option.map_none, ite_self, ite_self]

end Shows

/-- **A call touches one direction**: the one from the caller, when it sends, and the one to the
caller, when it receives. -/
theorem effect_follows {self nid : ℕ} {c : Call} {r : Ret} {q' : Side → List (List Word)}
    (hne : self ≠ nid) (h : c.Effect r (route self nid).2 (Q (route self nid).1) q') {i j : ℕ}
    (hij : i ≠ j) :
    Run.Follows (Fifo.Step Gets) (Q (route i j).1 (route i j).2) (shows self nid i j c r)
      (Function.update Q (route self nid).1 q' (route i j).1 (route i j).2) := by
  have hother := (route self nid).2.other_ne
  by_cases hto : self = i ∧ nid = j
  · obtain ⟨rfl, rfl⟩ := hto
    rw [Function.update_self]
    rcases h with ⟨xs, hput, rfl⟩ | ⟨ys, xs, rest, hgot, -, -, rfl⟩ | ⟨hblocks, rfl⟩
    · rw [shows_put hput, if_pos ⟨rfl, rfl⟩, Function.update_self]
      exact .send
    · rw [shows_got hgot hij, if_neg fun hh => hij hh.1, Function.update_of_ne hother.symm]
      rfl
    · rw [shows_blocks hblocks]
      rfl
  · by_cases hfrom : self = j ∧ nid = i
    · obtain ⟨rfl, rfl⟩ := hfrom
      rw [route_swap hne, Function.update_self]
      rcases h with ⟨xs, hput, rfl⟩ | ⟨ys, xs, rest, hgot, hx, hgets, rfl⟩ | ⟨hblocks, rfl⟩
      · rw [shows_put hput, if_neg hto, Function.update_of_ne hother]
        rfl
      · rw [shows_got hgot hij, if_pos ⟨rfl, rfl⟩, Function.update_self, hx]
        exact .recv hgets
      · rw [shows_blocks hblocks]
        rfl
    · have hkey : (route i j).1 ≠ (route self nid).1 := by
        intro he
        simp only [route, Prod.mk.injEq] at he
        omega
      rw [shows, if_neg hto, if_neg hfrom, Function.update_of_ne hkey]
      rfl

theorem MeshHolds.link_route (h : MeshHolds holds n mesh Q) {self nid : ℕ} (hne : self ≠ nid)
    (hself : self < n) (hnid : nid < n) :
    IsLink (mesh.link (route self nid).1) (min self nid) := by
  refine h.link _ ?_ ?_
  · simp only [route]
    omega
  · simp only [route]
    omega

/-- The owner, who has the end `src`, is the smaller of the two. -/
theorem MeshHolds.side (h : MeshHolds holds n mesh Q) {self nid : ℕ} (hne : self ≠ nid)
    (hself : self < n) (hnid : nid < n) :
    sideOf (mesh.link (route self nid).1) self = (route self nid).2 := by
  rw [sideOf, (h.link_route hne hself hnid).owner, route]
  by_cases hlow : self < nid
  · rw [if_pos (by omega), if_pos hlow]
  · rw [if_neg (by omega), if_neg hlow]

/-- A call on the queue pair of two nodes. -/
theorem MeshHolds.call (hfifo : Ump.backend.FifoOn Legal holds) (h : MeshHolds holds n mesh Q)
    {self nid : ℕ} (hne : self ≠ nid) (hself : self < n) (hnid : nid < n) {c : Call} (hc : Legal c)
    {w w' : Ump.World} {r : Ret} (hw : (mesh.link (route self nid).1).qp 0 = some w)
    (hcall : w.call (sideOf (mesh.link (route self nid).1) self) c = (w', r)) :
    ∃ q', c.Effect r (route self nid).2 (Q (route self nid).1) q' ∧
      MeshHolds holds n (setPair mesh (route self nid).1 w')
        (Function.update Q (route self nid).1 q') := by
  have hlt : (route self nid).1.1 < (route self nid).1.2 := by
    simp only [route]
    omega
  have hlt' : (route self nid).1.2 < n := by
    simp only [route]
    omega
  obtain ⟨v, hv, hheld⟩ := h.pair _ hlt hlt'
  obtain rfl : v = w := Option.some.inj (hv.symm.trans hw)
  obtain ⟨q', hq', heffect⟩ := hfifo v _ (route self nid).2 c hheld hc
  rw [h.side hne hself hnid] at hcall
  rw [show Ump.backend.call v _ c = _ from hcall] at hq' heffect
  refine ⟨q', heffect, h.count, h.chan, ?_, ?_⟩
  · intro key hk hkn
    obtain ⟨howner, hm, hn, hshm⟩ := h.link key hk hkn
    by_cases hkey : key = (route self nid).1
    · rw [hkey] at howner hm hn hshm ⊢
      simp only [setPair, Function.update_self]
      exact ⟨howner, hm, hn, hshm⟩
    · simp only [setPair, Function.update_of_ne hkey]
      exact ⟨howner, hm, hn, hshm⟩
  · intro key hk hkn
    by_cases hkey : key = (route self nid).1
    · rw [hkey]
      simp only [setPair, Function.update_self]
      exact ⟨_, rfl, hq'⟩
    · simp only [setPair, Function.update_of_ne hkey]
      exact h.pair key hk hkn

/-- Where a node call goes: nowhere, when no node has the id or it is the caller's own, or to the
channel of the two nodes. -/
theorem MeshHolds.onNode (h : MeshHolds holds n mesh Q) {β : Type} {self nid : ℕ} {inval b : β}
    {f : Channel → Option (Channel × β)} (hs : mesh.onNode self nid inval f = some (mesh', b)) :
    (mesh' = mesh ∧ (b = inval ∨ self = nid)) ∨
      self ≠ nid ∧ self < n ∧ nid < n ∧ ∃ ch', f (mesh.link (route self nid).1) = some (ch', b) ∧
        mesh' = { mesh with link := Function.update mesh.link (route self nid).1 ch' } := by
  have hcount := h.count
  unfold Mesh.onNode at hs
  by_cases hnid : nid < mesh.count
  · rw [if_pos hnid] at hs
    by_cases hself : self < mesh.count
    · rw [if_pos hself, h.chan] at hs
      by_cases hne : self = nid
      · rw [if_neg fun hh => hh.1 hne.symm] at hs
        obtain ⟨r, -, heq⟩ := Option.map_eq_some_iff.mp hs
        obtain ⟨rfl, -⟩ := Prod.mk.inj heq
        exact .inl ⟨rfl, .inr hne⟩
      · rw [if_pos ⟨Ne.symm hne, hcount ▸ hnid, hcount ▸ hself⟩, Nat.min_comm, Nat.max_comm] at hs
        obtain ⟨⟨ch', b'⟩, hf, heq⟩ := Option.map_eq_some_iff.mp hs
        obtain ⟨rfl, rfl⟩ := Prod.mk.inj heq
        exact .inr ⟨hne, hcount ▸ hself, hcount ▸ hnid, ch', hf, rfl⟩
    · rw [if_neg hself] at hs
      cases hs
  · rw [if_neg hnid] at hs
    obtain ⟨rfl, rfl⟩ := Prod.mk.inj (Option.some.inj hs)
    exact .inl ⟨rfl, .inl rfl⟩

/-- A node that calls itself shows nothing. -/
theorem see_self {self i j : ℕ} (hij : i ≠ j) :
    (∀ msg e, (NodeEv.send self self msg e).see i j = none) ∧
      (∀ e, (NodeEv.notify self self e).see i j = none) ∧
      ∀ words e ws, (NodeEv.recv self self words e ws).see i j = none := by
  have hne : ∀ {a b : ℕ}, a ≠ b → ¬ (self = a ∧ self = b) := by
    rintro a b hab ⟨rfl, rfl⟩
    exact hab rfl
  refine ⟨fun msg e => ?_, fun e => ?_, fun words e ws => ?_⟩
  · cases e with
    | nil => exact if_neg (hne hij)
    | cons code e => rfl
  · cases e with
    | nil => exact if_neg (hne hij)
    | cons code e => rfl
  · cases e with
    | nil =>
      cases ws with
      | none => rfl
      | some ws => exact if_neg (hne hij.symm)
    | cons code e => rfl

/-- **One step**: it touches nothing and shows nothing, or it is a call on the queue pair of the two
nodes and shows what that call did. -/
theorem nodeStep_cases (hfifo : Ump.backend.FifoOn Legal holds) (h : MeshHolds holds n mesh Q)
    {ev : NodeEv} (hlegal : Legal ev.call) (hstep : NodeStep mesh ev mesh') :
    (mesh' = mesh ∧ ∀ i j, i ≠ j → ev.see i j = none) ∨
      ∃ self nid r q', self ≠ nid ∧ ev.call.Effect r (route self nid).2 (Q (route self nid).1) q' ∧
        MeshHolds holds n mesh' (Function.update Q (route self nid).1 q') ∧
        ∀ i j, i ≠ j → ev.see i j = shows self nid i j ev.call r := by
  cases ev with
  | send self nid msg e =>
    rw [NodeStep, smltSend_eq_onNode] at hstep
    rcases h.onNode hstep with ⟨rfl, rfl | rfl⟩ | ⟨hne, hself, hnid, ch', hs, rfl⟩
    · exact .inl ⟨rfl, fun _ _ _ => rfl⟩
    · exact .inl ⟨rfl, fun i j hij => (see_self hij).1 msg e⟩
    · obtain ⟨w, w', e', hw, hsend, rfl, hok⟩ := (h.link_route hne hself hnid).send hs
      obtain ⟨hcall, hfull⟩ := Backend.send_eq_some.mp hsend
      obtain ⟨q', heffect, hq'⟩ := h.call hfifo hne hself hnid hlegal hw hcall
      obtain rfl := heffect.send hfull
      obtain rfl := hok rfl
      exact .inr ⟨self, nid, _, q', hne, heffect, hq', fun i j _ => (shows_put rfl).symm⟩
  | notify self nid e =>
    rcases h.onNode hstep with ⟨rfl, rfl | rfl⟩ | ⟨hne, hself, hnid, ch', hs, rfl⟩
    · exact .inl ⟨rfl, fun _ _ _ => rfl⟩
    · exact .inl ⟨rfl, fun i j hij => (see_self hij).2.1 e⟩
    · obtain ⟨w, w', e', hw, hsend, rfl, hok⟩ := (h.link_route hne hself hnid).notify hs
      obtain ⟨q', heffect, hq'⟩ :=
        h.call hfifo hne hself hnid hlegal hw (Backend.notify_eq_some.mp hsend)
      obtain rfl := heffect.notify
      obtain rfl := hok rfl
      exact .inr ⟨self, nid, _, q', hne, heffect, hq', fun i j _ => (shows_put rfl).symm⟩
  | recv self nid words e ws =>
    rcases h.onNode hstep with ⟨rfl, hinval | rfl⟩ | ⟨hne, hself, hnid, ch', hs, rfl⟩
    · obtain ⟨rfl, rfl⟩ := Prod.mk.inj hinval
      exact .inl ⟨rfl, fun _ _ _ => rfl⟩
    · exact .inl ⟨rfl, fun i j hij => (see_self hij).2.2 words e ws⟩
    · obtain ⟨w, w', hw, hrecv, rfl⟩ := (h.link_route hne hself hnid).recv hs
      rcases Backend.recv_eq_some.mp hrecv with ⟨hcall, hempty, -⟩ | ⟨ys, hcall, rfl, rfl⟩
      · obtain ⟨q', heffect, -⟩ := h.call hfifo hne hself hnid hlegal hw hcall
        exact absurd heffect.recv hempty
      · obtain ⟨q', heffect, hq'⟩ := h.call hfifo hne hself hnid hlegal hw hcall
        exact .inr ⟨self, nid, _, q', hne, heffect, hq', fun i j hij =>
          (shows_got (c := .tryRecv words) rfl hij).symm⟩
  | turn self nid c =>
    obtain ⟨key, w, hkey, hw, hblocks, rfl⟩ := hstep
    rw [h.chan] at hkey
    split at hkey
    · rename_i hnodes
      obtain ⟨hne, hnid, hself⟩ := hnodes
      rw [Nat.min_comm, Nat.max_comm] at hkey
      obtain rfl : (route self nid).1 = key := Option.some.inj hkey
      obtain ⟨q', heffect, hq'⟩ := h.call hfifo hne.symm hself hnid hlegal hw rfl
      exact .inr ⟨self, nid, _, q', hne.symm, heffect, hq', fun i j _ =>
        (shows_blocks hblocks).symm⟩
    · cases hkey

end Step

/-! ## 4. Runs -/

/-- Each direction of a queue pair is one ordered pair of nodes. -/
theorem route_bijective (d : (ℕ × ℕ) × Side) (hd : d.1.1 < d.1.2) :
    ∃! p : ℕ × ℕ, p.1 ≠ p.2 ∧ route p.1 p.2 = d := by
  obtain ⟨⟨a, b⟩, s⟩ := d
  have hd : a < b := hd
  have hroute : route a b = ((a, b), .src) := by
    rw [route, if_pos hd, Nat.min_eq_left hd.le, Nat.max_eq_right hd.le]
  cases s with
  | src =>
    refine ⟨(a, b), ⟨hd.ne, hroute⟩, ?_⟩
    rintro ⟨i, j⟩ ⟨-, hp⟩
    obtain ⟨hi, hj⟩ := route_inj (hp.trans hroute.symm)
    exact Prod.ext hi hj
  | dst =>
    have hback : route b a = ((a, b), .dst) := by
      rw [route_swap hd.ne, hroute]
      rfl
    refine ⟨(b, a), ⟨hd.ne', hback⟩, ?_⟩
    rintro ⟨i, j⟩ ⟨-, hp⟩
    obtain ⟨hi, hj⟩ := route_inj (hp.trans hback.symm)
    exact Prod.ext hi hj

section Runs

variable {Legal : Call → Prop} {holds : Ump.World → (Side → List (List Word)) → Prop}

/-- Every ordered pair of nodes runs a FIFO, in its own direction. -/
theorem mesh_run (hfifo : Ump.backend.FifoOn Legal holds) {n : ℕ} {mesh₀ mesh : Mesh}
    {tr : List NodeEv} (h₀ : MeshHolds holds n mesh₀ fun _ _ => [])
    (hrun : Run NodeStep mesh₀ tr mesh) (hlegal : ∀ ev ∈ tr, Legal ev.call) :
    ∃ Q, MeshHolds holds n mesh Q ∧ ∀ i j, i ≠ j →
      Run (Fifo.Step Gets) [] (tr.filterMap (NodeEv.see i j)) (Q (route i j).1 (route i j).2) := by
  refine Run.induct (fun tr mesh => ∃ Q, MeshHolds holds n mesh Q ∧ ∀ i j, i ≠ j →
    Run (Fifo.Step Gets) [] (tr.filterMap (NodeEv.see i j)) (Q (route i j).1 (route i j).2))
    ⟨_, h₀, fun _ _ _ => .nil⟩ ?_ (hrun.restrict hlegal)
  rintro tr mesh ev mesh' ⟨Q, hQ, hfollow⟩ ⟨hstep, hlegal⟩
  rcases nodeStep_cases hfifo hQ hlegal hstep with ⟨rfl, hsee⟩ |
    ⟨self, nid, r, q', hne, heffect, hQ', hsee⟩
  · refine ⟨Q, hQ, fun i j hij => (hfollow i j hij).snoc_follows ?_⟩
    rw [hsee i j hij]
    rfl
  · refine ⟨_, hQ', fun i j hij => (hfollow i j hij).snoc_follows ?_⟩
    rw [hsee i j hij]
    exact effect_follows hne heffect hij

/-- **Node-to-node messages are routed right.**  Whatever the nodes do, the `k`-th item that `j`
obtains from `smlt_recv(i)` is the `k`-th that `i` sent or notified with destination `j`: it gets as
many words as it asks for, which are the item's as far as both go, and so the whole item when it
asks for as many; and the direction that belongs to `i` and `j`, and to no other ordered pair, holds
just what `i` sent to `j` and `j` has not received. -/
theorem routed (hfifo : Ump.backend.FifoOn Legal holds)
    (hinit : ∀ alloc w, Ump.queuepairInit alloc umpDefaultSlots = .ok w → holds w fun _ => [])
    {alloc : ℕ × ℕ → Side → Option ℕ} {n : ℕ}
    (hcreate : ∀ key : ℕ × ℕ, key.1 < key.2 → key.2 < n →
      ∃ w, Ump.queuepairInit (alloc key) umpDefaultSlots = .ok w)
    {tr : List NodeEv} {mesh : Mesh} (hrun : Run NodeStep (smltInit alloc n) tr mesh)
    (hlegal : ∀ ev ∈ tr, Legal ev.call) :
    (∀ i j, i ≠ j → ∀ (k w : ℕ) (y : List Word), (obtained i j tr)[k]? = some (w, y) →
      ∃ x, (sentTo i j tr)[k]? = some x ∧ y.length = w ∧ Agree x y ∧ (w = x.length → y = x)) ∧
    (∃ Q, MeshHolds holds n mesh Q ∧ ∀ i j, i ≠ j →
      Q (route i j).1 (route i j).2 = (sentTo i j tr).drop (obtained i j tr).length) ∧
    ∀ d : (ℕ × ℕ) × Side, d.1.1 < d.1.2 → ∃! p : ℕ × ℕ, p.1 ≠ p.2 ∧ route p.1 p.2 = d := by
  obtain ⟨Q, hQ, hfollow⟩ := mesh_run hfifo (meshHolds_init hinit hcreate) hrun hlegal
  refine ⟨?_, ⟨Q, hQ, ?_⟩, route_bijective⟩
  · intro i j hij k w y hy
    obtain ⟨x, hx, hlen, hag⟩ := (Fifo.run_spec (hfollow i j hij)).1 k (w, y) hy
    exact ⟨x, hx, hlen, hag, fun hw => hag.eq_of_length (hlen.trans hw)⟩
  · intro i j hij
    obtain ⟨old, hsent, hread⟩ := Fifo.run_split (hfollow i j hij)
    rw [sentTo, obtained, ← hread.length_eq, hsent, List.drop_left]

/-- Two nodes send to each other, and both receive. -/
theorem routed_exchange :
    ∃ (mesh : Mesh) (tr : List NodeEv), Run NodeStep (smltInit (fun _ _ => some 0) 2) tr mesh ∧
      obtained 0 1 tr = [(1, [7])] ∧ obtained 1 0 tr = [(1, [9])] ∧
      ∀ i j, i ≠ j → ∀ (k w : ℕ) (y : List Word), (obtained i j tr)[k]? = some (w, y) →
        ∃ x, (sentTo i j tr)[k]? = some x ∧ y.length = w ∧ Agree x y ∧
          (w = x.length → y = x) := by
  have hrun : ∃ mesh, Run NodeStep (smltInit (fun _ _ => some 0) 2)
      ([] ++ [.send 0 1 { words := 1, data := fun _ => 7 } []] ++
        [.send 1 0 { words := 1, data := fun _ => 9 } []] ++ [.recv 0 1 1 [] (some [9])] ++
        [.recv 1 0 1 [] (some [7])]) mesh :=
    ⟨_, .snoc (.snoc (.snoc (.snoc .nil rfl) rfl) rfl) rfl⟩
  obtain ⟨mesh, hrun⟩ := hrun
  refine ⟨mesh, _, hrun, rfl, rfl, ?_⟩
  refine (routed Ump.backend_isFifo.fifoOn (fun alloc w => Ump.holds_init)
    (fun key _ _ => ⟨_, rfl⟩) hrun ?_).1
  decide

end Runs

end Smelt
