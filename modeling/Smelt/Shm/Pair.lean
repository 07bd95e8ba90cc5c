/-
# The shared-memory queue pair, access by access

`shm_q_send` and `shm_receive_non_blocking` of `src/backends/shm/shm_qp.c`, taken apart into their
single reads and writes of shared words, in any interleaving of the source and the destination of
one `shm_qp`.  The source reads one word, `reader_pos->pos`, and only at the sync point; the
destination writes one word, the same, at the end of every receive.

The flow control compares with `==` only.  It works because of the chain

  `m ≤ received ≤ sent`  and  `sent + 1 ≤ m + 62`

where `m` is the position the source synced with last, `next_sync = m + 62`: a source that meets
`next_sync` waits for the position to have MOVED, the position only grows, and so the new sync point
is ahead of `next_seq` again.  `shm_refines_fifo` is the contract: the pair is a FIFO of 61
messages, the source is never in a slot with a message that is not completely read, and the distance
from `next_seq` up to `next_sync` never goes below zero.
-/
import Smelt.Shm.Queue

namespace Smelt.ShmQp

open Ring

/-! ## 1. The accesses -/

/-- Where the source stands: it waits at the sync point, or it stores word `i` of the payload and at
last the sequence number. -/
inductive WritePc
  | idle
  | sync (payload : Option (Nat → Word))
  | store (payload : Option (Nat → Word)) (i : Nat)

/-- The two contexts of a `shm_qp` and its memory, between two accesses. -/
structure Micro where
  src : Context
  wpc : WritePc
  dst : Context
  rpc : Swmr.ReadPc
  mem : Memory

/-- An access.  `send` and `finish` also have what the call does to its own context. -/
inductive Act
  | send (payload : Option (Nat → Word))
  | sync
  | store
  | publish
  | observe (payload : Bool)
  | load
  | finish

/-- A message as the trace shows it: its slot, its sequence number, and its words if it has any. -/
structure Item where
  slot : ℕ
  seq : Word
  data : Option (List Word)

/-- What an access shows.  A send is done when the number is written, a receive when it returns. -/
inductive MEvent
  | quiet
  | miss
  | sent (x : Item)
  | rcvd (y : Item)

/-- One access to the memory. -/
def Micro.act (s : Micro) : Act → Option (Micro × MEvent)
  | .send payload =>
    match s.wpc with
    | .idle =>
      let c := s.src.wrap
      if c.nextSeq = c.nextSync then some ({ s with src := c, wpc := .sync payload }, .quiet)
      else some ({ s with src := c, wpc := .store payload 0 }, .quiet)
    | _ => none
  | .sync =>
    match s.wpc with
    | .sync payload =>
      let next := getNextSync s.src s.mem
      if s.src.nextSeq = next then some (s, .quiet)
      else some ({ s with src := { s.src with nextSync := next }, wpc := .store payload 0 }, .quiet)
    | _ => none
  | .store =>
    match s.wpc with
    | .store (some p) i =>
      if i < 7 then
        some ({ s with
            wpc := .store (some p) (i + 1)
            mem := { s.mem with slots := s.mem.slots.store s.src.lPos.toNat (i + 1) (p i) } },
          .quiet)
      else none
    | _ => none
  | .publish =>
    match s.wpc with
    | .store payload i =>
      if i < Swmr.storeWords payload then none
      else some ({ s with
          src := s.src.advance
          wpc := .idle
          mem := { s.mem with slots := s.mem.slots.store s.src.lPos.toNat 0 s.src.nextSeq } },
        .sent ⟨s.src.lPos.toNat, s.src.nextSeq, payload.map Swmr.words⟩)
    | _ => none
  | .observe payload =>
    match s.rpc with
    | .idle =>
      if s.dst.nextSeq = s.mem.slots s.dst.lPos.toNat 0 then
        some ({ s with rpc := .copy payload [] }, .quiet)
      else some (s, .miss)
    | _ => none
  | .load =>
    match s.rpc with
    | .copy true got =>
      if got.length < 7 then
        let word := s.mem.slots s.dst.lPos.toNat (got.length + 1)
        some ({ s with rpc := .copy true (got ++ [word]) }, .quiet)
      else none
    | _ => none
  | .finish =>
    match s.rpc with
    | .copy payload got =>
      if payload = true ∧ got.length < 7 then none
      else
        let c := s.dst.advance.wrap
        some ({ s with
            dst := c
            rpc := .idle
            mem := { s.mem with readerPos := c.nextSeq - 1 } },
          .rcvd ⟨s.dst.lPos.toNat, s.dst.nextSeq, if payload then some got else none⟩)
    | _ => none

/-- The accesses of the two ends, in any order. -/
def MStep (s : Micro) (e : MEvent) (s' : Micro) : Prop := ∃ a, s.act a = some (s', e)

/-- `shm_queuepair_create`, over zeroed memory. -/
def Micro.init : Micro where
  src := initContext
  wpc := .idle
  dst := initContext
  rpc := .idle
  mem := { readerPos := 0, slots := fun _ _ => 0 }

/-- The slot the source is storing into. -/
def Micro.slot? (s : Micro) : Option ℕ :=
  match s.wpc with
  | .store _ _ => some s.src.lPos.toNat
  | _ => none

/-- A receive reads a send: it is of its slot and number, and has its words when both have words. -/
def Reads (sent rcvd : Item) : Prop :=
  rcvd.slot = sent.slot ∧ rcvd.seq = sent.seq ∧
    ∀ xs ys, sent.data = some xs → rcvd.data = some ys → ys = xs

/-- The sends and the receives. -/
def MEvent.see : MEvent → Option (Fifo.Ev Item Item)
  | .sent x => some (.send x)
  | .rcvd y => some (.recv y)
  | _ => none

/-- The messages sent along a trace. -/
def sends (tr : List MEvent) : List Item := Fifo.sends (tr.filterMap MEvent.see)

/-- The messages received along a trace. -/
def recvs (tr : List MEvent) : List Item := Fifo.recvs (tr.filterMap MEvent.see)

/-! ## 2. A call is its accesses -/

section Calls

variable {s : Micro} {payload : Option (Nat → Word)}

/-- The first `k` stores of a payload. -/
theorem run_store (s : Micro) (p : Nat → Word) (k : Nat) (hk : k ≤ 7) :
    Run MStep { s with wpc := .store (some p) 0 } (List.replicate k .quiet)
      { s with
        wpc := .store (some p) k
        mem := { s.mem with slots := Swmr.storeFirst s.mem.slots s.src.lPos.toNat p k } } := by
  induction k with
  | zero => exact .nil
  | succ k ih =>
    rw [List.replicate_succ']
    refine .snoc (ih (by omega)) ⟨.store, ?_⟩
    have hlt : k < 7 := by omega
    simp [Micro.act, hlt, Swmr.storeFirst, List.range_succ]

/-- The stores of a send, the number last. -/
theorem run_stores (s : Micro) (payload : Option (Nat → Word)) :
    ∃ tr x, Run MStep { s with wpc := .store payload 0 } (tr ++ [.sent x])
      { s with
        src := s.src.advance
        wpc := .idle
        mem := { s.mem with slots := sendSlots s.src s.mem.slots payload } } := by
  cases payload with
  | none => exact ⟨[], _, .snoc .nil ⟨.publish, rfl⟩⟩
  | some p =>
    refine ⟨_, ⟨s.src.lPos.toNat, s.src.nextSeq, some (Swmr.words p)⟩,
      (run_store s p 7 (Nat.le_refl 7)).snoc ⟨.publish, ?_⟩⟩
    simp [Micro.act, Swmr.storeWords, Swmr.storePayload, sendSlots]

/-- **Left alone, the accesses of a send are `shm_q_send` or `shm_q_send0`.** -/
theorem run_qSend (hidle : s.wpc = .idle) {c : Context} {mem : Memory}
    (hok : qSend s.src s.mem payload = some (c, mem)) :
    ∃ tr x, Run MStep s (tr ++ [.sent x]) { s with src := c, mem := mem } := by
  simp only [qSend] at hok
  split at hok
  · cases hok
  · rename_i hgo
    obtain ⟨rfl, rfl⟩ := Prod.mk.inj (Option.some.inj hok)
    by_cases hsync : s.src.wrap.nextSeq = s.src.wrap.nextSync
    · have hnext : s.src.wrap.nextSeq ≠ getNextSync s.src.wrap s.mem := fun h => hgo ⟨hsync, h⟩
      have h1 : MStep s .quiet { s with src := s.src.wrap, wpc := .sync payload } :=
        ⟨.send payload, by simp only [Micro.act, hidle, hsync, if_true]⟩
      have h2 : MStep { s with src := s.src.wrap, wpc := .sync payload } .quiet
          { s with
            src := { s.src.wrap with nextSync := getNextSync s.src.wrap s.mem }
            wpc := .store payload 0 } :=
        ⟨.sync, by simp only [Micro.act, hnext, if_false]⟩
      obtain ⟨tr, x, hstores⟩ := run_stores
        { s with src := { s.src.wrap with nextSync := getNextSync s.src.wrap s.mem } } payload
      have hrun := (Run.snoc (.snoc .nil h1) h2).append hstores
      rw [← List.append_assoc, ← hidle] at hrun
      rw [if_pos hsync]
      exact ⟨_, x, hrun⟩
    · have h1 : MStep s .quiet { s with src := s.src.wrap, wpc := .store payload 0 } :=
        ⟨.send payload, by simp only [Micro.act, hidle, hsync, if_false]⟩
      obtain ⟨tr, x, hstores⟩ := run_stores { s with src := s.src.wrap } payload
      have hrun := (Run.snoc .nil h1).append hstores
      rw [← List.append_assoc, ← hidle] at hrun
      rw [if_neg hsync]
      exact ⟨_, x, hrun⟩

/-- The first `k` loads of a receive. -/
theorem run_load (s : Micro) (k : Nat) (hk : k ≤ 7) :
    Run MStep { s with rpc := .copy true [] } (List.replicate k .quiet)
      { s with
        rpc := .copy true ((List.range k).map fun l => s.mem.slots s.dst.lPos.toNat (l + 1)) } := by
  induction k with
  | zero => exact .nil
  | succ k ih =>
    rw [List.replicate_succ']
    refine .snoc (ih (by omega)) ⟨.load, ?_⟩
    have hlt : k < 7 := by omega
    simp [Micro.act, hlt, List.range_succ]

/-- **Left alone, the accesses of a receive are `shm_receive_non_blocking`**, and without the loads
`shm_receive_non_blocking0`. -/
theorem run_receive (hidle : s.rpc = .idle) {c : Context} {mem : Memory} {ys : List Word}
    (hok : receiveNonBlocking s.dst s.mem = some (c, mem, ys)) (payload : Bool) :
    ∃ tr, Run MStep s (tr ++ [.rcvd ⟨s.dst.lPos.toNat, s.dst.nextSeq,
      if payload then some ys else none⟩]) { s with dst := c, mem := mem } := by
  simp only [receiveNonBlocking] at hok
  split at hok
  · rename_i hnum
    simp only [Option.some.injEq, Prod.mk.injEq] at hok
    obtain ⟨rfl, rfl, rfl⟩ := hok
    have hobs : MStep s .quiet { s with rpc := .copy payload [] } :=
      ⟨.observe payload, by simp [Micro.act, hidle, hnum]⟩
    cases payload with
    | false =>
      refine ⟨_, (Run.snoc .nil hobs).snoc ⟨.finish, ?_⟩⟩
      simp [Micro.act, hidle]
    | true =>
      refine ⟨_, ((Run.snoc .nil hobs).append (run_load s 7 (Nat.le_refl 7))).snoc ⟨.finish, ?_⟩⟩
      simp [Micro.act, hidle, Swmr.words]
  · cases hok

end Calls

/-! ## 3. The invariant -/

/-- The messages `items` have been sent, and the words of the last of them are in their slots. -/
structure Carried (items : List Item) (slots : Slots Word) : Prop where
  item : ∀ (j : ℕ) (x : Item), items[j]? = some x →
    x.slot = j % 63 ∧ x.seq = UInt64.ofNat (j + 1) ∧ ∀ xs, x.data = some xs → xs.length = 7
  word : ∀ (j : ℕ) (x : Item), items[j]? = some x → items.length < j + 63 →
    ∀ xs, x.data = some xs → ∀ (l : ℕ) (v : Word), xs[l]? = some v → slots (j % 63) (l + 1) = v

/-- What a send under way knows. -/
def WriteOk (S m : ℕ) (c : Context) (slots : Slots Word) : WritePc → Prop
  | .idle => True
  | .sync _ => c.lPos.toNat = S % 63 ∧ S + 1 = m + 62
  | .store payload i => c.lPos.toNat = S % 63 ∧ S + 1 < m + 62 ∧
      ∀ p, payload = some p → ∀ l, l < i → slots (S % 63) (l + 1) = p l

/-- What a receive under way knows. -/
def ReadOk (items : List Item) (r : ℕ) : Swmr.ReadPc → Prop
  | .idle => True
  | .copy _ got => ∃ x, items[r]? = some x ∧ got.length ≤ 7 ∧ ∀ xs, x.data = some xs →
      ∀ (l : ℕ) (v w : Word), xs[l]? = some v → got[l]? = some w → w = v

/-- The pair after the messages `items` have been sent and `r` of them received, its source synced
when `m` were received. -/
structure MInv (m : ℕ) (items : List Item) (r : ℕ) (s : Micro) : Prop where
  pair : Inv items.length r m s.src s.dst s.mem
  carried : Carried items s.mem.slots
  wpc : WriteOk items.length m s.src s.mem.slots s.wpc
  rpc : ReadOk items r s.rpc

theorem minv_init : MInv 0 [] 0 Micro.init where
  pair := inv_init
  carried := ⟨fun j x h => by simp at h, fun j x h => by simp at h⟩
  wpc := trivial
  rpc := trivial

section Accesses

variable {m r : ℕ} {items : List Item} {s s' : Micro} {e : MEvent}

/-- A payload word leaves the numbers alone. -/
theorem Inv.store {S slot i : ℕ} {tx rx : Context} {mem : Memory} {v : Word}
    (h : Inv S r m tx rx mem) :
    Inv S r m tx rx { mem with slots := mem.slots.store slot (i + 1) v } :=
  { h with
    number := by
      intro k hk hlast
      exact (Slots.store_of_ne fun _ => (Nat.succ_ne_zero i).symm).trans (h.number k hk hlast)
    fresh := by
      intro k hk hfirst
      exact (Slots.store_of_ne fun _ => (Nat.succ_ne_zero i).symm).trans (h.fresh k hk hfirst) }

/-- A store into the slot that is next to be written. -/
theorem Carried.store {slots : Slots Word} {i : ℕ} {v : Word} (h : Carried items slots) :
    Carried items (slots.store (items.length % 63) i v) where
  item := h.item
  word := by
    intro j x hx hlast xs hxs l w hw
    have hj := (List.getElem?_eq_some_iff.mp hx).1
    have hne : j % 63 ≠ items.length % 63 := mod_ne_mod hj hlast
    exact (Slots.store_of_ne fun hs => absurd hs hne).trans (h.word j x hx hlast xs hxs l w hw)

/-- One message more. -/
theorem Carried.publish {slots : Slots Word} (h : Carried items slots) {x : Item}
    (hslot : x.slot = items.length % 63) (hseq : x.seq = UInt64.ofNat (items.length + 1))
    (hlen : ∀ xs, x.data = some xs → xs.length = 7)
    (hdata : ∀ xs, x.data = some xs →
      ∀ (l : ℕ) (v : Word), xs[l]? = some v → slots (items.length % 63) (l + 1) = v) :
    Carried (items ++ [x]) slots where
  item := by
    intro j y hy
    rcases Run.getElem?_snoc.mp hy with hy | ⟨rfl, rfl⟩
    · exact h.item j y hy
    · exact ⟨hslot, hseq, hlen⟩
  word := by
    intro j y hy hlast xs hxs l v hv
    rw [List.length_append, List.length_singleton] at hlast
    rcases Run.getElem?_snoc.mp hy with hy | ⟨rfl, rfl⟩
    · exact h.word j y hy (by omega) xs hxs l v hv
    · exact hdata xs hxs l v hv

theorem ReadOk.append {pc : Swmr.ReadPc} (h : ReadOk items r pc) (x : Item) :
    ReadOk (items ++ [x]) r pc := by
  cases pc with
  | idle => trivial
  | copy payload got =>
    obtain ⟨y, hy, hrest⟩ := h
    exact ⟨y, Run.getElem?_snoc.mpr (.inl hy), hrest⟩

theorem minv_send {payload : Option (Nat → Word)} (h : MInv m items r s)
    (ha : s.act (.send payload) = some (s', e)) : e = .quiet ∧ MInv m items r s' := by
  obtain ⟨hpair, hpos⟩ := h.pair.wrap
  have hroom := hpair.room
  simp only [Micro.act] at ha
  cases hwpc : s.wpc with
  | idle =>
    simp only [hwpc] at ha
    split at ha
    · rename_i hsync
      obtain ⟨rfl, rfl⟩ := Prod.mk.inj (Option.some.inj ha)
      exact ⟨rfl, { h with pair := hpair, wpc := ⟨hpos, hpair.full.mp hsync⟩ }⟩
    · rename_i hsync
      obtain ⟨rfl, rfl⟩ := Prod.mk.inj (Option.some.inj ha)
      have hne : items.length + 1 ≠ m + 62 := fun he => hsync (hpair.full.mpr he)
      exact ⟨rfl, { h with
        pair := hpair
        wpc := ⟨hpos, by omega, fun p _ l hl => absurd hl (Nat.not_lt_zero l)⟩ }⟩
  | sync payload => simp [hwpc] at ha
  | store payload i => simp [hwpc] at ha

/-- **The source goes on when the position has moved**, and then with a sync point ahead. -/
theorem minv_sync (h : MInv m items r s) (ha : s.act .sync = some (s', e)) :
    e = .quiet ∧ ∃ m', MInv m' items r s' := by
  have hok := h.wpc
  simp only [Micro.act] at ha
  cases hwpc : s.wpc with
  | sync payload =>
    rw [hwpc] at ha hok
    simp only at ha
    split at ha
    · obtain ⟨rfl, rfl⟩ := Prod.mk.inj (Option.some.inj ha)
      exact ⟨rfl, m, h⟩
    · rename_i hgo
      obtain ⟨rfl, rfl⟩ := Prod.mk.inj (Option.some.inj ha)
      obtain ⟨hpair, hlt⟩ := h.pair.resync hgo
      exact ⟨rfl, r, { h with
        pair := hpair
        wpc := ⟨hok.1, hlt, fun p _ l hl => absurd hl (Nat.not_lt_zero l)⟩ }⟩
  | idle => simp [hwpc] at ha
  | store payload i => simp [hwpc] at ha

theorem minv_store (h : MInv m items r s) (ha : s.act .store = some (s', e)) :
    e = .quiet ∧ MInv m items r s' := by
  have hok := h.wpc
  simp only [Micro.act] at ha
  cases hwpc : s.wpc with
  | store payload i =>
    rw [hwpc] at ha hok
    obtain ⟨hpos, hlt, hdata⟩ := hok
    cases payload with
    | none => simp at ha
    | some p =>
      by_cases hi : i < 7
      · simp only [hi, if_true, Option.some.injEq, Prod.mk.injEq, hpos] at ha
        obtain ⟨rfl, rfl⟩ := ha
        refine ⟨rfl, { h with
          pair := h.pair.store
          carried := h.carried.store
          wpc := ⟨hpos, hlt, ?_⟩ }⟩
        rintro _ ⟨⟩ l hl
        by_cases hli : l = i
        · rw [hli]
          exact Slots.store_self _ _ _ _
        · refine (Slots.store_of_ne fun _ h => hli (Nat.succ.inj h)).trans (hdata p rfl l ?_)
          omega
      · simp [hi] at ha
  | idle => simp [hwpc] at ha
  | sync payload => simp [hwpc] at ha

/-- **The number announces the message.** -/
theorem minv_publish (h : MInv m items r s) (ha : s.act .publish = some (s', e)) :
    ∃ x, e = .sent x ∧ MInv m (items ++ [x]) r s' := by
  have hok := h.wpc
  simp only [Micro.act] at ha
  cases hwpc : s.wpc with
  | store payload i =>
    rw [hwpc] at ha hok
    obtain ⟨hpos, hlt, hdata⟩ := hok
    simp only at ha
    split at ha
    · cases ha
    · rename_i hdone
      obtain ⟨rfl, rfl⟩ := Prod.mk.inj (Option.some.inj ha)
      refine ⟨_, rfl, ?_, ?_, trivial, h.rpc.append _⟩
      · rw [List.length_append, List.length_singleton]
        have hnone : sendSlots s.src s.mem.slots none =
            s.mem.slots.store s.src.lPos.toNat 0 s.src.nextSeq := rfl
        rw [← hnone]
        exact h.pair.publish hpos hlt
      · simp only [hpos]
        refine h.carried.store.publish rfl h.pair.seqTx ?_ ?_
        · intro xs hxs
          obtain ⟨p, -, rfl⟩ := Option.map_eq_some_iff.mp hxs
          simp [Swmr.words]
        · intro xs hxs l v hv
          obtain ⟨p, rfl, rfl⟩ := Option.map_eq_some_iff.mp hxs
          obtain ⟨hl, rfl⟩ := List.getElem?_eq_some_iff.mp hv
          simp only [Swmr.words, List.length_map, List.length_range] at hl
          simp only [Swmr.storeWords] at hdone
          refine (Slots.store_of_ne fun _ => Nat.succ_ne_zero l).trans ?_
          simpa [Swmr.words] using hdata p rfl l (by omega)
  | idle => simp [hwpc] at ha
  | sync payload => simp [hwpc] at ha

theorem minv_observe {payload : Bool} (h : MInv m items r s)
    (ha : s.act (.observe payload) = some (s', e)) :
    (e = .quiet ∨ e = .miss) ∧ MInv m items r s' := by
  simp only [Micro.act] at ha
  cases hrpc : s.rpc with
  | copy payload got => simp [hrpc] at ha
  | idle =>
    simp only [hrpc] at ha
    split at ha
    · rename_i hfound
      have hlt := h.pair.canRecv.mp hfound
      obtain ⟨rfl, rfl⟩ := Prod.mk.inj (Option.some.inj ha)
      exact ⟨.inl rfl, { h with
        rpc := ⟨items[r], List.getElem?_eq_getElem hlt, Nat.zero_le 7, by simp⟩ }⟩
    · obtain ⟨rfl, rfl⟩ := Prod.mk.inj (Option.some.inj ha)
      exact ⟨.inr rfl, h⟩

theorem minv_load (h : MInv m items r s) (ha : s.act .load = some (s', e)) :
    e = .quiet ∧ MInv m items r s' := by
  have hok := h.rpc
  have hsync := h.pair.synced
  have hroom := h.pair.room
  simp only [Micro.act] at ha
  cases hrpc : s.rpc with
  | idle => simp [hrpc] at ha
  | copy payload got =>
    rw [hrpc] at ha hok
    obtain ⟨x, hx, hlen, hgot⟩ := hok
    cases payload with
    | false => simp at ha
    | true =>
      by_cases hlt : got.length < 7
      · simp only [hlt, if_true, Option.some.injEq, Prod.mk.injEq, h.pair.posRx] at ha
        obtain ⟨rfl, rfl⟩ := ha
        refine ⟨rfl, { h with rpc := ⟨x, hx, ?_, ?_⟩ }⟩
        · rw [List.length_append]
          exact hlt
        · intro xs hxs
          exact Swmr.copy_concat (hgot xs hxs) fun v hv =>
            h.carried.word r x hx (by omega) xs hxs _ v hv
      · simp [hlt] at ha

/-- **A receive that returns has read the message that was its turn.** -/
theorem minv_finish (h : MInv m items r s) (ha : s.act .finish = some (s', e)) :
    ∃ x y, e = .rcvd y ∧ items[r]? = some x ∧ Reads x y ∧ MInv m items (r + 1) s' := by
  have hok := h.rpc
  simp only [Micro.act] at ha
  cases hrpc : s.rpc with
  | idle => simp [hrpc] at ha
  | copy payload got =>
    rw [hrpc] at ha hok
    obtain ⟨x, hx, hlen, hgot⟩ := hok
    obtain ⟨hslot, hseq, hseven⟩ := h.carried.item r x hx
    have hlt : r < items.length := (List.getElem?_eq_some_iff.mp hx).1
    simp only at ha
    split at ha
    · cases ha
    · rename_i hdone
      obtain ⟨rfl, rfl⟩ := Prod.mk.inj (Option.some.inj ha)
      obtain ⟨hpair, -⟩ := h.pair.receive (if_pos (h.pair.canRecv.mpr hlt))
      refine ⟨x, _, rfl, hx, ⟨?_, ?_, ?_⟩, hpair, h.carried, h.wpc, trivial⟩
      · rw [hslot]
        exact h.pair.posRx
      · rw [hseq]
        exact h.pair.seqRx
      · intro xs ys hxs hys
        cases payload with
        | false => cases hys
        | true =>
          obtain rfl : got = ys := Option.some.inj hys
          have hgot7 : got.length = 7 := by
            have : ¬ got.length < 7 := fun hlt7 => hdone ⟨rfl, hlt7⟩
            omega
          exact Swmr.copy_eq (hgot xs hxs) (hgot7.trans (hseven xs hxs).symm)

end Accesses

/-! ## 4. Runs -/

/-- **What an access can do**: nothing that shows, or one send, or one receive of the oldest
message. -/
theorem minv_step {m r : ℕ} {items : List Item} {s s' : Micro} {e : MEvent} (h : MInv m items r s)
    (hstep : MStep s e s') :
    (e.see = none ∧ ∃ m', MInv m' items r s') ∨
      (∃ x, e = .sent x ∧ MInv m (items ++ [x]) r s') ∨
      ∃ x y, e = .rcvd y ∧ items[r]? = some x ∧ Reads x y ∧ MInv m items (r + 1) s' := by
  obtain ⟨a, ha⟩ := hstep
  cases a with
  | send payload =>
    obtain ⟨rfl, h'⟩ := minv_send h ha
    exact .inl ⟨rfl, m, h'⟩
  | sync =>
    obtain ⟨rfl, h'⟩ := minv_sync h ha
    exact .inl ⟨rfl, h'⟩
  | store =>
    obtain ⟨rfl, h'⟩ := minv_store h ha
    exact .inl ⟨rfl, m, h'⟩
  | publish => exact .inr (.inl (minv_publish h ha))
  | observe payload =>
    obtain ⟨rfl | rfl, h'⟩ := minv_observe h ha
    · exact .inl ⟨rfl, m, h'⟩
    · exact .inl ⟨rfl, m, h'⟩
  | load =>
    obtain ⟨rfl, h'⟩ := minv_load h ha
    exact .inl ⟨rfl, m, h'⟩
  | finish => exact .inr (.inr (minv_finish h ha))

/-- A run has led to the invariant, and the FIFO to the messages that have not been received. -/
def Reached (tr : List MEvent) (s : Micro) : Prop :=
  (∃ m, MInv m (sends tr) (recvs tr).length s) ∧
    Run (Fifo.Bounded 61 Reads) [] (tr.filterMap MEvent.see) ((sends tr).drop (recvs tr).length)

theorem reached_step {tr : List MEvent} {s s' : Micro} {e : MEvent} (h : Reached tr s)
    (hstep : MStep s e s') : Reached (tr ++ [e]) s' := by
  obtain ⟨⟨m, hinv⟩, hfifo⟩ := h
  have hle := hinv.pair.le_sent
  have hsync := hinv.pair.synced
  have hroom := hinv.pair.room
  unfold Reached
  rcases minv_step hinv hstep with ⟨hsee, m', hnew⟩ | ⟨x, rfl, hnew⟩ | ⟨x, y, rfl, hx, hxy, hnew⟩
  · have hsame : (tr ++ [e]).filterMap MEvent.see = tr.filterMap MEvent.see := by
      simp [hsee]
    rw [sends, recvs, hsame]
    exact ⟨⟨m', hnew⟩, hfifo⟩
  · have hone : (tr ++ [MEvent.sent x]).filterMap MEvent.see =
        tr.filterMap MEvent.see ++ [.send x] := by simp [MEvent.see]
    have hroom' := hnew.pair.room
    rw [List.length_append, List.length_singleton] at hroom'
    have hsends : sends (tr ++ [.sent x]) = sends tr ++ [x] := by
      rw [sends, hone, Fifo.sends_snoc]
      rfl
    have hrecvs : recvs (tr ++ [.sent x]) = recvs tr := by
      rw [recvs, hone, Fifo.recvs_snoc]
      exact List.append_nil _
    rw [hsends, hrecvs, hone, List.drop_append_of_le_length hle]
    exact ⟨⟨m, hnew⟩, hfifo.snoc (Fifo.Bounded.send (by rw [List.length_drop]; omega))⟩
  · have hone : (tr ++ [MEvent.rcvd y]).filterMap MEvent.see =
        tr.filterMap MEvent.see ++ [.recv y] := by simp [MEvent.see]
    have hsends : sends (tr ++ [.rcvd y]) = sends tr := by
      rw [sends, hone, Fifo.sends_snoc]
      exact List.append_nil _
    have hrecvs : (recvs (tr ++ [.rcvd y])).length = (recvs tr).length + 1 := by
      rw [recvs, hone, Fifo.recvs_snoc, List.length_append]
      rfl
    obtain ⟨hlt, rfl⟩ := List.getElem?_eq_some_iff.mp hx
    rw [hsends, hrecvs, hone]
    refine ⟨⟨m, hnew⟩, hfifo.snoc ?_⟩
    have hlen : ((sends tr).drop (recvs tr).length).length ≤ 61 := by
      rw [List.length_drop]
      omega
    rw [List.drop_eq_getElem_cons hlt] at hlen ⊢
    exact Fifo.Bounded.recv hlen hxy

theorem reached_run {tr : List MEvent} {s : Micro} (hrun : Run MStep Micro.init tr s) :
    Reached tr s :=
  Run.induct Reached ⟨⟨0, minv_init⟩, .nil⟩ (fun _ _ _ _ h hs => reached_step h hs) hrun

/-- **The source is not in a slot with a message that is not completely read.** -/
theorem MInv.free {m r : ℕ} {items : List Item} {s : Micro} (h : MInv m items r s) {slot : ℕ}
    (hslot : s.slot? = some slot) : ∀ x ∈ items.drop r, x.slot ≠ slot := by
  intro x hx
  have hok := h.wpc
  have hsync := h.pair.synced
  unfold Micro.slot? at hslot
  split at hslot
  · rename_i payload i hwpc
    rw [hwpc] at hok
    obtain ⟨hpos, hroom, -⟩ := hok
    obtain ⟨k, hk⟩ := List.getElem?_of_mem hx
    rw [List.getElem?_drop] at hk
    have hlt := (List.getElem?_eq_some_iff.mp hk).1
    rw [(h.carried.item _ x hk).1, ← Option.some.inj hslot, hpos]
    exact mod_ne_mod hlt (by omega)
  · cases hslot

/-- **The sync point is ahead of the next number**, by no more than 61. -/
theorem Inv.ahead {S r m : ℕ} {tx rx : Context} {mem : Memory} (h : Inv S r m tx rx mem) :
    tx.nextSync - tx.nextSeq ≤ 61 ∧ (S + 62 < 2 ^ 64 → tx.nextSeq ≤ tx.nextSync) := by
  have hsync := h.synced
  have hle := h.le_sent
  have hroom := h.room
  obtain ⟨d, hd⟩ := Nat.exists_eq_add_of_le hroom
  have hdist : tx.nextSync - tx.nextSeq = UInt64.ofNat d := by
    rw [h.sync, h.seqTx, hd, Nat.add_comm, UInt64.ofNat_add, UInt64.add_sub_cancel]
  constructor
  · rw [hdist, UInt64.le_iff_toNat_le, UInt64.toNat_ofNat']
    change d % 2 ^ 64 ≤ 61
    omega
  · intro hsmall
    rw [UInt64.le_iff_toNat_le, h.seqTx, h.sync, UInt64.toNat_ofNat', UInt64.toNat_ofNat']
    omega

/-- **The shared-memory queue pair refines a bounded FIFO.**  Along every interleaving of the
accesses of the two ends, from zeroed memory: the sends and receives are those of a FIFO of 61
messages; the `k`-th receive is of the `k`-th message sent, with its seven words when both have
words; the source is never in a slot with a message that is not completely read; and `next_sync` is
never behind `next_seq`, counted round the 64 bits and, before they go round, as a number. -/
theorem shm_refines_fifo {tr : List MEvent} {s : Micro} (hrun : Run MStep Micro.init tr s) :
    (∃ q, Run (Fifo.Bounded 61 Reads) [] (tr.filterMap MEvent.see) q) ∧
      (∀ (k : ℕ) (y : Item), (recvs tr)[k]? = some y →
        ∃ x, (sends tr)[k]? = some x ∧ Reads x y) ∧
      (∀ slot, s.slot? = some slot → ∀ x ∈ (sends tr).drop (recvs tr).length, x.slot ≠ slot) ∧
      s.src.nextSync - s.src.nextSeq ≤ 61 ∧
      ((sends tr).length + 62 < 2 ^ 64 → s.src.nextSeq ≤ s.src.nextSync) := by
  obtain ⟨⟨m, hinv⟩, hfifo⟩ := reached_run hrun
  exact ⟨⟨_, hfifo⟩, (Fifo.bounded_spec hfifo).1, fun slot hslot => hinv.free hslot,
    hinv.pair.ahead⟩

/-- A message and a notification; the first is received with its words while the second is sent. -/
def pairActs : List Act :=
  .send (some fun i => i.toUInt64 + 1) :: List.replicate 7 .store ++
    [.publish, .observe true, .send none] ++ List.replicate 7 .load ++ [.publish, .finish]

def pairTrace : List MEvent :=
  List.replicate 8 .quiet ++ [.sent ⟨0, 1, some [1, 2, 3, 4, 5, 6, 7]⟩] ++
    List.replicate 9 .quiet ++ [.sent ⟨1, 2, none⟩, .rcvd ⟨0, 1, some [1, 2, 3, 4, 5, 6, 7]⟩]

theorem shm_refines_fifo_overlap :
    ∃ s, Run.drive Micro.act Micro.init pairActs = some (pairTrace, s) ∧
      (∀ (k : ℕ) (y : Item), (recvs pairTrace)[k]? = some y →
        ∃ x, (sends pairTrace)[k]? = some x ∧ Reads x y) ∧
      s.src.nextSync - s.src.nextSeq ≤ 61 := by
  obtain ⟨s, hdrive⟩ : ∃ s, Run.drive Micro.act Micro.init pairActs = some (pairTrace, s) :=
    ⟨_, rfl⟩
  have h := shm_refines_fifo (Run.of_drive (fun _ a _ _ ha => ⟨a, ha⟩) hdrive)
  exact ⟨s, hdrive, h.2.1, h.2.2.2.1⟩

end Smelt.ShmQp
