/-
# Where a message is announced

Five functions of `swmr_queue.c` compute the address of a sequence number, each on its own.
`swmr_send_raw` writes it to the HEADER and `swmr_receive_non_blocking` looks there;
`swmr_send_raw0` writes it to the DATA, where `swmr_can_receive` and `swmr_receive_non_blocking0`
look.  Without `sep_header` the two are one word.

Here the calls work on the addressed memory of `Shm/Layout.lean`.  A run of them is followed by the
queue of `Shm/Calls.lean` (`Follows`), which has one header for each slot: every call that returns
does so there, since the numbers in both areas are those of messages that were sent.  So what a
reader finds is read off the two counts (`announce_agrees_iff`): without `sep_header` the three
functions agree, and with it they agree only for a reader that has received everything, because no
number is ever in both areas.
-/
import Smelt.Shm.Layout

namespace Smelt.Swmr

/-! ## 1. The five functions -/

/-- `SLOT_SIZE`, in words. -/
def slotSize : ℕ := cachelineSize.toNat / 8

namespace SharedContext

/-- `(uintptr_t*) base + (context->l_pos*SLOT_SIZE)`, and `j` words on from there. -/
def word (c : SharedContext) (base j : ℕ) : ℕ := base + (c.lPos.toNat * slotSize + j) * 8

/-- The start of both sends: the reset of the position, and the wait at a sync point. -/
def sync (c : SharedContext) (mem : ℕ → Word) : Option SharedContext :=
  let c : SharedContext := { c with toContext := c.toContext.wrap }
  let next := getNextSync c.toContext fun i => mem (c.offset (.pos i))
  if c.nextSeq = c.nextSync ∧ c.nextSeq = next then none
  else some (if c.nextSeq = c.nextSync then { c with nextSync := next } else c)

/-- `swmr_send_raw`. -/
def sendRaw (c : SharedContext) (mem : ℕ → Word) (p : ℕ → Word) :
    Option (SharedContext × (ℕ → Word)) :=
  (c.sync mem).map fun c =>
    let mem := (List.range 7).foldl
      (fun mem j => Function.update mem (c.word c.data (j + 1)) (p j)) mem
    ({ c with toContext := c.toContext.advance },
      Function.update mem (c.word c.header 0) c.nextSeq)

/-- `swmr_send_raw0`. -/
def sendRaw0 (c : SharedContext) (mem : ℕ → Word) : Option (SharedContext × (ℕ → Word)) :=
  (c.sync mem).map fun c =>
    ({ c with toContext := c.toContext.advance },
      Function.update mem (c.word c.data 0) c.nextSeq)

/-- `swmr_can_receive`. -/
def canReceive (c : SharedContext) (mem : ℕ → Word) : Bool := c.nextSeq == mem (c.word c.data 0)

/-- The end of both receives. -/
def received (c : SharedContext) (mem : ℕ → Word) : SharedContext × (ℕ → Word) :=
  let c : SharedContext := { c with toContext := c.toContext.advanceReader }
  (c, if c.nextSeq &&& 0x20 == 0 then
      Function.update mem (c.offset (.pos c.id.toNat)) (c.nextSeq - 1)
    else mem)

/-- `swmr_receive_non_blocking`; `none` is its `return false`. -/
def receiveNonBlocking (c : SharedContext) (mem : ℕ → Word) :
    Option (SharedContext × (ℕ → Word) × List Word) :=
  if c.nextSeq = mem (c.word c.header 0) then
    let ys := words fun j => mem (c.word c.data (j + 1))
    let r := c.received mem
    some (r.1, r.2, ys)
  else none

/-- `swmr_receive_non_blocking0`. -/
def receiveNonBlocking0 (c : SharedContext) (mem : ℕ → Word) :
    Option (SharedContext × (ℕ → Word)) :=
  if c.nextSeq = mem (c.word c.data 0) then some (c.received mem) else none

end SharedContext

/-! ## 2. Runs -/

/-- A call by the writer, or by the reader `i`. -/
inductive SharedCall
  | sendRaw (p : ℕ → Word)
  | sendRaw0
  | receive (i : ℕ)
  | receive0 (i : ℕ)

/-- A call that sends, or receives. -/
def SharedQueue.call (w : SharedQueue) : SharedCall → Option SharedQueue
  | .sendRaw p => (w.src.sendRaw w.mem p).map fun r => { w with src := r.1, mem := r.2 }
  | .sendRaw0 => (w.src.sendRaw0 w.mem).map fun r => { w with src := r.1, mem := r.2 }
  | .receive i => ((w.dst i).receiveNonBlocking w.mem).map fun r =>
      { w with dst := Function.update w.dst i r.1, mem := r.2.1 }
  | .receive0 i => ((w.dst i).receiveNonBlocking0 w.mem).map fun r =>
      { w with dst := Function.update w.dst i r.1, mem := r.2 }

/-- The readers are those with ids below `count`. -/
def SharedCall.Legal (count : ℕ) : SharedCall → Prop
  | .sendRaw _ => True
  | .sendRaw0 => True
  | .receive i => i < count
  | .receive0 i => i < count

/-- A call that returns with a message sent or received.  The others change nothing. -/
def SharedStep (count : ℕ) (w : SharedQueue) (e : SharedCall) (w' : SharedQueue) : Prop :=
  e.Legal count ∧ w.call e = some w'

def SharedCall.sends : SharedCall → Bool
  | .sendRaw _ => true
  | .sendRaw0 => true
  | .receive _ => false
  | .receive0 _ => false

def SharedCall.receives (i : ℕ) : SharedCall → Bool
  | .sendRaw _ => false
  | .sendRaw0 => false
  | .receive j => j == i
  | .receive0 j => j == i

/-- The messages sent in a run, and those the reader `i` has received in it. -/
def sentIn (tr : List SharedCall) : ℕ := tr.countP SharedCall.sends

def receivedIn (i : ℕ) (tr : List SharedCall) : ℕ := tr.countP (SharedCall.receives i)

/-- **The reader `i` finds a message everywhere just when there is one**: `swmr_can_receive` is
true, `swmr_receive_non_blocking` succeeds and `swmr_receive_non_blocking0` succeeds exactly when
the writer has sent more than the reader has received. -/
def Announced (w : SharedQueue) (i sent received : ℕ) : Prop :=
  ((w.dst i).canReceive w.mem = true ↔ received < sent) ∧
    (((w.dst i).receiveNonBlocking w.mem).isSome = true ↔ received < sent) ∧
    (((w.dst i).receiveNonBlocking0 w.mem).isSome = true ↔ received < sent)

/-! ## 3. The queue that follows -/

/-- A context of a new queue: its pointers stay. -/
def home (count : UInt16) (sepHeader : Bool) : SharedContext :=
  (SharedQueue.create count sepHeader).src

/-- The line in which a message with a payload, or without one, is announced. -/
def announceLine (sepHeader payload : Bool) (slot : ℕ) : Line :=
  if sepHeader && payload then .header slot else .data slot

/-- The memory of a queue that has sent `sent` messages, against that of one with one header for
each slot: the positions are the same, the numbers in the slots are too, or with `sep_header` they
are numbers of messages that were sent, none of them in both areas. -/
structure Words (count : UInt16) (sepHeader : Bool) (sent : ℕ) (mem : ℕ → Word) (shm : Shm) :
    Prop where
  pos : ∀ i < count.toNat, mem ((home count sepHeader).offset (.pos i)) = shm.pos i
  head : sepHeader = false → ∀ slot < (home count sepHeader).numSlots.toNat,
    mem ((home count sepHeader).offset (.data slot)) = shm.slots slot 0
  number : ∀ payload, ∀ slot < (home count sepHeader).numSlots.toNat,
    (mem ((home count sepHeader).offset (announceLine sepHeader payload slot))).toNat ≤ sent
  apart : sepHeader = true → ∀ slot < (home count sepHeader).numSlots.toNat,
    mem ((home count sepHeader).offset (.data slot)) =
      mem ((home count sepHeader).offset (.header slot)) →
    mem ((home count sepHeader).offset (.data slot)) = 0

/-- The queue `v` is where `w` is after `sent` sends and `received i` receives. -/
structure Follows (count : UInt16) (sepHeader : Bool) (sent : ℕ) (received : ℕ → ℕ)
    (w : SharedQueue) (v : World) : Prop where
  src : w.src.toContext = v.src
  dst : ∀ i, (w.dst i).toContext = v.dst i
  srcHome : w.src.toPointers = (home count sepHeader).toPointers
  dstHome : ∀ i, (w.dst i).toPointers = (home count sepHeader).toPointers
  ok : v.Ok (home count sepHeader).numSlots.toNat count.toNat
  words : Words count sepHeader sent w.mem v.shm
  sent_eq : v.src.nextSeq.toNat = sent + 1
  received_eq : ∀ i < count.toNat, (v.dst i).nextSeq.toNat = received i + 1

section Follow

variable {count : UInt16} {sepHeader : Bool} {sent : ℕ} {received : ℕ → ℕ} {w w' : SharedQueue}
  {v : World}

/-- The word `j` of the slot at `l_pos`, by the line it is in. -/
theorem word_eq {c : SharedContext} (base j : ℕ) :
    c.word base j = base + c.lPos.toNat * cachelineSize.toNat + j * 8 := by
  have hslot : slotSize = 8 := rfl
  have hline : cachelineSize.toNat = 64 := rfl
  rw [SharedContext.word, hslot, hline]
  omega

/-- The number of a message is in the line `announceLine`. -/
theorem word_announceLine {c : SharedContext}
    (hc : c.toPointers = (home count sepHeader).toPointers) (payload : Bool) :
    c.word (if payload then c.header else c.data) 0 =
      (home count sepHeader).offset (announceLine sepHeader payload c.lPos.toNat) := by
  have hheader : c.header = (home count sepHeader).header := congrArg Pointers.header hc
  have hdata : c.data = (home count sepHeader).data := congrArg Pointers.data hc
  rw [word_eq, hheader, hdata]
  cases sepHeader <;> cases payload <;> rfl

/-- Its payload is behind the first word of the data. -/
theorem word_data {c : SharedContext} (hc : c.toPointers = (home count sepHeader).toPointers)
    (j : ℕ) : c.word c.data j = (home count sepHeader).offset (.data c.lPos.toNat) + j * 8 := by
  have hdata : c.data = (home count sepHeader).data := congrArg Pointers.data hc
  rw [word_eq, hdata]
  rfl

theorem getNextSync_congr {c : Context} {pos pos' : ℕ → UInt64}
    (h : ∀ i < c.numReaders.toNat, pos i = pos' i) : getNextSync c pos = getNextSync c pos' := by
  rw [getNextSync, getNextSync]
  congr 1
  refine List.foldl_ext _ _ _ fun min i hi => ?_
  rw [h i (List.mem_range.mp hi)]

theorem home_isContext :
    (SharedQueue.create count sepHeader).IsContext count.toNat (home count sepHeader) :=
  .inl rfl

theorem uses_announceLine {payload : Bool} {slot : ℕ}
    (h : slot < (home count sepHeader).numSlots.toNat) :
    (home count sepHeader).Uses sepHeader (announceLine sepHeader payload slot) := by
  cases sepHeader <;> cases payload <;> first | exact h | exact ⟨rfl, h⟩

variable (hone : 1 ≤ count.toNat) (hmax : count.toNat ≤ 63)
include hone hmax

theorem uses_pos {i : ℕ} (hi : i < count.toNat) :
    (home count sepHeader).Uses sepHeader (.pos i) := by
  have hreaders : (home count sepHeader).numReaders.toNat = count.toNat :=
    (numSlots_add hone hmax home_isContext).1
  exact show i < _ by omega

/-- **A store into one line leaves the first words of the others alone.** -/
theorem head_update {m : ℕ → Word} {l l' : Line} (hl : (home count sepHeader).Uses sepHeader l)
    (hl' : (home count sepHeader).Uses sepHeader l') {j : ℕ} (hj : j < 8) (hne : l = l' → j ≠ 0)
    (x : Word) :
    Function.update m ((home count sepHeader).offset l + j * 8) x
      ((home count sepHeader).offset l') = m ((home count sepHeader).offset l') := by
  refine Function.update_of_ne ?_ _ _
  by_cases hll : l = l'
  · subst hll
    have := hne rfl
    omega
  · have hline : cachelineSize.toNat = 64 := rfl
    have := (geometry_sound hone hmax).disjoint _ _ home_isContext home_isContext l l' hl hl' hll
    omega

theorem head_store {mem : ℕ → Word} {l l' : Line} (hl : (home count sepHeader).Uses sepHeader l)
    (hl' : (home count sepHeader).Uses sepHeader l') (hne : l ≠ l') (x : Word) :
    Function.update mem ((home count sepHeader).offset l) x ((home count sepHeader).offset l') =
      mem ((home count sepHeader).offset l') := by
  have := head_update (m := mem) hone hmax hl hl' (by decide : 0 < 8)
    (fun he => absurd he hne) x
  rwa [Nat.zero_mul, Nat.add_zero] at this

/-- The stores of a payload leave all of them alone. -/
theorem head_payload {mem : ℕ → Word} {slot : ℕ} {l : Line} (p : ℕ → Word)
    (hslot : slot < (home count sepHeader).numSlots.toNat)
    (hl : (home count sepHeader).Uses sepHeader l) {k : ℕ} (hk : k ≤ 7) :
    (List.range k).foldl (fun mem j => Function.update mem
        ((home count sepHeader).offset (.data slot) + (j + 1) * 8) (p j)) mem
      ((home count sepHeader).offset l) = mem ((home count sepHeader).offset l) := by
  induction k with
  | zero => rfl
  | succ k ih =>
    rw [List.range_succ, List.foldl_append, List.foldl_cons, List.foldl_nil]
    refine (head_update (l := .data slot) hone hmax hslot hl (by omega)
      (fun _ => Nat.succ_ne_zero k) _).trans ?_
    exact ih (by omega)

/-- A new queue. -/
theorem follows_create :
    Follows count sepHeader 0 (fun _ => 0) (.create count sepHeader) (queueCreate count) where
  src := rfl
  dst _ := rfl
  srcHome := rfl
  dstHome _ := rfl
  ok := by
    obtain ⟨N, -, hok⟩ := ok_create hone hmax
    obtain ⟨m, items, r, hinv⟩ := id hok
    have hN : (home count sepHeader).numSlots.toNat = N := hinv.writer.slots
    rwa [hN]
  words :=
    { pos := fun _ _ => rfl
      head := fun _ _ _ => rfl
      number := fun _ _ _ => Nat.le_refl 0
      apart := fun _ _ _ _ => rfl }
  sent_eq := rfl
  received_eq _ _ := rfl

omit hone hmax in
/-- The contexts of the queue that follows have the numbers of the geometry. -/
theorem Follows.bounds (h : Follows count sepHeader sent received w v) :
    v.src.numReaders.toNat = count.toNat ∧
      v.src.wrap.lPos.toNat < (home count sepHeader).numSlots.toNat ∧
      ∀ i < count.toNat, (v.dst i).lPos.toNat < (home count sepHeader).numSlots.toNat ∧
        (v.dst i).id.toNat = i := by
  obtain ⟨m, items, r, hinv⟩ := h.ok
  obtain ⟨-, hpos⟩ := hinv.writer.wrap hinv.two
  have htwo := hinv.two
  have hwrap : v.src.wrap.lPos.toNat = items.length % (home count sepHeader).numSlots.toNat := hpos
  refine ⟨hinv.writer.readers, ?_, fun i hi => ?_⟩
  · rw [hwrap]
    exact Nat.mod_lt _ (by omega)
  · have hreader : (v.dst i).lPos.toNat = r i % (home count sepHeader).numSlots.toNat :=
      (hinv.reader i hi).pos
    rw [hreader]
    exact ⟨Nat.mod_lt _ (by omega), (hinv.reader i hi).id⟩

omit hone hmax in
/-- A send that gets past its sync point does so in the queue that follows. -/
theorem Follows.sync (h : Follows count sepHeader sent received w v) {c : SharedContext}
    (hc : w.src.sync w.mem = some c) (payload : Option (ℕ → Word)) :
    c.toPointers = (home count sepHeader).toPointers ∧ c.lPos = v.src.wrap.lPos ∧
      c.nextSeq = v.src.nextSeq ∧ ∃ v', v.sendRaw payload = some v' ∧
        v'.src = c.toContext.advance ∧ v'.shm.pos = v.shm.pos := by
  obtain ⟨hreaders, -, -⟩ := h.bounds
  have hwrap : v.src.wrap.nextSeq = v.src.nextSeq ∧ v.src.wrap.numReaders = v.src.numReaders := by
    unfold Context.wrap
    split <;> exact ⟨rfl, rfl⟩
  have hnext : getNextSync v.src.wrap (fun i => w.mem (w.src.offset (.pos i))) =
      getNextSync v.src.wrap v.shm.pos := by
    refine getNextSync_congr fun i hi => ?_
    rw [hwrap.2, hreaders] at hi
    rw [← h.words.pos i hi]
    have hbase : w.src.readersPos = (home count sepHeader).readersPos :=
      congrArg Pointers.readersPos h.srcHome
    simp only [SharedContext.offset, hbase]
  simp only [SharedContext.offset] at hnext
  simp only [SharedContext.sync, h.src, SharedContext.offset, hnext] at hc
  split at hc
  · cases hc
  · rename_i hwait
    obtain rfl := Option.some.inj hc
    let c' : Context :=
      if v.src.wrap.nextSeq = v.src.wrap.nextSync then
        { v.src.wrap with nextSync := getNextSync v.src.wrap v.shm.pos }
      else v.src.wrap
    have hsend : v.sendRaw payload = some
        { v with
          src := c'.advance
          shm := { v.shm with slots := sendSlots v.shm.slots c' payload } } := by
      rw [World.sendRaw, Swmr.sendRaw, if_neg hwait, Option.map_some]
    refine ⟨?_, ?_, ?_, _, hsend, ?_, rfl⟩
    · split <;> exact h.srcHome
    · split <;> rfl
    · split <;> exact hwrap.1
    · dsimp only [c']
      by_cases hsync : v.src.wrap.nextSeq = v.src.wrap.nextSync
      · rw [if_pos hsync, if_pos hsync]
      · rw [if_neg hsync, if_neg hsync]

/-- A send writes the next number in its line, and leaves the first words of the others alone. -/
theorem Words.send {mem mem' : ℕ → Word} {shm : Shm} (h : Words count sepHeader sent mem shm)
    {slot : ℕ} (hslot : slot < (home count sepHeader).numSlots.toNat)
    (payload : Option (ℕ → Word)) {x : Word} (hx : x.toNat = sent + 1)
    (hself : mem' ((home count sepHeader).offset
      (announceLine sepHeader payload.isSome slot)) = x)
    (hother : ∀ l, (home count sepHeader).Uses sepHeader l →
      l ≠ announceLine sepHeader payload.isSome slot →
      mem' ((home count sepHeader).offset l) = mem ((home count sepHeader).offset l)) :
    Words count sepHeader (sent + 1) mem'
      { shm with slots := (storePayload shm.slots slot payload).store slot 0 x } where
  pos := by
    intro i hi
    have hne : Line.pos i ≠ announceLine sepHeader payload.isSome slot := by
      unfold announceLine
      split <;> exact Line.noConfusion
    rw [hother _ (uses_pos hone hmax hi) hne]
    exact h.pos i hi
  head := by
    rintro rfl s hs
    show _ = (storePayload shm.slots slot payload).store slot 0 x s 0
    by_cases hss : s = slot
    · subst hss
      rw [Slots.store_self]
      exact hself
    · have hne : Line.data s ≠ announceLine false payload.isSome slot :=
        fun he => hss (Line.data.inj he)
      rw [Slots.store_of_ne fun he => absurd he hss,
        storePayload_of_ne payload fun he => absurd he hss, hother (.data s) hs hne]
      exact h.head rfl s hs
  number := by
    intro payload' s hs
    by_cases hl : announceLine sepHeader payload' s = announceLine sepHeader payload.isSome slot
    · rw [hl, hself, hx]
    · rw [hother _ (uses_announceLine hs) hl]
      exact Nat.le_succ_of_le (h.number payload' s hs)
  apart := by
    rintro rfl s hs heq
    have hdata : (mem ((home count true).offset (.data s))).toNat ≤ sent := h.number false s hs
    have hheader : (mem ((home count true).offset (.header s))).toNat ≤ sent := h.number true s hs
    cases hp : payload.isSome with
    | false =>
      rw [hp] at hself hother
      have hh := hother (.header s) ⟨rfl, hs⟩ Line.noConfusion
      by_cases hss : s = slot
      · -- the next number is in the data, and no such number in the header
        subst hss
        have hd : mem' ((home count true).offset (.data s)) = x := hself
        rw [hd, hh] at heq
        rw [← heq] at hheader
        omega
      · have hd := hother (.data s) hs fun he => hss (Line.data.inj he)
        rw [hd, hh] at heq
        rw [hd]
        exact h.apart rfl s hs heq
    | true =>
      rw [hp] at hself hother
      have hd := hother (.data s) hs Line.noConfusion
      by_cases hss : s = slot
      · subst hss
        have hh : mem' ((home count true).offset (.header s)) = x := hself
        rw [hd, hh] at heq
        rw [heq] at hdata
        omega
      · have hh := hother (.header s) ⟨rfl, hs⟩ fun he => hss (Line.header.inj he)
        rw [hd, hh] at heq
        rw [hd]
        exact h.apart rfl s hs heq

/-- **A send is followed.** -/
theorem Follows.send (h : Follows count sepHeader sent received w v) {c : SharedContext}
    (hc : w.src.sync w.mem = some c) (payload : Option (ℕ → Word)) {mem : ℕ → Word}
    (hself : mem ((home count sepHeader).offset
      (announceLine sepHeader payload.isSome c.lPos.toNat)) = c.nextSeq)
    (hother : c.lPos.toNat < (home count sepHeader).numSlots.toNat →
      ∀ l, (home count sepHeader).Uses sepHeader l →
        l ≠ announceLine sepHeader payload.isSome c.lPos.toNat →
        mem ((home count sepHeader).offset l) = w.mem ((home count sepHeader).offset l)) :
    ∃ v', Follows count sepHeader (sent + 1) received
      { w with src := { c with toContext := c.toContext.advance }, mem := mem } v' := by
  obtain ⟨hptr, hpos, hseq, v', hsend, hsrc, hshm⟩ := h.sync hc payload
  obtain ⟨-, hlt, -⟩ := h.bounds
  obtain ⟨hdst, -, hslots⟩ := sendRaw_frame hsend
  rw [← hpos] at hlt hslots
  rw [← hseq] at hslots
  have hwords := h.words.send hone hmax hlt payload
    (show c.nextSeq.toNat = sent + 1 by rw [hseq, h.sent_eq]) hself (hother hlt)
  rw [← hslots, ← hshm] at hwords
  exact ⟨v', {
    src := hsrc.symm
    dst := fun i => (h.dst i).trans (congrFun hdst i).symm
    srcHome := hptr
    dstHome := h.dstHome
    ok := ok_send h.ok hsend
    words := hwords
    sent_eq := by rw [ok_send_seq h.ok hsend, h.sent_eq]
    received_eq := fun i hi => by rw [hdst, h.received_eq i hi] }⟩

/-- A reader publishes its position. -/
theorem Words.publish {mem : ℕ → Word} {shm : Shm} (h : Words count sepHeader sent mem shm) {i : ℕ}
    (hi : i < count.toNat) (x : Word) :
    Words count sepHeader sent (Function.update mem ((home count sepHeader).offset (.pos i)) x)
      { shm with pos := Function.update shm.pos i x } := by
  have hother : ∀ {l}, (home count sepHeader).Uses sepHeader l → Line.pos i ≠ l →
      Function.update mem ((home count sepHeader).offset (.pos i)) x
        ((home count sepHeader).offset l) = mem ((home count sepHeader).offset l) :=
    fun hl hne => head_store hone hmax (uses_pos hone hmax hi) hl hne x
  refine ⟨fun j hj => ?_, fun hsep slot hslot => ?_, fun payload slot hslot => ?_,
    fun hsep slot hslot => ?_⟩
  · by_cases hji : j = i
    · subst hji
      rw [Function.update_self]
      exact (Function.update_self j x shm.pos).symm
    · rw [hother (uses_pos hone hmax hj) fun he => hji (Line.pos.inj he).symm]
      exact (h.pos j hj).trans (Function.update_of_ne hji _ _).symm
  · rw [hother (l := .data slot) hslot Line.noConfusion]
    exact h.head hsep slot hslot
  · have hne : Line.pos i ≠ announceLine sepHeader payload slot := by
      unfold announceLine
      split <;> exact Line.noConfusion
    rw [hother (uses_announceLine hslot) hne]
    exact h.number payload slot hslot
  · rw [hother (l := .data slot) hslot Line.noConfusion,
      hother (l := .header slot) ⟨hsep, hslot⟩ Line.noConfusion]
    exact h.apart hsep slot hslot

omit hone hmax in
theorem advanceReader_id (c : Context) : c.advanceReader.id = c.id := by
  unfold Context.advanceReader Context.wrap
  split <;> rfl

/-- **A receive is followed**: the number it found is that of a message that was sent. -/
theorem Follows.receive (h : Follows count sepHeader sent received w v) {i : ℕ}
    (hi : i < count.toNat) (payload : Bool)
    (hfound : (w.dst i).nextSeq = w.mem ((home count sepHeader).offset
      (announceLine sepHeader payload (w.dst i).lPos.toNat))) :
    ∃ v', Follows count sepHeader sent (Function.update received i (received i + 1))
      { w with
        dst := Function.update w.dst i ((w.dst i).received w.mem).1
        mem := ((w.dst i).received w.mem).2 } v' := by
  obtain ⟨-, -, hreader⟩ := h.bounds
  obtain ⟨hlt, hid⟩ := hreader i hi
  have hnumber := h.words.number payload _ hlt
  have hlPos : (w.dst i).lPos = (v.dst i).lPos := congrArg Context.lPos (h.dst i)
  have hseq : (w.dst i).nextSeq = (v.dst i).nextSeq := congrArg Context.nextSeq (h.dst i)
  rw [← hlPos, ← hfound, hseq] at hnumber
  have hready := (h.ok.ready hi).mpr (by rw [h.sent_eq]; omega)
  obtain ⟨v', hrecv⟩ : ∃ v', v.recvRaw i payload = some v' := by
    rw [World.recvRaw, Swmr.receiveNonBlocking, if_pos hready]
    exact ⟨_, rfl⟩
  obtain ⟨hsrc, hdst, hshm, hnext⟩ := ok_recv_seq h.ok hi hrecv
  refine ⟨v', h.src.trans hsrc.symm, fun j => ?_, h.srcHome, fun j => ?_, ok_recv h.ok hi hrecv, ?_,
    by rw [hsrc, h.sent_eq], fun j hj => ?_⟩
  · rw [hdst]
    by_cases hji : j = i
    · subst hji
      simp only [Function.update_self, SharedContext.received, h.dst j]
    · simp only [Function.update_of_ne hji]
      exact h.dst j
  · by_cases hji : j = i
    · subst hji
      simp only [Function.update_self]
      exact h.dstHome j
    · simp only [Function.update_of_ne hji]
      exact h.dstHome j
  · have hbase : (w.dst i).readersPos = (home count sepHeader).readersPos :=
      congrArg Pointers.readersPos (h.dstHome i)
    rw [hshm]
    simp only [SharedContext.received, SharedContext.offset, hbase, h.dst i, Context.publish,
      advanceReader_id, hid]
    split
    · exact h.words.publish hone hmax hi _
    · exact h.words
  · by_cases hji : j = i
    · subst hji
      rw [hnext, h.received_eq j hj, Function.update_self]
    · rw [hdst, Function.update_of_ne hji, Function.update_of_ne hji, h.received_eq j hj]

/-! ## 4. Runs of calls -/

omit hone hmax in
theorem count_update (i : ℕ) : (fun j => if i == j then received j + 1 else received j) =
    Function.update received i (received i + 1) := by
  funext j
  by_cases hji : j = i
  · subst hji
    simp
  · simp [Function.update_of_ne hji, Ne.symm hji]

/-- One call. -/
theorem follows_step (h : Follows count sepHeader sent received w v) {e : SharedCall}
    (he : SharedStep count.toNat w e w') :
    ∃ v', Follows count sepHeader (if e.sends then sent + 1 else sent)
      (fun i => if e.receives i then received i + 1 else received i) w' v' := by
  obtain ⟨hlegal, hcall⟩ := he
  cases e with
  | sendRaw p =>
    simp only [SharedQueue.call, SharedContext.sendRaw, Option.map_map] at hcall
    obtain ⟨c, hsync, rfl⟩ := Option.map_eq_some_iff.mp hcall
    obtain ⟨hptr, -⟩ := h.sync hsync (some p)
    have hline : c.word c.header 0 = _ := word_announceLine hptr true
    refine h.send hone hmax hsync (some p) ?_ fun hlt l hl hne => ?_
    · rw [Option.isSome_some, ← hline]
      exact Function.update_self _ _ _
    · rw [Option.isSome_some] at hne
      dsimp only
      rw [hline, head_store hone hmax (uses_announceLine hlt) hl (Ne.symm hne)]
      simp only [word_data hptr]
      exact head_payload hone hmax p hlt hl (Nat.le_refl 7)
  | sendRaw0 =>
    simp only [SharedQueue.call, SharedContext.sendRaw0, Option.map_map] at hcall
    obtain ⟨c, hsync, rfl⟩ := Option.map_eq_some_iff.mp hcall
    obtain ⟨hptr, -⟩ := h.sync hsync none
    have hline : c.word c.data 0 = _ := word_announceLine hptr false
    refine h.send hone hmax hsync none ?_ fun hlt l hl hne => ?_
    · rw [Option.isSome_none, ← hline]
      exact Function.update_self _ _ _
    · rw [Option.isSome_none] at hne
      dsimp only
      rw [hline, head_store hone hmax (uses_announceLine hlt) hl (Ne.symm hne)]
  | receive i =>
    simp only [SharedQueue.call, SharedContext.receiveNonBlocking] at hcall
    obtain ⟨r, hrecv, rfl⟩ := Option.map_eq_some_iff.mp hcall
    split at hrecv
    · rename_i hfound
      obtain rfl := Option.some.inj hrecv
      have hline : (w.dst i).word (w.dst i).header 0 = _ := word_announceLine (h.dstHome i) true
      rw [show (fun j => if (SharedCall.receive i).receives j then received j + 1 else received j) =
        Function.update received i (received i + 1) from count_update i]
      exact h.receive hone hmax hlegal true (hline ▸ hfound)
    · cases hrecv
  | receive0 i =>
    simp only [SharedQueue.call, SharedContext.receiveNonBlocking0] at hcall
    obtain ⟨r, hrecv, rfl⟩ := Option.map_eq_some_iff.mp hcall
    split at hrecv
    · rename_i hfound
      obtain rfl := Option.some.inj hrecv
      have hline : (w.dst i).word (w.dst i).data 0 = _ := word_announceLine (h.dstHome i) false
      rw [show
        (fun j => if (SharedCall.receive0 i).receives j then received j + 1 else received j) =
        Function.update received i (received i + 1) from count_update i]
      exact h.receive hone hmax hlegal false (hline ▸ hfound)
    · cases hrecv

/-- **A run of calls is followed**, with the counts of what it sent and received. -/
theorem follows_run {tr : List SharedCall}
    (hrun : Run (SharedStep count.toNat) (.create count sepHeader) tr w) :
    ∃ v, Follows count sepHeader (sentIn tr) (fun i => receivedIn i tr) w v := by
  refine hrun.induct (fun tr w => ∃ v, Follows count sepHeader (sentIn tr)
    (fun i => receivedIn i tr) w v) ⟨_, follows_create hone hmax⟩ ?_
  rintro tr w e w' ⟨v, h⟩ hstep
  obtain ⟨v', h'⟩ := follows_step hone hmax h hstep
  refine ⟨v', ?_⟩
  have hsent : sentIn (tr ++ [e]) = if e.sends then sentIn tr + 1 else sentIn tr := by
    simp only [sentIn, List.countP_append, List.countP_singleton]
    split <;> rfl
  have hreceived : (fun i => receivedIn i (tr ++ [e])) =
      fun i => if e.receives i then receivedIn i tr + 1 else receivedIn i tr := by
    funext i
    simp only [receivedIn, List.countP_append, List.countP_singleton]
    split <;> rfl
  rw [hsent, hreceived]
  exact h'

omit hone hmax in
/-- What the three functions compare, in a queue that is followed. -/
theorem Follows.announced_iff (h : Follows count sepHeader sent received w v) (i : ℕ) :
    Announced w i sent (received i) ↔
      ∀ payload, (w.dst i).nextSeq = w.mem ((home count sepHeader).offset
        (announceLine sepHeader payload (w.dst i).lPos.toNat)) ↔ received i < sent := by
  have hheader : (w.dst i).word (w.dst i).header 0 = _ := word_announceLine (h.dstHome i) true
  have hdata : (w.dst i).word (w.dst i).data 0 = _ := word_announceLine (h.dstHome i) false
  rw [Bool.forall_bool, Announced]
  simp only [SharedContext.canReceive, SharedContext.receiveNonBlocking,
    SharedContext.receiveNonBlocking0, hheader, hdata, beq_iff_eq, Option.isSome_ite]
  constructor
  · exact fun ⟨hcan, hrecv, _⟩ => ⟨hcan, hrecv⟩
  · exact fun ⟨hcan, hrecv⟩ => ⟨hcan, hrecv, hcan⟩

end Follow

/-- **Where the calls agree on what has been announced.**  For up to 63 readers, in every state
that any run of sends and receives of both kinds reaches: the reader `i` finds a message with each
of the three functions exactly when there is one if and only if the header is in the slot, or there
is none. -/
theorem announce_agrees_iff {count : UInt16} {sepHeader : Bool} (hone : 1 ≤ count.toNat)
    (hmax : count.toNat ≤ 63) {tr : List SharedCall} {w : SharedQueue}
    (hrun : Run (SharedStep count.toNat) (.create count sepHeader) tr w) {i : ℕ}
    (hi : i < count.toNat) :
    Announced w i (sentIn tr) (receivedIn i tr) ↔
      sepHeader = false ∨ receivedIn i tr = sentIn tr := by
  obtain ⟨v, h⟩ := follows_run hone hmax hrun
  obtain ⟨-, -, hreader⟩ := h.bounds
  obtain ⟨hlt, -⟩ := hreader i hi
  have hlPos : (w.dst i).lPos = (v.dst i).lPos := congrArg Context.lPos (h.dst i)
  have hseq : (w.dst i).nextSeq = (v.dst i).nextSeq := congrArg Context.nextSeq (h.dst i)
  have hcount : (w.dst i).nextSeq.toNat = receivedIn i tr + 1 := by rw [hseq, h.received_eq i hi]
  rw [← hlPos] at hlt
  rw [h.announced_iff i]
  -- a number that is found is that of a message that was sent
  have hfound : ∀ payload, (w.dst i).nextSeq = w.mem ((home count sepHeader).offset
      (announceLine sepHeader payload (w.dst i).lPos.toNat)) → receivedIn i tr < sentIn tr := by
    intro payload hnum
    have := h.words.number payload _ hlt
    rw [← hnum] at this
    omega
  cases sepHeader with
  | false =>
    refine iff_of_true (fun payload => ⟨hfound payload, fun hless => ?_⟩) (.inl rfl)
    have hready := (h.ok.ready hi).mpr (by rw [h.sent_eq, h.received_eq i hi]; omega)
    rw [hseq, hready, ← hlPos]
    exact (h.words.head rfl _ hlt).symm
  | true =>
    constructor
    · intro hall
      right
      have hle : receivedIn i tr ≤ sentIn tr := by
        obtain ⟨m, items, r, hinv⟩ := h.ok
        have h1 : (v.dst i).nextSeq.toNat = r i + 1 := (hinv.reader i hi).seq
        have h2 : v.src.nextSeq.toNat = items.length + 1 := hinv.writer.seq
        have := hinv.le_sent i hi
        have := h.received_eq i hi
        have := h.sent_eq
        omega
      by_contra hne
      have hless : receivedIn i tr < sentIn tr := by omega
      -- the number would be in both areas
      have hdata : (w.dst i).nextSeq = w.mem ((home count true).offset
        (.data (w.dst i).lPos.toNat)) := (hall false).mpr hless
      have hheader : (w.dst i).nextSeq = w.mem ((home count true).offset
        (.header (w.dst i).lPos.toNat)) := (hall true).mpr hless
      have hzero := h.words.apart rfl _ hlt (hdata.symm.trans hheader)
      rw [hdata, hzero] at hcount
      cases hcount
    · rintro (hsep | heq)
      · cases hsep
      · exact fun payload => ⟨hfound payload, fun hless => absurd hless (by omega)⟩

/-- One send of a payload to the only reader of a queue. -/
def oneSend : List SharedCall := [.sendRaw fun _ => 7]

theorem run_oneSend (sepHeader : Bool) :
    ∃ w, Run (SharedStep (1 : UInt16).toNat) (.create 1 sepHeader) oneSend w ∧
      ((w.dst 0).canReceive w.mem = true ↔ sepHeader = false) := by
  have hsome : ((SharedQueue.create 1 sepHeader).call (.sendRaw fun _ => 7)).isSome = true := by
    cases sepHeader <;> decide +kernel
  have hcan : ((SharedQueue.create 1 sepHeader).call (.sendRaw fun _ => 7)).map
      (fun w => (w.dst 0).canReceive w.mem) = some (!sepHeader) := by
    cases sepHeader <;> decide +kernel
  obtain ⟨w, hw⟩ := Option.isSome_iff_exists.mp hsome
  rw [hw] at hcan
  have hcan : (w.dst 0).canReceive w.mem = !sepHeader := Option.some.inj hcan
  refine ⟨w, .snoc .nil ⟨trivial, hw⟩, ?_⟩
  rw [hcan]
  cases sepHeader <;> decide

/-- The header in the slot. -/
theorem announce_agrees_iff_slot :
    ∃ w, Run (SharedStep (1 : UInt16).toNat) (.create 1 false) oneSend w ∧ Announced w 0 1 0 := by
  obtain ⟨w, hrun, -⟩ := run_oneSend false
  exact ⟨w, hrun, (announce_agrees_iff (by decide) (by decide) hrun (by decide)).mpr (.inl rfl)⟩

/-- **With `sep_header` a message with a payload is not seen by `swmr_can_receive`.** -/
theorem header_not_polled :
    ¬ ∀ (count : UInt16) (sepHeader : Bool) (tr : List SharedCall) (w : SharedQueue) (i : ℕ),
      1 ≤ count.toNat → Run (SharedStep count.toNat) (.create count sepHeader) tr w →
      i < count.toNat → Announced w i (sentIn tr) (receivedIn i tr) := by
  intro hall
  obtain ⟨w, hrun, hcan⟩ := run_oneSend true
  obtain ⟨hiff, -⟩ := hall 1 true oneSend w 0 (by decide) hrun (by decide)
  exact absurd (hcan.mp (hiff.mpr (by decide))) (by decide)

end Smelt.Swmr
