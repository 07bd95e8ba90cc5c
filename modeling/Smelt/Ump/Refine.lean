/-
# A UMP queue pair is a bounded FIFO in each direction

`Inv.lean` describes one direction at one instant.  Here the calls of the two ends are taken in
any order, each as one step, and the visible events of one direction are shown to be those of
the abstract FIFO of capacity `n = num_slots - 1` (`Fifo.Bounded`): a successful send or
notification puts an item in, a successful receive takes the oldest one out.  A refused send,
an empty receive and a turn of a waiting loop show nothing.

The item is the list of words sent; a receive is a faithful reading when it gets as many
words as it asked for and the two agree on the words both have (`Gets`), so a receive of as
many words as were sent gets exactly those.  Calls on the opposite direction do not touch
this one (`view_call_other`).
-/
import Smelt.Ump.Inv

namespace Smelt.Ump

open Ring

/-! ## 1. What a call leaves alone -/

theorem advance_buf (q : Queue) : q.advance.buf = q.buf := by
  unfold Queue.advance
  split <;> rfl

/-- Transmitting does not touch the receiving queue. -/
theorem exec_transmits_frame {c : Call} (hc : c.transmits = true) (qp : Queuepair) (shm : Shm) :
    (exec c qp shm).1.rx = qp.rx ∧ (exec c qp shm).1.tx.buf = qp.tx.buf := by
  obtain ⟨a, ha⟩ := canSendRaw_frame qp shm
  cases c with
  | trySend msg =>
    simp only [exec, queuepairTrySend, prepareSend]
    rcases hcs : canSendRaw qp shm with ⟨b, qp'⟩
    obtain rfl : qp' = { qp with lastAck := a } := by rw [hcs] at ha; exact ha
    cases b
    · exact ⟨rfl, rfl⟩
    · exact ⟨rfl, advance_buf _⟩
  | notify =>
    simp only [exec, queuepairNotify]
    rcases hcs : canSendRaw qp shm with ⟨b, qp'⟩
    obtain rfl : qp' = { qp with lastAck := a } := by rw [hcs] at ha; exact ha
    cases b
    · exact ⟨rfl, rfl⟩
    · exact ⟨rfl, advance_buf _⟩
  | tryRecv words => cases hc
  | recvNotify => cases hc

/-- Taking a message advances the receiving queue. -/
theorem queueRecvRaw_frame {q q' : Queue} {shm shm' : Shm} {slot : ℕ}
    (h : queueRecvRaw q shm = .ok (q', shm', slot)) : q' = q.advance := by
  rw [queueRecvRaw_eq] at h
  split at h
  · cases h
  · simp only [Except.ok.injEq, Prod.mk.injEq] at h
    exact h.1.symm

theorem recvRaw_frame {qp qp' : Queuepair} {shm shm' : Shm} {slot : ℕ}
    (h : recvRaw qp shm = .ok (qp', shm', slot)) : qp' = { qp with rx := qp.rx.advance } := by
  unfold recvRaw at h
  split at h
  · cases h
  · rcases hr : queueRecvRaw qp.rx shm with e | ⟨rx, shm₂, slot₂⟩
    · rw [hr] at h
      cases h
    · rw [hr] at h
      simp only [Except.ok.injEq, Prod.mk.injEq] at h
      rw [← h.1, queueRecvRaw_frame hr]

/-- Receiving does not touch the transmitting state. -/
theorem exec_receives_frame {c : Call} (hc : c.transmits = false) (qp : Queuepair) (shm : Shm) :
    ∃ rx, (exec c qp shm).1 = { qp with rx := rx } ∧ rx.buf = qp.rx.buf := by
  cases c with
  | trySend msg => cases hc
  | notify => cases hc
  | tryRecv words =>
    simp only [exec, queuepairTryRecv]
    rcases hr : recvRaw qp shm with e | ⟨qp', shm', slot⟩
    · exact ⟨qp.rx, rfl, rfl⟩
    · exact ⟨qp.rx.advance, recvRaw_frame hr, advance_buf _⟩
  | recvNotify =>
    simp only [exec, queuepairRecvNotify]
    split
    · exact ⟨qp.rx, rfl, rfl⟩
    · rcases hr : recvRaw qp shm with e | ⟨qp', shm', slot⟩
      · exact ⟨qp.rx, rfl, rfl⟩
      · exact ⟨qp.rx.advance, recvRaw_frame hr, advance_buf _⟩

/-! ## 2. Each call, against the invariant of the direction it works on -/

/-- **A transmitting call sends what it shows**, and only when fewer than `n` messages are
unacknowledged. -/
theorem exec_transmits_spec {n S R C : ℕ} {q : List (List Word)} {snd rcv : Queuepair}
    {shm : Shm} {c : Call} (h : Inv n S R C q (.of snd rcv shm)) (hc : c.transmits = true)
    (hw : c.words ≤ 7) :
    match c.put? (exec c snd shm).2.2 with
    | none => ackOf n R + n ≤ S ∧
        ∃ C', Inv n S R C' q (.of (exec c snd shm).1 rcv (exec c snd shm).2.1)
    | some xs => S < ackOf n R + n ∧
        ∃ C', Inv n (S + 1) R C' (q ++ [xs]) (.of (exec c snd shm).1 rcv (exec c snd shm).2.1) := by
  obtain ⟨hans, C', hinv, hroom, -⟩ := canSendRaw_spec h
  rcases hcs : canSendRaw snd shm with ⟨b, snd'⟩
  rw [hcs] at hans hinv hroom
  have hposTx : snd'.tx.pos.toNat = S % n := hinv.posTx
  simp only at hans
  cases c with
  | trySend msg =>
    cases b with
    | false =>
      have hno : ackOf n R + n ≤ S := Nat.le_of_not_lt (of_decide_eq_false hans.symm)
      simpa [exec, queuepairTrySend, prepareSend, hcs, Call.put?] using ⟨hno, C', hinv⟩
    | true =>
      have hyes : S < ackOf n R + n := of_decide_eq_true hans.symm
      obtain ⟨hack, hctrl, hdata⟩ := storePayload_spec shm (S % n) msg hw
      have hpayload : ∀ (j : ℕ) (x : Word), msg.payload[j]? = some x →
          ((storePayload shm (S % n) msg).buf (S % n)).data j = x := by
        intro j x hx
        obtain ⟨hj, hjx⟩ := List.getElem?_eq_some_iff.mp hx
        rw [Msg.length_payload] at hj
        rw [Msg.getElem_payload] at hjx
        simp [hdata, hj, hjx]
      have hstored := hinv.scribble (hroom rfl) hack hctrl
        (fun s hs => by funext j; simp [hdata, hs])
      have hsent := hstored.send msg.payload (hroom rfl) hpayload
      simp only [exec, queuepairTrySend, prepareSend, hcs, Call.put?, success, queueGetNext,
        sendRaw, queueSend, hposTx]
      exact ⟨hyes, C', hsent⟩
  | notify =>
    cases b with
    | false =>
      have hno : ackOf n R + n ≤ S := Nat.le_of_not_lt (of_decide_eq_false hans.symm)
      simpa [exec, queuepairNotify, hcs, Call.put?] using ⟨hno, C', hinv⟩
    | true =>
      have hyes : S < ackOf n R + n := of_decide_eq_true hans.symm
      have hsent := hinv.send [] (hroom rfl) (fun j x hx => by simp at hx)
      simp only [exec, queuepairNotify, hcs, Call.put?, success, notifyRaw, queueNotify,
        hposTx]
      exact ⟨hyes, C', hsent⟩
  | tryRecv words => cases hc
  | recvNotify => cases hc

/-- With a message queued, taking it succeeds and reads it. -/
theorem recvRaw_spec {n S R C : ℕ} {xs : List Word} {q : List (List Word)}
    {snd rcv : Queuepair} {shm : Shm} (h : Inv n S R C (xs :: q) (.of snd rcv shm)) :
    canRecvRaw rcv shm = true ∧ ∃ rcv' shm', recvRaw rcv shm = .ok (rcv', shm', R % n) ∧
      Inv n S (R + 1) C q (.of snd rcv' shm') ∧
      ∀ (j : ℕ) (x : Word), xs[j]? = some x → (shm'.buf (R % n)).data j = x := by
  have hcount := h.count
  simp only [List.length_cons] at hcount
  have hcan : canRecvRaw rcv shm = true := by
    have := queueCanRecv_spec h
    simpa [canRecvRaw, Dir.of, show R < S by omega] using this
  obtain ⟨shm', hr, hinv, hdata⟩ := queueRecvRaw_spec h
  exact ⟨hcan, _, _, by simp [recvRaw, hcan, hr], hinv, hdata⟩

/-- With nothing queued, there is nothing to take. -/
theorem canRecvRaw_nil {n S R C : ℕ} {snd rcv : Queuepair} {shm : Shm}
    (h : Inv n S R C [] (.of snd rcv shm)) : canRecvRaw rcv shm = false := by
  have hcount := h.count
  have := queueCanRecv_spec h
  simpa [canRecvRaw, Dir.of, show ¬ R < S by simp at hcount; omega] using this

/-- The words copied out of a slot, for a receive that stays in the slot. -/
theorem loadRange_agree {shm : Shm} {slot : ℕ} {xs : List Word} {words : ℕ} (hw : words ≤ 7)
    (h : ∀ (j : ℕ) (x : Word), xs[j]? = some x → (shm.buf slot).data j = x) :
    Agree xs ((List.range words).map (shm.loadData slot)) := by
  refine agree_of_getElem? fun j x y hx hy => ?_
  obtain ⟨hj, hjy⟩ := List.getElem?_eq_some_iff.mp hy
  simp only [List.length_map, List.length_range] at hj
  have hdiv : (j + 1) / 8 = 0 := by omega
  have hmod : (j + 1) % 8 = j + 1 := by omega
  rw [List.getElem_map, List.getElem_range, Shm.loadData, hdiv, hmod, Nat.add_zero] at hjy
  rw [← hjy, ← h j x hx]
  rfl

/-- **A receiving call takes what it shows**: the oldest message, when there is one. -/
theorem exec_receives_spec {n S R C : ℕ} {q : List (List Word)} {snd rcv : Queuepair}
    {shm : Shm} {c : Call} (h : Inv n S R C q (.of snd rcv shm)) (hc : c.transmits = false)
    (hw : c.words ≤ 7) :
    match c.got? (exec c rcv shm).2.2 with
    | none => q = [] ∧ Inv n S R C q (.of snd (exec c rcv shm).1 (exec c rcv shm).2.1)
    | some ys => ∃ xs q', q = xs :: q' ∧ Gets xs (c.words, ys) ∧
        Inv n S (R + 1) C q' (.of snd (exec c rcv shm).1 (exec c rcv shm).2.1) := by
  cases q with
  | nil =>
    have hcan := canRecvRaw_nil h
    have hempty : recvRaw rcv shm = .error [.queueEmpty] := by simp [recvRaw, hcan]
    cases c with
    | trySend msg => cases hc
    | notify => cases hc
    | tryRecv words => simpa [exec, queuepairTryRecv, hempty, Call.got?] using h
    | recvNotify => simpa [exec, queuepairRecvNotify, hcan, Call.got?] using h
  | cons xs q =>
    obtain ⟨hcan, rcv', shm', hr, hinv, hdata⟩ := recvRaw_spec h
    cases c with
    | trySend msg => cases hc
    | notify => cases hc
    | tryRecv words =>
      simp only [exec, queuepairTryRecv, hr, Call.got?]
      exact ⟨xs, q, rfl, ⟨by simp [Call.words], loadRange_agree hw hdata⟩, hinv⟩
    | recvNotify =>
      simp only [exec, queuepairRecvNotify, hcan, hr, Call.got?, success]
      exact ⟨xs, q, rfl, ⟨rfl, by simp [Agree]⟩, hinv⟩

/-! ## 3. The two ends together -/

/-- One call of one end, with what became of it. -/
structure Event where
  side : Side
  call : Call
  ret : Ret

/-- The calls of the two ends, each as one step. -/
def Step (w : World) (e : Event) (w' : World) : Prop := w.call e.side e.call = (w', e.ret)

/-- A call, as the step it is. -/
def World.act (w : World) (a : Side × Call) : Option (World × Event) :=
  some ((w.call a.1 a.2).1, ⟨a.1, a.2, (w.call a.1 a.2).2⟩)

theorem step_of_act (w : World) (a : Side × Call) (w' : World) (e : Event)
    (h : w.act a = some (w', e)) : Step w e w' := by
  simp only [World.act, Option.some.injEq, Prod.mk.injEq] at h
  obtain ⟨rfl, rfl⟩ := h
  rfl

/-- What an event shows of the direction in which `d` transmits: the words the caller sent, or how
many words the caller asked for and those it got. -/
def Event.see (d : Side) (e : Event) : Option (Fifo.Ev (List Word) (ℕ × List Word)) :=
  if e.side = d then (e.call.put? e.ret).map .send
  else (e.call.got? e.ret).map fun ys => .recv (e.call.words, ys)

/-- The direction in which `d` transmits. -/
def World.view (w : World) (d : Side) : Dir := .of (w.qp d) (w.qp d.other) (w.mem d)

/-- The pointers `smlt_ump_queuepair_init` sets up: an end transmits into its own allocation
and receives from the other one. -/
def Wired (w : World) : Prop := ∀ d, (w.qp d).tx.buf = d ∧ (w.qp d).rx.buf = d.other

theorem wired_call {w : World} (h : Wired w) (d : Side) (c : Call) : Wired (w.call d c).1 := by
  intro s
  by_cases hs : s = d
  · subst hs
    simp only [World.call, Function.update_self]
    cases hc : c.transmits with
    | true =>
      obtain ⟨h1, h2⟩ := exec_transmits_frame hc (w.qp s) (w.mem (region c (w.qp s)))
      rw [h1, h2]
      exact h s
    | false =>
      obtain ⟨rx, h1, h2⟩ := exec_receives_frame hc (w.qp s) (w.mem (region c (w.qp s)))
      rw [h1]
      exact ⟨(h s).1, h2.trans (h s).2⟩
  · simpa [World.call, hs] using h s

/-- A transmitting call of `d`, and a receiving call of the other end, work on the direction in
which `d` transmits. -/
theorem view_call_self {w : World} (h : Wired w) {d s : Side} {c : Call}
    (hs : c.transmits = decide (s = d)) :
    (w.call s c).1.view d =
      if s = d then .of (exec c (w.qp d) (w.mem d)).1 (w.qp d.other) (exec c (w.qp d) (w.mem d)).2.1
      else .of (w.qp d) (exec c (w.qp d.other) (w.mem d)).1
        (exec c (w.qp d.other) (w.mem d)).2.1 := by
  by_cases hsd : s = d
  · subst hsd
    have hreg : region c (w.qp s) = s := by simp [region, hs, (h s).1]
    simp [World.view, World.call, hreg]
  · obtain rfl := Side.eq_other hsd
    have hreg : region c (w.qp d.other) = d := by simp [region, hs, (h d.other).2]
    have hne : d ≠ d.other := fun e => d.other_ne e.symm
    simp [World.view, World.call, hreg, hne]

/-- The other calls do not touch it. -/
theorem view_call_other {w : World} (h : Wired w) {d s : Side} {c : Call}
    (hs : c.transmits = !decide (s = d)) : (w.call s c).1.view d = w.view d := by
  by_cases hsd : s = d
  · subst hsd
    have hc : c.transmits = false := by simpa using hs
    have hreg : region c (w.qp s) = s.other := by simp [region, hc, (h s).2]
    have hne : s ≠ s.other := fun e => s.other_ne e.symm
    obtain ⟨rx, h1, -⟩ := exec_receives_frame hc (w.qp s) (w.mem s.other)
    simp [World.view, World.call, hreg, hne, h1, Dir.of]
  · obtain rfl := Side.eq_other hsd
    have hc : c.transmits = true := by simpa using hs
    have hreg : region c (w.qp d.other) = d.other := by simp [region, hc, (h d.other).1]
    have hne : d ≠ d.other := fun e => d.other_ne e.symm
    obtain ⟨h1, -⟩ := exec_transmits_frame hc (w.qp d.other) (w.mem d.other)
    simp [World.view, World.call, hreg, hne, h1, Dir.of]

/-- The state of a queue pair whose direction from `d` holds the payloads `q`. -/
def Rel (n : ℕ) (d : Side) (w : World) (q : List (List Word)) : Prop :=
  Wired w ∧ ∃ S R C, Inv n S R C q (w.view d)

/-- **Every call is a step of the abstract FIFO, or invisible to it.** -/
theorem rel_step {n : ℕ} {d : Side} {w w' : World} {q : List (List Word)} {e : Event}
    (h : Rel n d w q) (hstep : Step w e w') (hw : e.call.words ≤ 7) :
    ∃ q', Rel n d w' q' ∧ Run.Follows (Fifo.Bounded n Gets) q (e.see d) q' := by
  obtain ⟨hwired, S, R, C, hinv⟩ := h
  obtain ⟨s, c, r⟩ := e
  simp only [Step] at hstep
  obtain rfl : w' = (w.call s c).1 := by rw [hstep]
  have hwired' := wired_call hwired s c
  have hret : r = (exec c (w.qp s) (w.mem (region c (w.qp s)))).2.2 := by
    have := congrArg Prod.snd hstep
    exact this.symm
  have hcap : S < ackOf n R + n → q.length < n := by
    intro hroom
    have := ackOf_le (n := n) R
    have := hinv.count
    omega
  by_cases hsd : s = d
  · subst hsd
    cases hc : c.transmits with
    | true =>
      have hreg : region c (w.qp s) = s := by simp [region, hc, (hwired s).1]
      rw [hreg] at hret
      have hinv : Inv n S R C q (.of (w.qp s) (w.qp s.other) (w.mem s)) := hinv
      have hspec := exec_transmits_spec hinv hc hw
      have hview := view_call_self hwired (d := s) (s := s) (c := c) (by simp [hc])
      rw [if_pos rfl] at hview
      simp only [Event.see, if_true, hret]
      cases hput : c.put? (exec c (w.qp s) (w.mem s)).2.2 with
      | none =>
        rw [hput] at hspec
        obtain ⟨-, C', hinv'⟩ := hspec
        exact ⟨q, ⟨hwired', S, R, C', hview ▸ hinv'⟩, rfl⟩
      | some xs =>
        rw [hput] at hspec
        obtain ⟨hroom, C', hinv'⟩ := hspec
        exact ⟨q ++ [xs], ⟨hwired', S + 1, R, C', hview ▸ hinv'⟩, .send (hcap hroom)⟩
    | false =>
      have hview := view_call_other hwired (d := s) (s := s) (c := c) (by simp [hc])
      simp only [Event.see, if_true, put?_of_receives hc, Option.map_none]
      exact ⟨q, ⟨hwired', S, R, C, hview ▸ hinv⟩, rfl⟩
  · cases hc : c.transmits with
    | true =>
      have hview := view_call_other hwired (d := d) (s := s) (c := c) (by simp [hc, hsd])
      simp only [Event.see, if_neg hsd, got?_of_transmits hc, Option.map_none]
      exact ⟨q, ⟨hwired', S, R, C, hview ▸ hinv⟩, rfl⟩
    | false =>
      obtain rfl := Side.eq_other hsd
      have hreg : region c (w.qp d.other) = d := by simp [region, hc, (hwired d.other).2]
      rw [hreg] at hret
      have hinv : Inv n S R C q (.of (w.qp d) (w.qp d.other) (w.mem d)) := hinv
      have hspec := exec_receives_spec hinv hc hw
      have hview := view_call_self hwired (d := d) (s := d.other) (c := c) (by simp [hc])
      rw [if_neg hsd] at hview
      simp only [Event.see, if_neg hsd, hret]
      cases hgot : c.got? (exec c (w.qp d.other) (w.mem d)).2.2 with
      | none =>
        rw [hgot] at hspec
        exact ⟨q, ⟨hwired', S, R, C, hview ▸ hspec.2⟩, rfl⟩
      | some ys =>
        rw [hgot] at hspec
        obtain ⟨xs, q', rfl, hgets, hinv'⟩ := hspec
        exact ⟨q', ⟨hwired', S, R + 1, C, hview ▸ hinv'⟩, .recv hinv.length_le hgets⟩

/-! ## 4. Creation -/

/-- The queue states that initialization leaves behind. -/
theorem queueInitCommon_ok {region : Side} {buf : Option Nat} {slots : UInt16} {dir : Direction}
    {q : Queue} (h : queueInitCommon region buf slots dir = .ok q) :
    q = { buf := region, pos := 0, numMsg := slots - 1, epoch := true, direction := dir } := by
  simp only [queueInitCommon] at h
  split at h
  · cases h
  · simpa using h.symm

theorem queueInitTx_ok {region : Side} {buf : Option Nat} {slots : UInt16} {r : Queue × Shm}
    (h : queueInitTx region buf slots = .ok r) :
    r = ({ buf := region, pos := 0, numMsg := slots - 1, epoch := true, direction := .send },
      Shm.zero) := by
  unfold queueInitTx at h
  split at h
  · cases h
  · rename_i q hq
    rw [queueInitCommon_ok hq] at h
    simpa using h.symm

/-- What `smlt_ump_queuepair_init` accepts and what it builds. -/
theorem queuepairInit_ok {alloc : Side → Option Nat} {numSlots : UInt16} {w : World}
    (h : queuepairInit alloc numSlots = .ok w) :
    2 ≤ numSlots.toNat ∧
      w.qp = (fun d =>
        { tx := { buf := d, pos := 0, numMsg := numSlots - 1, epoch := true, direction := .send }
          rx := { buf := d.other, pos := 0, numMsg := numSlots - 1, epoch := true,
                  direction := .recv }
          seqId := 1
          lastAck := 0 }) ∧
      w.mem = fun _ => Shm.zero := by
  unfold queuepairInit at h
  by_cases h2 : numSlots < 2
  · rw [if_pos h2] at h
    cases h
  have hge : 2 ≤ numSlots.toNat := by
    rw [UInt16.lt_iff_toNat_lt] at h2
    exact Nat.le_of_not_lt h2
  rw [if_neg h2] at h
  by_cases hs : (alloc .src).isNone
  · rw [if_pos hs] at h
    cases h
  rw [if_neg hs] at h
  simp only [bind_eq_ok, pushErr_eq_ok] at h
  obtain ⟨srcTx, hst, dstRx, hdr, h⟩ := h
  by_cases hd : (alloc .dst).isNone
  · rw [if_pos hd] at h
    cases h
  rw [if_neg hd] at h
  simp only [bind_eq_ok, pushErr_eq_ok] at h
  obtain ⟨srcRx, hsr, dstTx, hdt, h⟩ := h
  obtain rfl := queueInitTx_ok hst
  obtain rfl := queueInitTx_ok hdt
  obtain rfl := queueInitCommon_ok hdr
  obtain rfl := queueInitCommon_ok hsr
  simp only [pure, Except.pure, Except.ok.injEq] at h
  subst h
  refine ⟨hge, ?_, ?_⟩
  · funext d
    cases d <;> rfl
  · funext d
    cases d <;> rfl

theorem wired_init {alloc : Side → Option Nat} {numSlots : UInt16} {w : World}
    (h : queuepairInit alloc numSlots = .ok w) : Wired w := by
  obtain ⟨-, hqp, -⟩ := queuepairInit_ok h
  exact fun s => by simp [hqp]

/-- A new direction, in which nothing was sent. -/
theorem inv_init {alloc : Side → Option Nat} {numSlots : UInt16} {w : World}
    (h : queuepairInit alloc numSlots = .ok w) (d : Side) :
    Inv (numSlots.toNat - 1) 0 0 0 [] (w.view d) := by
  obtain ⟨hge, hqp, hmem⟩ := queuepairInit_ok h
  have hlt := UInt16.toNat_lt numSlots
  have hnum : (numSlots - 1).toNat = numSlots.toNat - 1 := by
    rw [UInt16.toNat_sub, UInt16.toNat_one]
    omega
  simp only [World.view, Dir.of, hqp, hmem]
  exact
    { pos := by omega
      small := by omega
      numTx := hnum
      numRx := hnum
      posTx := by simp
      posRx := by simp
      epochTx := by simp [phase]
      epochRx := by simp [phase]
      seqId := by simp
      ack := by simp [ackOf, Shm.zero]
      cache := by simp
      cache_le := Nat.zero_le _
      room := Nat.zero_le _
      count := by simp
      ctrl := fun i hi => absurd hi (Nat.not_lt_zero i)
      fresh := fun _ _ _ => rfl
      data := fun k xs hk => by simp at hk }

/-- **A new queue pair is an empty FIFO** of one message less than it has slots, in both
directions. -/
theorem rel_init {alloc : Side → Option Nat} {numSlots : UInt16} {w : World}
    (h : queuepairInit alloc numSlots = .ok w) (d : Side) : Rel (numSlots.toNat - 1) d w [] :=
  ⟨wired_init h, 0, 0, 0, inv_init h d⟩

/-! ## 5. The refinement -/

/-- The payloads `d` has sent, in order; a notification is the empty payload. -/
def sentBy (d : Side) (tr : List Event) : List (List Word) :=
  Fifo.sends (tr.filterMap (Event.see d))

/-- The receives from `d`, in order, each with the number of words asked for. -/
def rcvdFrom (d : Side) (tr : List Event) : List (ℕ × List Word) :=
  Fifo.recvs (tr.filterMap (Event.see d))

/-- Every reachable state of a queue pair stands for the FIFO its visible trace leads to. -/
theorem reachable_rel {alloc : Side → Option Nat} {numSlots : UInt16} {w₀ w : World}
    {tr : List Event} (hinit : queuepairInit alloc numSlots = .ok w₀) (hrun : Run Step w₀ tr w)
    (hw : ∀ e ∈ tr, e.call.words ≤ 7) (d : Side) :
    ∃ q, Rel (numSlots.toNat - 1) d w q ∧
      Run (Fifo.Bounded (numSlots.toNat - 1) Gets) [] (tr.filterMap (Event.see d)) q :=
  Run.simulates (rel_init hinit d) (fun _ _ _ _ hR hs => rel_step hR hs.1 hs.2) (hrun.restrict hw)

/-- **The queue pair refines a bounded FIFO.**  In each direction, along every run of calls by
the two ends in any order: the visible events are those of the FIFO of `num_slots - 1` items;
the `k`-th receive, of `w` words, gets `w` words, those of the `k`-th send as far as both go, and
so all of them when it asks for as many as were sent; polling says whether a message is
outstanding; and never more than `num_slots - 1` are. -/
theorem queuepair_refines_fifo {alloc : Side → Option Nat} {numSlots : UInt16} {w₀ w : World}
    {tr : List Event} (hinit : queuepairInit alloc numSlots = .ok w₀) (hrun : Run Step w₀ tr w)
    (hw : ∀ e ∈ tr, e.call.words ≤ 7) (d : Side) :
    (∃ q, Run (Fifo.Bounded (numSlots.toNat - 1) Gets) [] (tr.filterMap (Event.see d)) q) ∧
      (∀ (k w : ℕ) (ys : List Word), (rcvdFrom d tr)[k]? = some (w, ys) →
        ∃ xs, (sentBy d tr)[k]? = some xs ∧ ys.length = w ∧ Agree xs ys ∧
          (w = xs.length → ys = xs)) ∧
      (queueCanRecv (w.qp d.other).rx (w.mem d) = true ↔
        (rcvdFrom d tr).length < (sentBy d tr).length) ∧
      (rcvdFrom d tr).length ≤ (sentBy d tr).length ∧
      (sentBy d tr).length - (rcvdFrom d tr).length ≤ numSlots.toNat - 1 := by
  obtain ⟨q, ⟨-, S, R, C, hinv⟩, hfifo⟩ := reachable_rel hinit hrun hw d
  obtain ⟨hk, hlen, hcap⟩ := Fifo.bounded_spec hfifo
  have hcan := queueCanRecv_spec hinv
  have hcount := hinv.count
  simp only [World.view, Dir.of] at hcan
  refine ⟨⟨q, hfifo⟩, ?_, ?_, ?_, ?_⟩
  · intro k w ys hy
    obtain ⟨xs, hxs, hlen, hag⟩ := hk k (w, ys) hy
    exact ⟨xs, hxs, hlen, hag, fun hw => hag.eq_of_length (hlen.trans hw)⟩
  · rw [hcan, decide_eq_true_iff, sentBy, rcvdFrom]
    omega
  · rw [sentBy, rcvdFrom]
    omega
  · rw [sentBy, rcvdFrom]
    omega

/-- A two-message ring, filled, refusing a third message, and drained of one. -/
def pingCalls : List (Side × Call) :=
  [(.src, .trySend ⟨1, fun _ => 7⟩), (.src, .notify), (.src, .trySend ⟨1, fun _ => 9⟩),
    (.dst, .tryRecv 1)]

theorem queuepair_refines_fifo_ping :
    ∃ w₀ tr w, queuepairInit (fun _ => some 4096) 3 = .ok w₀ ∧
      Run.drive World.act w₀ pingCalls = some (tr, w) ∧
      sentBy .src tr = [[7], []] ∧ rcvdFrom .src tr = [(1, [7])] ∧
      ∀ (k w : ℕ) (ys : List Word), (rcvdFrom .src tr)[k]? = some (w, ys) →
        ∃ xs, (sentBy .src tr)[k]? = some xs ∧ ys.length = w ∧ Agree xs ys ∧
          (w = xs.length → ys = xs) := by
  obtain ⟨w₀, tr, w, hinit, hdrive, hsent, hrcvd, hfits⟩ : ∃ w₀ tr w,
      queuepairInit (fun _ => some 4096) 3 = .ok w₀ ∧
      Run.drive World.act w₀ pingCalls = some (tr, w) ∧
      sentBy .src tr = [[7], []] ∧ rcvdFrom .src tr = [(1, [7])] ∧
      ∀ e ∈ tr, e.call.words ≤ 7 :=
    ⟨_, _, _, rfl, rfl, by rfl, by rfl, by simp [Call.words]⟩
  exact ⟨w₀, tr, w, hinit, hdrive, hsent, hrcvd,
    (queuepair_refines_fifo hinit (Run.of_drive step_of_act hdrive) hfits .src).2.1⟩

end Smelt.Ump
