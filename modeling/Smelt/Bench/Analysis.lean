/-
# The analysis of the measurements

`inc/smlt_bench.h` and `src/bench.c`: measured values go into an array that is written over when it
is full, and an analysis sorts the array in place and takes its statistics.

After the sort the array is no ring any more, so an analysis of a ring that is written to again
would mix values of all ages.  That does not come to pass for another reason: the analysis is done
ONCE after a reset, and `a.valid` keeps its result.  Values that come later are not analysed at
all (`second_analysis_stale`).

The number of values is counted in 32 bits, and only says how much of the array is in use.  So the
statistics are those of the last `max_data` values exactly when no value came after the first
analysis and the count has not wrapped below the size of the array (`analysis_recent`).

`printf` shows the label and the fields of `a`.  The square root is taken in floating point, and is
a parameter.
-/
import Smelt.Bench.Sort
import Smelt.Lib.Loop
import Smelt.Lib.Ring
import Smelt.Lib.Run
import Mathlib.Data.Multiset.Sort

namespace Smelt

namespace Bench

/-! ## 1. The control structure -/

/-- `struct smlt_bench_analyzed`. -/
structure Analyzed where
  min : Cycles
  max : Cycles
  median : Cycles
  avg : Cycles
  stderr : Cycles
  count : UInt32
  ignored : UInt32
  valid : Bool
  deriving DecidableEq, Repr

/-- An analysis in zeroed memory. -/
def Analyzed.zero : Analyzed where
  min := 0
  max := 0
  median := 0
  avg := 0
  stderr := 0
  count := 0
  ignored := 0
  valid := false

/-- `struct smlt_bench_ctl`. -/
structure BenchCtl where
  data : List Cycles
  lastTsc : Cycles
  count : UInt32
  idx : UInt32
  maxData : UInt32
  label : String
  a : Analyzed
  deriving DecidableEq, Repr

/-- `smlt_bench_ctl_reset`, at time `tsc`. -/
def benchCtlReset (ctl : BenchCtl) (tsc : Cycles) : BenchCtl :=
  { ctl with a := .zero, idx := 0, count := 0, lastTsc := tsc }

/-- `smlt_bench_clt_add_value`. -/
def benchCltAddValue (ctl : BenchCtl) (value : Cycles) : Except Fault BenchCtl := do
  let data ← write ctl.data ctl.idx.toNat value
  let idx := ctl.idx + 1
  return { ctl with
    count := ctl.count + 1
    data := data
    idx := if idx = ctl.maxData then 0 else idx }

/-! ## 2. The analysis -/

/-- The loops of `smlt_bench_avg` and `smlt_bench_stderr`. -/
def benchSum (f : Cycles → Cycles) (data : List Cycles) (count : ℕ) : Except Fault Cycles :=
  (List.range count).foldlM (fun s i => do
    let v ← read data i
    return s + f v) 0

/-- `s /= count`. -/
def divide (s : Cycles) (count : UInt32) : Except Fault Cycles :=
  if count = 0 then .error .division else .ok (s / count.toUInt64)

/-- `smlt_bench_avg`. -/
def benchAvg (ctl : BenchCtl) : Except Fault BenchCtl := do
  let s ← benchSum id ctl.data ctl.a.count.toNat
  let avg ← divide s ctl.a.count
  return { ctl with a := { ctl.a with avg := avg } }

section

variable (csqrt : Cycles → Cycles)

/-- `smlt_bench_stderr`. -/
def benchStderr (ctl : BenchCtl) : Except Fault BenchCtl := do
  let ctl ← benchAvg ctl
  let s ← benchSum (fun v => (v - ctl.a.avg) * (v - ctl.a.avg)) ctl.data ctl.a.count.toNat
  let s ← divide s ctl.a.count
  return { ctl with a := { ctl.a with stderr := csqrt s } }

/-- `smlt_bench_ctl_prepare_analysis`; `ignore` is the share to ignore, of a count. -/
def benchCtlPrepareAnalysis (ignore : UInt32 → UInt32) (ctl : BenchCtl) :
    Except Fault BenchCtl := do
  let count := if ctl.count > ctl.maxData then ctl.maxData else ctl.count
  let sorted ← benchSort (count.toNat + 1) (ctl.data.take count.toNat)
  let data := sorted ++ ctl.data.drop count.toNat
  let ignored := ignore count
  let count := count - ignored
  let median ← read data (count / 2).toNat
  let min ← read data 0
  let max ← read data (count - 1).toNat
  let a := { ctl.a with
    count := count, ignored := ignored, median := median, min := min, max := max }
  let ctl ← benchStderr csqrt { ctl with data := data, a := a }
  return { ctl with a := { ctl.a with valid := true } }

/-- `SMLT_BENCH_IGNORE_DEFAULT`: `count * 0.05`, cut to an integer.  The product in double precision
is off by far less than a twentieth. -/
def benchIgnoreDefault (count : UInt32) : UInt32 := count / 20

/-- `smlt_bench_ctl_print_analysis`, which shows the `a` it returns. -/
def benchCtlPrintAnalysis (ctl : BenchCtl) : Except Fault BenchCtl :=
  if ctl.a.valid then .ok ctl else benchCtlPrepareAnalysis csqrt benchIgnoreDefault ctl

end

/-- The statistics of a sample: how many values it has and which share of them is ignored, and the
least value, the median and the largest value of the others. -/
structure Analyzed.Of (a : Analyzed) (sample : Multiset Cycles) : Prop where
  count : a.count.toNat + a.ignored.toNat = sample.card
  ignored : a.ignored.toNat = sample.card / 20
  min : (sample.sort (· ≤ ·))[0]? = some a.min
  median : (sample.sort (· ≤ ·))[a.count.toNat / 2]? = some a.median
  max : (sample.sort (· ≤ ·))[a.count.toNat - 1]? = some a.max

/-! ## 3. What an analysis returns -/

/-- A sum over values that are there. -/
theorem benchSum_ok (f : Cycles → Cycles) {data : List Cycles} {count : ℕ}
    (h : count ≤ data.length) : ∃ s, benchSum f data count = .ok s := by
  have hok : ∀ (s : Cycles) (i : ℕ), i < data.length →
      (do let v ← read data i; return s + f v : Except Fault Cycles) =
        .ok (s + f (data.getD i 0)) := by
    intro s i hi
    have hv := List.getElem?_eq_getElem hi
    rw [read_eq_ok hv, List.getD_eq_getElem?_getD, hv]
    rfl
  have hfail : ∀ (s : Cycles) (i : ℕ), ¬i < data.length →
      ∃ e, (do let v ← read data i; return s + f v : Except Fault Cycles) = .error e := by
    intro s i hi
    rw [read, List.getElem?_eq_none (not_lt.mp hi)]
    exact ⟨.bounds, rfl⟩
  exact ⟨_, (Loop.foldlM_check hok hfail).mpr
    ⟨fun i hi => Nat.lt_of_lt_of_le (List.mem_range.mp hi) h, rfl⟩⟩

theorem benchStderr_ok (csqrt : Cycles → Cycles) (ctl : BenchCtl) (hpos : ctl.a.count ≠ 0)
    (hle : ctl.a.count.toNat ≤ ctl.data.length) :
    ∃ avg stderr, benchStderr csqrt ctl =
      .ok { ctl with a := { ctl.a with avg := avg, stderr := stderr } } := by
  have hdiv : ∀ s, divide s ctl.a.count = .ok (s / ctl.a.count.toUInt64) := fun s => if_neg hpos
  obtain ⟨s, hs⟩ := benchSum_ok id hle
  obtain ⟨t, ht⟩ := benchSum_ok
    (fun v => (v - s / ctl.a.count.toUInt64) * (v - s / ctl.a.count.toUInt64)) hle
  refine ⟨s / ctl.a.count.toUInt64, csqrt (t / ctl.a.count.toUInt64), ?_⟩
  simp only [benchStderr, benchAvg, hs, hdiv, bind, Except.bind, pure, Except.pure, ht]

/-- An analysis changes the order of the values, and `a`. -/
structure BenchCtl.Kept (ctl ctl' : BenchCtl) : Prop where
  length : ctl'.data.length = ctl.data.length
  count : ctl'.count = ctl.count
  idx : ctl'.idx = ctl.idx
  maxData : ctl'.maxData = ctl.maxData

section Prepare

variable {csqrt : Cycles → Cycles} {ctl : BenchCtl}

/-- The number of values an analysis looks at. -/
theorem toNat_used (count maxData : UInt32) :
    (if count > maxData then maxData else count).toNat = min count.toNat maxData.toNat := by
  split
  · rename_i h
    have := UInt32.lt_iff_toNat_lt.mp h
    omega
  · rename_i h
    have := UInt32.le_iff_toNat_le.mp (UInt32.not_lt.mp h)
    omega

variable (csqrt) in
/-- **The statistics are those of the values in use.** -/
theorem prepareAnalysis_spec (hlen : ctl.data.length = ctl.maxData.toNat) {used : ℕ}
    (hused : used = min ctl.count.toNat ctl.maxData.toNat) (hpos : 0 < used) :
    ∃ ctl', benchCtlPrepareAnalysis csqrt benchIgnoreDefault ctl = .ok ctl' ∧ ctl.Kept ctl' ∧
      ctl'.a.valid = true ∧ ctl'.a.Of (ctl.data.take used : List Cycles) := by
  unfold benchCtlPrepareAnalysis
  have hcount := toNat_used ctl.count ctl.maxData
  rw [← hused] at hcount
  generalize (if ctl.count > ctl.maxData then ctl.maxData else ctl.count) = count at hcount
  have hcountlt := count.toNat_lt
  have htake : (ctl.data.take used).length = used := by
    rw [List.length_take]
    omega
  obtain ⟨sorted, hsort, hperm, hordered⟩ :=
    benchSort_spec (by omega : (ctl.data.take used).length < 2 ^ 32)
      (by omega : (ctl.data.take used).length < used + 1)
  have hslen : sorted.length = used := hperm.length_eq.trans htake
  have hmulti : ((ctl.data.take used : List Cycles) : Multiset Cycles).sort (· ≤ ·) = sorted := by
    have hsame := Multiset.sort_eq ((ctl.data.take used : List Cycles) : Multiset Cycles) (· ≤ ·)
    exact ((Multiset.coe_eq_coe.mp hsame).trans hperm.symm).eq_of_pairwise'
      (Multiset.pairwise_sort _ _) hordered
  -- the counts, as numbers
  have hignored : (benchIgnoreDefault count).toNat = used / 20 := by
    rw [benchIgnoreDefault, UInt32.toNat_div, hcount]
    rfl
  have hleft : (count - benchIgnoreDefault count).toNat = used - used / 20 := by
    rw [UInt32.toNat_sub_of_le, hignored, hcount]
    rw [UInt32.le_iff_toNat_le, hignored, hcount]
    exact Nat.div_le_self used 20
  have hne : count - benchIgnoreDefault count ≠ 0 := by
    intro hzero
    rw [hzero] at hleft
    have hzero' : (0 : UInt32).toNat = 0 := rfl
    omega
  have hhalf : ((count - benchIgnoreDefault count) / 2).toNat = (used - used / 20) / 2 := by
    rw [UInt32.toNat_div, hleft]
    rfl
  have hlast : (count - benchIgnoreDefault count - 1).toNat = used - used / 20 - 1 := by
    have hone : (1 : UInt32).toNat = 1 := rfl
    rw [UInt32.toNat_sub_of_le, hleft, hone]
    rw [UInt32.le_iff_toNat_le, hleft, hone]
    omega
  have hread : ∀ k, k < used →
      (sorted ++ ctl.data.drop used)[k]? = some (sorted.getD k 0) ∧
        sorted[k]? = some (sorted.getD k 0) := by
    intro k hk
    have hv := List.getElem?_eq_getElem (by omega : k < sorted.length)
    rw [List.getElem?_append_left (by omega), List.getD_eq_getElem?_getD, hv]
    exact ⟨rfl, rfl⟩
  have hdatalen : (sorted ++ ctl.data.drop used).length = ctl.data.length := by
    rw [List.length_append, List.length_drop, hslen]
    omega
  obtain ⟨avg, stderr, hstderr⟩ := benchStderr_ok csqrt
    { ctl with
      data := sorted ++ ctl.data.drop used
      a := { ctl.a with
        count := count - benchIgnoreDefault count
        ignored := benchIgnoreDefault count
        median := sorted.getD ((used - used / 20) / 2) 0
        min := sorted.getD 0 0
        max := sorted.getD (used - used / 20 - 1) 0 } } hne (by
      simp only [hdatalen, hleft]
      omega)
  simp only [hcount, hsort, hhalf, hlast, read_eq_ok (hread _ hpos).1,
    read_eq_ok (hread ((used - used / 20) / 2) (by omega)).1,
    read_eq_ok (hread (used - used / 20 - 1) (by omega)).1, bind, Except.bind, pure, Except.pure,
    hstderr]
  refine ⟨_, rfl, ⟨hdatalen, rfl, rfl, rfl⟩, rfl, ?_⟩
  refine ⟨?_, ?_, ?_, ?_, ?_⟩
  · simp only [hleft, hignored, Multiset.coe_card, htake]
    omega
  · simp only [hignored, Multiset.coe_card, htake]
  · simp only [hmulti]
    exact (hread 0 hpos).2
  · simp only [hmulti, hleft]
    exact (hread _ (by omega)).2
  · simp only [hmulti, hleft]
    exact (hread _ (by omega)).2

/-- Without a value the analysis reads in front of the array. -/
theorem prepareAnalysis_zero (hlen : ctl.data.length = ctl.maxData.toNat)
    (hmax : 1 ≤ ctl.maxData.toNat) (hzero : ctl.count.toNat = 0) :
    benchCtlPrepareAnalysis csqrt benchIgnoreDefault ctl = .error .bounds := by
  have hmaxlt := ctl.maxData.toNat_lt
  have hcount : ctl.count = 0 := UInt32.toNat_inj.mp hzero
  have hle : ¬ ctl.count > ctl.maxData := by
    rw [hcount]
    exact UInt32.not_lt.mpr (UInt32.le_iff_toNat_le.mpr (Nat.zero_le _))
  have hfirst := List.getElem?_eq_getElem (by omega : 0 < ctl.data.length)
  have hout : read ctl.data ((0 : UInt32) - 1).toNat = .error .bounds := by
    have hbig : ((0 : UInt32) - 1).toNat = 2 ^ 32 - 1 := rfl
    rw [read, hbig, List.getElem?_eq_none (by omega)]
  unfold benchCtlPrepareAnalysis
  rw [if_neg hle, hcount]
  simp only [bind, Except.bind]
  have hsort : benchSort ((0 : UInt32).toNat + 1) (ctl.data.take (0 : UInt32).toNat) = .ok [] := rfl
  have hdata : ([] : List Cycles) ++ ctl.data.drop (0 : UInt32).toNat = ctl.data := rfl
  have hignored : benchIgnoreDefault 0 = 0 := rfl
  have hsub : (0 : UInt32) - 0 = 0 := rfl
  have hhalf : ((0 : UInt32) / 2).toNat = 0 := rfl
  simp only [hsort, hdata, hignored, hsub, hhalf, read_eq_ok hfirst, hout]

/-- An analysis that returns has looked at a value. -/
theorem prepareAnalysis_ok (hlen : ctl.data.length = ctl.maxData.toNat)
    (hmax : 1 ≤ ctl.maxData.toNat) {ctl' : BenchCtl}
    (h : benchCtlPrepareAnalysis csqrt benchIgnoreDefault ctl = .ok ctl') :
    0 < ctl.count.toNat ∧ ctl.Kept ctl' ∧ ctl'.a.valid = true ∧
      ctl'.a.Of (ctl.data.take (min ctl.count.toNat ctl.maxData.toNat) : List Cycles) := by
  rcases Nat.eq_zero_or_pos ctl.count.toNat with hzero | hpos
  · rw [prepareAnalysis_zero hlen hmax hzero] at h
    cases h
  · obtain ⟨ctl'', hrun, hkept, hvalid, hof⟩ :=
      prepareAnalysis_spec csqrt hlen rfl (by omega)
    obtain rfl := Except.ok.inj (hrun.symm.trans h)
    exact ⟨hpos, hkept, hvalid, hof⟩

end Prepare

/-! ## 4. Runs -/

/-- The calls. -/
inductive BenchCall
  | addValue (value : Cycles)
  | printAnalysis
  | reset (tsc : Cycles)
  deriving DecidableEq, Repr

/-- What a call does. -/
def BenchCall.exec (csqrt : Cycles → Cycles) (ctl : BenchCtl) : BenchCall → Except Fault BenchCtl
  | .addValue value => benchCltAddValue ctl value
  | .printAnalysis => benchCtlPrintAnalysis csqrt ctl
  | .reset tsc => .ok (benchCtlReset ctl tsc)

/-- One call after the other. -/
def step (csqrt : Cycles → Cycles) (ctl : BenchCtl) (call : BenchCall) (ctl' : BenchCtl) : Prop :=
  call.exec csqrt ctl = .ok ctl'

/-- What has happened since a reset: the values added, and how many there were at the first
analysis. -/
structure Epoch where
  added : List Cycles
  analysed : Option ℕ

/-- The start of an epoch. -/
def Epoch.start : Epoch where
  added := []
  analysed := none

/-- The epoch goes on with a call; there is none before the first reset. -/
def Epoch.note : Option Epoch → BenchCall → Option Epoch
  | _, .reset _ => some .start
  | e, .addValue value => e.map fun e => { e with added := e.added ++ [value] }
  | e, .printAnalysis => e.map fun e => { e with analysed := e.analysed.or (some e.added.length) }

/-- A control structure in zeroed memory is as after a reset. -/
def BenchCtl.Fresh (ctl : BenchCtl) : Prop :=
  ctl.count = 0 ∧ ctl.idx = 0 ∧ ctl.a.valid = false

instance (ctl : BenchCtl) : Decidable ctl.Fresh := inferInstanceAs (Decidable (_ ∧ _))

/-- The epoch that the calls have led to. -/
def BenchCtl.epoch (ctl : BenchCtl) (calls : List BenchCall) : Option Epoch :=
  calls.foldl Epoch.note (if ctl.Fresh then some .start else none)

/-- The last values added, as many as the array has room for. -/
def Epoch.recent (e : Epoch) (maxData : ℕ) : List Cycles := e.added.drop (e.added.length - maxData)

/-- The count of `k` values says how much of the array is in use. -/
def Counted (maxData k : ℕ) : Prop := k < 2 ^ 32 ∨ maxData ≤ k % 2 ^ 32

/-- No value has come after the first analysis. -/
def Epoch.Current (e : Epoch) : Prop := ∀ n, e.analysed = some n → n = e.added.length

/-- What the control structure has of an epoch. -/
structure Tracks (ctl : BenchCtl) (e : Epoch) : Prop where
  count : ctl.count.toNat = e.added.length % 2 ^ 32
  idx : ctl.idx.toNat = e.added.length % ctl.maxData.toNat
  /-- before the first analysis the array is a ring -/
  fresh : e.analysed = none → ctl.a.valid = false ∧ ∀ k v, e.added[k]? = some v →
    e.added.length ≤ k + ctl.maxData.toNat → ctl.data[k % ctl.maxData.toNat]? = some v
  /-- and after it the analysis stays -/
  done : ∀ n, e.analysed = some n → ctl.a.valid = true ∧ n ≤ e.added.length ∧ 0 < n ∧
    (n = e.added.length → (ctl.a.Of (e.recent ctl.maxData.toNat) ↔ Counted ctl.maxData.toNat n))

section Runs

variable {csqrt : Cycles → Cycles} {ctl ctl' : BenchCtl} {e : Epoch}

theorem tracks_start (hcount : ctl.count = 0) (hidx : ctl.idx = 0) (hvalid : ctl.a.valid = false) :
    Tracks ctl .start where
  count := by
    rw [hcount]
    rfl
  idx := by
    rw [hidx]
    exact (Nat.zero_mod _).symm
  fresh _ := ⟨hvalid, fun k v hv => by cases hv⟩
  done n hn := by cases hn

/-- **A value goes to the slot of the oldest one.** -/
theorem tracks_addValue (hlen : ctl.data.length = ctl.maxData.toNat) (hmax : 1 ≤ ctl.maxData.toNat)
    (h : Tracks ctl e) (value : Cycles) :
    ∃ ctl', benchCltAddValue ctl value = .ok ctl' ∧ ctl'.data.length = ctl.data.length ∧
      ctl'.maxData = ctl.maxData ∧ Tracks ctl' { e with added := e.added ++ [value] } := by
  have hmaxlt := ctl.maxData.toNat_lt
  have hidx := h.idx
  have hlt : ctl.idx.toNat < ctl.maxData.toNat := by
    rw [hidx]
    exact Nat.mod_lt _ hmax
  have hnext : (ctl.idx + 1).toNat = ctl.idx.toNat + 1 := by
    have hone : (1 : UInt32).toNat = 1 := rfl
    rw [UInt32.toNat_add, hone]
    exact Nat.mod_eq_of_lt (by omega)
  refine ⟨{ ctl with
    count := ctl.count + 1
    data := ctl.data.set ctl.idx.toNat value
    idx := if ctl.idx + 1 = ctl.maxData then 0 else ctl.idx + 1 }, ?_, ?_, rfl, ?_⟩
  · rw [benchCltAddValue, write_eq_ok (by omega)]
    rfl
  · simp only [List.length_set]
  · refine ⟨?_, ?_, fun hnone => ?_, fun n hn => ?_⟩
    · have hone : (1 : UInt32).toNat = 1 := rfl
      simp only [List.length_append, List.length_singleton]
      rw [UInt32.toNat_add, h.count, hone, Nat.mod_add_mod]
    · simp only [List.length_append, List.length_singleton]
      by_cases hwrap : ctl.idx + 1 = ctl.maxData
      · have hlast : e.added.length % ctl.maxData.toNat + 1 = ctl.maxData.toNat := by
          rw [← hidx, ← hnext, hwrap]
        rw [if_pos hwrap, (Ring.succ_of_last hlast).1]
        rfl
      · have hlast : e.added.length % ctl.maxData.toNat + 1 ≠ ctl.maxData.toNat := by
          rw [← hidx, ← hnext]
          exact fun heq => hwrap (UInt32.toNat_inj.mp heq)
        rw [if_neg hwrap, (Ring.succ_of_not_last hmax hlast).1, hnext, hidx]
    · obtain ⟨hvalid, hring⟩ := h.fresh hnone
      refine ⟨hvalid, fun k v hv hk => ?_⟩
      simp only [List.length_append, List.length_singleton] at hk
      rcases Run.getElem?_snoc.mp hv with hv | ⟨rfl, rfl⟩
      · have hklt := (List.getElem?_eq_some_iff.mp hv).1
        have hne := Ring.mod_ne_mod hklt (by omega : e.added.length < k + ctl.maxData.toNat)
        simp only [hidx]
        rw [List.getElem?_set_ne (Ne.symm hne)]
        exact hring k v hv (by omega)
      · simp only [← hidx]
        exact List.getElem?_set_self (by omega)
    · obtain ⟨hvalid, hle, hpos, -⟩ := h.done n hn
      simp only [List.length_append, List.length_singleton]
      exact ⟨hvalid, by omega, hpos, fun heq => by omega⟩

/-- The values in use are the recent ones exactly when the count says so: otherwise there
are fewer. -/
theorem of_recent_iff (hlen : ctl.data.length = ctl.maxData.toNat)
    (hring : ∀ k v, e.added[k]? = some v → e.added.length ≤ k + ctl.maxData.toNat →
      ctl.data[k % ctl.maxData.toNat]? = some v)
    (hcount : ctl.count.toNat = e.added.length % 2 ^ 32) (hpos : 0 < ctl.count.toNat) {a : Analyzed}
    (hof : a.Of (ctl.data.take (min ctl.count.toNat ctl.maxData.toNat) : List Cycles)) :
    a.Of (e.recent ctl.maxData.toNat) ↔ Counted ctl.maxData.toNat e.added.length := by
  have hmaxlt := ctl.maxData.toNat_lt
  constructor
  · intro hrecent
    by_contra hnot
    have hcards := hof.count.symm.trans hrecent.count
    simp only [Multiset.coe_card, Epoch.recent, List.length_take, List.length_drop, hlen,
      hcount] at hcards
    rw [Counted, not_or] at hnot
    omega
  · intro hcounted
    have hsame : min ctl.count.toNat ctl.maxData.toNat = min e.added.length ctl.maxData.toNat := by
      rw [hcount]
      rcases hcounted with hlt | hge
      · rw [Nat.mod_eq_of_lt hlt]
      · have := Nat.mod_le e.added.length (2 ^ 32)
        omega
    rw [hsame] at hof
    rwa [Multiset.coe_eq_coe.mpr (Ring.take_perm hlen hring)] at hof

/-- **The first analysis of an epoch is kept.** -/
theorem tracks_printAnalysis (hlen : ctl.data.length = ctl.maxData.toNat)
    (hmax : 1 ≤ ctl.maxData.toNat) (h : Tracks ctl e)
    (hrun : benchCtlPrintAnalysis csqrt ctl = .ok ctl') :
    Tracks ctl' { e with analysed := e.analysed.or (some e.added.length) } := by
  rw [benchCtlPrintAnalysis] at hrun
  cases hdone : e.analysed with
  | some n =>
    rw [if_pos (h.done n hdone).1] at hrun
    obtain rfl := Except.ok.inj hrun
    exact ⟨h.count, h.idx, fun hnone => (by cases hnone), fun n' hn' => h.done n' (hdone.trans hn')⟩
  | none =>
    obtain ⟨hvalid, hring⟩ := h.fresh hdone
    rw [if_neg (Bool.eq_false_iff.mp hvalid)] at hrun
    obtain ⟨hpos, hkept, hvalid', hof⟩ := prepareAnalysis_ok hlen hmax hrun
    refine ⟨?_, ?_, fun hnone => (by cases hnone), fun n hn => ?_⟩
    · rw [hkept.count]
      exact h.count
    · rw [hkept.idx, hkept.maxData]
      exact h.idx
    · obtain rfl := Option.some.inj hn
      have hadded : 0 < e.added.length := by
        have := h.count
        have := Nat.mod_le e.added.length (2 ^ 32)
        omega
      refine ⟨hvalid', Nat.le_refl _, hadded, fun _ => ?_⟩
      rw [hkept.maxData]
      exact of_recent_iff hlen hring h.count hpos hof

/-- A print without an epoch leaves the array as long as it is. -/
theorem printAnalysis_kept (hlen : ctl.data.length = ctl.maxData.toNat)
    (hmax : 1 ≤ ctl.maxData.toNat) (hrun : benchCtlPrintAnalysis csqrt ctl = .ok ctl') :
    ctl.Kept ctl' := by
  rw [benchCtlPrintAnalysis] at hrun
  split at hrun
  · obtain rfl := Except.ok.inj hrun
    exact ⟨rfl, rfl, rfl, rfl⟩
  · exact (prepareAnalysis_ok hlen hmax hrun).2.1

theorem addValue_kept {value : Cycles} (hrun : benchCltAddValue ctl value = .ok ctl') :
    ctl'.data.length = ctl.data.length ∧ ctl'.maxData = ctl.maxData := by
  rw [benchCltAddValue, write] at hrun
  split at hrun
  · obtain rfl := Except.ok.inj hrun
    exact ⟨List.length_set, rfl⟩
  · cases hrun

/-- **In every run** the array keeps its size, and an epoch is tracked from its reset on. -/
theorem tracks_run {ctl₀ : BenchCtl} (harray : ctl₀.data.length = ctl₀.maxData.toNat)
    (hmax : 1 ≤ ctl₀.maxData.toNat) {calls : List BenchCall}
    (hrun : Run (step csqrt) ctl₀ calls ctl) :
    ctl.data.length = ctl₀.maxData.toNat ∧ ctl.maxData = ctl₀.maxData ∧
      ∀ e, ctl₀.epoch calls = some e → Tracks ctl e := by
  refine Run.induct (fun calls ctl => ctl.data.length = ctl₀.maxData.toNat ∧
    ctl.maxData = ctl₀.maxData ∧ ∀ e, ctl₀.epoch calls = some e → Tracks ctl e) ?_ ?_ hrun
  · refine ⟨harray, rfl, fun e he => ?_⟩
    simp only [BenchCtl.epoch, List.foldl_nil] at he
    split at he
    · rename_i hfresh
      obtain rfl := Option.some.inj he
      exact tracks_start hfresh.1 hfresh.2.1 hfresh.2.2
    · cases he
  · rintro calls ctl call ctl' ⟨hlen, hsize, htracks⟩ hstep
    simp only [BenchCtl.epoch, List.foldl_append, List.foldl_cons, List.foldl_nil] at htracks ⊢
    generalize calls.foldl Epoch.note (if ctl₀.Fresh then some .start else none) = e at htracks ⊢
    have hlen' : ctl.data.length = ctl.maxData.toNat := by rw [hsize, hlen]
    have hmax' : 1 ≤ ctl.maxData.toNat := by rwa [hsize]
    cases call with
    | reset tsc =>
      obtain rfl := Except.ok.inj hstep
      refine ⟨hlen, hsize, fun e' he' => ?_⟩
      obtain rfl := Option.some.inj he'
      exact tracks_start rfl rfl rfl
    | addValue value =>
      obtain ⟨hl, hm⟩ := addValue_kept hstep
      refine ⟨hl.trans hlen, hm.trans hsize, fun e' he' => ?_⟩
      obtain ⟨e, he, rfl⟩ := Option.map_eq_some_iff.mp he'
      obtain ⟨ctl'', hadd, -, -, h⟩ := tracks_addValue hlen' hmax' (htracks e he) value
      obtain rfl := Except.ok.inj (hadd.symm.trans hstep)
      exact h
    | printAnalysis =>
      have hkept := printAnalysis_kept hlen' hmax' hstep
      refine ⟨hkept.length.trans hlen, hkept.maxData.trans hsize, fun e' he' => ?_⟩
      obtain ⟨e, he, rfl⟩ := Option.map_eq_some_iff.mp he'
      exact tracks_printAnalysis hlen' hmax' (htracks e he) hstep

/-- **An analysis is one of the most recent values** when none of them came after the first analysis
since the reset, and then exactly when the count has not wrapped below the size of the array. -/
theorem analysis_recent {ctl₀ : BenchCtl} (harray : ctl₀.data.length = ctl₀.maxData.toNat)
    (hmax : 1 ≤ ctl₀.maxData.toNat) {calls : List BenchCall}
    (hrun : Run (step csqrt) ctl₀ calls ctl) (hepoch : ctl₀.epoch calls = some e)
    (hvalues : e.added ≠ []) (hcurrent : e.Current) :
    (∃ ctl', benchCtlPrintAnalysis csqrt ctl = .ok ctl' ∧
        ctl'.a.Of (e.recent ctl₀.maxData.toNat)) ↔
      Counted ctl₀.maxData.toNat e.added.length := by
  obtain ⟨hlen, hsize, htracks⟩ := tracks_run harray hmax hrun
  have h := htracks e hepoch
  rw [← hsize] at hlen hmax ⊢
  rw [benchCtlPrintAnalysis]
  cases hdone : e.analysed with
  | some n =>
    obtain ⟨hvalid, -, -, hof⟩ := h.done n hdone
    obtain rfl := hcurrent n hdone
    rw [if_pos hvalid]
    exact ⟨fun ⟨ctl', hret, hof'⟩ => (hof rfl).mp (Except.ok.inj hret ▸ hof'),
      fun hcounted => ⟨ctl, rfl, (hof rfl).mpr hcounted⟩⟩
  | none =>
    obtain ⟨hvalid, hring⟩ := h.fresh hdone
    rw [if_neg (Bool.eq_false_iff.mp hvalid)]
    constructor
    · rintro ⟨ctl', hret, hof⟩
      obtain ⟨hpos, -, -, htake⟩ := prepareAnalysis_ok hlen hmax hret
      exact (of_recent_iff hlen hring h.count hpos htake).mp hof
    · intro hcounted
      have hpos : 0 < ctl.count.toNat := by
        have hadded := List.length_pos_of_ne_nil hvalues
        rw [h.count]
        rcases hcounted with hlt | hge
        · rwa [Nat.mod_eq_of_lt hlt]
        · omega
      obtain ⟨ctl', hret, -, -, htake⟩ :=
        prepareAnalysis_spec csqrt hlen rfl (by omega)
      exact ⟨ctl', hret, (of_recent_iff hlen hring h.count hpos htake).mpr hcounted⟩

end Runs

/-- A call of a machine that stops at a fault. -/
def turn (csqrt : Cycles → Cycles) (ctl : BenchCtl) (call : BenchCall) :
    Option (BenchCtl × BenchCall) :=
  (call.exec csqrt ctl).toOption.map fun ctl => (ctl, call)

theorem step_of_turn {csqrt : Cycles → Cycles} (ctl : BenchCtl) (call : BenchCall) (ctl' : BenchCtl)
    (call' : BenchCall) (h : turn csqrt ctl call = some (ctl', call')) :
    step csqrt ctl call' ctl' := by
  obtain ⟨ctl'', hexec, hsame⟩ := Option.map_eq_some_iff.mp h
  obtain ⟨rfl, rfl⟩ := Prod.mk.inj hsame
  exact eq_ok_of_toOption hexec

/-- A control structure over `maxData` entries, in zeroed memory. -/
def zeroedCtl (maxData : UInt32) : BenchCtl where
  data := List.replicate maxData.toNat 0
  lastTsc := 0
  count := 0
  idx := 0
  maxData := maxData
  label := "ctl"
  a := .zero

theorem analysis_recent_wrapped :
    ∃ ctl ctl', Run (step id) (zeroedCtl 2) [.reset 0, .addValue 5, .addValue 3, .addValue 4] ctl ∧
      benchCtlPrintAnalysis id ctl = .ok ctl' ∧ ctl'.a.Of ([3, 4] : List Cycles) := by
  obtain ⟨ctl, hdrive⟩ : ∃ ctl, Run.drive (turn id) (zeroedCtl 2)
      [.reset 0, .addValue 5, .addValue 3, .addValue 4] = some (_, ctl) := ⟨_, rfl⟩
  have hrun := Run.of_drive step_of_turn hdrive
  obtain ⟨ctl', hprint, hof⟩ := (analysis_recent (e := ⟨[5, 3, 4], none⟩) rfl (by decide) hrun rfl
    (by decide) fun n hn => by cases hn).mpr (.inl (by decide))
  exact ⟨ctl, ctl', hrun, hprint, hof⟩

/-- **The second analysis shows the first one**: the value `2` has come in between. -/
theorem second_analysis_stale :
    ∃ ctl ctl', Run (step id) (zeroedCtl 1)
        [.reset 0, .addValue 1, .printAnalysis, .addValue 2] ctl ∧
      (zeroedCtl 1).epoch [.reset 0, .addValue 1, .printAnalysis, .addValue 2] =
        some ⟨[1, 2], some 1⟩ ∧
      benchCtlPrintAnalysis id ctl = .ok ctl' ∧ ctl'.a.min = 1 ∧
      ¬ ctl'.a.Of ((⟨[1, 2], some 1⟩ : Epoch).recent 1) := by
  obtain ⟨ctl, ctl', hdrive, hprint, hmin⟩ : ∃ ctl ctl', Run.drive (turn id) (zeroedCtl 1)
      [.reset 0, .addValue 1, .printAnalysis, .addValue 2] = some (_, ctl) ∧
      benchCtlPrintAnalysis id ctl = .ok ctl' ∧ ctl'.a.min = 1 := ⟨_, _, rfl, rfl, rfl⟩
  refine ⟨ctl, ctl', Run.of_drive step_of_turn hdrive, rfl, hprint, hmin, fun hof => ?_⟩
  have hleast := hof.min
  have hrecent : (⟨[1, 2], some 1⟩ : Epoch).recent 1 = [2] := rfl
  have hsort : (([2] : List Cycles) : Multiset Cycles).sort (· ≤ ·) = [2] :=
    Multiset.sort_singleton 2 (· ≤ ·)
  rw [hrecent, hsort, hmin] at hleast
  exact absurd hleast (by decide)

end Bench

end Smelt
