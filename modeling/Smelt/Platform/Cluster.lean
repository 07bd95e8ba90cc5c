/-
# The cores of a cluster

`src/platforms/linux/platform.c`: a cluster is a NUMA node, and its cores are the bits of a mask
that libnuma fills in.  `smlt_platform_cores_of_cluster` lists them in an array, and
`smlt_platform_num_cores_of_cluster` counts them.

The array is sized, and its length returned, by the average number of cores of a node.  So the
listing is right exactly for a cluster that has that many (`cores_of_cluster_iff`): with more cores
the loop writes past the array, and with fewer its end is not initialised.

An entry of an array that was allocated is `none` until it is written.  Allocations succeed.
-/
import Smelt.Message
import Smelt.Lib.Buffer
import Mathlib.Algebra.Group.Nat.Defs
import Mathlib.Data.List.Range

namespace Smelt

namespace Platform

open Buffer

/-! ## 1. libnuma -/

/-- `struct bitmask`: no bit is set beyond its size. -/
structure Bitmask where
  size : ℕ
  bit : ℕ → Bool
  bound : ∀ i, bit i = true → i < size

/-- `numa_bitmask_weight`. -/
def Bitmask.weight (mask : Bitmask) : ℕ := (List.range mask.size).countP mask.bit

/-- The configuration that libnuma reports.  The numbers are `int`; `nodeToCpus` is the mask that
`numa_node_to_cpus` fills in, and `none` when it fails. -/
structure Numa where
  configuredNodes : ℕ
  configuredCpus : ℕ
  nodeToCpus : UInt8 → Option Bitmask
  nodes_pos : 1 ≤ configuredNodes
  cpus_lt : configuredCpus < 2 ^ 31

/-- The masks are those of an assignment of the CPUs to nodes. -/
def Numa.Assigns (numa : Numa) (nodeOf : ℕ → ℕ) : Prop :=
  ∀ cluster mask, numa.nodeToCpus cluster = some mask →
    ∀ i, mask.bit i = true ↔ i < numa.configuredCpus ∧ nodeOf i = cluster.toNat

/-! ## 2. The two functions -/

/-- The loop over the CPUs; `j` counts the entries written. -/
def fillCores (mask : Bitmask) (k : Code (Option UInt32) (Errval × UInt32)) :
    List ℕ → ℕ → Code (Option UInt32) (Errval × UInt32)
  | [], _ => k
  | i :: is, j =>
    if mask.bit i then .call (.store j (some (UInt32.ofNat i))) fun _ => fillCores mask k is (j + 1)
    else fillCores mask k is j

/-- `node_size`, the length of the array. -/
def Numa.nodeSize (numa : Numa) : ℕ := numa.configuredCpus / numa.configuredNodes

/-- `smlt_platform_cores_of_cluster`, on the array that it allocates; it returns `*size`. -/
def coresOfCluster (numa : Numa) (cluster : UInt8) : Code (Option UInt32) (Errval × UInt32) :=
  match numa.nodeToCpus cluster with
  | some mask =>
    fillCores mask (.ret (success, UInt32.ofNat numa.nodeSize)) (List.range numa.configuredCpus) 0
  | none => .ret (errPush success .topologyInit, 0)

/-- `smlt_platform_num_cores_of_cluster`. -/
def numCoresOfCluster (numa : Numa) (cluster : UInt8) : UInt32 :=
  match numa.nodeToCpus cluster with
  | some mask => UInt32.ofNat mask.weight
  | none => 0

/-- The CPUs of a node, in ascending order. -/
def Numa.cpusOf (numa : Numa) (nodeOf : ℕ → ℕ) (cluster : UInt8) : List ℕ :=
  (List.range numa.configuredCpus).filter fun i => nodeOf i = cluster.toNat

/-- **The listing is exact.**  It stays in the array; and when it succeeds, `*size` is the number of
the cluster's CPUs, as the other function counts them, and the entries below it are these CPUs. -/
structure Numa.Lists (numa : Numa) (nodeOf : ℕ → ℕ) (cluster : UInt8) : Prop where
  inside : (coresOfCluster numa cluster).Only anyWord fun q => q.index < numa.nodeSize
  listed : ∀ cores size,
    (coresOfCluster numa cluster).run handle (fun _ => none) = some (cores, success, size) →
      size.toNat = (numa.cpusOf nodeOf cluster).length ∧ size = numCoresOfCluster numa cluster ∧
        ∀ k cpu, (numa.cpusOf nodeOf cluster)[k]? = some cpu → cores k = some (UInt32.ofNat cpu)

/-! ## 3. When it is -/

section Cluster

variable {numa : Numa} {nodeOf : ℕ → ℕ} {cluster : UInt8} {mask : Bitmask}

/-- The loop stores the CPUs of the mask one after the other. -/
theorem fillCores_eq (k : Code (Option UInt32) (Errval × UInt32)) (is : List ℕ) (j : ℕ) :
    fillCores mask k is j =
      storeFrom k j ((is.filter mask.bit).map fun i => some (UInt32.ofNat i)) := by
  induction is generalizing j with
  | nil => rfl
  | cons i is ih =>
    rw [fillCores, List.filter_cons]
    split
    · rw [List.map_cons, storeFrom, ih]
    · exact ih j

/-- They are the CPUs of the node. -/
theorem filter_mask (hassign : numa.Assigns nodeOf) (hmask : numa.nodeToCpus cluster = some mask) :
    (List.range numa.configuredCpus).filter mask.bit = numa.cpusOf nodeOf cluster := by
  refine List.filter_congr fun i hi => ?_
  have hbit := hassign cluster mask hmask i
  rw [Bool.eq_iff_iff, hbit, decide_eq_true_iff]
  exact and_iff_right (List.mem_range.mp hi)

/-- And the mask has no others. -/
theorem weight_mask (hassign : numa.Assigns nodeOf) (hmask : numa.nodeToCpus cluster = some mask) :
    mask.weight = (numa.cpusOf nodeOf cluster).length := by
  rw [Bitmask.weight, List.countP_eq_length_filter, ← filter_mask hassign hmask]
  refine (List.Perm.length_eq ?_)
  refine (List.perm_ext_iff_of_nodup (List.nodup_range.filter _) (List.nodup_range.filter _)).mpr
    fun i => ?_
  rw [List.mem_filter, List.mem_filter, List.mem_range, List.mem_range]
  refine and_congr_left fun hbit => iff_of_true (mask.bound i hbit) ?_
  exact ((hassign cluster mask hmask i).mp hbit).1

theorem length_cpusOf_lt : (numa.cpusOf nodeOf cluster).length < 2 ^ 31 := by
  have hle := List.length_filter_le (fun i => decide (nodeOf i = cluster.toNat))
    (List.range numa.configuredCpus)
  rw [List.length_range] at hle
  exact Nat.lt_of_le_of_lt hle numa.cpus_lt

/-- **The listing is exact exactly for a cluster of average size**, or when libnuma does not
know it. -/
theorem cores_of_cluster_iff (hassign : numa.Assigns nodeOf) :
    numa.Lists nodeOf cluster ↔
      numa.nodeToCpus cluster = none ∨
        (numa.cpusOf nodeOf cluster).length = numa.configuredCpus / numa.configuredNodes := by
  have hcount := @length_cpusOf_lt numa nodeOf cluster
  cases hmask : numa.nodeToCpus cluster with
  | none =>
    refine iff_of_true ⟨?_, fun cores size hrun => ?_⟩ (.inl rfl)
    · rw [coresOfCluster, hmask]
      trivial
    · rw [coresOfCluster, hmask] at hrun
      cases hrun
  | some mask =>
    have hsize : (UInt32.ofNat numa.nodeSize).toNat = numa.nodeSize := by
      have hle := Nat.div_le_self numa.configuredCpus numa.configuredNodes
      have hlt := numa.cpus_lt
      exact UInt32.toNat_ofNat_of_lt' (by simp only [Numa.nodeSize, UInt32.size]; omega)
    have hprog : coresOfCluster numa cluster = storeFrom
        (.ret (success, UInt32.ofNat numa.nodeSize)) 0
        ((numa.cpusOf nodeOf cluster).map fun i => some (UInt32.ofNat i)) := by
      simp only [coresOfCluster, hmask, fillCores_eq, filter_mask hassign hmask]
    have hnum : numCoresOfCluster numa cluster =
        UInt32.ofNat (numa.cpusOf nodeOf cluster).length := by
      simp only [numCoresOfCluster, hmask, weight_mask hassign hmask]
    constructor
    · intro h
      obtain ⟨hlen, -⟩ := h.listed _ _ (by rw [hprog, run_storeFrom]; rfl)
      exact .inr (hlen.symm.trans hsize)
    · rintro (hnone | hlen)
      · cases hnone
      · have hlen : (numa.cpusOf nodeOf cluster).length = numa.nodeSize := hlen
        refine ⟨?_, fun cores size hrun => ?_⟩
        · rw [hprog]
          refine only_storeFrom.mpr ⟨fun j v hv => ?_, trivial⟩
          have hj := (List.getElem?_eq_some_iff.mp hv).1
          rw [List.length_map, hlen] at hj
          simpa [Access.index] using hj
        · rw [hprog, run_storeFrom] at hrun
          obtain ⟨rfl, hret⟩ := Prod.mk.inj (Option.some.inj hrun)
          obtain rfl := (Prod.mk.inj hret).2
          refine ⟨hsize.trans hlen.symm, by rw [hnum, hlen], fun k cpu hcpu => ?_⟩
          have hentry : ((numa.cpusOf nodeOf cluster).map fun i => some (UInt32.ofNat i))[k]? =
              some (some (UInt32.ofNat cpu)) := by
            rw [List.getElem?_map, hcpu, Option.map_some]
          simpa using copyInto_getElem? (m := fun _ => none) (i := 0) hentry

end Cluster

/-- What libnuma reports of `cpus` CPUs on `nodes` nodes. -/
def Numa.of (nodes cpus : ℕ) (nodeOf : ℕ → ℕ) (hnodes : 1 ≤ nodes) (hcpus : cpus < 2 ^ 31) :
    Numa where
  configuredNodes := nodes
  configuredCpus := cpus
  nodeToCpus cluster :=
    if cluster.toNat < nodes then
      some ⟨cpus, fun i => decide (i < cpus ∧ nodeOf i = cluster.toNat),
        fun _ h => (of_decide_eq_true h).1⟩
    else none
  nodes_pos := hnodes
  cpus_lt := hcpus

theorem Numa.of_assigns {nodes cpus : ℕ} {nodeOf : ℕ → ℕ} (hnodes : 1 ≤ nodes)
    (hcpus : cpus < 2 ^ 31) : (Numa.of nodes cpus nodeOf hnodes hcpus).Assigns nodeOf := by
  intro cluster mask hmask i
  simp only [Numa.of] at hmask
  split at hmask
  · obtain rfl := Option.some.inj hmask
    exact decide_eq_true_iff
  · cases hmask

theorem cores_of_cluster_iff_even :
    (Numa.of 2 4 (· / 2) (by decide) (by decide)).Lists (· / 2) 1 :=
  (cores_of_cluster_iff (Numa.of_assigns (by decide) (by decide))).mpr (.inr (by decide))

/-- Three CPUs on the one node and one on the other. -/
def uneven : Numa := Numa.of 2 4 (· / 3) (by decide) (by decide)

/-- **Listing the larger node writes past the array**, and listing the smaller one returns an entry
that was not written. -/
theorem uneven_not_listed :
    uneven.Assigns (· / 3) ∧
      ¬ (coresOfCluster uneven 0).Only anyWord (fun q => q.index < uneven.nodeSize) ∧
      ∃ cores, (coresOfCluster uneven 1).run handle (fun _ => none) = some (cores, success, 2) ∧
        cores 1 = none ∧ numCoresOfCluster uneven 1 = 1 ∧ ¬ uneven.Lists (· / 3) 1 := by
  have hassign : uneven.Assigns (· / 3) := Numa.of_assigns (by decide) (by decide)
  refine ⟨hassign, fun honly => ?_, _, rfl, rfl, rfl, fun hlists => ?_⟩
  · -- the third store goes to index 2 of an array of two
    have hthird : 2 < uneven.nodeSize := ((honly.2 () trivial).2 () trivial).1
    exact absurd hthird (by decide)
  · exact absurd ((hlists.listed _ _ rfl).2.1) (by decide)

end Platform

end Smelt
