import Spp.Hash.Calls
import Spp.Lib.AssocList
import Spp.Lib.Run

/-!
# The hash map as a finite map

Two results about every run of the map on a freshly opened pool: the structure of the
pool is intact, and with `SetValue`, `Find` and `Delete` alone the map behaves like a
function from keys to values.

## Main definitions

* `WellFormed` — the structure of the pool, stated for the buckets.
* `MapOp`, `MapStep` — the calls on a finite map.
-/

namespace Spp

open Links AssocList

namespace HashMap

variable {K : Type} {hash : K → ℕ} {m : HashMap K} {L : Lists}

/-! ## The structure -/

/-- The nodes in the buckets. -/
def usedNodes (m : HashMap K) (L : Lists) : List ℕ := (List.range m.bucketSize).flatMap L.bucket

/-- The structure of the pool: its lists share out the nodes and the chunks, and its
counters count them. -/
structure WellFormed (hash : K → ℕ) (m : HashMap K) (L : Lists) : Prop where
  freeList : Chain m.nodeNext m.freeList L.free
  buckets : ∀ b, b < m.bucketSize → Linked m.nodeNext m.nodePrev (m.bucket b) (L.bucket b)
  /-- Every node is in exactly one of the free list or one bucket. -/
  nodes : (L.free ++ usedNodes m L).Perm (List.range m.nodeTotal)
  bucketId : ∀ b, b < m.bucketSize → ∀ i ∈ L.bucket b,
    u32 (hash (m.key i)) % m.bucketSize = b
  freeChunks : Chain m.allocator.next m.allocator.freeList L.freeChunks
  chunks : ∀ i ∈ usedNodes m L, Chain m.allocator.next (m.chunkHead i) (L.chunks i)
  /-- Every chunk is in exactly one of the free list or the chain of one used node. -/
  partition : (L.freeChunks ++ (usedNodes m L).flatMap L.chunks).Perm
    (List.range m.allocator.chunkTotal)
  chunkNum : ∀ i ∈ usedNodes m L,
    m.allocator.getChunkNum (m.chunkLen i) = some ((L.chunks i).length : ℤ)
  usedNodeNum : m.usedNodeNum = (usedNodes m L).length
  usedBucketNum : m.usedBucketNum = (usedBuckets m.bucketSize L.bucket).card
  freeTotal : m.allocator.freeTotal = L.freeChunks.length

/-- The access list holds the nodes in the buckets. -/
theorem Holds.usedNodes_perm (h : Holds hash m L) (hB : 0 < m.bucketSize ∨ L.add = []) :
    (usedNodes m L).Perm L.add := by
  refine (List.perm_ext_iff_of_nodup ?_ h.nodes.add_nodup).mpr fun i => ?_
  · refine List.nodup_flatMap.mpr ⟨fun b _ => h.nodes.bucket_nodup b, ?_⟩
    refine List.nodup_range.imp fun {b c} hbc => ?_
    intro i hib hic
    exact hbc (((h.nodes.mem_bucket b i).mp hib).2.symm.trans ((h.nodes.mem_bucket c i).mp hic).2)
  · rw [usedNodes, List.mem_flatMap]
    constructor
    · rintro ⟨b, -, hib⟩
      exact h.nodes.mem_add_of_bucket hib
    · intro hi
      rcases hB with hB | hnil
      · exact ⟨m.bucketOf hash i, List.mem_range.mpr (Nat.mod_lt _ hB),
          (h.nodes.mem_bucket _ i).mpr ⟨hi, rfl⟩⟩
      · rw [hnil] at hi
        simp at hi

theorem Holds.wellFormed (h : Holds hash m L) (hB : 0 < m.bucketSize ∨ L.add = []) :
    WellFormed hash m L := by
  have hperm := h.usedNodes_perm hB
  have hnodes := h.nodes.nodes
  rw [h.out, List.nil_append] at hnodes
  exact {
    freeList := h.nodes.free
    buckets := h.nodes.bucket
    nodes := (hperm.append_left _).trans hnodes
    bucketId := fun b _ i hi => ((h.nodes.mem_bucket b i).mp hi).2
    freeChunks := h.chunks.free
    chunks := fun i hi => h.chunks.chain i (hperm.mem_iff.mp hi)
    partition := ((hperm.flatMap_right _).append_left _).trans h.chunks.partition
    chunkNum := fun i hi => (h.chunks.sized i (hperm.mem_iff.mp hi)).2
    usedNodeNum := by rw [hperm.length_eq]; exact h.nodes.usedNodeNum
    usedBucketNum := h.nodes.usedBucketNum
    freeTotal := h.chunks.freeTotal }

theorem Stores.wellFormed {es : List (K × List UInt8)} (h : Stores hash m es) :
    ∃ L, WellFormed hash m L := by
  obtain ⟨L, h, -, hsizes⟩ := h
  exact ⟨L, h.wellFormed (hsizes.imp_left And.left)⟩

theorem openInit_sizes (pool : HashMap K) (nodeTotal bucketSize nChunks chunkSize : ℕ) :
    (pool.openInit nodeTotal bucketSize nChunks chunkSize).nodeTotal = nodeTotal ∧
      (pool.openInit nodeTotal bucketSize nChunks chunkSize).bucketSize = bucketSize ∧
      (pool.openInit nodeTotal bucketSize nChunks chunkSize).allocator.chunkTotal = nChunks ∧
      (pool.openInit nodeTotal bucketSize nChunks chunkSize).allocator.chunkSize = chunkSize := by
  obtain ⟨_, _, _, _, _, _, _, hrun, -⟩ := initLoop_spec { pool with
      nodeTotal := nodeTotal, bucketSize := bucketSize, usedNodeNum := 0, usedBucketNum := 0
      addHead := none, addTail := none, freeList := none
      bucket := (List.range bucketSize).foldl (fun f b => Function.update f b none) pool.bucket }
      rfl nodeTotal
  rw [openInit, initPoolData, hrun]
  exact ⟨rfl, rfl, rfl, rfl⟩

section
variable [DecidableEq K] (hash) (pool : HashMap K) (nodeTotal bucketSize nChunks chunkSize : ℕ)

/-- A run of calls goes along with a run of effects on the entries. -/
theorem run_stores {tr : List ({ op : Op K // op.NonNeg } × Out)} {m' : HashMap K}
    (hrun : Run.Allows (Calls hash) (pool.openInit nodeTotal bucketSize nChunks chunkSize) tr m') :
    ∃ es, Run.Allows (fun es op out es' => Effect es op.1 out es') [] tr es ∧
      Stores hash m' es := by
  have hstep : ∀ m es (op : { op : Op K // op.NonNeg }) out m', Stores hash m es →
      Calls hash m op out m' → ∃ es', Effect es op.1 out es' ∧ Stores hash m' es' :=
    fun _ _ op _ _ h hcall => h.call op.2 hcall
  exact Run.Allows.simulates hstep
    (stores_openInit pool nodeTotal bucketSize nChunks chunkSize) hrun

/-- The structure is intact, and there are buckets and chunks of some size. -/
def Ready (m : HashMap K) : Prop :=
  (∃ es, Stores hash m es) ∧ 0 < m.bucketSize ∧ 0 < m.allocator.chunkSize

omit [DecidableEq K] in
theorem ready_openInit (hB : 0 < bucketSize) (hsize : 0 < chunkSize) :
    Ready hash (pool.openInit nodeTotal bucketSize nChunks chunkSize) := by
  obtain ⟨-, hbucket, -, hchunk⟩ := openInit_sizes pool nodeTotal bucketSize nChunks chunkSize
  exact ⟨⟨[], stores_openInit pool nodeTotal bucketSize nChunks chunkSize⟩, by omega, by omega⟩

/-- Every call returns and leaves the pool ready for the next. -/
theorem Ready.call {m : HashMap K} (h : Ready hash m) (op : { op : Op K // op.NonNeg }) :
    ∃ out m', Calls hash m op out m' ∧ Ready hash m' := by
  obtain ⟨⟨es, h⟩, hB, hsize⟩ := h
  obtain ⟨out, m', hcall, hsame⟩ := h.call_returns hB hsize op.2
  obtain ⟨es', -, h'⟩ := h.call op.2 hcall
  exact ⟨out, m', hcall, ⟨es', h'⟩, by rw [hsame.bucketSize]; exact hB,
    by rw [hsame.chunkSize]; exact hsize⟩

/-- After every run of inserts, updates, deletes and lookups the structure of the pool is
intact; and with buckets and chunks of some size every call of a run returns. -/
theorem wellFormed_run :
    (∀ tr m', Run.Allows (Calls hash) (pool.openInit nodeTotal bucketSize nChunks chunkSize) tr m' →
      ∃ L, WellFormed hash m' L) ∧
    (0 < bucketSize → 0 < chunkSize → ∀ ops, ∃ tr m', tr.map Prod.fst = ops ∧
      Run.Allows (Calls hash) (pool.openInit nodeTotal bucketSize nChunks chunkSize) tr m') := by
  refine ⟨fun tr m' hrun => ?_, fun hB hsize ops => ?_⟩
  · obtain ⟨es, -, h⟩ := run_stores hash pool nodeTotal bucketSize nChunks chunkSize hrun
    exact h.wellFormed
  · exact Run.Allows.exists_of_total (fun _ op h => Ready.call hash h op)
      (ready_openInit hash pool nodeTotal bucketSize nChunks chunkSize hB hsize) ops

end

/-! ## The finite map -/

/-- A call on the finite map. -/
inductive MapOp (K : Type)
  | setValue (k : K) (data : ℕ → UInt8) (dataLen : ℕ)
  | find (k : K)
  | findBuf (k : K) (buf : Option (ℕ → UInt8)) (bufLen : Option ℤ)
  | delete (k : K)
  | getCount

def MapOp.toOp : MapOp K → { op : Op K // op.NonNeg }
  | .setValue k data dataLen => ⟨.setValue k data dataLen, Int.natCast_nonneg _⟩
  | .find k => ⟨.find k, trivial⟩
  | .findBuf k buf bufLen => ⟨.findBuf k buf bufLen, trivial⟩
  | .delete k => ⟨.delete k, trivial⟩
  | .getCount => ⟨.getCount, trivial⟩

/-- The finite map: what a call may return and what it does.  `SetValue` may refuse. -/
inductive MapStep [DecidableEq K] :
    (K → Option (List UInt8)) → MapOp K → Out → (K → Option (List UInt8)) → Prop
  | stored {t k data n} : MapStep t (.setValue k data n) (.ret 0)
      (Function.update t k (some (Mem.read data 0 n)))
  | refused {t k data n} : MapStep t (.setValue k data n) (.ret (-1)) t
  | find {t k} : MapStep t (.find k) (.found (t k).isSome) t
  | hit {t k v buf len} : t k = some v → MapStep t (.findBuf k buf len) (bufOut v buf len) t
  | miss {t k buf len} : t k = none → MapStep t (.findBuf k buf len) (.buf (-1) buf len) t
  | deleted {t k v} : t k = some v → MapStep t (.delete k) (.ret 0) (Function.update t k none)
  | absent {t k} : t k = none → MapStep t (.delete k) (.ret (-1)) t
  | count {t} : MapStep t .getCount (.ret { k | t k ≠ none }.ncard) t

variable [DecidableEq K]

/-- An effect on entries without a repeated key is a step of the finite map. -/
theorem Effect.mapStep {es es' : List (K × List UInt8)} {op : MapOp K} {out : Out}
    {t : K → Option (List UInt8)} (h : Effect es op.toOp.1 out es') (hrep : Rep es t) :
    ∃ t', MapStep t op out t' ∧ Rep es' t' := by
  cases op with
  | setValue k data n =>
      have hset : Effect es (.setValue k data (n : ℤ)) out es' := h
      generalize hlen : (n : ℤ) = len at hset
      cases hset with
      | setNew habsent hperm =>
          obtain rfl := Int.ofNat.inj hlen
          exact ⟨_, .stored, (hrep.cons habsent).perm hperm⟩
      | setOld hold hnew =>
          obtain rfl := Int.ofNat.inj hlen
          obtain ⟨-, hrest⟩ := (hrep.perm hold.symm).uncons
          have habsent := hrest.eq_none_iff.mp (Function.update_self k none t)
          have hstored := (hrest.cons (v := Mem.read data 0 n) habsent).perm hnew
          rw [Function.update_idem] at hstored
          exact ⟨_, .stored, hstored⟩
      | setFails hperm => exact ⟨t, .refused, hrep.perm hperm⟩
  | find k =>
      cases h with
      | findHit hmem hperm =>
          have hk := (hrep.mem _ _).mpr hmem
          have hstep := MapStep.find (t := t) (k := k)
          rw [hk] at hstep
          exact ⟨t, hstep, hrep.perm hperm⟩
      | findMiss habsent =>
          have hk := hrep.eq_none_iff.mpr habsent
          have hstep := MapStep.find (t := t) (k := k)
          rw [hk] at hstep
          exact ⟨t, hstep, hrep⟩
  | findBuf k buf len =>
      cases h with
      | bufHit hmem hperm => exact ⟨t, .hit ((hrep.mem _ _).mpr hmem), hrep.perm hperm⟩
      | bufMiss habsent => exact ⟨t, .miss (hrep.eq_none_iff.mpr habsent), hrep⟩
  | delete k =>
      cases h with
      | delete hperm =>
          obtain ⟨hk, hrest⟩ := (hrep.perm hperm.symm).uncons
          exact ⟨_, .deleted hk, hrest⟩
      | deleteMiss habsent => exact ⟨t, .absent (hrep.eq_none_iff.mpr habsent), hrep⟩
  | getCount =>
      cases h with
      | count =>
          have hstep := MapStep.count (t := t)
          rw [hrep.ncard] at hstep
          exact ⟨t, hstep, hrep⟩

section
variable (hash) (pool : HashMap K) (nodeTotal bucketSize nChunks chunkSize : ℕ)

/-- One call of the finite map's operations on the pool. -/
def MapCalls (m : HashMap K) (op : MapOp K) (out : Out) (m' : HashMap K) : Prop :=
  Calls hash m op.toOp out m'

/-- Every run of `SetValue`, `Find`, `Delete` and `GetCount` is a run of a finite map;
and with buckets and chunks of some size every call of a run returns. -/
theorem refines_map :
    (∀ tr m', Run.Allows (MapCalls hash)
        (pool.openInit nodeTotal bucketSize nChunks chunkSize) tr m' →
      ∃ t, Run.Allows MapStep (fun _ => none) tr t) ∧
    (0 < bucketSize → 0 < chunkSize → ∀ ops, ∃ tr m', tr.map Prod.fst = ops ∧
      Run.Allows (MapCalls hash)
        (pool.openInit nodeTotal bucketSize nChunks chunkSize) tr m') := by
  have hinit : Stores hash (pool.openInit nodeTotal bucketSize nChunks chunkSize) [] :=
    stores_openInit pool nodeTotal bucketSize nChunks chunkSize
  refine ⟨fun tr m' hrun => ?_, fun hB hsize ops => ?_⟩
  · have hstep : ∀ m t (op : MapOp K) out m', (∃ es, Stores hash m es ∧ Rep es t) →
        MapCalls hash m op out m' →
        ∃ t', MapStep t op out t' ∧ ∃ es', Stores hash m' es' ∧ Rep es' t' := by
      rintro m t op out m' ⟨es, h, hrep⟩ hcall
      obtain ⟨es', heffect, h'⟩ := h.call op.toOp.2 hcall
      obtain ⟨t', hmap, hrep'⟩ := heffect.mapStep hrep
      exact ⟨t', hmap, es', h', hrep'⟩
    obtain ⟨t, ht, -⟩ := Run.Allows.simulates hstep ⟨[], hinit, rep_nil⟩ hrun
    exact ⟨t, ht⟩
  · have hcall : ∀ m (op : MapOp K), Ready hash m →
        ∃ out m', MapCalls hash m op out m' ∧ Ready hash m' := fun _ op h => h.call hash op.toOp
    exact Run.Allows.exists_of_total hcall
      (ready_openInit hash pool nodeTotal bucketSize nChunks chunkSize hB hsize) ops

end
end HashMap
end Spp
