import Spp.Hash.Refine

/-!
# Opening a hash map that exists

`open` without `init` counts the buckets, the free nodes and the free chunks again, and compares
the numbers with the counters that the operations keep.  After every run they agree, and the
sizes are those that the pool was created with.

## Main definitions

* `countChain` — the length of a chain, counted by a walk.
* `verifyPoolData` — the checks of the allocator and of the map.
* `HashMap.openMap` — both ways to open a pool.
* `HashMap.sizes` — what a pool was created with.
-/

namespace Spp

open Links

/-- A walk along the links that counts, with `fuel` steps at most. -/
def countChain (next : ℕ → Option ℕ) : ℕ → Option ℕ → ℕ → Option ℕ
  | _, none, n => some n
  | 0, some _, _ => none
  | fuel + 1, some i, n => countChain next fuel (next i) (n + 1)

theorem countChain_eq {next : ℕ → Option ℕ} {head : Option ℕ} {l : List ℕ}
    (hl : Chain next head l) {fuel : ℕ} (hfuel : l.length ≤ fuel) (n : ℕ) :
    countChain next fuel head n = some (n + l.length) := by
  induction l generalizing head fuel n with
  | nil =>
      have hnone : head = none := hl
      rw [hnone, countChain]
      rfl
  | cons i l ih =>
      rw [chain_cons] at hl
      rw [List.length_cons] at hfuel ⊢
      cases fuel with
      | zero => omega
      | succ fuel =>
          rw [hl.1, countChain, ih hl.2 (by omega)]
          congr 1
          omega

/-- `CHUNK_ALLOCATOR_ERROR_DATA_VERIFY_FAIL`. -/
def chunkAllocatorErrorDataVerifyFail : ℤ := -4

/-- `HASH_MAP_ERROR_BASE`. -/
def hashMapErrorBase : ℤ := -1000

/-- `verify_pool_data` of the allocator. -/
def ChunkAllocator.verifyPoolData (a : ChunkAllocator) (nChunks chunkSize : ℤ) : Option ℤ :=
  if (a.chunkSize : ℤ) ≠ chunkSize ∨ (a.chunkTotal : ℤ) ≠ nChunks then
    some chunkAllocatorErrorDataVerifyFail
  else do
    let freeTotal ← countChain a.next a.chunkTotal a.freeList 0
    if (freeTotal : ℤ) ≠ a.freeTotal then some chunkAllocatorErrorDataVerifyFail
    else some 0

namespace HashMap

variable {K : Type}

/-- The buckets that are not empty, counted one after another. -/
def usedBucketCount (m : HashMap K) : ℕ :=
  (List.range m.bucketSize).foldl (fun n i => if m.bucket i ≠ none then n + 1 else n) 0

/-- `verify_pool_data`. -/
def verifyPoolData (m : HashMap K) (nodeTotal bucketSize : ℤ) : Option ℤ :=
  if nodeTotal ≠ m.nodeTotal then some hashMapErrorBase
  else if bucketSize ≠ m.bucketSize then some hashMapErrorBase
  else if (m.usedBucketCount : ℤ) ≠ m.usedBucketNum then some hashMapErrorBase
  else do
    let freeNodeCount ← countChain m.nodeNext m.nodeTotal m.freeList 0
    if m.usedNodeNum + freeNodeCount ≠ m.nodeTotal then some hashMapErrorBase else some 0

/-- `open`: the returned code and the pool.  A new pool is given no negative size. -/
def openMap (pool : HashMap K) (init : Bool) (nodeTotal bucketSize nChunks chunkSize : ℤ) :
    Option (ℤ × HashMap K) :=
  if init then
    some (0, pool.openInit nodeTotal.toNat bucketSize.toNat nChunks.toNat chunkSize.toNat)
  else do
    let ret ← pool.verifyPoolData nodeTotal bucketSize
    if ret ≠ 0 then some (ret, pool)
    else
      let ret ← pool.allocator.verifyPoolData nChunks chunkSize
      some (ret, pool)

/-- What a pool was created with. -/
def sizes (m : HashMap K) : ℕ × ℕ × ℕ × ℕ :=
  (m.nodeTotal, m.bucketSize, m.allocator.chunkTotal, m.allocator.chunkSize)

end HashMap

/-! ## No operation changes the sizes -/

namespace ChunkAllocator

/-- What a pool of chunks was created with. -/
def sizes (a : ChunkAllocator) : ℕ × ℕ := (a.chunkTotal, a.chunkSize)

variable {a a' : ChunkAllocator}

theorem sizes_mallocLoop {n : ℕ} {hd hd' : Option ℕ} (h : mallocLoop n hd a = some (hd', a')) :
    a'.sizes = a.sizes := by
  induction n generalizing hd a with
  | zero =>
      cases h
      rfl
  | succ n ih =>
      rw [mallocLoop, freeListRemove] at h
      cases hfree : a.freeList with
      | none => simp [hfree] at h
      | some i =>
          simp only [hfree] at h
          exact (ih h).trans rfl

theorem sizes_malloc {n : ℤ} {hd : Option ℕ} (h : a.malloc n = some (hd, a')) :
    a'.sizes = a.sizes := by
  rw [malloc] at h
  split at h
  · cases h
    rfl
  · split at h
    · cases h
    next hloop =>
      cases h
      exact (sizes_mallocLoop hloop : _ = a.sizes)

theorem sizes_freeLoop {fuel : ℕ} {hd : Option ℕ} (h : freeLoop fuel hd a = some a') :
    a'.sizes = a.sizes := by
  induction fuel generalizing hd a with
  | zero =>
      cases hd with
      | none =>
          cases h
          rfl
      | some i => cases h
  | succ fuel ih =>
      cases hd with
      | none =>
          cases h
          rfl
      | some i =>
          rw [freeLoop] at h
          exact (ih h).trans rfl

theorem sizes_splitLoop {dataBuf : ℕ → UInt8} {fuel readPos : ℕ} {hd : Option ℕ} {remainLen : ℤ}
    (h : splitLoop dataBuf fuel hd readPos remainLen a = some a') : a'.sizes = a.sizes := by
  induction fuel generalizing hd readPos remainLen a with
  | zero =>
      cases hd with
      | none =>
          cases h
          rfl
      | some i => cases h
  | succ fuel ih =>
      cases hd with
      | none =>
          cases h
          rfl
      | some i =>
          rw [splitLoop] at h
          split at h
          · split at h
            · cases h
            · cases h
              rfl
          · exact (ih h).trans rfl

end ChunkAllocator

namespace HashMap

variable {K : Type} {hash : K → ℕ} {m m' : HashMap K} {i : ℕ}

theorem sizes_setAllocator {a : ChunkAllocator} (h : a.sizes = m.allocator.sizes) :
    ({ m with allocator := a } : HashMap K).sizes = m.sizes := by
  simp only [ChunkAllocator.sizes, Prod.mk.injEq] at h
  simp only [sizes, h.1, h.2]

@[simp] theorem sizes_deleteFromAddList (m : HashMap K) (i : ℕ) :
    (m.deleteFromAddList i).sizes = m.sizes := by
  rw [deleteFromAddList]
  split <;> rfl

@[simp] theorem sizes_insertAddListHead (m : HashMap K) (i : ℕ) :
    (m.insertAddListHead i).sizes = m.sizes := sizes_deleteFromAddList m i

theorem sizes_deleteFromNodeList (h : m.deleteFromNodeList hash i = some m') :
    m'.sizes = m.sizes := by
  simp only [deleteFromNodeList, Option.bind_eq_bind, Option.bind_eq_some_iff,
    Option.some.injEq] at h
  rcases h with ⟨b, -, rfl⟩
  rfl

theorem sizes_useNode {k : K} {len : ℤ} {head : Option ℕ}
    (h : m.useNode hash i k len head = some m') : m'.sizes = m.sizes := by
  simp only [useNode, insertNodeList, Option.bind_eq_bind, Option.bind_eq_some_iff,
    Option.some.injEq] at h
  rcases h with ⟨b, -, n, -, b', -, rfl⟩
  by_cases hn : n = 0 <;> simp [sizes, hn]

theorem sizes_freeNode (h : m.freeNode hash i = some m') : m'.sizes = m.sizes := by
  simp only [freeNode, Option.bind_eq_bind, Option.bind_eq_some_iff, Option.some.injEq] at h
  rcases h with ⟨m₁, hdel, a, hfree, b, -, n, -, rfl⟩
  have hsizes := (sizes_setAllocator (ChunkAllocator.sizes_freeLoop hfree)).trans
    (sizes_deleteFromNodeList hdel)
  rw [← hsizes]
  by_cases hn : n = 0 <;> simp [sizes, initNode, hn]

section
variable [DecidableEq K]

theorem sizes_findNode {k : K} {r : Option ℕ} (h : m.findNode hash k = some (r, m')) :
    m'.sizes = m.sizes := by
  simp only [findNode, Option.bind_eq_bind, Option.bind_eq_some_iff] at h
  rcases h with ⟨b, -, r', -, h⟩
  cases r' with
  | none =>
      cases h
      rfl
  | some i =>
      cases h
      exact sizes_insertAddListHead m i

end

theorem sizes_insertNode {k : K} {newData : ℕ → UInt8} {newLen : ℤ} {r : Option ℕ}
    (h : m.insertNode hash k newData newLen = some (r, m')) : m'.sizes = m.sizes := by
  rw [insertNode, freeListRemove] at h
  cases hfree : m.freeList with
  | none =>
      simp only [hfree, Option.some.injEq, Prod.mk.injEq] at h
      rw [h.2]
  | some i =>
      simp only [hfree, Option.bind_eq_bind, Option.bind_eq_some_iff, Prod.exists] at h
      rcases h with ⟨c, -, hd, a, hmalloc, h⟩
      have hsizes := ChunkAllocator.sizes_malloc hmalloc
      cases hd with
      | none =>
          simp only [Option.some.injEq, Prod.mk.injEq] at h
          rw [← h.2]
          exact sizes_setAllocator hsizes
      | some hd =>
          simp only [Option.bind_eq_some_iff, Option.some.injEq, Prod.mk.injEq] at h
          rcases h with ⟨a', hsplit, m₁, huse, -, rfl⟩
          have hsizes' := (ChunkAllocator.sizes_splitLoop hsplit).trans hsizes
          rw [sizes_insertAddListHead, sizes_useNode huse]
          exact sizes_setAllocator hsizes'

theorem sizes_storeNode {newData : ℕ → UInt8} {newLen : ℤ} {ok : Bool}
    (h : m.storeNode i newData newLen = some (ok, m')) : m'.sizes = m.sizes := by
  simp only [storeNode, Option.bind_eq_bind, Option.bind_eq_some_iff] at h
  rcases h with ⟨c, -, c', -, h⟩
  split at h
  · split at h
    · cases h
      rfl
    · simp only [Option.bind_eq_some_iff, Prod.exists, Option.some.injEq, Prod.mk.injEq] at h
      rcases h with ⟨a, hfree, hd, a', hmalloc, a'', hsplit, -, rfl⟩
      exact sizes_setAllocator ((ChunkAllocator.sizes_splitLoop hsplit).trans
        ((ChunkAllocator.sizes_malloc hmalloc).trans (ChunkAllocator.sizes_freeLoop hfree)))
  · simp only [Option.bind_eq_some_iff, Option.some.injEq, Prod.mk.injEq] at h
    rcases h with ⟨a, hsplit, -, rfl⟩
    exact sizes_setAllocator (ChunkAllocator.sizes_splitLoop hsplit)

theorem sizes_updateNode {newData : ℕ → UInt8} {newLen : ℤ} {oldData : Option (ℕ → UInt8)}
    {oldLen : Option ℤ} {r : Bool × HashMap K × Option (ℕ → UInt8) × Option ℤ}
    (h : m.updateNode i newData newLen oldData oldLen = some r) : r.2.1.sizes = m.sizes := by
  simp only [updateNode, Option.bind_eq_bind, Option.bind_eq_some_iff, Prod.exists] at h
  rcases h with ⟨ret, buf, len, -, h⟩
  split at h
  · cases h
    rfl
  · simp only [Option.bind_eq_some_iff, Prod.exists, Option.some.injEq] at h
    rcases h with ⟨ok, m₁, hstore, rfl⟩
    exact sizes_storeNode hstore

theorem sizes_deleteNode {data : Option (ℕ → UInt8)} {dataLen : Option ℤ}
    {r : ℤ × HashMap K × Option (ℕ → UInt8) × Option ℤ}
    (h : m.deleteNode hash i data dataLen = some r) : r.2.1.sizes = m.sizes := by
  simp only [deleteNode, Option.bind_eq_bind, Option.bind_eq_some_iff, Prod.exists] at h
  rcases h with ⟨ret, buf, len, -, h⟩
  split at h
  · cases h
    rfl
  · simp only [Option.bind_eq_some_iff, Option.some.injEq] at h
    rcases h with ⟨m₁, hfree, rfl⟩
    have hsizes := sizes_freeNode hfree
    rw [sizes_deleteFromAddList] at hsizes
    exact hsizes

variable [DecidableEq K]

theorem sizes_replaceNode {k : K} {newData : ℕ → UInt8} {newLen : ℤ}
    {oldData : Option (ℕ → UInt8)} {oldLen : Option ℤ}
    {r : Bool × HashMap K × Option (ℕ → UInt8) × Option ℤ}
    (h : m.replaceNode hash k newData newLen oldData oldLen = some r) :
    r.2.1.sizes = m.sizes := by
  simp only [replaceNode, Option.bind_eq_bind, Option.bind_eq_some_iff, Prod.exists] at h
  rcases h with ⟨node, m₁, hfind, h⟩
  rw [← sizes_findNode hfind]
  cases node with
  | some i => exact sizes_updateNode h
  | none =>
      simp only [Option.bind_eq_some_iff, Prod.exists, Option.some.injEq] at h
      rcases h with ⟨node, m₂, hinsert, rfl⟩
      exact sizes_insertNode hinsert

/-- No call changes the sizes of the pool. -/
theorem sizes_call {op : Op K} {out : Out} (h : m.call hash op = some (out, m')) :
    m'.sizes = m.sizes := by
  cases op with
  | insert k data len =>
      simp only [call, insert, Option.bind_eq_bind, Option.map_eq_some_iff,
        Option.bind_eq_some_iff, Prod.exists, Option.some.injEq, Prod.mk.injEq] at h
      rcases h with ⟨ret, _, ⟨r, m₁, hinsert, -, rfl⟩, -, rfl⟩
      exact sizes_insertNode hinsert
  | setValue k data len =>
      simp only [call, setValue, Option.bind_eq_bind, Option.map_eq_some_iff,
        Option.bind_eq_some_iff, Prod.exists, Option.some.injEq, Prod.mk.injEq] at h
      rcases h with ⟨ret, _, ⟨ok, m₁, buf, l, hreplace, -, rfl⟩, -, rfl⟩
      exact sizes_replaceNode hreplace
  | find k =>
      simp only [call, find, Option.bind_eq_bind, Option.map_eq_some_iff,
        Option.bind_eq_some_iff, Prod.exists, Option.some.injEq, Prod.mk.injEq] at h
      rcases h with ⟨ret, _, ⟨r, m₁, hfind, -, rfl⟩, -, rfl⟩
      exact sizes_findNode hfind
  | findBuf k buf bufLen =>
      simp only [call, findBuf, Option.bind_eq_bind, Option.map_eq_some_iff,
        Option.bind_eq_some_iff, Prod.exists, Prod.mk.injEq] at h
      rcases h with ⟨ret, buf', bufLen', m₁, ⟨node, m₂, hfind, hfound⟩, -, rfl⟩
      rw [← sizes_findNode hfind]
      cases node with
      | none =>
          cases hfound
          rfl
      | some i =>
          simp only [Option.bind_eq_some_iff, Prod.exists, Option.some.injEq,
            Prod.mk.injEq] at hfound
          rcases hfound with ⟨_, _, _, -, -, -, -, rfl⟩
          rfl
  | delete k =>
      simp only [call, delete, Option.bind_eq_bind, Option.map_eq_some_iff,
        Option.bind_eq_some_iff, Prod.exists, Prod.mk.injEq] at h
      rcases h with ⟨ret, m₁, ⟨node, m₂, hfind, hfound⟩, -, rfl⟩
      rw [← sizes_findNode hfind]
      cases node with
      | none =>
          cases hfound
          rfl
      | some i =>
          simp only [Option.bind_eq_some_iff, Prod.exists, Option.some.injEq,
            Prod.mk.injEq] at hfound
          rcases hfound with ⟨_, _, _, _, hdelete, -, rfl⟩
          exact sizes_deleteNode hdelete
  | updateData n data len =>
      rw [call] at h
      cases hvisit : m.visit n with
      | none =>
          simp only [hvisit, Option.some.injEq, Prod.mk.injEq] at h
          rw [h.2]
      | some i =>
          simp only [hvisit, Option.map_eq_some_iff, Prod.mk.injEq] at h
          rcases h with ⟨r, hupdate, -, rfl⟩
          exact sizes_updateNode hupdate
  | erase n =>
      rw [call] at h
      cases hvisit : m.visit n with
      | none =>
          simp only [hvisit, Option.some.injEq, Prod.mk.injEq] at h
          rw [h.2]
      | some i =>
          simp only [hvisit, Option.map_eq_some_iff, Prod.mk.injEq] at h
          rcases h with ⟨r, hdelete, -, rfl⟩
          exact sizes_deleteNode hdelete
  | getCount =>
      cases h
      rfl

/-- No run changes the sizes of the pool. -/
theorem sizes_run {tr : List ({ op : Op K // op.NonNeg } × Out)}
    (hrun : Run.Allows (Calls hash) m tr m') : m'.sizes = m.sizes := by
  induction hrun with
  | nil => rfl
  | cons hcall _ ih => exact ih.trans (sizes_call hcall)

omit [DecidableEq K] in
theorem sizes_openInit (pool : HashMap K) (nodeTotal bucketSize nChunks chunkSize : ℕ) :
    (pool.openInit nodeTotal bucketSize nChunks chunkSize).sizes =
      (nodeTotal, bucketSize, nChunks, chunkSize) := by
  obtain ⟨hnodes, hbuckets, hchunks, hsize⟩ :=
    openInit_sizes pool nodeTotal bucketSize nChunks chunkSize
  rw [sizes, hnodes, hbuckets, hchunks, hsize]

/-! ## What the checks count -/

section
omit [DecidableEq K]
variable {L : Lists} {es : List (K × List UInt8)}

theorem usedBucketCount_eq (m : HashMap K) :
    m.usedBucketCount = ((Finset.range m.bucketSize).filter fun b => m.bucket b ≠ none).card := by
  have hcount : ∀ n, (List.range n).foldl (fun n i => if m.bucket i ≠ none then n + 1 else n) 0 =
      ((Finset.range n).filter fun b => m.bucket b ≠ none).card := by
    intro n
    induction n with
    | zero => rfl
    | succ n ih =>
        rw [List.range_succ, List.foldl_append, ih, Finset.range_add_one, Finset.filter_insert]
        by_cases hn : m.bucket n = none <;> simp [hn]
  exact hcount m.bucketSize

/-- The buckets that are counted are the buckets with a node. -/
theorem Holds.usedBucketCount (h : Holds hash m L) :
    (m.usedBucketCount : ℤ) = m.usedBucketNum := by
  have hsame : ((Finset.range m.bucketSize).filter fun b => m.bucket b ≠ none) =
      usedBuckets m.bucketSize L.bucket := by
    apply Finset.filter_congr
    intro b hb
    rw [(h.nodes.bucket b (Finset.mem_range.mp hb)).chain.head]
    simp
  rw [usedBucketCount_eq, hsame, h.nodes.usedBucketNum]

theorem Holds.verifyPoolData (h : Holds hash m L) :
    m.verifyPoolData m.nodeTotal m.bucketSize = some 0 := by
  have hnodes := h.nodes.nodes.length_eq
  rw [h.out, List.nil_append, List.length_append, List.length_range] at hnodes
  have hcount : countChain m.nodeNext m.nodeTotal m.freeList 0 = some L.free.length := by
    rw [countChain_eq h.nodes.free (by omega), Nat.zero_add]
  have hnum := h.nodes.usedNodeNum
  simp only [HashMap.verifyPoolData, h.usedBucketCount, hcount, Option.bind_eq_bind,
    Option.bind_some, ne_eq, not_true_eq_false, if_false]
  rw [if_neg (by omega)]

theorem Holds.verifyAllocator (h : Holds hash m L) :
    m.allocator.verifyPoolData m.allocator.chunkTotal m.allocator.chunkSize = some 0 := by
  have hchunks := h.chunks.partition.length_eq
  rw [List.length_append, List.length_range] at hchunks
  have hcount : countChain m.allocator.next m.allocator.chunkTotal m.allocator.freeList 0 =
      some L.freeChunks.length := by
    rw [countChain_eq h.chunks.free (by omega), Nat.zero_add]
  simp [ChunkAllocator.verifyPoolData, hcount, h.chunks.freeTotal]

/-- The sizes that a pool was created with open it. -/
theorem Stores.openMap (h : Stores hash m es) :
    m.openMap false m.nodeTotal m.bucketSize m.allocator.chunkTotal m.allocator.chunkSize =
      some (0, m) := by
  cases h with
  | intro L h =>
      simp [HashMap.openMap, h.1.verifyPoolData, h.1.verifyAllocator]

/-- Other sizes do not. -/
theorem Stores.openMap_of_ne (h : Stores hash m es) {nodeTotal bucketSize nChunks chunkSize : ℤ}
    (hne : ¬(nodeTotal = m.nodeTotal ∧ bucketSize = m.bucketSize ∧
      nChunks = m.allocator.chunkTotal ∧ chunkSize = m.allocator.chunkSize)) :
    ∃ ret, ret < 0 ∧
      m.openMap false nodeTotal bucketSize nChunks chunkSize = some (ret, m) := by
  cases h with
  | intro L h =>
      by_cases hnode : nodeTotal = m.nodeTotal
      · by_cases hbucket : bucketSize = m.bucketSize
        · have hchunk : (m.allocator.chunkSize : ℤ) ≠ chunkSize ∨
              (m.allocator.chunkTotal : ℤ) ≠ nChunks := by omega
          refine ⟨chunkAllocatorErrorDataVerifyFail, by decide, ?_⟩
          simp [HashMap.openMap, hnode, hbucket, h.1.verifyPoolData,
            ChunkAllocator.verifyPoolData, hchunk]
        · refine ⟨hashMapErrorBase, by decide, ?_⟩
          simp [HashMap.openMap, HashMap.verifyPoolData, hnode, hbucket, hashMapErrorBase]
      · refine ⟨hashMapErrorBase, by decide, ?_⟩
        simp [HashMap.openMap, HashMap.verifyPoolData, hnode, hashMapErrorBase]

end

/-! ## Every run -/

/-- After every run the pool stores something, and has the sizes that it was created with. -/
theorem stores_of_run {pool : HashMap K} {nodeTotal bucketSize nChunks chunkSize : ℕ}
    {tr : List ({ op : Op K // op.NonNeg } × Out)}
    (hrun : Run.Allows (Calls hash) (pool.openInit nodeTotal bucketSize nChunks chunkSize) tr m') :
    (∃ es, Stores hash m' es) ∧ m'.nodeTotal = nodeTotal ∧ m'.bucketSize = bucketSize ∧
      m'.allocator.chunkTotal = nChunks ∧ m'.allocator.chunkSize = chunkSize := by
  obtain ⟨es, -, h⟩ := run_stores hash pool nodeTotal bucketSize nChunks chunkSize hrun
  have hsizes := (sizes_run hrun).trans
    (sizes_openInit pool nodeTotal bucketSize nChunks chunkSize)
  simp only [sizes, Prod.mk.injEq] at hsizes
  exact ⟨⟨es, h⟩, hsizes⟩

/-- After every run the sizes that the pool was created with open it. -/
theorem openMap_of_run {pool : HashMap K} {nodeTotal bucketSize nChunks chunkSize : ℕ}
    {tr : List ({ op : Op K // op.NonNeg } × Out)}
    (hrun : Run.Allows (Calls hash) (pool.openInit nodeTotal bucketSize nChunks chunkSize) tr m') :
    m'.openMap false nodeTotal bucketSize nChunks chunkSize = some (0, m') := by
  obtain ⟨⟨es, h⟩, rfl, rfl, rfl, rfl⟩ := stores_of_run hrun
  exact h.openMap

/-- After every run the pool opens again with the sizes that it was created with, and with no
others; opening changes nothing. -/
theorem reopen_run (pool : HashMap K) (nodeTotal bucketSize nChunks chunkSize : ℕ)
    {tr : List ({ op : Op K // op.NonNeg } × Out)}
    (hrun : Run.Allows (Calls hash) (pool.openInit nodeTotal bucketSize nChunks chunkSize) tr m') :
    m'.openMap false nodeTotal bucketSize nChunks chunkSize = some (0, m') ∧
    ∀ nodeTotal' bucketSize' nChunks' chunkSize' : ℤ,
      ¬(nodeTotal' = nodeTotal ∧ bucketSize' = bucketSize ∧ nChunks' = nChunks ∧
        chunkSize' = chunkSize) →
      ∃ ret, ret < 0 ∧
        m'.openMap false nodeTotal' bucketSize' nChunks' chunkSize' = some (ret, m') := by
  constructor
  · exact openMap_of_run hrun
  · intro a b c d hne
    obtain ⟨⟨es, h⟩, rfl, rfl, rfl, rfl⟩ := stores_of_run hrun
    exact h.openMap_of_ne hne

/-- A pool opens again after an insert. -/
theorem reopen_insert :
    ∃ tr m', tr.map Prod.fst = [⟨.insert 7 (fun _ => 65) 3, Int.natCast_nonneg 3⟩] ∧
      Run.Allows (Calls id) (openInit (default : HashMap ℕ) 2 3 4 8) tr m' ∧
      m'.openMap false 2 3 4 8 = some (0, m') := by
  obtain ⟨tr, m', htr, hrun⟩ := Run.Allows.exists_of_total (fun _ op h => Ready.call id h op)
    (ready_openInit id (default : HashMap ℕ) 2 3 4 8 (by decide) (by decide))
    [⟨.insert 7 (fun _ => 65) 3, Int.natCast_nonneg 3⟩]
  exact ⟨tr, m', htr, hrun, (reopen_run default 2 3 4 8 hrun).1⟩

end HashMap

end Spp
