import Spp.Hash.Nodes
import Spp.Hash.Chunks

/-!
# The structure of the hash map

The nodes and the chunks together: which lists they spell, and what each operation
does to the lists and to the stored values.  An operation that returns an error leaves
the pool as it was.

## Main definitions

* `Lists` — the lists of nodes and of chunks.
* `Holds` — the pool spells the lists.
* `entries` — the keys with their values, the one that was accessed last in front.
-/

namespace Spp

open Links ChunkAllocator

/-- The lists of nodes and of chunks. -/
structure Lists extends NodeLists where
  freeChunks : List ℕ
  chunks : ℕ → List ℕ

namespace HashMap

variable {K : Type} (hash : K → ℕ)

/-- The pool spells the lists, and no node is taken out of them. -/
structure Holds (m : HashMap K) (L : Lists) : Prop where
  nodes : NodesHold hash m L.toNodeLists
  chunks : ChunksHold m.allocator m.chunkHead m.chunkLen L.add L.freeChunks L.chunks
  out : L.out = []

/-- The key and the value of a node. -/
def entry (m : HashMap K) (L : Lists) (i : ℕ) : K × List UInt8 :=
  (m.key i, m.allocator.value m.chunkLen L.chunks i)

/-- The keys with their values, in the order of access. -/
def entries (m : HashMap K) (L : Lists) : List (K × List UInt8) := L.add.map (m.entry L)

/-- What no operation changes. -/
structure SameSizes (m m' : HashMap K) : Prop where
  bucketSize : m'.bucketSize = m.bucketSize
  chunkSize : m'.allocator.chunkSize = m.allocator.chunkSize

variable {hash} {m : HashMap K} {L : Lists} {i : ℕ}

theorem entries_perm (hi : i ∈ L.add) :
    (m.entries L).Perm (m.entry L i :: (L.add.erase i).map (m.entry L)) :=
  (List.perm_cons_erase hi).map _

/-- The chunks, with one used node in front. -/
theorem Holds.chunks_cons (h : Holds hash m L) (hi : i ∈ L.add) :
    ChunksHold m.allocator m.chunkHead m.chunkLen (i :: L.add.erase i) L.freeChunks L.chunks :=
  h.chunks.perm (List.perm_cons_erase hi).symm

theorem Holds.not_mem_erase (h : Holds hash m L) : i ∉ L.add.erase i :=
  List.Nodup.not_mem_erase h.nodes.add_nodup

/-! ## A new pool -/

theorem foldl_update_none (f : ℕ → Option ℕ) (n : ℕ) :
    ∀ b, b < n → (List.range n).foldl (fun f b => Function.update f b none) f b = none := by
  induction n with
  | zero => simp
  | succ n ih =>
      intro b hb
      rw [List.range_succ, List.foldl_append]
      change Function.update
        ((List.range n).foldl (fun f b => Function.update f b none) f) n none b = none
      by_cases hbn : b = n
      · rw [hbn, Function.update_self]
      · rw [Function.update_of_ne hbn]
        exact ih b (by omega)

/-- The loop of `init_pool_data` resets the nodes and puts them on the free list. -/
theorem initLoop_spec (m : HashMap K) (hfree : m.freeList = none) (n : ℕ) :
    ∃ chunkLen chunkHead nodeNext nodePrev addNext addPrev freeList,
      (List.range n).foldl (fun m i => (m.initNode i).freeListInsert i) m =
        { m with
          chunkLen := chunkLen, chunkHead := chunkHead, nodeNext := nodeNext
          nodePrev := nodePrev, addNext := addNext, addPrev := addPrev, freeList := freeList } ∧
      Chain nodeNext freeList (List.range n).reverse ∧
      ∀ j, j < n → addNext j = none ∧ addPrev j = none := by
  induction n with
  | zero => exact ⟨_, _, _, _, _, _, _, rfl, hfree, by simp⟩
  | succ n ih =>
      obtain ⟨chunkLen, chunkHead, nodeNext, nodePrev, addNext, addPrev, freeList, hrun, hchain,
        hidle⟩ := ih
      refine ⟨Function.update chunkLen n 0, Function.update chunkHead n none,
        Function.update (Function.update nodeNext n none) n freeList,
        Function.update nodePrev n none, Function.update addNext n none,
        Function.update addPrev n none, some n, ?_, ?_, fun j hj => ?_⟩
      · rw [List.range_succ, List.foldl_append, hrun]
        rfl
      · rw [Function.update_idem, List.range_succ, List.reverse_append]
        exact hchain.push (by simp)
      · by_cases hjn : j = n
        · rw [hjn, Function.update_self, Function.update_self]
          exact ⟨rfl, rfl⟩
        · rw [Function.update_of_ne hjn, Function.update_of_ne hjn]
          exact hidle j (by omega)

/-- A pool that has just been opened is empty. -/
theorem holds_openInit (pool : HashMap K) (nodeTotal bucketSize nChunks chunkSize : ℕ) :
    Holds hash (pool.openInit nodeTotal bucketSize nChunks chunkSize)
      ⟨⟨[], (List.range nodeTotal).reverse, fun _ => [], []⟩, (List.range nChunks).reverse,
        fun _ => []⟩ := by
  obtain ⟨chunkLen, chunkHead, nodeNext, nodePrev, addNext, addPrev, freeList, hrun, hchain,
    hidle⟩ := initLoop_spec { pool with
      nodeTotal := nodeTotal, bucketSize := bucketSize, usedNodeNum := 0, usedBucketNum := 0
      addHead := none, addTail := none, freeList := none
      bucket := (List.range bucketSize).foldl (fun f b => Function.update f b none) pool.bucket }
      rfl nodeTotal
  rw [openInit, initPoolData, hrun]
  refine ⟨⟨hchain, fun b hb => ?_, by simp, by simp, ⟨⟨rfl, trivial⟩, rfl, ?_⟩, ?_, rfl, ?_⟩,
    ChunksHold.init _ _ _ _ _ _, rfl⟩
  · exact ⟨foldl_update_none _ _ b hb, trivial⟩
  · exact fun j hj _ => hidle j hj
  · simp [List.reverse_perm]
  · simp [usedBuckets]

/-! ## Lookups -/

/-- The lists after an access. -/
def Lists.touch (L : Lists) (i : ℕ) : Lists := { L with add := i :: L.add.erase i }

theorem entries_touch (hi : i ∈ L.add) : (m.entries (Lists.touch L i)).Perm (m.entries L) :=
  ((List.perm_cons_erase hi).map _).symm

/-- What an access changes: the access list. -/
theorem Holds.touch (h : Holds hash m L) (hi : i ∈ L.add) :
    ∃ next prev head tail,
      m.insertAddListHead i =
        { m with addNext := next, addPrev := prev, addHead := head, addTail := tail } ∧
      Holds hash (m.insertAddListHead i) (Lists.touch L i) := by
  obtain ⟨next, prev, head, tail, heq, hnodes⟩ := h.nodes.touch hi
  refine ⟨next, prev, head, tail, heq, hnodes, ?_, h.out⟩
  rw [heq]
  exact h.chunks_cons hi

section
variable [DecidableEq K]

/-- `find_node` returns a used node with the key, if there is one. -/
theorem NodesHold.findNode {L : NodeLists} (h : NodesHold hash m L) (hB : 0 < m.bucketSize)
    (k : K) :
    (m.findNode hash k = some (none, m) ∧ ∀ i ∈ L.add, m.key i ≠ k) ∨
      ∃ i ∈ L.add, m.key i = k ∧ m.findNode hash k = some (some i, m.insertAddListHead i) := by
  have hb : u32 (hash k) % m.bucketSize < m.bucketSize := Nat.mod_lt _ hB
  have hloop := findLoop_spec (k := k) (h.bucket _ hb).chain (h.length_bucket_le _)
  have hfind : m.findNode hash k = ((L.bucket (u32 (hash k) % m.bucketSize)).find?
      fun i => m.key i = k).elim (some (none, m)) fun i => some (some i, m.insertAddListHead i) := by
    rw [HashMap.findNode, getBucketId_eq hB]
    simp only [Option.bind_eq_bind, Option.bind_some, hloop]
    cases (L.bucket (u32 (hash k) % m.bucketSize)).find? fun i => m.key i = k <;> rfl
  cases hres : (L.bucket (u32 (hash k) % m.bucketSize)).find? fun i => m.key i = k with
  | none =>
      left
      refine ⟨by rw [hfind, hres]; rfl, fun i hi hk => ?_⟩
      have hib : i ∈ L.bucket (u32 (hash k) % m.bucketSize) :=
        (h.mem_bucket _ i).mpr ⟨hi, by rw [bucketOf, hk]⟩
      exact absurd (List.find?_eq_none.mp hres i hib) (by simp [hk])
  | some i =>
      right
      have hib := List.mem_of_find?_eq_some hres
      have hk := List.find?_some hres
      exact ⟨i, h.mem_add_of_bucket hib, by simpa using hk, by rw [hfind, hres]; rfl⟩

end

/-! ## Writing a value -/

/-- The part of `update_node` that stores fails without an effect, or stores. -/
theorem Holds.storeNode (h : Holds hash m L) (hi : i ∈ L.add) (hsize : 0 < m.allocator.chunkSize)
    (newData : ℕ → UInt8) (n : ℕ) :
    m.storeNode i newData n = some (false, m) ∨
      ∃ a len head L', m.storeNode i newData n = some (true, { m with
          allocator := a, chunkLen := len, chunkHead := head }) ∧
        Holds hash { m with allocator := a, chunkLen := len, chunkHead := head } L' ∧
        L'.add = L.add ∧ a.chunkSize = m.allocator.chunkSize ∧
        a.value len L'.chunks i = Mem.read newData 0 n ∧
        ∀ j ∈ L.add.erase i,
          a.value len L'.chunks j = m.allocator.value m.chunkLen L.chunks j := by
  obtain ⟨hlen, hold⟩ := h.chunks.sized i hi
  have hnew := getChunkNum_natCast hsize n
  obtain ⟨c, hc⟩ : ∃ c, c = (n + m.allocator.chunkSize - 1) / m.allocator.chunkSize := ⟨_, rfl⟩
  rw [← hc] at hnew
  have hcons := h.chunks_cons hi
  have htotal := h.chunks.freeTotal
  unfold HashMap.storeNode
  simp only [Option.bind_eq_bind, hold, hnew, Option.bind_some]
  by_cases hsame : ((L.chunks i).length : ℤ) = c
  · -- as many chunks as before: overwrite them
    rw [if_neg (by simpa using hsame)]
    obtain ⟨data', hsplit, hchunks, hvalue, hothers⟩ :=
      hcons.overwrite newData (by rw [hnew, ← hsame]) h.not_mem_erase
    right
    refine ⟨_, _, m.chunkHead, L, ?_, ⟨h.nodes.setValue _ _ _, hchunks.perm
      (List.perm_cons_erase hi), h.out⟩, rfl, rfl, hvalue, hothers⟩
    rw [hsplit]
    rfl
  · rw [if_pos (by simpa using hsame)]
    by_cases hlack : (c : ℤ) > (L.chunks i).length ∧
        m.allocator.freeTotal < c - (L.chunks i).length
    · rw [if_pos hlack]
      exact .inl rfl
    · -- free the old chunks, then take new ones
      rw [if_neg hlack]
      obtain ⟨next', freeList', hfree, hrel⟩ := hcons.release
      have henough : c ≤ ((L.chunks i).reverse ++ L.freeChunks).length := by
        rw [List.length_append, List.length_reverse]
        omega
      obtain ⟨hd, next'', freeList'', data', hmalloc, hsplit, hchunks, -, hvalue, hothers⟩ :=
        hrel.acquire h.not_mem_erase newData hnew henough
      right
      refine ⟨_, _, _, { L with
        freeChunks := ((L.chunks i).reverse ++ L.freeChunks).drop c
        chunks := Function.update L.chunks i
          (((L.chunks i).reverse ++ L.freeChunks).take c).reverse }, ?_,
        ⟨h.nodes.setValue _ _ _, hchunks.perm (List.perm_cons_erase hi), h.out⟩, rfl, rfl,
        hvalue, hothers⟩
      rw [hfree, Option.bind_some, hmalloc, Option.bind_some, hsplit]
      rfl

/-! ## A new value -/

/-- The lists of nodes after the first free node has been used for the key `k`. -/
def usedLists (hash : K → ℕ) (m : HashMap K) (L : NodeLists) (i : ℕ) (k : K) : NodeLists where
  out := L.out
  free := L.free.tail
  bucket := Function.update L.bucket (u32 (hash k) % m.bucketSize)
    (i :: L.bucket (u32 (hash k) % m.bucketSize))
  add := i :: L.add

section
variable {N : NodeLists} {fr : List ℕ} {k : K} {newData : ℕ → UInt8} {newLen c : ℤ}

theorem NodesHold.insertNode_nil (h : NodesHold hash m N) (hfree : N.free = []) :
    m.insertNode hash k newData newLen = some (none, m) := by
  rw [insertNode, h.freeListRemove_nil hfree]

/-- `insert_node` for a node that is there, up to the calls of the allocator. -/
theorem NodesHold.insertNode_cons (h : NodesHold hash m N) (hfree : N.free = i :: fr) :
    m.insertNode hash k newData newLen =
      (m.allocator.getChunkNum newLen).bind fun c => (m.allocator.malloc c).bind fun r =>
        match r with
        | (none, a) => some (none, { m with allocator := a })
        | (some hd, a) => (a.split (some hd) newData newLen).bind fun a =>
            (useNode hash { m with
              freeList := m.nodeNext i, nodeNext := Function.update m.nodeNext i none
              allocator := a } i k newLen (some hd)).bind fun m =>
                some (some i, m.insertAddListHead i) := by
  obtain ⟨hremove, -⟩ := h.take hfree
  have hhead : m.freeList = some i := by rw [h.free.head, hfree, List.head?_cons]
  rw [insertNode, hremove]
  simp only [Option.bind_eq_bind]
  congr 1
  funext c
  congr 1
  funext r
  obtain ⟨hd, a⟩ := r
  cases hd with
  | none => exact congrArg (fun m => some (none, m)) (freeListInsert_remove hhead a)
  | some hd => rfl

/-- A node that `insert_node` uses moves from the free list to its bucket. -/
theorem NodesHold.insertNode_use (h : NodesHold hash m N) (hfree : N.free = i :: fr)
    (hB : 0 < m.bucketSize) (k : K) (len : ℤ) (hd : Option ℕ) (a : ChunkAllocator) :
    ∃ m', useNode hash { m with
        freeList := m.nodeNext i, nodeNext := Function.update m.nodeNext i none
        allocator := a } i k len hd = some m' ∧
      NodesHold hash (m'.insertAddListHead i) (usedLists hash m N i k) ∧
      ∃ next prev head' tail' nodeNext nodePrev bucket num num',
        m'.insertAddListHead i = { m with
          freeList := m.nodeNext i, allocator := a
          key := Function.update m.key i k
          chunkLen := Function.update m.chunkLen i len
          chunkHead := Function.update m.chunkHead i hd
          addNext := next, addPrev := prev, addHead := head', addTail := tail'
          nodeNext := nodeNext, nodePrev := nodePrev, bucket := bucket
          usedNodeNum := num, usedBucketNum := num' } := by
  obtain ⟨-, htake⟩ := h.take hfree
  obtain ⟨m', huse, hnodes, next, prev, head', tail', nodeNext, nodePrev, bucket, num, num', heq⟩ :=
    (htake.setValue a m.chunkLen m.chunkHead).use rfl hB k len hd
  refine ⟨m', huse, ?_, next, prev, head', tail', nodeNext, nodePrev, bucket, num, num', heq⟩
  have hlists : usedLists hash m N i k = NodeLists.use
      { N with out := i :: N.out, free := fr } (u32 (hash k) % m.bucketSize) i := by
    rw [usedLists, hfree]
    rfl
  rw [hlists]
  exact hnodes

end

/-- `insert_node` fails without an effect, or stores the value under the key. -/
theorem Holds.insertNode (h : Holds hash m L) (hB : 0 < m.bucketSize)
    (hsize : 0 < m.allocator.chunkSize) (k : K) (newData : ℕ → UInt8) (n : ℕ) :
    m.insertNode hash k newData n = some (none, m) ∨
      ∃ i m' L', m.insertNode hash k newData n = some (some i, m') ∧ Holds hash m' L' ∧
        m'.entries L' = (k, Mem.read newData 0 n) :: m.entries L ∧ SameSizes m m' := by
  cases hfree : L.free with
  | nil => exact .inl (h.nodes.insertNode_nil hfree)
  | cons i fr =>
      have hnew := getChunkNum_natCast hsize n
      obtain ⟨c, hc⟩ : ∃ c, c = (n + m.allocator.chunkSize - 1) / m.allocator.chunkSize :=
        ⟨_, rfl⟩
      rw [← hc] at hnew
      have htotal := h.chunks.freeTotal
      have hia : i ∉ L.add := fun hia => h.nodes.not_mem_free hia (by simp [hfree])
      have hcons : m.insertNode hash k newData n = _ := h.nodes.insertNode_cons hfree
      rw [hnew, Option.bind_some] at hcons
      by_cases hlack : (L.freeChunks.length : ℤ) < c
      · left
        rw [hcons, malloc, if_pos (by omega)]
        rfl
      · obtain ⟨hd, next', freeList', data', hmalloc, hsplit, hchunks, hnone, hvalue, hothers⟩ :=
          h.chunks.acquire hia newData hnew (by omega)
        rw [hmalloc, Option.bind_some] at hcons
        cases hd with
        | none =>
            left
            rw [hcons, ((malloc_head hmalloc).2 rfl).2 (by omega)]
        | some hd =>
            right
            obtain ⟨m', huse, hnodes, next, prev, head', tail', nodeNext, nodePrev, bucket, num,
              num', heq⟩ := h.nodes.insertNode_use hfree hB k n (some hd) { m.allocator with
                next := next', freeList := freeList', freeTotal := m.allocator.freeTotal - c
                data := data' }
            simp only [hsplit, Option.bind_some, huse] at hcons
            refine ⟨i, m'.insertAddListHead i, { usedLists hash m L.toNodeLists i k with
              freeChunks := L.freeChunks.drop c
              chunks := Function.update L.chunks i (L.freeChunks.take c).reverse }, hcons,
              ⟨hnodes, ?_, h.out⟩, ?_, ?_⟩
            · rw [heq]
              exact hchunks
            · rw [heq]
              refine List.cons_eq_cons.mpr ⟨?_, List.map_congr_left fun j hj => ?_⟩
              · exact Prod.ext (Function.update_self _ _ _) hvalue
              · have hji : j ≠ i := by
                  rintro rfl
                  exact hia hj
                exact Prod.ext (Function.update_of_ne hji _ _) (hothers j hj)
            · rw [heq]
              exact ⟨rfl, rfl⟩

/-! ## Giving up a value -/

/-- The lists of nodes after a used node has become free. -/
def freedLists (hash : K → ℕ) (m : HashMap K) (L : NodeLists) (i : ℕ) : NodeLists where
  out := L.out
  free := i :: L.free
  bucket := Function.update L.bucket (m.bucketOf hash i) ((L.bucket (m.bucketOf hash i)).erase i)
  add := L.add.erase i

/-- `delete_node` without a buffer, up to the call of the allocator. -/
theorem NodesHold.deleteNode {N : NodeLists} (h : NodesHold hash m N) (hi : i ∈ N.add)
    (hB : 0 < m.bucketSize) {a : ChunkAllocator}
    (hfree : m.allocator.free (m.chunkHead i) = some a) :
    ∃ m', m.deleteNode hash i none none = some (0, m', none, none) ∧
      NodesHold hash m' (freedLists hash m N i) ∧
      ∃ next prev head' tail' nodeNext nodePrev bucket num num' freeList,
        m' = { m with
          allocator := a
          chunkLen := Function.update m.chunkLen i 0
          chunkHead := Function.update m.chunkHead i none
          addNext := next, addPrev := prev, addHead := head', addTail := tail'
          nodeNext := nodeNext, nodePrev := nodePrev, bucket := bucket
          usedNodeNum := num, usedBucketNum := num', freeList := freeList } := by
  obtain ⟨m', hnode, hnodes, next, prev, head', tail', nodeNext, nodePrev, bucket, num, num',
    heq⟩ := h.unuse hi hB hfree
  refine ⟨m'.freeListInsert i, ?_, hnodes.put rfl, ?_⟩
  · rw [HashMap.deleteNode, oldValue]
    simp only [Option.bind_eq_bind, Option.bind_some, hnode]
    rfl
  · rw [heq]
    exact ⟨_, _, _, _, _, _, _, _, _, _, rfl⟩

/-- `delete_node` takes the node's key and value out of the map. -/
theorem Holds.deleteNode (h : Holds hash m L) (hi : i ∈ L.add) (hB : 0 < m.bucketSize) :
    ∃ m' L', m.deleteNode hash i none none = some (0, m', none, none) ∧ Holds hash m' L' ∧
      m'.entries L' = (L.add.erase i).map (m.entry L) ∧ SameSizes m m' := by
  obtain ⟨next', freeList', hfree, hrel⟩ := (h.chunks_cons hi).release
  obtain ⟨m', hdelete, hnodes, next, prev, head', tail', nodeNext, nodePrev, bucket, num, num',
    freeList, heq⟩ := h.nodes.deleteNode hi hB hfree
  have hne : ∀ j ∈ L.add.erase i, j ≠ i := by
    rintro j hj rfl
    exact h.not_mem_erase hj
  refine ⟨m', { freedLists hash m L.toNodeLists i with
    freeChunks := (L.chunks i).reverse ++ L.freeChunks, chunks := L.chunks }, hdelete,
    ⟨hnodes, ?_, h.out⟩, ?_, ?_⟩
  · rw [heq]
    exact hrel.setOther h.not_mem_erase none 0
  · rw [heq]
    refine List.map_congr_left fun j hj => Prod.ext rfl ?_
    change content _ _ _ (Function.update m.chunkLen i 0 j).toNat = _
    rw [Function.update_of_ne (hne j hj)]
    rfl
  · rw [heq]
    exact ⟨rfl, rfl⟩

end HashMap
end Spp
