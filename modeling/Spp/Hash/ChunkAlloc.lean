import Spp.Lib.Links
import Spp.Lib.Mem

/-!
# The chunk allocator

`CChunkAllocator` cuts a pool into chunks of one size and keeps the free ones on a
list.  A value takes a chain of chunks.  A handler is the index of a chunk, and `none`
is `INVALID_BC_MEM_HANDLER`; the fields of the chunks are arrays over the index.

A function is in `Option` where the C code can fail to return: a division by a chunk
size of zero, a null pointer, a copy of a negative length, and a walk that takes more
steps than there are chunks.

## Main definitions

* `ChunkAllocator` — the pool.
* `malloc`, `free`, `split`, `merge`, `getChunkNum` — the operations.
* `content` — the bytes that a chain of chunks stores.
-/

namespace Spp

open Links

/-- `CHUNK_ALLOCATOR_ERROR_INVALID_PARAM`. -/
def chunkAllocatorErrorInvalidParam : ℤ := -2

/-- A `TChunk` with its chunk nodes. -/
structure ChunkAllocator where
  chunkTotal : ℕ
  chunkSize : ℕ
  freeTotal : ℤ
  freeList : Option ℕ
  next : ℕ → Option ℕ
  data : ℕ → ℕ → UInt8
deriving Inhabited

namespace ChunkAllocator

/-- Insert a chunk at the head of the free list. -/
def freeListInsert (a : ChunkAllocator) (i : ℕ) : ChunkAllocator :=
  { a with next := Function.update a.next i a.freeList, freeList := some i }

/-- Take the chunk at the head of the free list; `none` is `NULL`. -/
def freeListRemove (a : ChunkAllocator) : Option (ℕ × ChunkAllocator) :=
  match a.freeList with
  | none => none
  | some i => some (i, { a with freeList := a.next i, next := Function.update a.next i none })

/-- `init_pool_data`, on a pool with any content. -/
def initPoolData (pool : ChunkAllocator) (nChunks chunkSize : ℕ) : ChunkAllocator :=
  let a := (List.range nChunks).foldl
    (fun a i => freeListInsert { a with next := Function.update a.next i none } i)
    { pool with freeList := none }
  { a with chunkTotal := nChunks, chunkSize := chunkSize, freeTotal := nChunks }

/-- `get_chunk_num`, with the division of C. -/
def getChunkNum (a : ChunkAllocator) (dataLen : ℤ) : Option ℤ :=
  if a.chunkSize = 0 then none
  else
    let num := dataLen.tdiv a.chunkSize
    some (if dataLen.tmod a.chunkSize ≠ 0 then num + 1 else num)

/-- The loop of `malloc`, with `n` chunks to go. -/
def mallocLoop : ℕ → Option ℕ → ChunkAllocator → Option (Option ℕ × ChunkAllocator)
  | 0, head, a => some (head, a)
  | n + 1, head, a =>
      match a.freeListRemove with
      | none => none
      | some (i, a) => mallocLoop n (some i) { a with next := Function.update a.next i head }

/-- `malloc`: the head of a chain of `chunkNum` chunks. -/
def malloc (a : ChunkAllocator) (chunkNum : ℤ) : Option (Option ℕ × ChunkAllocator) :=
  if a.freeTotal < chunkNum then some (none, a)
  else
    match mallocLoop chunkNum.toNat none a with
    | none => none
    | some (head, a) => some (head, { a with freeTotal := a.freeTotal - chunkNum })

/-- The loop of `free`. -/
def freeLoop : ℕ → Option ℕ → ChunkAllocator → Option ChunkAllocator
  | _, none, a => some a
  | 0, some _, _ => none
  | fuel + 1, some i, a =>
      let b := a.freeListInsert i
      freeLoop fuel (a.next i) { b with freeTotal := b.freeTotal + 1 }

/-- `free`: put a chain of chunks on the free list. -/
def free (a : ChunkAllocator) (headChunk : Option ℕ) : Option ChunkAllocator :=
  freeLoop a.chunkTotal headChunk a

/-- The loop of `merge`: what is left to copy, and where it goes. -/
def mergeLoop (a : ChunkAllocator) :
    ℕ → Option ℕ → ℤ → ℕ → (ℕ → UInt8) → Option (ℕ → UInt8)
  | _, none, _, _, buf => some buf
  | 0, some _, _, _, _ => none
  | fuel + 1, some i, remainLen, writePos, buf =>
      if remainLen < a.chunkSize then
        if remainLen < 0 then none
        else some (Mem.write buf writePos (Mem.read (a.data i) 0 remainLen.toNat))
      else
        mergeLoop a fuel (a.next i) (remainLen - a.chunkSize) (writePos + a.chunkSize)
          (Mem.write buf writePos (Mem.read (a.data i) 0 a.chunkSize))

/-- `merge`: the returned code, the buffer and the reported length. -/
def merge (a : ChunkAllocator) (chunkNode : Option ℕ) (chunkLen : ℤ) (buf : ℕ → UInt8)
    (dataLen : ℤ) : Option (ℤ × (ℕ → UInt8) × ℤ) :=
  if dataLen < chunkLen then some (chunkAllocatorErrorInvalidParam, buf, chunkLen)
  else
    match mergeLoop a a.chunkTotal chunkNode chunkLen 0 buf with
    | none => none
    | some buf => some (0, buf, chunkLen)

/-- The loop of `split`: where it reads, and what is left to copy. -/
def splitLoop (dataBuf : ℕ → UInt8) : ℕ → Option ℕ → ℕ → ℤ → ChunkAllocator → Option ChunkAllocator
  | _, none, _, _, a => some a
  | 0, some _, _, _, _ => none
  | fuel + 1, some i, readPos, remainLen, a =>
      if remainLen < a.chunkSize then
        if remainLen < 0 then none
        else some { a with
          data := Function.update a.data i
            (Mem.write (a.data i) 0 (Mem.read dataBuf readPos remainLen.toNat)) }
      else
        splitLoop dataBuf fuel (a.next i) (readPos + a.chunkSize) (remainLen - a.chunkSize)
          { a with
            data := Function.update a.data i
              (Mem.write (a.data i) 0 (Mem.read dataBuf readPos a.chunkSize)) }

/-- `split`: store data in a chain of chunks. -/
def split (a : ChunkAllocator) (head : Option ℕ) (dataBuf : ℕ → UInt8) (dataLen : ℤ) :
    Option ChunkAllocator :=
  splitLoop dataBuf a.chunkTotal head 0 dataLen a

/-! ## What the operations do to chains -/

variable {a : ChunkAllocator} {chain fr : List ℕ} {head : Option ℕ}

/-- `get_chunk_num` of a length that is not negative, rounded up. -/
theorem getChunkNum_natCast (hsize : 0 < a.chunkSize) (n : ℕ) :
    a.getChunkNum n = some (((n + a.chunkSize - 1) / a.chunkSize : ℕ) : ℤ) := by
  have hdiv : ((n : ℤ).tdiv a.chunkSize) = ((n / a.chunkSize : ℕ) : ℤ) := by
    rw [Int.tdiv_eq_ediv_of_nonneg (by omega)]
    rfl
  have hmod : ((n : ℤ).tmod a.chunkSize) = ((n % a.chunkSize : ℕ) : ℤ) := by
    rw [Int.tmod_eq_emod_of_nonneg (by omega)]
    rfl
  have hsplit := Nat.div_add_mod n a.chunkSize
  have hlt := Nat.mod_lt n hsize
  unfold getChunkNum
  rw [if_neg (by omega)]
  simp only [hdiv, hmod]
  congr 1
  by_cases h0 : n % a.chunkSize = 0
  · rw [if_neg (by simp [h0])]
    congr 1
    refine (Nat.div_eq_of_lt_le ?_ ?_).symm
    · rw [Nat.mul_comm]
      omega
    · rw [Nat.succ_mul, Nat.mul_comm]
      omega
  · rw [if_pos (by exact_mod_cast h0)]
    have hnum : (n + a.chunkSize - 1) / a.chunkSize = n / a.chunkSize + 1 := by
      refine Nat.div_eq_of_lt_le ?_ ?_
      · rw [Nat.succ_mul, Nat.mul_comm]
        omega
      · rw [Nat.succ_mul, Nat.succ_mul, Nat.mul_comm]
        omega
    rw [hnum]
    push_cast
    rfl

/-- `malloc` moves chunks from the free list to a new chain, one after another. -/
theorem mallocLoop_spec {taken acc : List ℕ}
    (hfree : Chain a.next a.freeList (taken ++ fr)) (hacc : Chain a.next head acc)
    (hnd : (taken ++ (fr ++ acc)).Nodup) :
    ∃ head' next' freeList',
      mallocLoop taken.length head a =
        some (head', { a with next := next', freeList := freeList' }) ∧
      Chain next' head' (taken.reverse ++ acc) ∧ Chain next' freeList' fr ∧
      ∀ j, j ∉ taken → next' j = a.next j := by
  induction taken generalizing a head acc with
  | nil => exact ⟨head, a.next, a.freeList, rfl, hacc, hfree, fun _ _ => rfl⟩
  | cons i taken ih =>
      obtain ⟨hi, hfree⟩ := hfree
      rw [List.cons_append] at hnd
      obtain ⟨hmem, hnd⟩ := List.nodup_cons.mp hnd
      simp only [List.mem_append, not_or] at hmem
      obtain ⟨hit, hif, hia⟩ := hmem
      have hperm : (taken ++ (fr ++ i :: acc)).Perm (i :: (taken ++ (fr ++ acc))) := by
        rw [← List.append_assoc, ← List.append_assoc]
        exact List.perm_middle
      have hnodup : (taken ++ (fr ++ i :: acc)).Nodup := by
        rw [hperm.nodup_iff, List.nodup_cons]
        exact ⟨by simp [hit, hif, hia], hnd⟩
      have hpush : Chain (Function.update (Function.update a.next i none) i head) (some i)
          (i :: acc) := by
        rw [Function.update_idem]
        exact hacc.push hia
      obtain ⟨head', next', freeList', hrun, hchain, hfree', hframe⟩ :=
        ih (a := { a with
            freeList := a.next i, next := Function.update (Function.update a.next i none) i head })
          (by
            rw [Function.update_idem]
            exact Chain.update hfree (by simp [hit, hif]))
          hpush hnodup
      refine ⟨head', next', freeList', ?_, ?_, hfree', ?_⟩
      · rw [List.length_cons, mallocLoop, freeListRemove, hi]
        exact hrun
      · simpa using hchain
      · intro j hj
        rw [List.mem_cons, not_or] at hj
        refine (hframe j hj.2).trans ?_
        exact (Function.update_of_ne hj.1 _ _).trans (Function.update_of_ne hj.1 _ _)

/-- `malloc` takes its chunks from the front of the free list. -/
theorem malloc_spec {taken : List ℕ} (hfree : Chain a.next a.freeList (taken ++ fr))
    (hnd : (taken ++ fr).Nodup) (htotal : (taken.length : ℤ) ≤ a.freeTotal) :
    ∃ head' next' freeList',
      a.malloc taken.length = some (head', { a with
        next := next', freeList := freeList', freeTotal := a.freeTotal - taken.length }) ∧
      Chain next' head' taken.reverse ∧ Chain next' freeList' fr ∧
      ∀ j, j ∉ taken → next' j = a.next j := by
  have hnil : Chain a.next none [] := rfl
  obtain ⟨head', next', freeList', hrun, hchain, hfree', hframe⟩ :=
    mallocLoop_spec hfree hnil (by simpa using hnd)
  refine ⟨head', next', freeList', ?_, by simpa using hchain, hfree', hframe⟩
  unfold malloc
  rw [if_neg (by omega), Int.toNat_natCast, hrun]

theorem mallocLoop_head {n : ℕ} {hd hd' : Option ℕ} {a' : ChunkAllocator}
    (h : mallocLoop n hd a = some (hd', a')) : (n = 0 ∧ hd' = hd ∧ a' = a) ∨ (0 < n ∧ hd' ≠ none) := by
  induction n generalizing hd a with
  | zero =>
      obtain ⟨rfl, rfl⟩ := Prod.mk.inj (Option.some.inj h)
      exact .inl ⟨rfl, rfl, rfl⟩
  | succ n ih =>
      right
      refine ⟨by omega, ?_⟩
      rw [mallocLoop] at h
      split at h
      · exact absurd h (by simp)
      · rcases ih h with ⟨-, rfl, -⟩ | ⟨-, hne⟩
        · simp
        · exact hne

/-- `malloc` returns a chain exactly when it is asked for chunks and has enough, for
any `int` argument; otherwise it changes no link. -/
theorem malloc_head {n : ℤ} {hd : Option ℕ} {a' : ChunkAllocator}
    (h : a.malloc n = some (hd, a')) :
    (hd ≠ none ↔ 0 < n ∧ n ≤ a.freeTotal) ∧
      (hd = none → a' = { a with freeTotal := a'.freeTotal } ∧ (0 ≤ n → a' = a)) := by
  unfold malloc at h
  by_cases hlt : a.freeTotal < n
  · rw [if_pos hlt] at h
    obtain ⟨rfl, rfl⟩ := Prod.mk.inj (Option.some.inj h)
    exact ⟨⟨fun hne => absurd rfl hne, fun hn => by omega⟩, fun _ => ⟨rfl, fun _ => rfl⟩⟩
  · rw [if_neg hlt] at h
    split at h
    · exact absurd h (by simp)
    · next hd' b hloop =>
        obtain ⟨rfl, rfl⟩ := Prod.mk.inj (Option.some.inj h)
        rcases mallocLoop_head hloop with ⟨hzero, rfl, rfl⟩ | ⟨hpos, hne⟩
        · refine ⟨⟨fun hne => absurd rfl hne, fun hn => by omega⟩, fun _ => ⟨rfl, fun hn => ?_⟩⟩
          have hn0 : n = 0 := by omega
          rw [hn0, Int.sub_zero]
        · exact ⟨⟨fun _ => ⟨by omega, by omega⟩, fun _ => hne⟩, fun hnone => absurd hnone hne⟩

/-- `free` puts the chunks of a chain on the free list, one after another. -/
theorem freeLoop_spec {fuel : ℕ} (hchain : Chain a.next head chain)
    (hfree : Chain a.next a.freeList fr) (hnd : (chain ++ fr).Nodup)
    (hfuel : chain.length ≤ fuel) :
    ∃ next' freeList',
      freeLoop fuel head a = some { a with
        next := next', freeList := freeList', freeTotal := a.freeTotal + chain.length } ∧
      Chain next' freeList' (chain.reverse ++ fr) ∧ ∀ j, j ∉ chain → next' j = a.next j := by
  induction chain generalizing a head fr fuel with
  | nil =>
      have hnone : head = none := hchain
      refine ⟨a.next, a.freeList, ?_, hfree, fun _ _ => rfl⟩
      rw [hnone, List.length_nil, freeLoop]
      simp
  | cons i chain ih =>
      obtain ⟨rfl, hchain⟩ := hchain
      rw [List.cons_append] at hnd
      obtain ⟨hmem, hnd⟩ := List.nodup_cons.mp hnd
      simp only [List.mem_append, not_or] at hmem
      obtain ⟨hic, hif⟩ := hmem
      obtain ⟨fuel, rfl⟩ : ∃ f, fuel = f + 1 := ⟨fuel - 1, by rw [List.length_cons] at hfuel; omega⟩
      have hshort : chain.length ≤ fuel := by
        rw [List.length_cons] at hfuel
        omega
      have hnodup : (chain ++ i :: fr).Nodup := by
        rw [List.perm_middle.nodup_iff, List.nodup_cons]
        exact ⟨by simp [hic, hif], hnd⟩
      obtain ⟨next', freeList', hrun, hfree', hframe⟩ :=
        ih (a := { a with
            next := Function.update a.next i a.freeList, freeList := some i,
            freeTotal := a.freeTotal + 1 })
          (Chain.update hchain hic) (hfree.push hif) hnodup hshort
      refine ⟨next', freeList', ?_, by simpa using hfree', ?_⟩
      · rw [freeLoop]
        refine hrun.trans ?_
        simp only [List.length_cons]
        congr 2
        push_cast
        omega
      · intro j hj
        rw [List.mem_cons, not_or] at hj
        exact (hframe j hj.2).trans (Function.update_of_ne hj.1 _ _)

theorem free_spec (hchain : Chain a.next head chain) (hfree : Chain a.next a.freeList fr)
    (hnd : (chain ++ fr).Nodup) (hlen : chain.length ≤ a.chunkTotal) :
    ∃ next' freeList',
      a.free head = some { a with
        next := next', freeList := freeList', freeTotal := a.freeTotal + chain.length } ∧
      Chain next' freeList' (chain.reverse ++ fr) ∧ ∀ j, j ∉ chain → next' j = a.next j :=
  freeLoop_spec hchain hfree hnd hlen

/-- A new pool has every chunk on the free list. -/
theorem initPoolData_spec (pool : ChunkAllocator) (nChunks chunkSize : ℕ) :
    ∃ next' freeList',
      pool.initPoolData nChunks chunkSize =
        { chunkTotal := nChunks, chunkSize := chunkSize, freeTotal := nChunks,
          freeList := freeList', next := next', data := pool.data } ∧
      Chain next' freeList' (List.range nChunks).reverse := by
  have hloop : ∀ n, ∃ next' freeList',
      (List.range n).foldl
        (fun a i => freeListInsert { a with next := Function.update a.next i none } i)
        { pool with freeList := none } =
          { pool with next := next', freeList := freeList' } ∧
      Chain next' freeList' (List.range n).reverse := by
    intro n
    induction n with
    | zero => exact ⟨pool.next, none, rfl, rfl⟩
    | succ n ih =>
        obtain ⟨next', freeList', hrun, hchain⟩ := ih
        refine ⟨Function.update (Function.update next' n none) n freeList', some n, ?_, ?_⟩
        · rw [List.range_succ, List.foldl_append, hrun]
          rfl
        · rw [Function.update_idem, List.range_succ, List.reverse_append]
          exact hchain.push (by simp)
  obtain ⟨next', freeList', hrun, hchain⟩ := hloop nChunks
  exact ⟨next', freeList', by rw [initPoolData, hrun], hchain⟩

/-! ## The stored bytes -/

/-- The first `n` bytes of a chain of chunks. -/
def content (chunkSize : ℕ) (data : ℕ → ℕ → UInt8) (chain : List ℕ) (n : ℕ) : List UInt8 :=
  (chain.flatMap fun i => Mem.read (data i) 0 chunkSize).take n

theorem content_congr {cs n : ℕ} {data data' : ℕ → ℕ → UInt8}
    (h : ∀ i ∈ chain, data' i = data i) : content cs data' chain n = content cs data chain n := by
  unfold content
  congr 1
  exact List.flatMap_congr fun i hi => by rw [h i hi]

theorem content_nil (cs n : ℕ) (data : ℕ → ℕ → UInt8) : content cs data [] n = [] := by
  simp [content]

/-- A whole chunk, and the rest. -/
theorem content_cons_of_le {cs n i : ℕ} (data : ℕ → ℕ → UInt8) (h : cs ≤ n) :
    content cs data (i :: chain) n =
      Mem.read (data i) 0 cs ++ content cs data chain (n - cs) := by
  unfold content
  rw [List.flatMap_cons, List.take_append, Mem.length_read,
    List.take_of_length_le (by rw [Mem.length_read]; exact h)]

/-- Less than a chunk. -/
theorem content_cons_of_lt {cs n i : ℕ} (data : ℕ → ℕ → UInt8) (h : n < cs) :
    content cs data (i :: chain) n = Mem.read (data i) 0 n := by
  unfold content
  rw [List.flatMap_cons, List.take_append_of_le_length (by rw [Mem.length_read]; omega)]
  have hsplit : cs = n + (cs - n) := by omega
  rw [hsplit, Mem.read_add, List.take_left' (Mem.length_read _ _ _)]

theorem length_content {cs n : ℕ} (data : ℕ → ℕ → UInt8) (h : n ≤ chain.length * cs) :
    (content cs data chain n).length = n := by
  unfold content
  rw [List.length_take, List.length_flatMap]
  simp only [Mem.length_read, List.map_const', List.sum_replicate_nat]
  omega

/-- `split` stores the data in the chain, and in no other chunk. -/
theorem splitLoop_spec {fuel : ℕ} (dataBuf : ℕ → UInt8) (readPos n : ℕ)
    (hchain : Chain a.next head chain) (hnd : chain.Nodup) (hfuel : chain.length ≤ fuel)
    (hlen : n ≤ chain.length * a.chunkSize) :
    ∃ data', splitLoop dataBuf fuel head readPos n a = some { a with data := data' } ∧
      content a.chunkSize data' chain n = Mem.read dataBuf readPos n ∧
      ∀ j, j ∉ chain → data' j = a.data j := by
  induction chain generalizing a head fuel n readPos with
  | nil =>
      have hnone : head = none := hchain
      have hzero : n = 0 := by simpa using hlen
      subst hnone hzero
      exact ⟨a.data, by rw [splitLoop], content_nil _ _ _, fun _ _ => rfl⟩
  | cons i chain ih =>
      obtain ⟨rfl, hchain⟩ := hchain
      obtain ⟨hi, hnd⟩ := List.nodup_cons.mp hnd
      rw [List.length_cons] at hfuel hlen
      obtain ⟨fuel, rfl⟩ : ∃ f, fuel = f + 1 := ⟨fuel - 1, by omega⟩
      rw [splitLoop]
      by_cases hlt : n < a.chunkSize
      · rw [if_pos (by exact_mod_cast hlt), if_neg (by omega), Int.toNat_natCast]
        refine ⟨_, rfl, ?_, fun j hj => ?_⟩
        · have hread := Mem.read_write_self (a.data i) 0 (Mem.read dataBuf readPos n)
          rw [Mem.length_read] at hread
          rw [content_cons_of_lt _ hlt, Function.update_self, hread]
        · rw [List.mem_cons, not_or] at hj
          exact Function.update_of_ne hj.1 _ _
      · have hle : a.chunkSize ≤ n := by omega
        have hcast : (n : ℤ) - a.chunkSize = ((n - a.chunkSize : ℕ) : ℤ) := by omega
        have hshort : chain.length ≤ fuel := by omega
        have hrest' : n - a.chunkSize ≤ chain.length * a.chunkSize := by
          rw [Nat.succ_mul] at hlen
          omega
        obtain ⟨data', hrun, hcontent, hframe⟩ :=
          ih (a := { a with
              data := Function.update a.data i
                (Mem.write (a.data i) 0 (Mem.read dataBuf readPos a.chunkSize)) })
            (readPos + a.chunkSize) (n - a.chunkSize) hchain hnd hshort hrest'
        refine ⟨data', ?_, ?_, fun j hj => ?_⟩
        · rw [if_neg (by exact_mod_cast hlt), hcast]
          exact hrun
        · have hread := Mem.read_write_self (a.data i) 0 (Mem.read dataBuf readPos a.chunkSize)
          rw [Mem.length_read] at hread
          have hi' := (hframe i hi).trans (Function.update_self _ _ _)
          have hrest : content a.chunkSize data' chain (n - a.chunkSize) =
            Mem.read dataBuf (readPos + a.chunkSize) (n - a.chunkSize) := hcontent
          rw [content_cons_of_le _ hle, hrest, hi', hread, ← Mem.read_add,
            Nat.add_sub_cancel' hle]
        · rw [List.mem_cons, not_or] at hj
          exact (hframe j hj.2).trans (Function.update_of_ne hj.1 _ _)

theorem split_spec {n : ℕ} (dataBuf : ℕ → UInt8) (hchain : Chain a.next head chain)
    (hnd : chain.Nodup) (htotal : chain.length ≤ a.chunkTotal)
    (hlen : n ≤ chain.length * a.chunkSize) :
    ∃ data', a.split head dataBuf n = some { a with data := data' } ∧
      content a.chunkSize data' chain n = Mem.read dataBuf 0 n ∧
      ∀ j, j ∉ chain → data' j = a.data j :=
  splitLoop_spec dataBuf 0 n hchain hnd htotal hlen

/-- `merge` copies the stored bytes to the buffer. -/
theorem mergeLoop_spec {fuel n writePos : ℕ} (buf : ℕ → UInt8)
    (hchain : Chain a.next head chain) (hfuel : chain.length ≤ fuel)
    (hlen : n ≤ chain.length * a.chunkSize) :
    mergeLoop a fuel head n writePos buf =
      some (Mem.write buf writePos (content a.chunkSize a.data chain n)) := by
  induction chain generalizing head fuel n writePos buf with
  | nil =>
      have hnone : head = none := hchain
      rw [hnone, content_nil, Mem.write_nil, mergeLoop]
  | cons i chain ih =>
      obtain ⟨rfl, hchain⟩ := hchain
      rw [List.length_cons] at hfuel hlen
      obtain ⟨fuel, rfl⟩ : ∃ f, fuel = f + 1 := ⟨fuel - 1, by omega⟩
      rw [mergeLoop]
      by_cases hlt : n < a.chunkSize
      · rw [if_pos (by exact_mod_cast hlt), if_neg (by omega), Int.toNat_natCast,
          content_cons_of_lt _ hlt]
      · have hle : a.chunkSize ≤ n := by omega
        have hcast : (n : ℤ) - a.chunkSize = ((n - a.chunkSize : ℕ) : ℤ) := by omega
        rw [if_neg (by exact_mod_cast hlt), hcast,
          ih _ hchain (by omega) (by rw [Nat.succ_mul] at hlen; omega),
          content_cons_of_le _ hle, Mem.write_append, Mem.length_read]

/-- `merge` copies the stored bytes, or reports the length that the buffer needs. -/
theorem merge_spec {n : ℕ} (buf : ℕ → UInt8) (dataLen : ℤ) (hchain : Chain a.next head chain)
    (htotal : chain.length ≤ a.chunkTotal) (hlen : n ≤ chain.length * a.chunkSize) :
    a.merge head n buf dataLen =
      if dataLen < n then some (chunkAllocatorErrorInvalidParam, buf, (n : ℤ))
      else some (0, Mem.write buf 0 (content a.chunkSize a.data chain n), (n : ℤ)) := by
  unfold merge
  rw [mergeLoop_spec buf hchain htotal hlen]

end ChunkAllocator
end Spp
