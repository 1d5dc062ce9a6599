import Spp.Hash.ChunkAlloc
import Mathlib.Data.List.Perm.Subperm

/-!
# The chunks of the used nodes

Each used node owns a chain of chunks that is just long enough for its value; all
other chunks are free.  The lemmas say what storing, overwriting and giving up a value
does to the chains.

## Main definitions

* `ChunksHold` — the chains of the used nodes and the free list share out the chunks.
* `ChunkAllocator.value` — the bytes that a node stores.
-/

namespace Spp

open Links ChunkAllocator

/-- The used nodes `used` own the chains `chunks`, from the handlers `head` on, and store
values of the lengths `len`; the other chunks are on the free list. -/
structure ChunksHold (a : ChunkAllocator) (head : ℕ → Option ℕ) (len : ℕ → ℤ)
    (used freeChunks : List ℕ) (chunks : ℕ → List ℕ) : Prop where
  free : Chain a.next a.freeList freeChunks
  chain : ∀ i ∈ used, Chain a.next (head i) (chunks i)
  partition : (freeChunks ++ used.flatMap chunks).Perm (List.range a.chunkTotal)
  sized : ∀ i ∈ used, 0 ≤ len i ∧ a.getChunkNum (len i) = some ((chunks i).length : ℤ)
  freeTotal : a.freeTotal = freeChunks.length

namespace ChunkAllocator

/-- The bytes that the node `i` stores. -/
def value (a : ChunkAllocator) (len : ℕ → ℤ) (chunks : ℕ → List ℕ) (i : ℕ) : List UInt8 :=
  content a.chunkSize a.data (chunks i) (len i).toNat

/-- As many chunks as `get_chunk_num` says have room for the value. -/
theorem getChunkNum_room {a : ChunkAllocator} {n : ℕ} {c : ℤ} (h : a.getChunkNum n = some c) :
    0 < a.chunkSize ∧ 0 ≤ c ∧ n ≤ c.toNat * a.chunkSize := by
  have hsize : 0 < a.chunkSize := by
    by_contra hzero
    rw [getChunkNum, if_pos (by omega)] at h
    exact absurd h (by simp)
  rw [getChunkNum_natCast hsize] at h
  obtain rfl := Option.some.inj h
  refine ⟨hsize, Int.natCast_nonneg _, ?_⟩
  have hdiv := Nat.div_add_mod (n + a.chunkSize - 1) a.chunkSize
  have hlt := Nat.mod_lt (n + a.chunkSize - 1) hsize
  rw [Nat.mul_comm] at hdiv
  rw [Int.toNat_natCast]
  omega

end ChunkAllocator

namespace ChunksHold

variable {a : ChunkAllocator} {head : ℕ → Option ℕ} {len : ℕ → ℤ}
  {used freeChunks : List ℕ} {chunks : ℕ → List ℕ} {i : ℕ}

theorem nodup (h : ChunksHold a head len used freeChunks chunks) :
    (freeChunks ++ used.flatMap chunks).Nodup :=
  h.partition.nodup_iff.mpr List.nodup_range

/-- The order of the used nodes does not matter. -/
theorem perm {used' : List ℕ} (h : ChunksHold a head len used freeChunks chunks)
    (hperm : used'.Perm used) : ChunksHold a head len used' freeChunks chunks where
  free := h.free
  chain i hi := h.chain i (hperm.mem_iff.mp hi)
  partition := ((hperm.flatMap_right chunks).append_left _).trans h.partition
  sized i hi := h.sized i (hperm.mem_iff.mp hi)
  freeTotal := h.freeTotal

/-- One used node's chain, against the free list and the others' chains. -/
theorem split_cons (h : ChunksHold a head len (i :: used) freeChunks chunks) :
    (chunks i ++ freeChunks).Nodup ∧ (chunks i).length ≤ a.chunkTotal ∧
      (∀ c ∈ chunks i, ∀ j ∈ used, c ∉ chunks j) ∧
      (∀ c ∈ freeChunks, ∀ j ∈ used, c ∉ chunks j) := by
  have hnd := h.nodup
  rw [List.flatMap_cons, ← List.append_assoc, List.nodup_append] at hnd
  obtain ⟨hown, hrest, hdisj⟩ := hnd
  have hlen := h.partition.length_eq
  rw [List.length_range, List.flatMap_cons, List.length_append, List.length_append] at hlen
  refine ⟨(List.perm_append_comm.nodup_iff).mp hown, by omega, ?_, ?_⟩
  · intro c hc j hj hcj
    exact hdisj c (List.mem_append_right _ hc) c (List.mem_flatMap.mpr ⟨j, hj, hcj⟩) rfl
  · intro c hc j hj hcj
    exact hdisj c (List.mem_append_left _ hc) c (List.mem_flatMap.mpr ⟨j, hj, hcj⟩) rfl

/-- No free chunk lies in a used node's chain. -/
theorem not_mem_free (h : ChunksHold a head len used freeChunks chunks) {c : ℕ}
    (hc : c ∈ freeChunks) (hi : i ∈ used) : c ∉ chunks i := fun hci =>
  (List.nodup_append.mp h.nodup).2.2 c hc c (List.mem_flatMap.mpr ⟨i, hi, hci⟩) rfl

theorem free_nodup (h : ChunksHold a head len used freeChunks chunks) : freeChunks.Nodup :=
  (List.nodup_append.mp h.nodup).1

/-- A used node's chain has room for its value. -/
theorem room (h : ChunksHold a head len used freeChunks chunks) (hi : i ∈ used) :
    (len i).toNat ≤ (chunks i).length * a.chunkSize := by
  obtain ⟨hlen, hnum⟩ := h.sized i hi
  have hcast : ((len i).toNat : ℤ) = len i := Int.toNat_of_nonneg hlen
  rw [← hcast] at hnum
  have hroom := (getChunkNum_room hnum).2.2
  rwa [Int.toNat_natCast] at hroom

/-- The handler and the length of another node do not matter. -/
theorem setOther (h : ChunksHold a head len used freeChunks chunks) (hi : i ∉ used)
    (hd : Option ℕ) (n : ℤ) :
    ChunksHold a (Function.update head i hd) (Function.update len i n) used freeChunks chunks := by
  have hne : ∀ j ∈ used, j ≠ i := by
    rintro j hj rfl
    exact hi hj
  refine ⟨h.free, fun j hj => ?_, h.partition, fun j hj => ?_, h.freeTotal⟩
  · rw [Function.update_of_ne (hne j hj)]
    exact h.chain j hj
  · rw [Function.update_of_ne (hne j hj)]
    exact h.sized j hj

/-- Giving up a value: its chunks become free. -/
theorem release (h : ChunksHold a head len (i :: used) freeChunks chunks) :
    ∃ next' freeList',
      a.free (head i) = some { a with
        next := next', freeList := freeList', freeTotal := a.freeTotal + (chunks i).length } ∧
      ChunksHold { a with
        next := next', freeList := freeList', freeTotal := a.freeTotal + (chunks i).length }
        head len used ((chunks i).reverse ++ freeChunks) chunks := by
  obtain ⟨hnd, hlen, hdisj, -⟩ := h.split_cons
  obtain ⟨next', freeList', hrun, hfree, hframe⟩ :=
    free_spec (h.chain i List.mem_cons_self) h.free hnd hlen
  refine ⟨next', freeList', hrun, hfree, fun j hj => ?_, ?_, fun j hj => h.sized j (.tail _ hj), ?_⟩
  · refine (h.chain j (.tail _ hj)).congr fun c hc => hframe c ?_
    exact fun hci => hdisj c hci j hj hc
  · have hperm : ((chunks i).reverse ++ freeChunks).Perm (freeChunks ++ chunks i) :=
      ((List.reverse_perm _).append_right _).trans List.perm_append_comm
    refine (hperm.append_right _).trans ?_
    rw [List.append_assoc]
    exact h.partition
  · simp only [List.length_append, List.length_reverse]
    rw [h.freeTotal]
    push_cast
    omega

/-- Storing a value under a node that owns no chunks, where there are enough. -/
theorem acquire (h : ChunksHold a head len used freeChunks chunks) (hi : i ∉ used)
    (dataBuf : ℕ → UInt8) {n : ℕ} {c : ℕ} (hnum : a.getChunkNum n = some (c : ℤ))
    (henough : c ≤ freeChunks.length) :
    ∃ hd next' freeList' data',
      a.malloc c = some (hd, { a with
        next := next', freeList := freeList', freeTotal := a.freeTotal - c }) ∧
      split { a with next := next', freeList := freeList', freeTotal := a.freeTotal - c }
        hd dataBuf n = some { a with
          next := next', freeList := freeList', freeTotal := a.freeTotal - c, data := data' } ∧
      ChunksHold { a with
          next := next', freeList := freeList', freeTotal := a.freeTotal - c, data := data' }
        (Function.update head i hd) (Function.update len i n) (i :: used)
        (freeChunks.drop c) (Function.update chunks i (freeChunks.take c).reverse) ∧
      (hd = none ↔ c = 0) ∧
      value { a with data := data' } (Function.update len i n)
        (Function.update chunks i (freeChunks.take c).reverse) i = Mem.read dataBuf 0 n ∧
      ∀ j ∈ used, value { a with data := data' } (Function.update len i n)
        (Function.update chunks i (freeChunks.take c).reverse) j = value a len chunks j := by
  obtain ⟨-, -, hroom⟩ := getChunkNum_room hnum
  rw [Int.toNat_natCast] at hroom
  have hlen : (freeChunks.take c).length = c := by
    rw [List.length_take]
    omega
  have hparts : freeChunks.take c ++ freeChunks.drop c = freeChunks := List.take_append_drop _ _
  have hnd := h.free_nodup
  have htotal := h.freeTotal
  have hchain := h.free
  rw [← hparts] at hchain hnd
  obtain ⟨hd, next', freeList', hmalloc, hchain', hfree', hframe⟩ :=
    malloc_spec hchain hnd (by omega)
  rw [hlen] at hmalloc
  have hcount := h.partition.length_eq
  rw [List.length_append, List.length_range] at hcount
  have htake : (freeChunks.take c).Nodup := (List.nodup_append.mp hnd).1
  obtain ⟨data', hsplit, hcontent, hdata⟩ := split_spec
    (a := { a with next := next', freeList := freeList', freeTotal := a.freeTotal - c })
    (n := n) dataBuf hchain' (List.nodup_reverse.mpr htake)
    (by rw [List.length_reverse, hlen]; simp only; omega)
    (by rw [List.length_reverse, hlen]; exact hroom)
  -- the new chunks come from the free list, so no other chain changes
  have hother : ∀ j ∈ used, ∀ b ∈ chunks j, b ∉ freeChunks.take c := fun j hj b hb hbt =>
    h.not_mem_free (List.mem_of_mem_take hbt) hj hb
  have hne : ∀ j ∈ used, j ≠ i := by
    rintro j hj rfl
    exact hi hj
  refine ⟨hd, next', freeList', data', hmalloc, hsplit, ⟨hfree', ?_, ?_, ?_, ?_⟩, ?_, ?_, ?_⟩
  · intro j hj
    rcases List.mem_cons.mp hj with rfl | hj
    · rw [Function.update_self, Function.update_self]
      exact hchain'
    · rw [Function.update_of_ne (hne j hj), Function.update_of_ne (hne j hj)]
      exact (h.chain j hj).congr fun b hb => hframe b (hother j hj b hb)
  · have hflat : used.flatMap (Function.update chunks i (freeChunks.take c).reverse) =
        used.flatMap chunks := List.flatMap_congr fun j hj => by
      rw [Function.update_of_ne (hne j hj)]
    rw [List.flatMap_cons, Function.update_self, hflat, ← List.append_assoc]
    refine (List.Perm.append_right _ ?_).trans h.partition
    refine (List.perm_append_comm.trans ((List.reverse_perm _).append_right _)).trans ?_
    rw [hparts]
  · intro j hj
    rcases List.mem_cons.mp hj with rfl | hj
    · rw [Function.update_self, Function.update_self, List.length_reverse, hlen]
      exact ⟨by omega, hnum⟩
    · rw [Function.update_of_ne (hne j hj), Function.update_of_ne (hne j hj)]
      exact h.sized j hj
  · rw [List.length_drop]
    simp only
    omega
  · rw [hchain'.head]
    rw [List.head?_eq_none_iff, List.reverse_eq_nil_iff, ← List.length_eq_zero_iff, hlen]
  · unfold value
    rw [Function.update_self, Function.update_self, Int.toNat_natCast]
    exact hcontent
  · intro j hj
    unfold value
    rw [Function.update_of_ne (hne j hj), Function.update_of_ne (hne j hj)]
    refine content_congr fun b hb => hdata b ?_
    rw [List.mem_reverse]
    exact hother j hj b hb

/-- Overwriting a value by one that takes as many chunks. -/
theorem overwrite (h : ChunksHold a head len (i :: used) freeChunks chunks)
    (dataBuf : ℕ → UInt8) {n : ℕ} (hnum : a.getChunkNum n = some ((chunks i).length : ℤ))
    (hi : i ∉ used) :
    ∃ data',
      a.split (head i) dataBuf n = some { a with data := data' } ∧
      ChunksHold { a with data := data' } head (Function.update len i n) (i :: used)
        freeChunks chunks ∧
      value { a with data := data' } (Function.update len i n) chunks i = Mem.read dataBuf 0 n ∧
      ∀ j ∈ used, value { a with data := data' } (Function.update len i n) chunks j =
        value a len chunks j := by
  obtain ⟨-, -, hroom⟩ := getChunkNum_room hnum
  rw [Int.toNat_natCast] at hroom
  obtain ⟨hnd, hlen, hdisj, -⟩ := h.split_cons
  obtain ⟨data', hsplit, hcontent, hdata⟩ := split_spec dataBuf
    (h.chain i List.mem_cons_self) (List.nodup_append.mp hnd).1 hlen hroom
  have hne : ∀ j ∈ used, j ≠ i := by
    rintro j hj rfl
    exact hi hj
  refine ⟨data', hsplit, ⟨h.free, h.chain, h.partition, ?_, h.freeTotal⟩, ?_, ?_⟩
  · intro j hj
    rcases List.mem_cons.mp hj with rfl | hju
    · rw [Function.update_self]
      exact ⟨by omega, hnum⟩
    · rw [Function.update_of_ne (hne j hju)]
      exact h.sized j hj
  · unfold value
    rw [Function.update_self, Int.toNat_natCast]
    exact hcontent
  · intro j hj
    unfold value
    rw [Function.update_of_ne (hne j hj)]
    exact content_congr fun b hb => hdata b fun hbi => hdisj b hbi j hj hb

/-- A new pool holds no value. -/
theorem init (pool : ChunkAllocator) (nChunks chunkSize : ℕ) (head : ℕ → Option ℕ)
    (len : ℕ → ℤ) (chunks : ℕ → List ℕ) :
    ChunksHold (pool.initPoolData nChunks chunkSize) head len [] (List.range nChunks).reverse
      chunks := by
  obtain ⟨next', freeList', heq, hchain⟩ := initPoolData_spec pool nChunks chunkSize
  rw [heq]
  exact ⟨hchain, by simp, by simp [List.reverse_perm], by simp, by simp⟩

end ChunksHold
end Spp
