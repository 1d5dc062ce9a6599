import Spp.Hash.Chunks

/-!
# Lengths that are negative

The callers' lengths go unchecked into `get_chunk_num`, which is negative for some negative
lengths; `malloc` then hands out nothing and counts chunks as free that do not exist.  The
counter is all that differs: the operations treat an allocator whose counter is too high as
they treat the same allocator with the right one, unless `malloc` is asked for more chunks
than there are, where it goes beyond the end of the list.

## Main definitions

* `ChunkAllocator.credit` — the counter is higher by so many chunks.
* `ChunkAllocator.Negative` — the lengths for which `get_chunk_num` is negative.
-/

namespace Spp

open Links

namespace ChunkAllocator

variable {a a' : ChunkAllocator} {d : ℤ} {hd : Option ℕ} {fr : List ℕ}

/-- The counter of free chunks is higher by `d`. -/
def credit (a : ChunkAllocator) (d : ℤ) : ChunkAllocator :=
  { a with freeTotal := a.freeTotal + d }

@[simp] theorem credit_zero (a : ChunkAllocator) : a.credit 0 = a := by simp [credit]

theorem credit_credit (a : ChunkAllocator) (d e : ℤ) :
    (a.credit d).credit e = a.credit (d + e) := by
  simp [credit, Int.add_assoc]

theorem getChunkNum_zero (hsize : 0 < a.chunkSize) : a.getChunkNum 0 = some 0 := by
  have hzero := getChunkNum_natCast hsize 0
  rwa [Nat.zero_add, Nat.div_eq_of_lt (by omega)] at hzero

theorem getChunkNum_credit (n : ℤ) : (a.credit d).getChunkNum n = a.getChunkNum n := rfl

/-- The chunk number of a length depends on the size of a chunk only. -/
theorem getChunkNum_congr {b : ChunkAllocator} (hsize : b.chunkSize = a.chunkSize) (n : ℤ) :
    (b.credit d).getChunkNum n = a.getChunkNum n := by
  rw [getChunkNum_credit, getChunkNum, getChunkNum, hsize]

theorem freeListRemove_credit : (a.credit d).freeListRemove =
    a.freeListRemove.map fun r => (r.1, r.2.credit d) := by
  have hlist : (a.credit d).freeList = a.freeList := rfl
  rw [freeListRemove, freeListRemove, hlist]
  cases a.freeList <;> rfl

theorem mallocLoop_credit (n : ℕ) : mallocLoop n hd (a.credit d) =
    (mallocLoop n hd a).map fun r => (r.1, r.2.credit d) := by
  induction n generalizing hd a with
  | zero => rfl
  | succ n ih =>
      rw [mallocLoop, mallocLoop, freeListRemove_credit]
      cases a.freeListRemove with
      | none => rfl
      | some r => exact ih (a := { r.2 with next := Function.update r.2.next r.1 hd })

theorem malloc_credit {c : ℤ} (hd : 0 ≤ d) (hc : c ≤ a.freeTotal) :
    (a.credit d).malloc c = (a.malloc c).map fun r => (r.1, r.2.credit d) := by
  have htotal : (a.credit d).freeTotal = a.freeTotal + d := rfl
  rw [malloc, malloc, if_neg (by omega), if_neg (by omega), mallocLoop_credit]
  cases mallocLoop c.toNat none a with
  | none => rfl
  | some r =>
      have hsub : r.2.freeTotal + d - c = r.2.freeTotal - c + d := by omega
      simp [credit, hsub]

theorem freeLoop_credit (fuel : ℕ) :
    freeLoop fuel hd (a.credit d) = (freeLoop fuel hd a).map (·.credit d) := by
  induction fuel generalizing hd a with
  | zero => cases hd <;> rfl
  | succ fuel ih =>
      cases hd with
      | none => rfl
      | some i =>
          rw [freeLoop, freeLoop, ← ih]
          congr 1
          simp only [credit, freeListInsert, ChunkAllocator.mk.injEq, and_true, true_and]
          omega

theorem free_credit : (a.credit d).free hd = (a.free hd).map (·.credit d) := freeLoop_credit _

theorem splitLoop_credit (dataBuf : ℕ → UInt8) (fuel readPos : ℕ) (n : ℤ) :
    splitLoop dataBuf fuel hd readPos n (a.credit d) =
      (splitLoop dataBuf fuel hd readPos n a).map (·.credit d) := by
  induction fuel generalizing hd a readPos n with
  | zero => cases hd <;> rfl
  | succ fuel ih =>
      cases hd with
      | none => rfl
      | some i =>
          have hsize : (a.credit d).chunkSize = a.chunkSize := rfl
          rw [splitLoop, splitLoop, hsize]
          split_ifs
          · rfl
          · rfl
          · exact ih (a := { a with
              data := Function.update a.data i
                (Mem.write (a.data i) 0 (Mem.read dataBuf readPos a.chunkSize)) }) _ _

theorem split_credit (dataBuf : ℕ → UInt8) (n : ℤ) :
    (a.credit d).split hd dataBuf n = (a.split hd dataBuf n).map (·.credit d) :=
  splitLoop_credit dataBuf _ _ _

/-- `malloc` does not return when the list ends too early. -/
theorem mallocLoop_short {n : ℕ} (hfree : Chain a.next a.freeList fr) (hnd : fr.Nodup)
    (hn : fr.length < n) : mallocLoop n hd a = none := by
  induction fr generalizing a hd n with
  | nil =>
      have hnone : a.freeList = none := hfree
      obtain ⟨n, rfl⟩ : ∃ k, n = k + 1 := ⟨n - 1, by rw [List.length_nil] at hn; omega⟩
      rw [mallocLoop, freeListRemove, hnone]
  | cons i fr ih =>
      obtain ⟨hi, hfree⟩ := hfree
      obtain ⟨hmem, hnd⟩ := List.nodup_cons.mp hnd
      rw [List.length_cons] at hn
      obtain ⟨n, rfl⟩ : ∃ k, n = k + 1 := ⟨n - 1, by omega⟩
      rw [mallocLoop, freeListRemove, hi]
      exact ih (Chain.update (Chain.update hfree hmem) hmem) hnd (by omega)

theorem malloc_short {c : ℤ} (hfree : Chain a.next a.freeList fr) (hnd : fr.Nodup)
    (hc : fr.length < c) (htotal : c ≤ a.freeTotal) : a.malloc c = none := by
  rw [malloc, if_neg (by omega), mallocLoop_short hfree hnd (by omega)]

theorem malloc_lack {c : ℤ} (h : a.freeTotal < c) : a.malloc c = some (none, a) := by
  rw [malloc, if_pos h]

/-- Asked for no chunks, or for fewer, `malloc` only counts. -/
theorem malloc_of_nonpos {c : ℤ} (hc : c ≤ 0) (htotal : c ≤ a.freeTotal) :
    a.malloc c = some (none, a.credit (-c)) := by
  have hzero : c.toNat = 0 := by omega
  rw [malloc, if_neg (by omega), hzero]
  rfl

/-! ## Negative lengths -/

/-- The lengths for which `get_chunk_num` is negative. -/
def Negative (a : ChunkAllocator) (len : ℤ) : Prop :=
  0 < a.chunkSize ∧ (len = -a.chunkSize ∨ len ≤ -2 * a.chunkSize)

theorem getChunkNum_neg (hsize : 0 < a.chunkSize) (n : ℕ) :
    a.getChunkNum (-n) =
      some (-((n / a.chunkSize : ℕ) : ℤ) + if n % a.chunkSize = 0 then 0 else 1) := by
  have hdiv : (-(n : ℤ)).tdiv a.chunkSize = -((n / a.chunkSize : ℕ) : ℤ) := by
    rw [Int.neg_tdiv, Int.tdiv_eq_ediv_of_nonneg (by omega)]
    rfl
  have hmod : (-(n : ℤ)).tmod a.chunkSize = -((n % a.chunkSize : ℕ) : ℤ) := by
    rw [Int.neg_tmod, Int.tmod_eq_emod_of_nonneg (by omega)]
    rfl
  rw [getChunkNum, if_neg (by omega)]
  simp only [hdiv, hmod]
  by_cases hzero : n % a.chunkSize = 0
  · rw [if_neg (by rw [hzero]; simp), if_pos hzero, Int.add_zero]
  · rw [if_pos (by omega), if_neg hzero]

theorem Negative.neg {len : ℤ} (h : a.Negative len) : len < 0 := by
  obtain ⟨hsize, h⟩ := h
  omega

theorem getChunkNum_neg_iff {len c : ℤ} (h : a.getChunkNum len = some c) :
    c < 0 ↔ a.Negative len := by
  have hsize : 0 < a.chunkSize := by
    by_contra hzero
    rw [getChunkNum, if_pos (by omega)] at h
    exact absurd h (by simp)
  by_cases hlen : 0 ≤ len
  · obtain ⟨n, rfl⟩ := Int.eq_ofNat_of_zero_le hlen
    have hc := (getChunkNum_room h).2.1
    exact ⟨fun hneg => by omega, fun hneg => by have := hneg.neg; omega⟩
  · obtain ⟨n, rfl⟩ : ∃ n : ℕ, len = -n := ⟨len.natAbs, by omega⟩
    rw [getChunkNum_neg hsize] at h
    obtain rfl := Option.some.inj h
    have hmul := Nat.div_add_mod n a.chunkSize
    have hlt := Nat.mod_lt n hsize
    rw [Negative]
    generalize n / a.chunkSize = q at *
    generalize n % a.chunkSize = r at *
    -- no whole chunk, one, or more
    rcases Nat.lt_trichotomy q 1 with hq | rfl | hq
    · obtain rfl : q = 0 := by omega
      split_ifs <;> omega
    · split_ifs <;> omega
    · have htwo : a.chunkSize * 2 ≤ a.chunkSize * q := Nat.mul_le_mul_left _ hq
      split_ifs <;> omega

theorem getChunkNum_le_one {len c : ℤ} (hlen : len < 0) (h : a.getChunkNum len = some c) :
    c ≤ 1 := by
  have hsize : 0 < a.chunkSize := by
    by_contra hzero
    rw [getChunkNum, if_pos (by omega)] at h
    exact absurd h (by simp)
  obtain ⟨n, rfl⟩ : ∃ n : ℕ, len = -n := ⟨len.natAbs, by omega⟩
  rw [getChunkNum_neg hsize] at h
  obtain rfl := Option.some.inj h
  generalize n / a.chunkSize = q
  split_ifs <;> omega

/-- A copy of a negative length into a chunk does not return. -/
theorem split_neg {i : ℕ} (dataBuf : ℕ → UInt8) {len : ℤ} (hlen : len < 0) :
    a.split (some i) dataBuf len = none := by
  unfold split
  cases a.chunkTotal with
  | zero => rfl
  | succ fuel => rw [splitLoop, if_pos (by omega), if_pos hlen]

theorem split_none (dataBuf : ℕ → UInt8) (len : ℤ) : a.split none dataBuf len = some a := by
  unfold split
  cases a.chunkTotal <;> rfl

end ChunkAllocator
end Spp
