import Spp.Hash.AnyLength

/-!
# Room for a value

`SetValue` stores a value when a node and enough chunks are there, where the chunks that the
old value holds count too.  An empty value needs no chunk, but `malloc` hands out the handler
of an empty chain then, which `insert_node` takes for a failure; so an empty value can
replace another one and can not be stored under a new key.

## Main definitions

* `ValueChunks` — the chunks of a key's value.
* `Room` — what is there is enough.
-/

namespace Spp

open Links ChunkAllocator

namespace HashMap

variable {K : Type} {hash : K → ℕ} {m m' : HashMap K} {L : Lists} {i : ℕ} {d : ℤ}

/-- The chunks of the value that a lookup of the key finds. -/
def ValueChunks [DecidableEq K] (hash : K → ℕ) (m : HashMap K) (k : K) (l : List ℕ) : Prop :=
  match m.findNode hash k with
  | some (some i, _) => Chain m.allocator.next (m.chunkHead i) l
  | _ => l = []

/-- The key is present or a node is free, and there are as many chunks as a value of `n` bytes
needs. -/
def Room [DecidableEq K] (hash : K → ℕ) (m : HashMap K) (k : K) (n : ℕ) : Prop :=
  (m.Present k ∨ m.freeList ≠ none) ∧ ∃ free held c,
    Chain m.allocator.next m.allocator.freeList free ∧ ValueChunks hash m k held ∧
      m.allocator.getChunkNum n = some c ∧ c ≤ free.length + held.length

/-- Only an empty value needs no chunk. -/
theorem getChunkNum_pos_iff {a : ChunkAllocator} {n : ℕ} {c : ℤ} (h : a.getChunkNum n = some c) :
    0 < c ↔ 0 < n := by
  obtain ⟨hsize, hc, hroom⟩ := getChunkNum_room h
  constructor
  · intro hpos
    by_contra hzero
    obtain rfl : n = 0 := by omega
    have heq := h.symm.trans (getChunkNum_zero hsize)
    have := Option.some.inj heq
    omega
  · intro hpos
    by_contra hzero
    obtain rfl : c = 0 := by omega
    simp at hroom
    omega

namespace Loose

/-- Where the lists are known, so is the room. -/
theorem room_iff [DecidableEq K] (h : Loose hash m L d) {k : K} {n : ℕ} {held : List ℕ}
    (hheld : ∀ l, ValueChunks hash m k l ↔ l = held) :
    Room hash m k n ↔ (m.Present k ∨ L.free ≠ []) ∧
      ∃ c, m.allocator.getChunkNum n = some c ∧ c ≤ L.freeChunks.length + held.length := by
  rw [Room, ne_eq, h.freeList_none_iff]
  refine and_congr_right fun _ => ?_
  constructor
  · rintro ⟨free, l, c, hfree, hl, hnew, hc⟩
    obtain rfl := (hheld l).mp hl
    rw [hfree.unique h.freeChain] at hc
    exact ⟨c, hnew, hc⟩
  · rintro ⟨c, hnew, hc⟩
    exact ⟨_, held, c, h.freeChain, (hheld held).mpr rfl, hnew, hc⟩

variable [DecidableEq K]

/-- `SetValue` succeeds exactly where there is room, and the key is present or the value is
not empty. -/
theorem setValue_iff (h : Loose hash m L d) (k : K) (data : ℕ → UInt8) (n : ℕ) :
    (∃ m', m.setValue hash k data n = some (0, m')) ↔
      Room hash m k n ∧ (m.Present k ∨ 0 < n ∧ 0 < m.bucketSize) := by
  by_cases hB : 0 < m.bucketSize
  · rcases h.placed.nodes.findNode hB k with ⟨hmiss, habsent⟩ | ⟨i, hi, hk, hhit⟩
    · -- a new key
      have habsent' : ¬ m.Present k := by
        rw [h.present_iff]
        rintro ⟨i, hi, hk⟩
        exact habsent i hi hk
      have hset : m.setValue hash k data n = (m.insertNode hash k data n).bind fun r =>
          some (if r.1.isSome = false then -1 else 0, r.2) := by
        rw [setValue_eq, hmiss, Option.bind_some]
      have hheld : ∀ l, ValueChunks hash m k l ↔ l = [] := fun l => by rw [ValueChunks, hmiss]
      have hcan : CanHold m L n ↔ Room hash m k n ∧ 0 < n := by
        rw [h.room_iff hheld]
        constructor
        · rintro ⟨hfree, -, c, hnew, hpos, hc⟩
          refine ⟨⟨.inr hfree, c, hnew, ?_⟩, (getChunkNum_pos_iff hnew).mp (by omega)⟩
          rw [List.length_nil]
          omega
        · rintro ⟨⟨hfree, c, hnew, hc⟩, hpos⟩
          have hcpos := (getChunkNum_pos_iff hnew).mpr hpos
          obtain ⟨c, rfl⟩ := Int.eq_ofNat_of_zero_le hcpos.le
          rw [List.length_nil] at hc
          exact ⟨hfree.resolve_left habsent', hB, c, hnew, by omega, by omega⟩
      simp only [habsent', hB, and_true, false_or, ← hcan]
      rw [hset]
      rcases h.insertNode_nat k data n with ⟨hcan, i, m', L', hinsert, -⟩ | ⟨hcannot, hfail | hnone⟩
      · rw [hinsert]
        exact iff_of_true ⟨m', rfl⟩ hcan
      · rw [hfail]
        refine iff_of_false ?_ hcannot
        rintro ⟨m', hret⟩
        simp at hret
      · rw [hnone]
        exact iff_of_false (by simp) hcannot
    · -- a key that is present
      have hpresent : m.Present k := h.present_iff.mpr ⟨i, hi, hk⟩
      obtain ⟨halloc, h₁⟩ := h.touch hi
      have hset : m.setValue hash k data n =
          ((m.insertAddListHead i).storeNode i data n).bind fun r =>
            some (if r.1 = false then -1 else 0, r.2) := by
        rw [setValue_eq, hhit, Option.bind_some]
        simp only [updateNode_none, Option.bind_assoc, Option.bind_some]
      have hheld : ∀ l, ValueChunks hash m k l ↔ l = L.chunks i := by
        intro l
        rw [ValueChunks, hhit]
        exact ⟨fun hl => hl.unique (h.chunks.chain i hi), fun hl => hl ▸ h.chunks.chain i hi⟩
      obtain ⟨c, hnew, hstore⟩ := h₁.storeNode_nat List.mem_cons_self data n
      rw [halloc] at hnew
      have hroom : Room hash m k n ↔ c ≤ L.freeChunks.length + (L.chunks i).length := by
        rw [h.room_iff hheld]
        constructor
        · rintro ⟨-, c', hnew', hc⟩
          obtain rfl := Option.some.inj (hnew.symm.trans hnew')
          omega
        · intro hc
          exact ⟨.inl hpresent, c, hnew, by omega⟩
      simp only [hpresent, true_or, and_true, hroom]
      rw [hset]
      rcases hstore with ⟨hc, m', L', hstore, -⟩ | ⟨hc, hfail | hnone⟩
      · rw [hstore]
        exact iff_of_true ⟨m', rfl⟩ hc
      · rw [hfail]
        refine iff_of_false ?_ (by simpa [Lists.touch] using hc)
        rintro ⟨m', hret⟩
        simp at hret
      · rw [hnone]
        exact iff_of_false (by simp) (by simpa [Lists.touch] using hc)
  · -- without a bucket nothing is present, and the lookup does not return
    have habsent : ¬ m.Present k := by
      rintro ⟨i, ⟨b, -, hb, -⟩, -⟩
      omega
    refine iff_of_false ?_ fun hroom => hB (hroom.2.resolve_left habsent).2
    rw [setValue_eq, findNode_of_zero (by omega)]
    rintro ⟨m', hret⟩
    simp at hret

end Loose

section
variable [DecidableEq K]

/-- In every state that calls on a freshly opened pool reach, `SetValue` of `n` bytes succeeds
if and only if there is room, exactly where the key is present, the value is not empty and
the pool has a bucket, or there is no room. -/
theorem setValue_iff_room (hash : K → ℕ) (pool : HashMap K)
    (nodeTotal bucketSize nChunks chunkSize : ℕ) (tr : List (Op K × Out)) (m : HashMap K)
    (hrun : Run.Allows (Returns hash) (pool.openInit nodeTotal bucketSize nChunks chunkSize) tr m)
    (k : K) (data : ℕ → UInt8) (n : ℕ) :
    ((∃ m', m.setValue hash k data n = some (0, m')) ↔ Room hash m k n) ↔
      m.Present k ∨ (0 < n ∧ 0 < m.bucketSize) ∨ ¬ Room hash m k n := by
  obtain ⟨L₀, h₀⟩ := Loose.openInit hash pool nodeTotal bucketSize nChunks chunkSize
  obtain ⟨d, L, h⟩ := h₀.run hrun
  rw [h.setValue_iff]
  tauto

/-- A value is stored in a new map, which had room for it. -/
theorem setValue_iff_room_new :
    (((default : HashMap ℕ).openInit 1 1 1 1).setValue id 7 (fun _ => 5) (1 : ℕ)).map Prod.fst =
        some 0 ∧
      Room id ((default : HashMap ℕ).openInit 1 1 1 1) 7 1 := by
  have hcode : (((default : HashMap ℕ).openInit 1 1 1 1).setValue id 7 (fun _ => 5) (1 : ℕ)).map
      Prod.fst = some 0 := by decide +kernel
  refine ⟨hcode, ?_⟩
  obtain ⟨⟨code, m'⟩, hset, rfl⟩ := Option.map_eq_some_iff.mp hcode
  exact ((setValue_iff_room id default 1 1 1 1 [] _ (.nil _) 7 (fun _ => 5) 1).mpr
    (.inr (.inl ⟨by decide, by decide⟩))).mp ⟨m', hset⟩

end

/-- A new map has room for an empty value, and does not store it. -/
theorem not_setValue_empty :
    Room id ((default : HashMap ℕ).openInit 1 1 1 1) 7 0 ∧
      ∃ m', ((default : HashMap ℕ).openInit 1 1 1 1).setValue id 7 (fun _ => 0) (0 : ℕ) =
        some (-1, m') := by
  have h : Holds (id : ℕ → ℕ) _ _ := holds_openInit default 1 1 1 1
  have hmiss : (((default : HashMap ℕ).openInit 1 1 1 1).findNode id 7).map Prod.fst =
      some none := by decide +kernel
  obtain ⟨⟨r, m₁⟩, hmiss, rfl⟩ := Option.map_eq_some_iff.mp hmiss
  have hcode : (((default : HashMap ℕ).openInit 1 1 1 1).setValue id 7 (fun _ => 0) (0 : ℕ)).map
      Prod.fst = some (-1) := by decide +kernel
  obtain ⟨⟨code, m'⟩, hset, rfl⟩ := Option.map_eq_some_iff.mp hcode
  refine ⟨⟨.inr (by decide +kernel), _, [], 0, h.chunks.free, ?_, by decide +kernel, by simp⟩,
    m', hset⟩
  rw [ValueChunks, hmiss]

end HashMap
end Spp
