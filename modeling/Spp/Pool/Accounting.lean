import Spp.Pool.MemPool

/-!
# Ownership and accounting in the memory pool

A block is free or held by one user, `_allocated_size` is what the pool has from the heap, and
it stays below the capacity.  So the assertion in `release` holds, and the sums and products of
32 bits stay in their range.  Nothing of this looks at the stub, but for its finding the blocks
that are held.

## Main definitions

* `Shape` — where the blocks are.
* `Accounts` — the sums, with bytes that `extend` has not counted yet.
* `Sound` — both, between the calls.
* `HoldsOnly`, `Owned`, `Served` — the users' part and the pool's part.
-/

namespace Spp

/-! ## The heap -/

namespace Heap

variable {heap : Heap} {p q size : ℕ} {ps : List ℕ}

theorem delete_of_find (h : heap.blocks.find? p = some size) :
    heap.delete p =
      { heap with blocks := heap.blocks.erase p, deleted := heap.deleted + size } := by
  simp [delete, h]

/-- Blocks of one size are deleted, each once. -/
theorem deleteAll_spec (hnodup : ps.Nodup) (hlive : ∀ p ∈ ps, heap.blocks.find? p = some size) :
    (∀ q, (heap.deleteAll ps).blocks.find? q = if q ∈ ps then none else heap.blocks.find? q) ∧
      (heap.deleteAll ps).newed = heap.newed ∧
      (heap.deleteAll ps).deleted = heap.deleted + size * ps.length ∧
      (heap.deleteAll ps).again = heap.again := by
  induction ps generalizing heap with
  | nil => simp [deleteAll]
  | cons p ps ih =>
    rw [List.nodup_cons] at hnodup
    have hp := hlive p List.mem_cons_self
    have hlive' : ∀ q ∈ ps, (heap.delete p).blocks.find? q = some size := by
      intro q hq
      have hne : q ≠ p := by
        rintro rfl
        exact hnodup.1 hq
      rw [delete_of_find hp]
      simpa [StdMap.find?_erase, hne] using hlive q (List.mem_cons_of_mem _ hq)
    obtain ⟨hblocks, hnewed, hdeleted, hagain⟩ := ih hnodup.2 hlive'
    change (∀ q, ((heap.delete p).deleteAll ps).blocks.find? q = _) ∧
      ((heap.delete p).deleteAll ps).newed = _ ∧ ((heap.delete p).deleteAll ps).deleted = _ ∧
      ((heap.delete p).deleteAll ps).again = _
    rw [delete_of_find hp] at hblocks hnewed hdeleted hagain ⊢
    rw [hnewed, hdeleted, hagain]
    refine ⟨fun q => ?_, rfl, ?_, rfl⟩
    · rw [hblocks]
      by_cases hq : q = p <;> simp [StdMap.find?_erase, hq]
    · simp only [List.length_cons]
      ring

end Heap

namespace MemPool

variable {s s' : MemPool} {held : List (ℕ × ℕ)} {n : ℕ} {l set : List ℕ}

theorem note_of {P : Prop} [Decidable P] (h : P) : s.note P = s := by
  simp [note, h]

/-! ## Sizes -/

theorem fitShift_ge (fuel size i : ℕ) : i ≤ fitShift fuel size i := by
  induction fuel generalizing size i with
  | zero => exact le_rfl
  | succ fuel ih =>
    rw [fitShift]
    split
    · exact le_rfl
    · exact (Nat.le_succ i).trans (ih _ _)

/-- The loop counts the bits. -/
theorem fitShift_spec (fuel size i : ℕ) (hsize : size < 2 ^ fuel) :
    size < 2 ^ (fitShift fuel size i - i) ∧ ∀ k, size < 2 ^ k → fitShift fuel size i ≤ i + k := by
  induction fuel generalizing size i with
  | zero => simp_all [fitShift]
  | succ fuel ih =>
    rw [fitShift]
    split
    · next hzero => simp [hzero]
    · next hpos =>
      have hge := fitShift_ge fuel (size / 2) (i + 1)
      obtain ⟨hlt, hleast⟩ := ih (size / 2) (i + 1) (by omega)
      constructor
      · have hsplit : fitShift fuel (size / 2) (i + 1) - i =
            (fitShift fuel (size / 2) (i + 1) - (i + 1)) + 1 := by omega
        rw [hsplit, Nat.pow_succ]
        omega
      · intro k hk
        cases k with
        | zero => omega
        | succ k =>
          have hhalf := hleast k (by rw [Nat.pow_succ] at hk; omega)
          omega

theorem fitBlockSize_pos (size : ℕ) : 0 < fitBlockSize size := Nat.two_pow_pos _

theorem fitBlockSize_le (size : ℕ) : fitBlockSize size ≤ 2 ^ 31 :=
  Nat.pow_le_pow_right (by decide) (by omega)

/-- The block is larger than what is asked for. -/
theorem lt_fitBlockSize {size : ℕ} (h : size < 2 ^ 31) : size < fitBlockSize size := by
  have hge := fitShift_ge 32 (size / 2 ^ 10) 10
  obtain ⟨hlt, hleast⟩ := fitShift_spec 32 (size / 2 ^ 10) 10 (by omega)
  have hle := hleast 21 (by omega)
  have hmod : fitShift 32 (size / 2 ^ 10) 10 % 32 = fitShift 32 (size / 2 ^ 10) 10 :=
    Nat.mod_eq_of_lt (by omega)
  have hsplit : 2 ^ fitShift 32 (size / 2 ^ 10) 10 =
      2 ^ (fitShift 32 (size / 2 ^ 10) 10 - 10) * 2 ^ 10 := by
    rw [← Nat.pow_add]
    congr 1
    omega
  rw [fitBlockSize, hmod, hsplit]
  omega

/-- What `extend` adds: one block at least, and not more than 2G. -/
theorem fitExtendSet_spec (hle : n ≤ 2 ^ 31) :
    1 ≤ fitExtendSet n ∧ n * fitExtendSet n ≤ 2 ^ 31 := by
  unfold fitExtendSet cSlot1 cSlot2 cAllocCapcity cExtendSet cSlot2
  split
  · omega
  · split
    · next hlow hhigh =>
      constructor
      · rw [Nat.le_div_iff_mul_le (by omega)]
        omega
      · exact (Nat.mul_div_le _ _).trans (by decide)
    · omega

theorem releaseCount_le (b f c w : ℕ) : releaseCount b f c w ≤ f := by
  unfold releaseCount
  repeat' split
  all_goals omega

/-! ## Where the blocks are -/

/-- The lists have the keys of the sets; a block is free in the list of its size, or held by
one user, and its set knows it. -/
structure Shape (s : MemPool) (held : List (ℕ × ℕ)) : Prop where
  keys : ∀ n, s.free.find? n = none ↔ s.stub.find? n = none
  pos : ∀ n, s.free.find? n ≠ none → 0 < n
  nodup : ∀ n l, s.free.find? n = some l → l.Nodup
  freeLive : ∀ n l, s.free.find? n = some l → ∀ p ∈ l, s.heap.blocks.find? p = some n
  single : (held.map Prod.fst).Nodup
  heldLive : ∀ p n, (p, n) ∈ held → s.heap.blocks.find? p = some n
  apart : ∀ n l, s.free.find? n = some l → ∀ p ∈ l, (p, n) ∉ held
  live : ∀ p n, s.heap.blocks.find? p = some n →
    (∃ l, s.free.find? n = some l ∧ p ∈ l) ∨ (p, n) ∈ held
  stub : ∀ p n, s.heap.blocks.find? p = some n → ∃ set, s.stub.find? n = some set ∧ p ∈ set

/-- The bytes in the free lists and with the users. -/
def bytes (s : MemPool) (held : List (ℕ × ℕ)) : ℕ :=
  (s.free.sumOf fun n l => n * l.length) + (held.map Prod.snd).sum

/-- The sums, where `pending` bytes have been taken from the heap and are still to be
counted. -/
structure Accounts (s : MemPool) (held : List (ℕ × ℕ)) (pending : ℕ) : Prop where
  total : s.allocatedSize + pending = s.bytes held
  newed : s.heap.newed = s.allocatedSize + pending + s.heap.deleted
  max : s.allocatedSize ≤ cMaxPoolSize
  exact : s.exact = true
  again : s.heap.again = 0

/-- The invariant between the calls. -/
structure Sound (s : MemPool) (held : List (ℕ × ℕ)) : Prop where
  shape : Shape s held
  accounts : Accounts s held 0

theorem Sound.init : Sound init [] := by
  refine ⟨⟨?_, ?_, ?_, ?_, ?_, ?_, ?_, ?_, ?_⟩, ⟨?_, ?_, ?_, ?_, ?_⟩⟩ <;>
    simp [MemPool.init, Heap.init, bytes, StdMap.sumOf, StdMap.empty, StdMap.find?]

/-- A free list is part of what has been allocated. -/
theorem Sound.list_le (h : Sound s held) (hl : s.free.find? n = some l) :
    n * l.length ≤ s.allocatedSize := by
  have htotal := h.accounts.total
  have hle := StdMap.le_sumOf (g := fun n (l : List ℕ) => n * l.length) hl
  simp only [bytes] at htotal
  omega

theorem Sound.length_lt (h : Sound s held) (hl : s.free.find? n = some l) :
    l.length < 2 ^ 32 ∧ l.length * n < 2 ^ 32 := by
  have hle := h.list_le hl
  have hmax := h.accounts.max
  have hpos := h.shape.pos n (by simp [hl])
  have hlength : l.length ≤ n * l.length := Nat.le_mul_of_pos_left _ hpos
  rw [Nat.mul_comm l.length n]
  simp only [cMaxPoolSize] at hmax
  omega

/-- The water mark has no part in it. -/
theorem Sound.mark (h : Sound s held) (w : ℕ) : Sound { s with waterMark := w } held :=
  ⟨⟨h.shape.keys, h.shape.pos, h.shape.nodup, h.shape.freeLive, h.shape.single, h.shape.heldLive,
    h.shape.apart, h.shape.live, h.shape.stub⟩,
    ⟨h.accounts.total, h.accounts.newed, h.accounts.max, h.accounts.exact, h.accounts.again⟩⟩

/-! ## Giving blocks back -/

/-- The first `t` free blocks of a size have been given back. -/
structure Purged (s s' : MemPool) (n t : ℕ) (l : List ℕ) : Prop where
  free : s'.free = s.free.modify n fun l => l.drop t
  stub : s'.stub = s.stub
  mark : s'.waterMark = s.waterMark
  blocks : ∀ q, s'.heap.blocks.find? q = if q ∈ l.take t then none else s.heap.blocks.find? q
  size : s'.allocatedSize + n * t = s.allocatedSize

theorem Purged.shape {t : ℕ} (h : Shape s held) (hl : s.free.find? n = some l)
    (hp : Purged s s' n t l) : Shape s' held := by
  have hfind : ∀ n' l', s'.free.find? n' = some l' →
      ∃ l₀, s.free.find? n' = some l₀ ∧ l' <:+ l₀ ∧ (n' = n → l₀ = l ∧ l' = l.drop t) := by
    intro n' l' hl'
    rw [hp.free, StdMap.find?_modify] at hl'
    by_cases hn : n' = n
    · subst hn
      simp [hl] at hl'
      exact ⟨l, hl, hl' ▸ List.drop_suffix t l, fun _ => ⟨rfl, hl'.symm⟩⟩
    · rw [if_neg hn] at hl'
      exact ⟨l', hl', List.suffix_refl _, fun heq => absurd heq hn⟩
  have hsplit : ∀ q ∈ l.drop t, q ∉ l.take t := by
    intro q hq hq'
    have hnodup := h.nodup n l hl
    rw [← List.take_append_drop t l, List.nodup_append] at hnodup
    exact hnodup.2.2 q hq' q hq rfl
  -- a block that has been given back was free in this list
  have hgone : ∀ p n', s.heap.blocks.find? p = some n' → p ∈ l.take t → n' = n := by
    intro p n' hblock hmem
    have hown := h.freeLive n l hl p (List.mem_of_mem_take hmem)
    rw [hblock] at hown
    exact Option.some.inj hown
  refine ⟨fun n' => ?_, fun n' hn' => ?_, fun n' l' hl' => ?_, fun n' l' hl' p hmem => ?_, h.single,
    fun p n' hmem => ?_, fun n' l' hl' p hmem => ?_, fun p n' hblock => ?_, fun p n' hblock => ?_⟩
  · rw [hp.free, hp.stub, StdMap.find?_modify_eq_none]
    exact h.keys n'
  · rw [hp.free, ne_eq, StdMap.find?_modify_eq_none] at hn'
    exact h.pos n' hn'
  · obtain ⟨l₀, hl₀, hsuffix, -⟩ := hfind n' l' hl'
    exact hsuffix.sublist.nodup (h.nodup n' l₀ hl₀)
  · obtain ⟨l₀, hl₀, hsuffix, hsame⟩ := hfind n' l' hl'
    have hblock := h.freeLive n' l₀ hl₀ p (hsuffix.subset hmem)
    rw [hp.blocks, if_neg, hblock]
    intro htaken
    obtain ⟨-, hdrop⟩ := hsame (hgone p n' hblock htaken)
    rw [hdrop] at hmem
    exact hsplit p hmem htaken
  · have hblock := h.heldLive p n' hmem
    rw [hp.blocks, if_neg, hblock]
    intro htaken
    obtain rfl := hgone p n' hblock htaken
    exact h.apart n' l hl p (List.mem_of_mem_take htaken) hmem
  · obtain ⟨l₀, hl₀, hsuffix, -⟩ := hfind n' l' hl'
    exact h.apart n' l₀ hl₀ p (hsuffix.subset hmem)
  · rw [hp.blocks] at hblock
    split at hblock
    · cases hblock
    next hkept =>
    rcases h.live p n' hblock with ⟨l₀, hl₀, hmem⟩ | hheld
    · left
      by_cases hn : n' = n
      · subst hn
        obtain rfl : l₀ = l := Option.some.inj (hl₀.symm.trans hl)
        refine ⟨l₀.drop t, ?_, ?_⟩
        · rw [hp.free, StdMap.find?_modify_self, hl₀]
          rfl
        · rw [← List.take_append_drop t l₀] at hmem
          exact (List.mem_append.mp hmem).resolve_left hkept
      · refine ⟨l₀, ?_, hmem⟩
        rw [hp.free, StdMap.find?_modify_of_ne hn]
        exact hl₀
    · exact .inr hheld
  · rw [hp.blocks] at hblock
    split at hblock
    · cases hblock
    · rw [hp.stub]
      exact h.stub p n' hblock

/-- `release` does not fail, and gives back what `release_size` says. -/
theorem release_spec (h : Sound s held) (hl : s.free.find? n = some l) (set : List ℕ) :
    ∃ s', s.release n l set = some s' ∧ Sound s' held ∧
      Purged s s' n (releaseCount n l.length (u32 set.length) s.waterMark) l := by
  obtain ⟨t, ht⟩ : ∃ t, t = releaseCount n l.length (u32 set.length) s.waterMark := ⟨_, rfl⟩
  have hle : t ≤ l.length := ht ▸ releaseCount_le _ _ _ _
  obtain ⟨hlength, hproduct⟩ := h.length_lt hl
  have hlist := h.list_le hl
  have hmax := h.accounts.max
  simp only [cMaxPoolSize] at hmax
  have hbytes : n * t ≤ n * l.length := Nat.mul_le_mul_left n hle
  unfold release
  simp only [note_of hproduct, u32_of_lt hlength, ← ht]
  by_cases hzero : t = 0
  · rw [if_pos hzero]
    refine ⟨s, rfl, h, ?_⟩
    rw [hzero]
    exact ⟨(StdMap.modify_eq_self fun _ => rfl).symm, rfl, rfl, by simp, by simp⟩
  · have hsize : u32 (n * t) = n * t := u32_of_lt (by omega)
    have hsub : u32sub s.allocatedSize (n * t) = s.allocatedSize - n * t :=
      u32sub_of_le (by omega) (by omega)
    have hrange : n * t < 2 ^ 32 := by omega
    simp only [note_of hrange, hsize, hsub]
    rw [if_neg hzero, if_neg (by omega)]
    obtain ⟨hblocks, hnewed, hdeleted, hagain⟩ := Heap.deleteAll_spec
      ((List.take_sublist t l).nodup (h.shape.nodup n l hl))
      fun p hp => h.shape.freeLive n l hl p (List.mem_of_mem_take hp)
    have hpurged : Purged s { s with
        free := s.free.modify n fun l => l.drop t, allocatedSize := s.allocatedSize - n * t
        heap := s.heap.deleteAll (l.take t) } n t l :=
      ⟨rfl, rfl, rfl, hblocks, Nat.sub_add_cancel (by omega)⟩
    refine ⟨_, rfl, ⟨hpurged.shape h.shape hl, ?_⟩, hpurged⟩
    have htotal := h.accounts.total
    have hheap := h.accounts.newed
    have hsum := StdMap.sumOf_modify (g := fun n (l : List ℕ) => n * l.length)
      (f := fun l => l.drop t) hl
    have htaken : n * (l.drop t).length + n * t = n * l.length := by
      rw [List.length_drop, ← Nat.mul_add, Nat.sub_add_cancel hle]
    have htake : (l.take t).length = t := by simp [hle]
    constructor
    · simp only [bytes] at htotal ⊢
      omega
    · change (s.heap.deleteAll (l.take t)).newed =
        s.allocatedSize - n * t + 0 + (s.heap.deleteAll (l.take t)).deleted
      rw [hnewed, hdeleted, htake]
      omega
    · change s.allocatedSize - n * t ≤ cMaxPoolSize
      simp only [cMaxPoolSize]
      omega
    · exact h.accounts.exact
    · change (s.heap.deleteAll (l.take t)).again = 0
      rw [hagain]
      exact h.accounts.again

/-- Free blocks have been given back, and nothing else has happened. -/
structure Shrunk (s s' : MemPool) : Prop where
  keys : ∀ n, s'.free.find? n = none ↔ s.free.find? n = none
  stub : s'.stub = s.stub
  mark : s'.waterMark = s.waterMark
  blocks : ∀ q n, s'.heap.blocks.find? q = some n → s.heap.blocks.find? q = some n
  size : s'.allocatedSize ≤ s.allocatedSize

theorem Shrunk.refl (s : MemPool) : Shrunk s s :=
  ⟨fun _ => Iff.rfl, rfl, rfl, fun _ _ h => h, le_rfl⟩

theorem Shrunk.trans {s'' : MemPool} (h : Shrunk s s') (h' : Shrunk s' s'') : Shrunk s s'' :=
  ⟨fun n => (h'.keys n).trans (h.keys n), h'.stub.trans h.stub, h'.mark.trans h.mark,
    fun q n hq => h.blocks q n (h'.blocks q n hq), h'.size.trans h.size⟩

theorem Purged.shrunk {t : ℕ} (h : Purged s s' n t l) : Shrunk s s' := by
  have hsize := h.size
  refine ⟨fun n' => ?_, h.stub, h.mark, fun q n' hq => ?_, by omega⟩
  · rw [h.free, StdMap.find?_modify_eq_none]
  · rw [h.blocks] at hq
    split at hq
    · cases hq
    · exact hq

/-- The loop of `release_size` keeps the invariant. -/
theorem purge_spec (last memSize e : ℕ) (h : Sound s held) (hlast : s.allocatedSize ≤ last) :
    ∃ s', purge last memSize e s = some s' ∧ Sound s' held ∧ Shrunk s s' := by
  induction e generalizing s with
  | zero => exact ⟨s, rfl, h, .refl s⟩
  | succ e ih =>
    rw [purge]
    simp only [note_of hlast]
    split
    · split
      · next set l hset hl =>
        obtain ⟨s₁, heq, hsound, hpurged⟩ := release_spec h hl set
        have hsize := hpurged.shrunk.size
        obtain ⟨s', heq', hsound', hshrunk⟩ := ih hsound (by omega)
        refine ⟨s', ?_, hsound', hpurged.shrunk.trans hshrunk⟩
        rw [heq]
        exact heq'
      · exact ih h hlast
    · exact ⟨s, rfl, h, .refl s⟩

/-- `release_size` gives back enough, or says that it has not. -/
theorem releaseSize_spec (memSize : ℕ) (h : Sound s held) (hmark : s.waterMark = cMaxWaterMark) :
    ∃ s' code, s.releaseSize memSize = some (s', code) ∧ Sound s' held ∧ Shrunk s s' ∧
      (code = 0 ∧ s'.allocatedSize + memSize ≤ s.allocatedSize ∨ code = -1) := by
  have hmax := h.accounts.max
  simp only [cMaxPoolSize] at hmax
  obtain ⟨s', heq, hsound, hshrunk⟩ := purge_spec s.allocatedSize memSize 31
    (h.mark cAllocCapcity) le_rfl
  have hsize : s'.allocatedSize ≤ s.allocatedSize := hshrunk.size
  have hreleased : released { s' with waterMark := cMaxWaterMark } s.allocatedSize =
      s.allocatedSize - s'.allocatedSize := u32sub_of_le hsize (by omega)
  have hshrunk' : Shrunk s { s' with waterMark := cMaxWaterMark } :=
    ⟨hshrunk.keys, hshrunk.stub, hmark.symm, hshrunk.blocks, hsize⟩
  unfold releaseSize
  simp only [heq, Option.map_some, hreleased]
  split
  · exact ⟨_, _, rfl, hsound.mark _, hshrunk', .inr rfl⟩
  · refine ⟨_, _, rfl, hsound.mark _, hshrunk', .inl ⟨rfl, ?_⟩⟩
    change s'.allocatedSize + memSize ≤ s.allocatedSize
    omega

/-! ## Taking blocks from the heap -/

/-- The set of the size knows the block. -/
def Known (s : MemPool) (n p : ℕ) : Prop := ∃ set, s.stub.find? n = some set ∧ p ∈ set

/-- One turn of the loop of `extend`. -/
def newBlock (s : MemPool) (n p : ℕ) : MemPool :=
  { s with
    free := s.free.modify n fun l => p :: l
    stub := s.stub.modify n fun set => set.insert p
    heap := s.heap.new p n }

/-- No set has a block twice. -/
def Sets (s : MemPool) : Prop := ∀ n set, s.stub.find? n = some set → set.Nodup

/-- New blocks of one size, which the set of the size knows. -/
structure Grown (s s' : MemPool) (n : ℕ) : Prop where
  keys : ∀ n', s'.free.find? n' = none ↔ s.free.find? n' = none
  mark : s'.waterMark = s.waterMark
  others : ∀ n' p, n' ≠ n → (s'.Known n' p ↔ s.Known n' p)
  sets : s.Sets → s'.Sets
  blocks : ∀ n' p, n' ≠ n → (s'.heap.blocks.find? p = some n' ↔ s.heap.blocks.find? p = some n')
  own : ∃ new : List ℕ, (∀ p, s'.Known n p ↔ s.Known n p ∨ p ∈ new) ∧
    ∀ p, s'.heap.blocks.find? p = some n ↔ s.heap.blocks.find? p = some n ∨ p ∈ new

theorem Grown.refl (s : MemPool) (n : ℕ) : Grown s s n :=
  ⟨fun _ => Iff.rfl, rfl, fun _ _ _ => Iff.rfl, id, fun _ _ _ => Iff.rfl, [], by simp, by simp⟩

theorem Grown.trans {s'' : MemPool} (h : Grown s s' n) (h' : Grown s' s'' n) : Grown s s'' n := by
  obtain ⟨new, hknown, hblocks⟩ := h.own
  obtain ⟨new', hknown', hblocks'⟩ := h'.own
  refine ⟨fun n' => (h'.keys n').trans (h.keys n'), h'.mark.trans h.mark,
    fun n' p hn => (h'.others n' p hn).trans (h.others n' p hn), fun hsets => h'.sets (h.sets hsets),
    fun n' p hn => (h'.blocks n' p hn).trans (h.blocks n' p hn), new ++ new', ?_, ?_⟩
  · intro p
    rw [hknown', hknown, List.mem_append, or_assoc]
  · intro p
    rw [hblocks', hblocks, List.mem_append, or_assoc]

variable {p : ℕ}

theorem newBlock_blocks (hfresh : s.heap.blocks.find? p = none) (q : ℕ) :
    (s.newBlock n p).heap.blocks.find? q = if q = p then some n else s.heap.blocks.find? q :=
  StdMap.find?_insert hfresh

theorem newBlock_grown (hfresh : s.heap.blocks.find? p = none)
    (hl : s.free.find? n = some l) (h : Shape s held) : Grown s (s.newBlock n p) n := by
  obtain ⟨set, hset⟩ : ∃ set, s.stub.find? n = some set := by
    rw [← Option.ne_none_iff_exists']
    intro hnone
    rw [← h.keys, hl] at hnone
    cases hnone
  refine ⟨fun n' => StdMap.find?_modify_eq_none, rfl, fun n' q hn => ?_, fun hsets n' set' hset' => ?_,
    fun n' q hn => ?_, [p], fun q => ?_, fun q => ?_⟩
  · unfold Known
    rw [newBlock, StdMap.find?_modify_of_ne hn]
  · rw [newBlock, StdMap.find?_modify] at hset'
    by_cases hn : n' = n
    · simp only [hn, hset, Option.map_some, if_true] at hset'
      cases hset'
      exact (hsets n set hset).insert
    · rw [if_neg hn] at hset'
      exact hsets n' set' hset'
  · rw [newBlock_blocks hfresh]
    by_cases hq : q = p
    · simp [hq, hfresh, hn.symm]
    · simp [hq]
  · unfold Known
    rw [newBlock, StdMap.find?_modify_self, hset]
    simp [or_comm]
  · rw [newBlock_blocks hfresh]
    by_cases hq : q = p
    · simp [hq]
    · simp [hq]

theorem newBlock_shape (hfresh : s.heap.blocks.find? p = none)
    (hl : s.free.find? n = some l) (h : Shape s held) : Shape (s.newBlock n p) held := by
  have hgrown := newBlock_grown hfresh hl h
  have hold : ∀ q n', s.heap.blocks.find? q = some n' → q ≠ p := by
    rintro q n' hq rfl
    rw [hfresh] at hq
    cases hq
  have hkeep : ∀ q n', s.heap.blocks.find? q = some n' →
      (s.newBlock n p).heap.blocks.find? q = some n' := by
    intro q n' hq
    rw [newBlock_blocks hfresh, if_neg (hold q n' hq), hq]
  have hnew : p ∉ l := fun hmem => hold p n (h.freeLive n l hl p hmem) rfl
  have hown : (s.newBlock n p).free.find? n = some (p :: l) := by
    rw [newBlock, StdMap.find?_modify_self, hl]
    rfl
  have hother : ∀ n', n' ≠ n → (s.newBlock n p).free.find? n' = s.free.find? n' := fun n' hn =>
    StdMap.find?_modify_of_ne hn
  refine ⟨fun n' => ?_, fun n' hn' => ?_, fun n' l' hl' => ?_, fun n' l' hl' q hq => ?_, h.single,
    fun q n' hq => hkeep q n' (h.heldLive q n' hq), fun n' l' hl' q hq => ?_, fun q n' hq => ?_,
    fun q n' hq => ?_⟩
  · rw [hgrown.keys, h.keys, newBlock, StdMap.find?_modify_eq_none]
  · exact h.pos n' fun hnone => hn' ((hgrown.keys n').mpr hnone)
  · by_cases hn : n' = n
    · subst hn
      rw [hown] at hl'
      cases hl'
      exact List.nodup_cons.mpr ⟨hnew, h.nodup n' l hl⟩
    · rw [hother n' hn] at hl'
      exact h.nodup n' l' hl'
  · by_cases hn : n' = n
    · subst hn
      rw [hown] at hl'
      cases hl'
      rcases List.mem_cons.mp hq with rfl | hq
      · rw [newBlock_blocks hfresh, if_pos rfl]
      · exact hkeep q n' (h.freeLive n' l hl q hq)
    · rw [hother n' hn] at hl'
      exact hkeep q n' (h.freeLive n' l' hl' q hq)
  · by_cases hn : n' = n
    · subst hn
      rw [hown] at hl'
      cases hl'
      rcases List.mem_cons.mp hq with rfl | hq
      · exact fun hheld => hold q n' (h.heldLive q n' hheld) rfl
      · exact h.apart n' l hl q hq
    · rw [hother n' hn] at hl'
      exact h.apart n' l' hl' q hq
  · rw [newBlock_blocks hfresh] at hq
    by_cases hp : q = p
    · rw [if_pos hp] at hq
      cases hq
      exact .inl ⟨p :: l, hown, by simp [hp]⟩
    · rw [if_neg hp] at hq
      rcases h.live q n' hq with ⟨l', hl', hmem⟩ | hheld
      · left
        by_cases hn : n' = n
        · subst hn
          obtain rfl : l' = l := Option.some.inj (hl'.symm.trans hl)
          exact ⟨p :: l', hown, List.mem_cons_of_mem _ hmem⟩
        · exact ⟨l', (hother n' hn).trans hl', hmem⟩
      · exact .inr hheld
  · obtain ⟨new, hknown, hblocks⟩ := hgrown.own
    by_cases hn : n' = n
    · subst hn
      exact (hknown q).mpr (((hblocks q).mp hq).imp_left fun hq => h.stub q n' hq)
    · exact (hgrown.others n' q hn).mpr (h.stub q n' ((hgrown.blocks n' q hn).mp hq))

theorem newBlock_accounts {pending : ℕ} (hl : s.free.find? n = some l)
    (h : Accounts s held pending) : Accounts (s.newBlock n p) held (pending + n) := by
  have htotal := h.total
  have hnewed := h.newed
  have hsum := StdMap.sumOf_modify (g := fun n (l : List ℕ) => n * l.length)
    (f := fun l => p :: l) hl
  simp only [List.length_cons, Nat.mul_succ] at hsum
  constructor
  · simp only [bytes, newBlock] at htotal ⊢
    omega
  · change s.heap.newed + n = s.allocatedSize + (pending + n) + s.heap.deleted
    omega
  · exact h.max
  · exact h.exact
  · exact h.again

/-- The loop of `extend`. -/
theorem newBlocks_spec (A : Allocator) (k : ℕ) {pending : ℕ} (hshape : Shape s held)
    (haccounts : Accounts s held pending) (hl : s.free.find? n = some l) :
    Shape (newBlocks A n k s) held ∧ Accounts (newBlocks A n k s) held (pending + n * k) ∧
      Grown s (newBlocks A n k s) n ∧ (newBlocks A n k s).allocatedSize = s.allocatedSize ∧
      ∃ l', (newBlocks A n k s).free.find? n = some l' ∧ l'.length = l.length + k := by
  induction k generalizing s pending l with
  | zero => exact ⟨hshape, haccounts, .refl s n, rfl, l, hl, rfl⟩
  | succ k ih =>
    have hfresh := A.fresh s.heap n
    obtain ⟨p, hp⟩ : ∃ p, p = A.pick s.heap n := ⟨_, rfl⟩
    rw [← hp] at hfresh
    have hown : (s.newBlock n p).free.find? n = some (p :: l) := by
      rw [newBlock, StdMap.find?_modify_self, hl]
      rfl
    obtain ⟨hshape', haccounts', hgrown', hsize, l', hl', hlength⟩ :=
      ih (newBlock_shape hfresh hl hshape) (newBlock_accounts hl haccounts) hown
    have hrun : newBlocks A n (k + 1) s = newBlocks A n k (s.newBlock n p) := by
      rw [newBlocks, hp]
      rfl
    have hbytes : pending + n * (k + 1) = pending + n + n * k := by ring
    rw [hrun, hbytes]
    refine ⟨hshape', haccounts', (newBlock_grown hfresh hl hshape).trans hgrown', hsize, l', hl', ?_⟩
    rw [hlength, List.length_cons]
    omega

/-- What `extend` does for the new blocks to fit into the capacity, with its code. -/
def makeRoom (s : MemPool) (size : ℕ) : Option (MemPool × ℤ) :=
  if s.allocatedSize + size * fitExtendSet size ≥ cMaxPoolSize then
    s.releaseSize (s.allocatedSize + size * fitExtendSet size - cMaxPoolSize)
  else some (s, 0)

theorem makeRoom_spec (h : Sound s held) (hmark : s.waterMark = cMaxWaterMark) (n : ℕ) :
    ∃ s' code, s.makeRoom n = some (s', code) ∧ Sound s' held ∧ Shrunk s s' ∧
      (code = 0 ∧ s'.allocatedSize + n * fitExtendSet n ≤ cMaxPoolSize ∨ code = -1) := by
  unfold makeRoom
  split
  · obtain ⟨s', code, heq, hsound, hshrunk, hcode⟩ :=
      releaseSize_spec (s.allocatedSize + n * fitExtendSet n - cMaxPoolSize) h hmark
    exact ⟨s', code, heq, hsound, hshrunk, hcode.imp_left fun hcode => ⟨hcode.1, by omega⟩⟩
  · exact ⟨s, 0, rfl, h, .refl s, .inl ⟨rfl, by omega⟩⟩

/-- `extend` makes room, and adds blocks where it could. -/
theorem extend_spec (A : Allocator) (h : Sound s held) (hmark : s.waterMark = cMaxWaterMark)
    (hn : s.free.find? n ≠ none) (hle : n ≤ 2 ^ 31) :
    ∃ s₁ code, s.makeRoom n = some (s₁, code) ∧ Sound s₁ held ∧ Shrunk s s₁ ∧
      (code ≠ 0 ∧ extend A s n = some (s₁, -1) ∨
        ∃ s', extend A s n = some (s', 0) ∧ Sound s' held ∧ Grown s₁ s' n ∧
          ∃ p l, s'.free.find? n = some (p :: l)) := by
  obtain ⟨hset, hbytes⟩ := fitExtendSet_spec hle
  have hmax := h.accounts.max
  obtain ⟨s₁, code, hroom, hsound, hshrunk, hcode⟩ := makeRoom_spec h hmark n
  refine ⟨s₁, code, hroom, hsound, hshrunk, ?_⟩
  have hrange : n * fitExtendSet n < 2 ^ 32 ∧
      s.allocatedSize + n * fitExtendSet n < 2 ^ 32 := by
    simp only [cMaxPoolSize] at hmax
    omega
  have hsub : s.allocatedSize + n * fitExtendSet n ≥ cMaxPoolSize →
      u32sub (s.allocatedSize + n * fitExtendSet n) cMaxPoolSize =
        s.allocatedSize + n * fitExtendSet n - cMaxPoolSize := fun hge =>
    u32sub_of_le hge hrange.2
  have hextend : extend A s n = (s.makeRoom n).map fun made =>
      if made.2 ≠ 0 then (made.1, -1)
      else
        let s := newBlocks A n (fitExtendSet n) made.1
        let s := s.note (s.allocatedSize + n * fitExtendSet n < 2 ^ 32)
        ({ s with allocatedSize := u32 (s.allocatedSize + n * fitExtendSet n) }, 0) := by
    unfold extend makeRoom
    simp only [note_of hrange, u32_of_lt hrange.1, u32_of_lt hrange.2]
    split
    · next hge => rw [hsub hge]
    · rfl
  rw [hextend, hroom]
  rcases hcode with ⟨rfl, hfits⟩ | rfl
  · right
    obtain ⟨l, hl⟩ : ∃ l, s₁.free.find? n = some l := by
      rw [← Option.ne_none_iff_exists', ne_eq, hshrunk.keys]
      exact hn
    obtain ⟨hshape, haccounts, hgrown, hsize, l', hl', hlength⟩ :=
      newBlocks_spec A (fitExtendSet n) hsound.shape hsound.accounts hl
    have hfits' : (newBlocks A n (fitExtendSet n) s₁).allocatedSize + n * fitExtendSet n < 2 ^ 32 := by
      simp only [cMaxPoolSize] at hfits
      omega
    simp only [Option.map_some, note_of hfits', u32_of_lt hfits']
    refine ⟨_, rfl, ⟨?_, ?_⟩, ?_, ?_⟩
    · exact ⟨hshape.keys, hshape.pos, hshape.nodup, hshape.freeLive, hshape.single,
        hshape.heldLive, hshape.apart, hshape.live, hshape.stub⟩
    · have htotal := haccounts.total
      have hnewed := haccounts.newed
      constructor
      · simp only [bytes] at htotal ⊢
        omega
      · change (newBlocks A n (fitExtendSet n) s₁).heap.newed =
          (newBlocks A n (fitExtendSet n) s₁).allocatedSize + n * fitExtendSet n + 0 +
            (newBlocks A n (fitExtendSet n) s₁).heap.deleted
        omega
      · change (newBlocks A n (fitExtendSet n) s₁).allocatedSize + n * fitExtendSet n ≤ _
        omega
      · exact haccounts.exact
      · exact haccounts.again
    · exact ⟨hgrown.keys, hgrown.mark, hgrown.others, hgrown.sets, hgrown.blocks, hgrown.own⟩
    · cases l' with
      | nil =>
        rw [List.length_nil] at hlength
        omega
      | cons p l' => exact ⟨p, l', hl'⟩
  · exact .inl ⟨by decide, rfl⟩

/-! ## The calls -/

/-- A new size begins without blocks. -/
theorem Sound.newSize (h : Sound s held) (hn : s.free.find? n = none) (hpos : 0 < n) :
    Sound { s with free := s.free.insert n [], stub := s.stub.insert n [] } held := by
  have hn' : s.stub.find? n = none := (h.shape.keys n).mp hn
  have hfind : ∀ n' l, (s.free.insert n []).find? n' = some l →
      l = [] ∨ n' ≠ n ∧ s.free.find? n' = some l := by
    intro n' l hl
    rw [StdMap.find?_insert hn] at hl
    split at hl
    · cases hl
      exact .inl rfl
    · next hne => exact .inr ⟨hne, hl⟩
  have hkeep : ∀ n' l, s.free.find? n' = some l → (s.free.insert n []).find? n' = some l := by
    rintro n' l hl
    rw [StdMap.find?_insert_of_ne, hl]
    rintro rfl
    rw [hn] at hl
    cases hl
  refine ⟨⟨fun n' => ?_, fun n' hn' => ?_, fun n' l hl => ?_, fun n' l hl p hp => ?_, h.shape.single,
    h.shape.heldLive, fun n' l hl p hp => ?_, fun p n' hp => ?_, fun p n' hp => ?_⟩, ?_⟩
  · change (s.free.insert n []).find? n' = none ↔ (s.stub.insert n []).find? n' = none
    rw [StdMap.find?_insert hn, StdMap.find?_insert hn']
    by_cases hne : n' = n
    · simp [hne]
    · simpa [hne] using h.shape.keys n'
  · by_cases hne : n' = n
    · rw [hne]
      exact hpos
    · refine h.shape.pos n' fun hnone => hn' ?_
      exact (StdMap.find?_insert_of_ne hne).trans hnone
  · rcases hfind n' l hl with rfl | ⟨-, hl⟩
    · exact List.nodup_nil
    · exact h.shape.nodup n' l hl
  · rcases hfind n' l hl with rfl | ⟨-, hl⟩
    · cases hp
    · exact h.shape.freeLive n' l hl p hp
  · rcases hfind n' l hl with rfl | ⟨-, hl⟩
    · cases hp
    · exact h.shape.apart n' l hl p hp
  · rcases h.shape.live p n' hp with ⟨l, hl, hmem⟩ | hheld
    · exact .inl ⟨l, hkeep n' l hl, hmem⟩
    · exact .inr hheld
  · obtain ⟨set, hset, hmem⟩ := h.shape.stub p n' hp
    refine ⟨set, (StdMap.find?_insert_of_ne ?_).trans hset, hmem⟩
    rintro rfl
    rw [hn'] at hset
    cases hset
  · have htotal := h.accounts.total
    have hsum : (s.free.insert n []).sumOf (fun n (l : List ℕ) => n * l.length) =
        s.free.sumOf fun n l => n * l.length := by simp [StdMap.sumOf_insert hn]
    refine ⟨?_, h.accounts.newed, h.accounts.max, h.accounts.exact, h.accounts.again⟩
    simp only [bytes, hsum] at htotal ⊢
    exact htotal

theorem Sound.perm {held' : List (ℕ × ℕ)} (h : Sound s held) (hperm : held'.Perm held) :
    Sound s held' := by
  refine ⟨⟨h.shape.keys, h.shape.pos, h.shape.nodup, h.shape.freeLive,
    (hperm.map _).nodup_iff.mpr h.shape.single, fun p n hp => h.shape.heldLive p n (hperm.mem_iff.mp hp),
    fun n l hl p hp hheld => h.shape.apart n l hl p hp (hperm.mem_iff.mp hheld),
    fun p n hp => (h.shape.live p n hp).imp_right hperm.mem_iff.mpr, h.shape.stub⟩, ?_⟩
  refine ⟨?_, h.accounts.newed, h.accounts.max, h.accounts.exact, h.accounts.again⟩
  have htotal := h.accounts.total
  rw [bytes, (hperm.map Prod.snd).sum_eq]
  exact htotal

/-- The first free block of a size goes to a user. -/
theorem Sound.take {p : ℕ} (h : Sound s held) (hl : s.free.find? n = some (p :: l)) :
    Sound { s with free := s.free.modify n fun _ => l } ((p, n) :: held) := by
  obtain ⟨hnew, hnodup⟩ := List.nodup_cons.mp (h.shape.nodup n _ hl)
  have hblock := h.shape.freeLive n _ hl p List.mem_cons_self
  have hown : (s.free.modify n fun _ => l).find? n = some l := by
    rw [StdMap.find?_modify_self, hl]
    rfl
  have hother : ∀ n', n' ≠ n → (s.free.modify n fun _ => l).find? n' = s.free.find? n' :=
    fun n' hn => StdMap.find?_modify_of_ne hn
  have hfind : ∀ n' l', (s.free.modify n fun _ => l).find? n' = some l' →
      ∃ l₀, s.free.find? n' = some l₀ ∧ l' <:+ l₀ ∧ (n' = n → p ∉ l') := by
    intro n' l' hl'
    by_cases hn : n' = n
    · subst hn
      rw [hown] at hl'
      cases hl'
      exact ⟨p :: l, hl, List.suffix_cons p l, fun _ => hnew⟩
    · rw [hother n' hn] at hl'
      exact ⟨l', hl', List.suffix_refl _, fun heq => absurd heq hn⟩
  refine ⟨⟨fun n' => ?_, fun n' hn' => ?_, fun n' l' hl' => ?_, fun n' l' hl' q hq => ?_, ?_,
    fun q n' hq => ?_, fun n' l' hl' q hq => ?_, fun q n' hq => ?_, h.shape.stub⟩, ?_⟩
  · rw [StdMap.find?_modify_eq_none]
    exact h.shape.keys n'
  · rw [ne_eq, StdMap.find?_modify_eq_none] at hn'
    exact h.shape.pos n' hn'
  · obtain ⟨l₀, hl₀, hsuffix, -⟩ := hfind n' l' hl'
    exact hsuffix.sublist.nodup (h.shape.nodup n' l₀ hl₀)
  · obtain ⟨l₀, hl₀, hsuffix, -⟩ := hfind n' l' hl'
    exact h.shape.freeLive n' l₀ hl₀ q (hsuffix.subset hq)
  · rw [List.map_cons, List.nodup_cons]
    refine ⟨?_, h.shape.single⟩
    rintro hmem
    obtain ⟨⟨q, n'⟩, hheld, rfl⟩ := List.mem_map.mp hmem
    have hsize := h.shape.heldLive q n' hheld
    rw [hblock] at hsize
    obtain rfl := Option.some.inj hsize
    exact h.shape.apart n _ hl q List.mem_cons_self hheld
  · rcases List.mem_cons.mp hq with heq | hq
    · cases heq
      exact hblock
    · exact h.shape.heldLive q n' hq
  · obtain ⟨l₀, hl₀, hsuffix, hfirst⟩ := hfind n' l' hl'
    rw [List.mem_cons, not_or]
    refine ⟨?_, h.shape.apart n' l₀ hl₀ q (hsuffix.subset hq)⟩
    rintro heq
    cases heq
    exact hfirst rfl hq
  · rcases h.shape.live q n' hq with ⟨l', hl', hmem⟩ | hheld
    · by_cases hn : n' = n
      · subst hn
        rw [hl] at hl'
        cases hl'
        rcases List.mem_cons.mp hmem with rfl | hmem
        · exact .inr List.mem_cons_self
        · exact .inl ⟨l, hown, hmem⟩
      · exact .inl ⟨l', (hother n' hn).trans hl', hmem⟩
    · exact .inr (List.mem_cons_of_mem _ hheld)
  · have htotal := h.accounts.total
    have hsum := StdMap.sumOf_modify (g := fun n (l : List ℕ) => n * l.length)
      (f := fun _ => l) hl
    simp only [List.length_cons, Nat.mul_succ] at hsum
    refine ⟨?_, h.accounts.newed, h.accounts.max, h.accounts.exact, h.accounts.again⟩
    simp only [bytes, List.map_cons, List.sum_cons] at htotal ⊢
    omega

/-- A user's block becomes the first free one of its size. -/
theorem Sound.give {p : ℕ} (h : Sound s ((p, n) :: held)) (hl : s.free.find? n = some l) :
    Sound { s with free := s.free.modify n fun l => p :: l } held := by
  have hblock := h.shape.heldLive p n List.mem_cons_self
  have hnew : p ∉ l := fun hmem => h.shape.apart n l hl p hmem List.mem_cons_self
  have hsingle := List.nodup_cons.mp h.shape.single
  have hown : (s.free.modify n fun l => p :: l).find? n = some (p :: l) := by
    rw [StdMap.find?_modify_self, hl]
    rfl
  have hother : ∀ n', n' ≠ n → (s.free.modify n fun l => p :: l).find? n' = s.free.find? n' :=
    fun n' hn => StdMap.find?_modify_of_ne hn
  have hfind : ∀ n' l', (s.free.modify n fun l => p :: l).find? n' = some l' →
      n' = n ∧ l' = p :: l ∨ n' ≠ n ∧ s.free.find? n' = some l' := by
    intro n' l' hl'
    by_cases hn : n' = n
    · subst hn
      rw [hown] at hl'
      cases hl'
      exact .inl ⟨rfl, rfl⟩
    · rw [hother n' hn] at hl'
      exact .inr ⟨hn, hl'⟩
  refine ⟨⟨fun n' => ?_, fun n' hn' => ?_, fun n' l' hl' => ?_, fun n' l' hl' q hq => ?_, hsingle.2,
    fun q n' hq => h.shape.heldLive q n' (List.mem_cons_of_mem _ hq), fun n' l' hl' q hq hheld => ?_,
    fun q n' hq => ?_, h.shape.stub⟩, ?_⟩
  · rw [StdMap.find?_modify_eq_none]
    exact h.shape.keys n'
  · rw [ne_eq, StdMap.find?_modify_eq_none] at hn'
    exact h.shape.pos n' hn'
  · rcases hfind n' l' hl' with ⟨rfl, rfl⟩ | ⟨-, hl'⟩
    · exact List.nodup_cons.mpr ⟨hnew, h.shape.nodup n' l hl⟩
    · exact h.shape.nodup n' l' hl'
  · rcases hfind n' l' hl' with ⟨rfl, rfl⟩ | ⟨-, hl'⟩
    · rcases List.mem_cons.mp hq with rfl | hq
      · exact hblock
      · exact h.shape.freeLive n' l hl q hq
    · exact h.shape.freeLive n' l' hl' q hq
  · rcases hfind n' l' hl' with ⟨rfl, rfl⟩ | ⟨-, hl'⟩
    · rcases List.mem_cons.mp hq with rfl | hq
      · exact hsingle.1 (List.mem_map.mpr ⟨_, hheld, rfl⟩)
      · exact h.shape.apart n' l hl q hq (List.mem_cons_of_mem _ hheld)
    · exact h.shape.apart n' l' hl' q hq (List.mem_cons_of_mem _ hheld)
  · rcases h.shape.live q n' hq with ⟨l', hl', hmem⟩ | hheld
    · left
      by_cases hn : n' = n
      · subst hn
        rw [hl] at hl'
        cases hl'
        exact ⟨p :: l, hown, List.mem_cons_of_mem _ hmem⟩
      · exact ⟨l', (hother n' hn).trans hl', hmem⟩
    · rcases List.mem_cons.mp hheld with heq | hheld
      · cases heq
        exact .inl ⟨p :: l, hown, List.mem_cons_self⟩
      · exact .inr hheld
  · have htotal := h.accounts.total
    have hsum := StdMap.sumOf_modify (g := fun n (l : List ℕ) => n * l.length)
      (f := fun l => p :: l) hl
    simp only [List.length_cons, Nat.mul_succ] at hsum
    refine ⟨?_, h.accounts.newed, h.accounts.max, h.accounts.exact, h.accounts.again⟩
    simp only [bytes, List.map_cons, List.sum_cons] at htotal ⊢
    omega

/-- The pool, where the size has its list and its set. -/
def withSize (s : MemPool) (n : ℕ) : MemPool :=
  if s.free.find? n = none then
    { s with free := s.free.insert n [], stub := s.stub.insert n [] }
  else s

theorem Sound.withSize (h : Sound s held) (hpos : 0 < n) : Sound (s.withSize n) held := by
  unfold MemPool.withSize
  split
  · next hn => exact h.newSize hn hpos
  · exact h

/-- The pool without the first free block of a size. -/
def dropFirst (s : MemPool) (n : ℕ) (l : List ℕ) : MemPool :=
  { s with free := s.free.modify n fun _ => l }

/-- `allocate` hands out the first free block of its size; where there is none it extends the
pool first, or fails. -/
theorem allocate_spec (A : Allocator) (h : Sound s held) (hmark : s.waterMark = cMaxWaterMark)
    (size : ℕ) :
    (∃ p l, s.free.find? (fitBlockSize size) = some (p :: l) ∧
      s.allocate A size =
        some (s.dropFirst (fitBlockSize size) l, some (p, fitBlockSize size))) ∨
    (s.free.find? (fitBlockSize size) = none ∨ s.free.find? (fitBlockSize size) = some []) ∧
      ∃ s₁ code, (s.withSize (fitBlockSize size)).makeRoom (fitBlockSize size) = some (s₁, code) ∧
        Sound s₁ held ∧ Shrunk (s.withSize (fitBlockSize size)) s₁ ∧
        (code ≠ 0 ∧ s.allocate A size = some (s₁, none) ∨
          ∃ s₂ p l, Sound s₂ held ∧ Grown s₁ s₂ (fitBlockSize size) ∧
            s₂.free.find? (fitBlockSize size) = some (p :: l) ∧
            s.allocate A size =
              some (s₂.dropFirst (fitBlockSize size) l, some (p, fitBlockSize size))) := by
  obtain ⟨n, hn⟩ : ∃ n, n = fitBlockSize size := ⟨_, rfl⟩
  have hpos : 0 < n := hn ▸ fitBlockSize_pos size
  have hle : n ≤ 2 ^ 31 := hn ▸ fitBlockSize_le size
  have hsound := h.withSize (n := n) hpos
  have htake : ∀ s' : MemPool, ∀ p l, s'.free.find? n = some (p :: l) →
      takeBlock A s' n = some (s'.dropFirst n l, some (p, n)) := by
    intro s' p l hl
    rw [takeBlock, hl]
    rfl
  unfold allocate
  rw [← hn]
  cases hfind : s.free.find? n with
  | none =>
    right
    have hnew : s.withSize n =
        { s with free := s.free.insert n [], stub := s.stub.insert n [] } := if_pos hfind
    have hown : (s.withSize n).free.find? n ≠ none := by
      rw [hnew]
      simp [StdMap.find?_insert_self hfind]
    obtain ⟨s₁, code, hroom, hsound₁, hshrunk, hcases⟩ := extend_spec A hsound
      (by rw [hnew]; exact hmark) hown hle
    refine ⟨.inl rfl, s₁, code, hroom, hsound₁, hshrunk, ?_⟩
    have hextend : extendNewSize A s n = extend A (s.withSize n) n := by
      rw [hnew]
      rfl
    rcases hcases with ⟨hcode, heq⟩ | ⟨s₂, heq, hsound₂, hgrown, p, l, hl⟩
    · exact .inl ⟨hcode, by simp [hfind, hextend, heq]⟩
    · exact .inr ⟨s₂, p, l, hsound₂, hgrown, hl, by simp [hfind, hextend, heq, htake s₂ p l hl]⟩
  | some list =>
    have hsame : s.withSize n = s := if_neg (by simp [hfind])
    cases list with
    | nil =>
      right
      rw [hsame]
      obtain ⟨s₁, code, hroom, hsound₁, hshrunk, hcases⟩ := extend_spec A h hmark
        (n := n) (by simp [hfind]) hle
      refine ⟨.inr rfl, s₁, code, hroom, hsound₁, hshrunk, ?_⟩
      rcases hcases with ⟨hcode, heq⟩ | ⟨s₂, heq, hsound₂, hgrown, p, l, hl⟩
      · exact .inl ⟨hcode, by simp [takeBlock, hfind, heq]⟩
      · exact .inr ⟨s₂, p, l, hsound₂, hgrown, hl, by simp [takeBlock, hfind, heq, hl, dropFirst]⟩
    | cons p l =>
      left
      exact ⟨p, l, rfl, by simp [hfind, htake s p l hfind]⟩

/-- `recycle` takes a block that its user holds, and gives free blocks back. -/
theorem recycle_spec {mem : ℕ} (h : Sound s held) (hheld : (mem, n) ∈ held) :
    ∃ set l s', s.stub.find? n = some set ∧ s.free.find? n = some l ∧
      s.recycle mem n = some (s', 0) ∧ Sound s' (held.erase (mem, n)) ∧
      Purged { s with free := s.free.modify n fun l => mem :: l } s' n
        (releaseCount n (l.length + 1) (u32 set.length) s.waterMark) (mem :: l) := by
  obtain ⟨set, hset, hmem⟩ := h.shape.stub mem n (h.shape.heldLive mem n hheld)
  obtain ⟨l, hl⟩ : ∃ l, s.free.find? n = some l := by
    rw [← Option.ne_none_iff_exists', ne_eq, h.shape.keys, hset]
    simp
  have hgive : Sound { s with free := s.free.modify n fun l => mem :: l }
      (held.erase (mem, n)) := (h.perm (List.perm_cons_erase hheld).symm).give hl
  have hown : (s.free.modify n fun l => mem :: l).find? n = some (mem :: l) := by
    rw [StdMap.find?_modify_self, hl]
    rfl
  obtain ⟨s', heq, hsound, hpurged⟩ := release_spec hgive hown set
  refine ⟨set, l, s', hset, hl, ?_, hsound, hpurged⟩
  rw [recycle, hset]
  simp [hmem, hl, heq]

end MemPool

/-! ## Runs -/

open MemPool

/-- A user recycles a block that it holds, with the size it was given. -/
def HoldsOnly (s : PoolUse) : PoolOp → Prop
  | .allocate _ => True
  | .recycle mem memSize => (mem, memSize) ∈ s.held

/-- No block has two owners, the free lists have neither duplicates nor held blocks, and the
sums are right. -/
structure Owned (s : PoolUse) : Prop where
  single : (s.held.map Prod.fst).Nodup
  real : ∀ p n, (p, n) ∈ s.held → s.pool.heap.blocks.find? p = some n
  nodup : ∀ n l, s.pool.free.find? n = some l → l.Nodup
  free : ∀ n l, s.pool.free.find? n = some l → ∀ p ∈ l,
    s.pool.heap.blocks.find? p = some n ∧ p ∉ s.held.map Prod.fst
  allocated : s.pool.heap.newed = s.pool.allocatedSize + s.pool.heap.deleted
  max : s.pool.allocatedSize ≤ cMaxPoolSize
  exact : s.pool.exact = true

/-- A call does not stop at an assertion; a block that it hands out is of the size that is told,
was nobody's, and is large enough for a request below 2G. -/
structure WellServed (A : Allocator) (s : PoolUse) (op : PoolOp) : Prop where
  asserted : (poolStep A s op).2 ≠ .abort
  block : ∀ size p n, op = .allocate size → (poolStep A s op).2 = .block (some (p, n)) →
    (size < 2 ^ 31 → size ≤ n) ∧ (poolStep A s op).1.pool.heap.blocks.find? p = some n ∧ p ∉ s.held.map Prod.fst
  recycled : ∀ mem memSize, op = .recycle mem memSize → (poolStep A s op).2 = .code 0

theorem MemPool.Sound.owned {s : PoolUse} (h : Sound s.pool s.held) : Owned s := by
  refine ⟨h.shape.single, h.shape.heldLive, h.shape.nodup, fun n l hl p hp => ?_, h.accounts.newed,
    h.accounts.max, h.accounts.exact⟩
  have hblock := h.shape.freeLive n l hl p hp
  refine ⟨hblock, ?_⟩
  intro hmem
  obtain ⟨⟨q, n'⟩, hheld, rfl⟩ := List.mem_map.mp hmem
  have hsize := h.shape.heldLive q n' hheld
  rw [hblock] at hsize
  obtain rfl := Option.some.inj hsize
  exact h.shape.apart n l hl q hp hheld

/-- The state between the calls. -/
def AtRest (s : PoolUse) : Prop := Sound s.pool s.held ∧ s.pool.waterMark = cMaxWaterMark

theorem AtRest.init : AtRest ⟨MemPool.init, []⟩ := ⟨.init, rfl⟩

theorem MemPool.withSize_mark (s : MemPool) (n : ℕ) : (s.withSize n).waterMark = s.waterMark := by
  unfold withSize
  split <;> rfl

theorem AtRest.step (A : Allocator) {s : PoolUse} (h : AtRest s) {op : PoolOp}
    (hop : HoldsOnly s op) : AtRest (poolStep A s op).1 ∧ WellServed A s op := by
  obtain ⟨hsound, hmark⟩ := h
  cases op with
  | allocate size =>
    -- a block that is handed out comes from a list
    have htake : ∀ (s₂ : MemPool) p l, Sound s₂ s.held → s₂.waterMark = cMaxWaterMark →
        s₂.free.find? (fitBlockSize size) = some (p :: l) →
        s.pool.allocate A size =
          some (s₂.dropFirst (fitBlockSize size) l, some (p, fitBlockSize size)) →
        AtRest (poolStep A s (.allocate size)).1 ∧ WellServed A s (.allocate size) := by
      intro s₂ p l hsound₂ hmark₂ hl heq
      have htaken := hsound₂.take hl
      have hstep : poolStep A s (.allocate size) =
          (⟨s₂.dropFirst (fitBlockSize size) l, (p, fitBlockSize size) :: s.held⟩,
            .block (some (p, fitBlockSize size))) := by
        rw [poolStep, heq]
      refine ⟨by rw [hstep]; exact ⟨htaken, hmark₂⟩, ?_, ?_, nofun⟩
      · rw [hstep]
        simp
      · rintro _ q n ⟨⟩ hout
        rw [hstep] at hout ⊢
        cases hout
        exact ⟨fun hsize => (lt_fitBlockSize hsize).le, htaken.shape.heldLive _ _ List.mem_cons_self,
          (List.nodup_cons.mp htaken.shape.single).1⟩
    rcases allocate_spec A hsound hmark size with ⟨p, l, hl, heq⟩ |
      ⟨-, s₁, code, -, hsound₁, hshrunk, ⟨-, heq⟩ | ⟨s₂, p, l, hsound₂, hgrown, hl, heq⟩⟩
    · exact htake s.pool p l hsound hmark hl heq
    · have hmark₁ : s₁.waterMark = cMaxWaterMark := by
        rw [hshrunk.mark, withSize_mark, hmark]
      have hstep : poolStep A s (.allocate size) = ({ s with pool := s₁ }, .block none) := by
        rw [poolStep, heq]
      refine ⟨by rw [hstep]; exact ⟨hsound₁, hmark₁⟩, ?_, ?_, nofun⟩
      · rw [hstep]
        simp
      · rintro _ q n - hout
        rw [hstep] at hout
        cases hout
    · have hmark₂ : s₂.waterMark = cMaxWaterMark := by
        rw [hgrown.mark, hshrunk.mark, withSize_mark, hmark]
      exact htake s₂ p l hsound₂ hmark₂ hl heq
  | recycle mem memSize =>
    obtain ⟨set, l, s', -, -, heq, hsound', hpurged⟩ := recycle_spec hsound hop
    have hstep : poolStep A s (.recycle mem memSize) =
        (⟨s', s.held.erase (mem, memSize)⟩, .code 0) := by
      rw [poolStep, heq]
    refine ⟨by rw [hstep]; exact ⟨hsound', hpurged.mark.trans hmark⟩, ?_, nofun, ?_⟩
    · rw [hstep]
      simp
    · rintro _ _ -
      rw [hstep]

/-- In every run of users that recycle only what they hold: every call is served well, and
between the calls every block has one owner and the sums are right. -/
theorem pool_owned (A : Allocator) (ops : List PoolOp)
    (hops : Run.Always (poolStep A) HoldsOnly ⟨MemPool.init, []⟩ ops) :
    Run.Always (poolStep A) (WellServed A) ⟨MemPool.init, []⟩ ops ∧
      ∀ pre, pre <+: ops → Owned (Run.final (poolStep A) ⟨MemPool.init, []⟩ pre) := by
  constructor
  · exact Run.always_of_invariant (fun s op hs hop => (hs.step A hop).1)
      (fun s op hs hop => (hs.step A hop).2) AtRest.init hops
  · intro pre hpre
    have hstep : ∀ s op, AtRest s → HoldsOnly s op → AtRest (poolStep A s op).1 :=
      fun s op hs hop => (hs.step A hop).1
    exact (Run.invariant hstep AtRest.init (hops.of_prefix hpre)).1.owned

/-- Two users hold blocks of 64M, and one gives its block back. -/
theorem pool_owned_two :
    let s := Run.final (poolStep .above) ⟨MemPool.init, []⟩
      [.allocate (2 ^ 25), .allocate (2 ^ 25), .recycle 1 (2 ^ 26)]
    s.held = [(2, 2 ^ 26)] ∧ s.pool.allocatedSize = 2 ^ 27 ∧ Owned s := by
  intro s
  have hops : Run.Always (poolStep .above) HoldsOnly ⟨MemPool.init, []⟩
      [.allocate (2 ^ 25), .allocate (2 ^ 25), .recycle 1 (2 ^ 26)] := by
    refine ⟨trivial, trivial, ?_, trivial⟩
    unfold HoldsOnly
    decide +kernel
  exact ⟨by decide +kernel, by decide +kernel,
    (pool_owned .above _ hops).2 _ (List.prefix_refl _)⟩

end Spp
