import Spp.Pool.Accounting

/-!
# The stub of the memory pool

The set of a size should hold the blocks of the size that the pool has from the heap.  But
`release` deletes blocks and leaves them in the set.  From then on the set knows addresses
where no block is, `recycle` would take them, and the destructor deletes them again.  As long
as nothing is released the sets are right.

## Main definitions

* `Intact` — the sets are right, `recycle` refuses what is no block, and the destructor
  deletes every block once.
* `Releases` — the call makes `release` delete a block.
-/

namespace Spp

open MemPool

/-- The sets know exactly the blocks, `recycle` refuses any other address, and no block has
been or will be deleted twice. -/
structure Intact (s : PoolUse) : Prop where
  stub : ∀ n p, s.pool.Known n p ↔ s.pool.heap.blocks.find? p = some n
  blocks : ∀ n p, s.pool.heap.blocks.find? p = some n ↔
    (∃ l, s.pool.free.find? n = some l ∧ p ∈ l) ∨ (p, n) ∈ s.held
  refuses : ∀ mem n, s.pool.heap.blocks.find? mem ≠ some n →
    s.pool.recycle mem n = some (s.pool, -1)
  once : s.pool.destroy.again = 0

/-- `release_size` says that free blocks of the size are to be given back, were there `extra`
more of them. -/
def Excess (s : MemPool) (n extra waterMark : ℕ) : Prop :=
  ∃ set l, s.stub.find? n = some set ∧ s.free.find? n = some l ∧
    0 < releaseCount n (l.length + extra) (u32 set.length) waterMark

instance (s : MemPool) (n extra waterMark : ℕ) : Decidable (Excess s n extra waterMark) :=
  decidable_of_iff ((s.stub.find? n).any fun set => (s.free.find? n).any fun l =>
    0 < releaseCount n (l.length + extra) (u32 set.length) waterMark) (by
      simp [Excess, Option.any_eq_true])

/-- The call makes `release` delete a block: a size has an excess with the recycled block, or
the pool is to be extended above its capacity and one of the large sizes has an excess. -/
def Releases (s : PoolUse) : PoolOp → Prop
  | .recycle _ memSize => Excess s.pool memSize 1 s.pool.waterMark
  | .allocate size =>
      (s.pool.free.find? (fitBlockSize size) = none ∨
        s.pool.free.find? (fitBlockSize size) = some []) ∧
      cMaxPoolSize < s.pool.allocatedSize + fitBlockSize size * fitExtendSet (fitBlockSize size) ∧
      ∃ e, 19 ≤ e ∧ e ≤ 30 ∧ Excess s.pool (2 ^ e) 0 cAllocCapcity

namespace MemPool

variable {s s' : MemPool} {held : List (ℕ × ℕ)} {n : ℕ} {l set : List ℕ}

/-- The sets know exactly the blocks. -/
structure Exact (s : MemPool) : Prop where
  known : ∀ n p, s.Known n p ↔ s.heap.blocks.find? p = some n
  sets : s.Sets

theorem Exact.init : Exact init := by
  constructor
  · simp [Known, MemPool.init, Heap.init]
  · intro n set hset
    simp [MemPool.init] at hset

/-! ## The destructor -/

/-- Sets of live blocks of different sizes are deleted without a fault. -/
theorem deleteSets_again (es : List (ℕ × List ℕ)) {heap : Heap} (hkeys : (es.map Prod.fst).Nodup)
    (hes : ∀ e ∈ es, e.2.Nodup ∧ ∀ p ∈ e.2, heap.blocks.find? p = some e.1) :
    (es.foldl (fun heap e => heap.deleteAll e.2) heap).again = heap.again := by
  induction es generalizing heap with
  | nil => rfl
  | cons e es ih =>
    rw [List.map_cons, List.nodup_cons] at hkeys
    obtain ⟨hnodup, hlive⟩ := hes e List.mem_cons_self
    obtain ⟨hblocks, -, -, hagain⟩ := Heap.deleteAll_spec hnodup hlive
    rw [List.foldl_cons, ih hkeys.2, hagain]
    intro e' he'
    obtain ⟨hnodup', hlive'⟩ := hes e' (List.mem_cons_of_mem _ he')
    refine ⟨hnodup', fun p hp => ?_⟩
    rw [hblocks, if_neg, hlive' p hp]
    intro hmem
    have hsize := hlive p hmem
    rw [hlive' p hp] at hsize
    exact hkeys.1 (List.mem_map.mpr ⟨e', he', Option.some.inj hsize⟩)

theorem Exact.destroy (h : Exact s) : s.destroy.again = s.heap.again := by
  refine deleteSets_again s.stub.entries s.stub.nodup ?_
  rintro ⟨n, set⟩ he
  have hset : s.stub.find? n = some set := StdMap.find?_eq_some_iff.mpr he
  exact ⟨h.sets n set hset, fun p hp => (h.known n p).mp ⟨set, hset, hp⟩⟩

theorem Exact.refuses (h : Exact s) {mem : ℕ} (hmem : s.heap.blocks.find? mem ≠ some n) :
    s.recycle mem n = some (s, -1) := by
  unfold recycle
  split
  · rfl
  · next set hset =>
    have hnot : mem ∉ set := fun hin => hmem ((h.known n mem).mp ⟨set, hset, hin⟩)
    simp [hnot]

/-! ## What is released -/

/-- A block has been deleted that its set still knows. -/
def Lost (s s' : MemPool) : Prop :=
  ∃ n l p, s.free.find? n = some l ∧ p ∈ l ∧ s'.Known n p ∧ s'.heap.blocks.find? p ≠ some n

theorem Lost.not_known (h : Lost s s') :
    ¬ ∀ n p, s'.Known n p ↔ s'.heap.blocks.find? p = some n := by
  obtain ⟨n, -, p, -, -, hknown, hblock⟩ := h
  exact fun hexact => hblock ((hexact n p).mp hknown)

theorem Known.of_stub {p : ℕ} (h : s.Known n p) (hstub : s'.stub = s.stub) : s'.Known n p := by
  rw [Known, hstub]
  exact h

/-- Blocks that have been given back are lost. -/
theorem Purged.lost {t : ℕ} (h : Shape s held) (hl : s.free.find? n = some l) (ht : 0 < t)
    (hle : t ≤ l.length) (hp : Purged s s' n t l) : Lost s s' := by
  cases l with
  | nil =>
    rw [List.length_nil] at hle
    omega
  | cons p l =>
    have hmem : p ∈ (p :: l).take t := by
      obtain ⟨t, rfl⟩ : ∃ t', t = t' + 1 := ⟨t - 1, by omega⟩
      simp
    have hknown : s.Known n p := h.stub p n (h.freeLive n _ hl p List.mem_cons_self)
    refine ⟨n, p :: l, p, hl, List.mem_cons_self, hknown.of_stub hp.stub, ?_⟩
    rw [hp.blocks, if_pos hmem]
    nofun

theorem Lost.shrunk {s'' : MemPool} (h : Lost s s') (h' : Shrunk s' s'') : Lost s s'' := by
  obtain ⟨n, l, p, hl, hmem, hknown, hblock⟩ := h
  exact ⟨n, l, p, hl, hmem, hknown.of_stub h'.stub, fun heq => hblock (h'.blocks p n heq)⟩

theorem release_of_zero (h : Sound s held) (hl : s.free.find? n = some l)
    (hzero : releaseCount n l.length (u32 set.length) s.waterMark = 0) :
    s.release n l set = some s := by
  obtain ⟨hlength, hproduct⟩ := h.length_lt hl
  unfold release
  simp only [note_of hproduct, u32_of_lt hlength, hzero]
  rfl

/-- Where no size has an excess the loop of `release_size` does nothing. -/
theorem purge_of_none (last memSize e : ℕ) (h : Sound s held) (hlast : s.allocatedSize ≤ last)
    (hnone : ∀ e', 19 ≤ e' → e' < e → ¬ Excess s (2 ^ e') 0 s.waterMark) :
    purge last memSize e s = some s := by
  induction e with
  | zero => rfl
  | succ e ih =>
    have hrest := ih fun e' hlow hlt => hnone e' hlow (by omega)
    rw [purge]
    simp only [note_of hlast]
    split
    · next hloop =>
      have hlow : 19 ≤ e := by
        have hpow : 2 ^ 20 ≤ 2 ^ (e + 1) := hloop.2
        have hexp := (Nat.pow_le_pow_iff_right (by decide)).mp hpow
        omega
      split
      · next set l hset hl =>
        have hzero : releaseCount (2 ^ e) l.length (u32 set.length) s.waterMark = 0 := by
          by_contra hpos
          exact hnone e hlow (Nat.lt_succ_self e) ⟨set, l, hset, hl, Nat.pos_of_ne_zero hpos⟩
        rw [release_of_zero h hl hzero]
        exact hrest
      · exact hrest
    · rfl

/-- Where a size has an excess the loop of `release_size` loses a block. -/
theorem purge_of_excess {memSize e e' : ℕ} (h : Sound s held) (hmem : 0 < memSize)
    (hlow : 19 ≤ e') (hlt : e' < e) (hexcess : Excess s (2 ^ e') 0 s.waterMark) :
    ∃ s', purge s.allocatedSize memSize e s = some s' ∧ Lost s s' := by
  induction e with
  | zero => omega
  | succ e ih =>
    have hmax := h.accounts.max
    simp only [cMaxPoolSize] at hmax
    have hloop : s.released s.allocatedSize < memSize ∧ 2 ^ (e + 1) ≥ cSlot1 := by
      refine ⟨?_, Nat.pow_le_pow_right (by decide) (by omega)⟩
      rw [released, u32sub_of_le le_rfl (by omega), Nat.sub_self]
      exact hmem
    rw [purge]
    simp only [note_of (le_refl s.allocatedSize), if_pos hloop]
    by_cases hlast : e' = e
    · subst hlast
      obtain ⟨set, l, hset, hl, hpos⟩ := hexcess
      obtain ⟨s₁, heq, hsound, hpurged⟩ := release_spec h hl set
      obtain ⟨s', heq', -, hshrunk⟩ := purge_spec s.allocatedSize memSize e' hsound
        hpurged.shrunk.size
      refine ⟨s', ?_, (hpurged.lost h.shape hl hpos (releaseCount_le _ _ _ _)).shrunk hshrunk⟩
      simp only [hset, hl, heq]
      exact heq'
    · have hrest := ih (by omega)
      split
      · next set l hset hl =>
        by_cases hzero : releaseCount (2 ^ e) l.length (u32 set.length) s.waterMark = 0
        · rw [release_of_zero h hl hzero]
          exact hrest
        · obtain ⟨s₁, heq, hsound, hpurged⟩ := release_spec h hl set
          obtain ⟨s', heq', -, hshrunk⟩ := purge_spec s.allocatedSize memSize e hsound
            hpurged.shrunk.size
          refine ⟨s', ?_, (hpurged.lost h.shape hl (Nat.pos_of_ne_zero hzero)
            (releaseCount_le _ _ _ _)).shrunk hshrunk⟩
          rw [heq]
          exact heq'
      · exact hrest

/-- Making room loses a block when bytes are missing and a size has an excess, and changes
nothing otherwise. -/
theorem makeRoom_cases (h : Sound s held) (hmark : s.waterMark = cMaxWaterMark) {code : ℤ}
    (hroom : s.makeRoom n = some (s', code)) :
    ((cMaxPoolSize < s.allocatedSize + n * fitExtendSet n ∧
      ∃ e, 19 ≤ e ∧ e ≤ 30 ∧ Excess s (2 ^ e) 0 cAllocCapcity) ∧ Lost s s') ∨
    (¬ (cMaxPoolSize < s.allocatedSize + n * fitExtendSet n ∧
      ∃ e, 19 ≤ e ∧ e ≤ 30 ∧ Excess s (2 ^ e) 0 cAllocCapcity) ∧ s' = s) := by
  have hsame : { s with waterMark := cMaxWaterMark } = s := by rw [← hmark]
  have hlow := h.mark cAllocCapcity
  unfold makeRoom at hroom
  split at hroom
  · next hfull =>
    unfold releaseSize at hroom
    obtain ⟨s₁, heq, hs'⟩ : ∃ s₁, purge s.allocatedSize
        (s.allocatedSize + n * fitExtendSet n - cMaxPoolSize) 31
        { s with waterMark := cAllocCapcity } = some s₁ ∧
        s' = { s₁ with waterMark := cMaxWaterMark } := by
      cases heq : purge s.allocatedSize (s.allocatedSize + n * fitExtendSet n - cMaxPoolSize) 31
          { s with waterMark := cAllocCapcity } with
      | none => simp [heq] at hroom
      | some s₁ =>
        refine ⟨s₁, rfl, ?_⟩
        simp only [heq, Option.map_some, Option.some.injEq] at hroom
        split at hroom <;> exact (Prod.mk.inj hroom).1.symm
    by_cases hexcess : cMaxPoolSize < s.allocatedSize + n * fitExtendSet n ∧
        ∃ e, 19 ≤ e ∧ e ≤ 30 ∧ Excess s (2 ^ e) 0 cAllocCapcity
    · left
      obtain ⟨hmissing, e, hlow', hhigh, hown⟩ := hexcess
      obtain ⟨s₂, heq', hlost⟩ := purge_of_excess (e := 31) hlow
        (Nat.sub_pos_of_lt hmissing) hlow' (by omega) hown
      obtain rfl : s₁ = s₂ := Option.some.inj (heq.symm.trans heq')
      rw [hs']
      exact ⟨⟨hmissing, e, hlow', hhigh, hown⟩, hlost⟩
    · right
      refine ⟨hexcess, ?_⟩
      have hidle : purge s.allocatedSize (s.allocatedSize + n * fitExtendSet n - cMaxPoolSize) 31
          { s with waterMark := cAllocCapcity } = some { s with waterMark := cAllocCapcity } := by
        by_cases hmissing : cMaxPoolSize < s.allocatedSize + n * fitExtendSet n
        · refine purge_of_none _ _ _ hlow le_rfl fun e hlow' hlt hown => ?_
          exact hexcess ⟨hmissing, e, hlow', by omega, hown⟩
        · have hzero : s.allocatedSize + n * fitExtendSet n - cMaxPoolSize = 0 := by omega
          rw [hzero, purge]
          simp [note_of trivial]
      rw [heq] at hidle
      rw [hs', Option.some.inj hidle]
      exact hsame
  · next hroomy =>
    right
    rw [Option.some.injEq, Prod.mk.injEq] at hroom
    exact ⟨fun hmissing => by omega, hroom.1.symm⟩

end MemPool

theorem MemPool.Exact.intact {s : PoolUse} (h : Exact s.pool) (hs : AtRest s) : Intact s := by
  refine ⟨h.known, fun n p => ⟨hs.1.shape.live p n, ?_⟩, fun mem n => h.refuses,
    h.destroy.trans hs.1.accounts.again⟩
  rintro (⟨l, hl, hmem⟩ | hheld)
  · exact hs.1.shape.freeLive n l hl p hmem
  · exact hs.1.shape.heldLive p n hheld

/-! ## One call -/

namespace MemPool

variable {s s' : MemPool} {n : ℕ}

theorem withSize_known (h : ∀ n, s.free.find? n = none ↔ s.stub.find? n = none) (n k p : ℕ) :
    (s.withSize n).Known k p ↔ s.Known k p := by
  unfold withSize
  split
  · next hnone =>
    have hnone' : s.stub.find? n = none := (h n).mp hnone
    unfold Known
    simp only [StdMap.find?_insert hnone']
    by_cases hk : k = n
    · simp [hk, hnone']
    · simp [hk]
  · rfl

theorem withSize_heap (s : MemPool) (n : ℕ) :
    (s.withSize n).heap = s.heap ∧ (s.withSize n).allocatedSize = s.allocatedSize := by
  unfold withSize
  split <;> exact ⟨rfl, rfl⟩

theorem Exact.withSize (h : Exact s) (hkeys : ∀ n, s.free.find? n = none ↔ s.stub.find? n = none)
    (n : ℕ) : Exact (s.withSize n) := by
  constructor
  · intro k p
    rw [withSize_known hkeys, (withSize_heap s n).1]
    exact h.known k p
  · unfold MemPool.withSize
    split
    · next hnone =>
      intro k set hset
      change (s.stub.insert n []).find? k = some set at hset
      rw [StdMap.find?_insert ((hkeys n).mp hnone)] at hset
      split at hset
      · cases hset
        exact List.nodup_nil
      · exact h.sets k set hset
    · exact h.sets

/-- A size without free blocks has no excess. -/
theorem withSize_excess (hkeys : ∀ n, s.free.find? n = none ↔ s.stub.find? n = none) (k : ℕ)
    (w : ℕ) : Excess (s.withSize n) k 0 w ↔ Excess s k 0 w := by
  unfold withSize
  split
  · next hnone =>
    have hnone' : s.stub.find? n = none := (hkeys n).mp hnone
    unfold Excess
    simp only [StdMap.find?_insert hnone, StdMap.find?_insert hnone']
    by_cases hk : k = n
    · simp [hk, hnone, releaseCount, u32]
    · simp [hk]
  · rfl

theorem Exact.grown (h : Exact s) (hgrown : Grown s s' n) : Exact s' := by
  refine ⟨fun k p => ?_, hgrown.sets h.sets⟩
  by_cases hk : k = n
  · obtain ⟨new, hknown, hblocks⟩ := hgrown.own
    rw [hk, hknown, hblocks, h.known]
  · rw [hgrown.others k p hk, hgrown.blocks k p hk]
    exact h.known k p

theorem Lost.grown {s₀ : MemPool} (h : Lost s₀ s) (hn : s₀.free.find? n = some [])
    (hgrown : Grown s s' n) : Lost s₀ s' := by
  obtain ⟨k, l, p, hl, hmem, hknown, hblock⟩ := h
  have hne : k ≠ n := by
    rintro rfl
    rw [hn] at hl
    cases hl
    cases hmem
  exact ⟨k, l, p, hl, hmem, (hgrown.others k p hne).mpr hknown,
    fun heq => hblock ((hgrown.blocks k p hne).mp heq)⟩

theorem Exact.dropFirst (h : Exact s) (n : ℕ) (l : List ℕ) : Exact (s.dropFirst n l) :=
  ⟨h.known, h.sets⟩

end MemPool

/-- A call leaves the sets right, or it releases something and they are wrong. -/
theorem MemPool.Exact.step_cases (A : Allocator) {s : PoolUse} (hs : AtRest s) (h : Exact s.pool)
    {op : PoolOp} (hop : HoldsOnly s op) :
    Exact (poolStep A s op).1.pool ∧ ¬ Releases s op ∨
      (¬ ∀ n p, (poolStep A s op).1.pool.Known n p ↔
        (poolStep A s op).1.pool.heap.blocks.find? p = some n) ∧ Releases s op := by
  obtain ⟨hsound, hmark⟩ := hs
  cases op with
  | allocate size =>
    obtain ⟨n, hn⟩ : ∃ n, n = fitBlockSize size := ⟨_, rfl⟩
    have hkeys := hsound.shape.keys
    have hsize : Sound (s.pool.withSize n) s.held := hsound.withSize (hn ▸ fitBlockSize_pos size)
    have hexact := h.withSize hkeys n
    have hpool : ∀ s' r, s.pool.allocate A size = some (s', r) →
        (poolStep A s (.allocate size)).1.pool = s' := by
      intro s' r heq
      rw [poolStep, heq]
      cases r <;> rfl
    have hspec := allocate_spec A hsound hmark size
    rw [← hn] at hspec
    have hreleases : Releases s (.allocate size) ↔
        (s.pool.free.find? n = none ∨ s.pool.free.find? n = some []) ∧
        cMaxPoolSize < s.pool.allocatedSize + n * fitExtendSet n ∧
        ∃ e, 19 ≤ e ∧ e ≤ 30 ∧ Excess s.pool (2 ^ e) 0 cAllocCapcity := by
      rw [hn]
      rfl
    rw [hreleases]
    rcases hspec with ⟨p, l, hl, heq⟩ | ⟨hempty, s₁, code, hroom, -, -, hcases⟩
    · left
      refine ⟨?_, ?_⟩
      · rw [hpool _ _ heq]
        exact h.dropFirst n l
      · rintro ⟨hnone | hnil, -⟩
        · rw [hl] at hnone
          cases hnone
        · rw [hl] at hnil
          cases hnil
    · have hown : (s.pool.withSize n).free.find? n = some [] := by
        unfold MemPool.withSize
        split
        · next hnone => exact StdMap.find?_insert_self hnone
        · next hsome => exact hempty.resolve_left hsome
      have hroomy := makeRoom_cases hsize ((withSize_mark _ _).trans hmark) hroom
      simp only [withSize_excess hkeys, (withSize_heap s.pool n).2] at hroomy
      rcases hroomy with ⟨hexcess, hlost⟩ | ⟨hnone, rfl⟩
      · right
        refine ⟨?_, hempty, hexcess⟩
        rcases hcases with ⟨-, heq⟩ | ⟨s₂, p, l, -, hgrown, -, heq⟩
        · rw [hpool _ _ heq]
          exact hlost.not_known
        · rw [hpool _ _ heq]
          exact (hlost.grown hown hgrown).not_known
      · left
        refine ⟨?_, fun hreleases => hnone hreleases.2⟩
        rcases hcases with ⟨-, heq⟩ | ⟨s₂, p, l, -, hgrown, -, heq⟩
        · rw [hpool _ _ heq]
          exact hexact
        · rw [hpool _ _ heq]
          exact (hexact.grown hgrown).dropFirst n l
  | recycle mem memSize =>
    obtain ⟨set, l, s', hset, hl, heq, -, hpurged⟩ := recycle_spec hsound hop
    have hpool : (poolStep A s (.recycle mem memSize)).1.pool = s' := by rw [poolStep, heq]
    have hreleases : Releases s (.recycle mem memSize) ↔
        0 < releaseCount memSize (l.length + 1) (u32 set.length) s.pool.waterMark := by
      unfold Releases Excess
      simp [hset, hl]
    obtain ⟨s₀, hs₀⟩ : ∃ s₀ : MemPool, s₀ =
      { s.pool with free := s.pool.free.modify memSize fun l => mem :: l } := ⟨_, rfl⟩
    have hgive : Sound s₀ (s.held.erase (mem, memSize)) := by
      rw [hs₀]
      exact (hsound.perm (List.perm_cons_erase hop).symm).give hl
    have hown : s₀.free.find? memSize = some (mem :: l) := by
      rw [hs₀, StdMap.find?_modify_self, hl]
      rfl
    rw [← hs₀] at hpurged
    rw [hpool, hreleases]
    by_cases hpos : 0 < releaseCount memSize (l.length + 1) (u32 set.length) s.pool.waterMark
    · right
      exact ⟨(hpurged.lost hgive.shape hown hpos (releaseCount_le _ _ _ _)).not_known, hpos⟩
    · left
      refine ⟨?_, hpos⟩
      have hzero := Nat.eq_zero_of_not_pos hpos
      rw [hzero] at hpurged
      have hstub : s'.stub = s.pool.stub := by rw [hpurged.stub, hs₀]
      constructor
      · intro n p
        rw [hpurged.blocks, List.take_zero, if_neg (List.not_mem_nil), hs₀]
        unfold Known
        rw [hstub]
        exact h.known n p
      · unfold Sets
        rw [hstub]
        exact h.sets

/-- In every run of users that recycle only what they hold: the sets are right, and no block is
deleted twice, to the destructor's end, exactly when no call releases a block. -/
theorem pool_intact_iff (A : Allocator) (ops : List PoolOp)
    (hops : Run.Always (poolStep A) HoldsOnly ⟨MemPool.init, []⟩ ops) :
    (∀ pre, pre <+: ops → Intact (Run.final (poolStep A) ⟨MemPool.init, []⟩ pre)) ↔
      Run.Always (poolStep A) (fun s op => ¬ Releases s op) ⟨MemPool.init, []⟩ ops := by
  have hrun : ∀ s : PoolUse, AtRest s → Exact s.pool → Run.Always (poolStep A) HoldsOnly s ops →
      ((∀ pre, pre <+: ops → Intact (Run.final (poolStep A) s pre)) ↔
        Run.Always (poolStep A) (fun s op => ¬ Releases s op) s ops) := by
    clear hops
    induction ops with
    | nil =>
      intro s hs h _
      refine iff_of_true (fun pre hpre => ?_) trivial
      rw [List.prefix_nil.mp hpre]
      exact h.intact hs
    | cons op ops ih =>
      rintro s hs h ⟨hop, hops⟩
      have hnext := (hs.step A hop).1
      rw [Run.always_cons]
      rcases h.step_cases A hs hop with ⟨hexact, hkept⟩ | ⟨hwrong, hreleases⟩
      · have hrest := ih _ hnext hexact hops
        constructor
        · intro hintact
          refine ⟨hkept, hrest.mp fun pre hpre => ?_⟩
          exact hintact (op :: pre) (List.cons_prefix_cons.mpr ⟨rfl, hpre⟩)
        · rintro ⟨-, halways⟩ pre hpre
          cases pre with
          | nil => exact h.intact hs
          | cons op' pre =>
            obtain ⟨rfl, htail⟩ := List.cons_prefix_cons.mp hpre
            exact hrest.mpr halways pre htail
      · refine iff_of_false (fun hintact => ?_) fun halways => halways.1 hreleases
        exact hwrong (hintact [op] (by simp)).stub
  exact hrun _ .init .init hops

/-- Two blocks of 64M are taken, and one is given back; nothing is released. -/
theorem pool_intact_two :
    let ops := [.allocate (2 ^ 25), .allocate (2 ^ 25), .recycle 1 (2 ^ 26)]
    ∀ pre, pre <+: ops → Intact (Run.final (poolStep .above) ⟨MemPool.init, []⟩ pre) := by
  intro ops
  have hops : Run.Always (poolStep .above) HoldsOnly ⟨MemPool.init, []⟩ ops := by
    refine ⟨trivial, trivial, ?_, trivial⟩
    unfold HoldsOnly
    decide +kernel
  refine (pool_intact_iff .above ops hops).mpr ⟨?_, ?_, ?_, trivial⟩
  · exact fun hreleases => absurd hreleases.2.1 (by decide +kernel)
  · exact fun hreleases => absurd hreleases.2.1 (by decide +kernel)
  · unfold Releases
    decide +kernel

/-- A block of 128M is taken and given back: it is deleted and stays in the set, and the
destructor deletes it again. -/
theorem not_intact_release :
    let ops := [.allocate (2 ^ 26), .recycle 1 (2 ^ 27)]
    Run.Always (poolStep .above) HoldsOnly ⟨MemPool.init, []⟩ ops ∧
      (Run.final (poolStep .above) ⟨MemPool.init, []⟩ ops).pool.destroy.again = 1 ∧
      ¬ ∀ pre, pre <+: ops → Intact (Run.final (poolStep .above) ⟨MemPool.init, []⟩ pre) := by
  intro ops
  have hagain : (Run.final (poolStep .above) ⟨MemPool.init, []⟩ ops).pool.destroy.again = 1 := by
    decide +kernel
  refine ⟨⟨trivial, ?_, trivial⟩, hagain, fun hintact => ?_⟩
  · unfold HoldsOnly
    decide +kernel
  · have honce := (hintact ops (List.prefix_refl ops)).once
    rw [hagain] at honce
    cases honce

end Spp
