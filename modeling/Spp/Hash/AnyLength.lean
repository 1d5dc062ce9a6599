import Spp.Hash.Keys
import Spp.Hash.Credit

/-!
# The map under any lengths

What remains of the structure of the pool when callers pass negative lengths as well: the
nodes and the chunks are shared out as before, but the counter of free chunks may be too
high, by what negative chunk numbers have been counted, and a node may have a negative
length and then owns no chunk.

## Main definitions

* `Loose` — the structure, where the counter is higher by `d`.
* `CanHold` — what a new value needs.
* `Credits` — a call that makes the counter higher.
-/

namespace Spp

open Links ChunkAllocator

/-- The lengths, where a negative one counts as 0. -/
def floor (len : ℕ → ℤ) (i : ℕ) : ℤ := max 0 (len i)

theorem floor_update (len : ℕ → ℤ) (i : ℕ) (n : ℤ) :
    floor (Function.update len i n) = Function.update (floor len) i (max 0 n) := by
  funext j
  by_cases hj : j = i
  · rw [hj, floor, Function.update_self, Function.update_self]
  · rw [floor, Function.update_of_ne hj, Function.update_of_ne hj, floor]

namespace ChunksHold

variable {a : ChunkAllocator} {head : ℕ → Option ℕ} {len : ℕ → ℤ}
  {used freeChunks : List ℕ} {chunks : ℕ → List ℕ} {i : ℕ}

/-- A node may own no chunk. -/
theorem addEmpty (h : ChunksHold a head len used freeChunks chunks) (hi : i ∉ used)
    (hsize : 0 < a.chunkSize) :
    ChunksHold a (Function.update head i none) (Function.update len i 0) (i :: used) freeChunks
      (Function.update chunks i []) := by
  have hne : ∀ j ∈ used, j ≠ i := by
    rintro j hj rfl
    exact hi hj
  have hother := h.setOther hi none 0
  refine ⟨h.free, fun j hj => ?_, ?_, fun j hj => ?_, h.freeTotal⟩
  · rcases List.mem_cons.mp hj with rfl | hj
    · rw [Function.update_self, Function.update_self]
      exact rfl
    · rw [Function.update_of_ne (hne j hj) [] chunks]
      exact hother.chain j hj
  · have hflat : used.flatMap (Function.update chunks i []) = used.flatMap chunks :=
      List.flatMap_congr fun j hj => Function.update_of_ne (hne j hj) _ _
    rw [List.flatMap_cons, Function.update_self, hflat, List.nil_append]
    exact h.partition
  · rcases List.mem_cons.mp hj with rfl | hj
    · rw [Function.update_self, Function.update_self]
      exact ⟨Int.le_refl 0, getChunkNum_zero hsize⟩
    · rw [Function.update_of_ne (hne j hj) [] chunks]
      exact hother.sized j hj

theorem chunkSize_pos (h : ChunksHold a head len used freeChunks chunks) (hi : i ∈ used) :
    0 < a.chunkSize := by
  obtain ⟨hlen, hnum⟩ := h.sized i hi
  have hcast : ((len i).toNat : ℤ) = len i := Int.toNat_of_nonneg hlen
  rw [← hcast] at hnum
  exact (getChunkNum_room hnum).1

/-- A node that owns no chunk may store nothing. -/
theorem setEmpty (h : ChunksHold a head len used freeChunks chunks) (hi : i ∈ used)
    (hnil : chunks i = []) :
    ChunksHold a head (Function.update len i 0) used freeChunks chunks := by
  refine ⟨h.free, h.chain, h.partition, fun j hj => ?_, h.freeTotal⟩
  by_cases hji : j = i
  · rw [hji, Function.update_self, hnil]
    exact ⟨Int.le_refl 0, getChunkNum_zero (h.chunkSize_pos hi)⟩
  · rw [Function.update_of_ne hji]
    exact h.sized j hj

end ChunksHold

namespace HashMap

variable {K : Type} {hash : K → ℕ} {m m' : HashMap K} {L : Lists} {i : ℕ} {d : ℤ}

/-- The pool spells the lists, where the counter of free chunks is higher by `d`.  A node
whose length is negative owns no chunk, and its chunk number has been counted in `d`. -/
structure Loose (hash : K → ℕ) (m : HashMap K) (L : Lists) (d : ℤ) : Prop where
  placed : Placed hash m L.toNodeLists
  chunks : ChunksHold (m.allocator.credit (-d)) m.chunkHead (floor m.chunkLen) L.add
    L.freeChunks L.chunks
  nonneg : 0 ≤ d
  owed : ∀ i ∈ L.add, ∀ c, m.allocator.getChunkNum (m.chunkLen i) = some c →
    -d ≤ c ∧ c ≤ (L.chunks i).length

/-- What a new value of `n` bytes needs: a free node, a bucket, and enough free chunks, at
least one. -/
def CanHold (m : HashMap K) (L : Lists) (n : ℕ) : Prop :=
  L.free ≠ [] ∧ 0 < m.bucketSize ∧
    ∃ c : ℕ, m.allocator.getChunkNum n = some (c : ℤ) ∧ 0 < c ∧ c ≤ L.freeChunks.length

/-- A call that passes a length with a negative chunk number on to `malloc`. -/
def Credits (m : HashMap K) : Op K → Prop
  | .insert _ _ len => m.freeList ≠ none ∧ m.allocator.Negative len
  | .setValue k _ len => (m.Present k ∨ m.freeList ≠ none) ∧ m.allocator.Negative len
  | .updateData n _ len => m.visit n ≠ none ∧ m.allocator.Negative len
  | _ => False

namespace Loose

theorem allocator_eq (m : HashMap K) (d : ℤ) :
    m.allocator = (m.allocator.credit (-d)).credit d := by
  rw [credit_credit, Int.add_left_neg, credit_zero]

theorem freeTotal (h : Loose hash m L d) : m.allocator.freeTotal = L.freeChunks.length + d := by
  have htotal := h.chunks.freeTotal
  simp only [credit] at htotal
  omega

theorem freeChain (h : Loose hash m L d) :
    Chain m.allocator.next m.allocator.freeList L.freeChunks := h.chunks.free

theorem freeList_none_iff (h : Loose hash m L d) : m.freeList = none ↔ L.free = [] := by
  rw [h.placed.nodes.free.head, List.head?_eq_none_iff]

theorem chunks_cons (h : Loose hash m L d) (hi : i ∈ L.add) :
    ChunksHold (m.allocator.credit (-d)) m.chunkHead (floor m.chunkLen) (i :: L.add.erase i)
      L.freeChunks L.chunks :=
  h.chunks.perm (List.perm_cons_erase hi).symm

/-- The chunk number of a node's length: its chunks, or a negative number that has been
counted. -/
theorem chunkNum (h : Loose hash m L d) (hi : i ∈ L.add) :
    ∃ o, m.allocator.getChunkNum (m.chunkLen i) = some o ∧ -d ≤ o ∧
      ((L.chunks i).length : ℤ) = max 0 o := by
  obtain ⟨hlen, hnum⟩ := h.chunks.sized i hi
  have hsize : 0 < m.allocator.chunkSize := h.chunks.chunkSize_pos hi
  obtain ⟨o, ho⟩ : ∃ o, m.allocator.getChunkNum (m.chunkLen i) = some o := by
    rw [getChunkNum, if_neg (by omega)]
    exact ⟨_, rfl⟩
  obtain ⟨hlow, hhigh⟩ := h.owed i hi o ho
  refine ⟨o, ho, hlow, ?_⟩
  by_cases hneg : 0 ≤ m.chunkLen i
  · rw [floor, max_eq_right hneg] at hnum
    have heq := Option.some.inj (ho.symm.trans hnum)
    omega
  · -- a negative length: the node owns no chunk
    rw [floor, max_eq_left (by omega), getChunkNum_credit, getChunkNum_zero hsize] at hnum
    have hnil := Option.some.inj hnum
    omega

/-! ## Storing a value -/

/-- What the nodes owe after one of them has got a new length. -/
theorem owed_update (h : Loose hash m L d) (i : ℕ) (used : List ℕ) (chunks : ℕ → List ℕ)
    {e n c : ℤ} (hused : ∀ j ∈ used, j ≠ i → j ∈ L.add) (hde : d ≤ e)
    (hnew : m.allocator.getChunkNum n = some c) (hlow : -e ≤ c) (hhigh : c ≤ (chunks i).length)
    (hsame : ∀ j, j ≠ i → chunks j = L.chunks j) :
    ∀ j ∈ used, ∀ c', m.allocator.getChunkNum (Function.update m.chunkLen i n j) = some c' →
      -e ≤ c' ∧ c' ≤ (chunks j).length := by
  intro j hj c' hc'
  by_cases hji : j = i
  · rw [hji, Function.update_self] at hc'
    obtain rfl := Option.some.inj (hnew.symm.trans hc')
    rw [hji]
    exact ⟨hlow, hhigh⟩
  · rw [Function.update_of_ne hji] at hc'
    rw [hsame j hji]
    have howed := h.owed j (hused j hj hji) c' hc'
    omega

/-- A used node with a new length, and with the chunks that belong to it. -/
theorem stored (h : Loose hash m L d) {a : ChunkAllocator} {head : ℕ → Option ℕ}
    {chunks : ℕ → List ℕ} {fr : List ℕ} {n c e : ℤ}
    (hchunks : ChunksHold a head (floor (Function.update m.chunkLen i n)) L.add fr chunks)
    (hsize : a.chunkSize = m.allocator.chunkSize) (hde : d ≤ e)
    (hnew : m.allocator.getChunkNum n = some c) (hlow : -e ≤ c) (hhigh : c ≤ (chunks i).length)
    (hsame : ∀ j, j ≠ i → chunks j = L.chunks j) :
    Loose hash
      { m with
        allocator := a.credit e
        chunkLen := Function.update m.chunkLen i n
        chunkHead := head }
      { L with freeChunks := fr, chunks := chunks } e := by
  refine ⟨⟨h.placed.nodes.setValue _ _ _, h.placed.out, h.placed.buckets⟩, ?_,
    h.nonneg.trans hde, ?_⟩
  · rw [credit_credit, Int.add_right_neg, credit_zero]
    exact hchunks
  · intro j hj c' hc'
    rw [getChunkNum_congr hsize] at hc'
    exact h.owed_update i L.add chunks (fun _ hj _ => hj) hde hnew hlow hhigh hsame j hj c' hc'

/-- The part of `update_node` that stores, for a length that is not negative: it succeeds
exactly when the free chunks and the node's own are enough. -/
theorem storeNode_nat (h : Loose hash m L d) (hi : i ∈ L.add) (data : ℕ → UInt8) (n : ℕ) :
    ∃ c : ℕ, m.allocator.getChunkNum n = some (c : ℤ) ∧
      (c ≤ L.freeChunks.length + (L.chunks i).length ∧
        (∃ m' L', m.storeNode i data n = some (true, m') ∧ Loose hash m' L' d ∧
          L'.toNodeLists = L.toNodeLists) ∨
      L.freeChunks.length + (L.chunks i).length < c ∧
        (m.storeNode i data n = some (false, m) ∨ m.storeNode i data n = none)) := by
  obtain ⟨o, hold, hlow, hown⟩ := h.chunkNum hi
  have hsize : 0 < m.allocator.chunkSize := h.chunks.chunkSize_pos hi
  have htotal := h.freeTotal
  have hd := h.nonneg
  have hcons := h.chunks_cons hi
  have hia : i ∉ L.add.erase i := List.Nodup.not_mem_erase h.placed.nodes.add_nodup
  obtain ⟨c, hnew⟩ : ∃ c : ℕ, m.allocator.getChunkNum n = some (c : ℤ) :=
    ⟨_, getChunkNum_natCast hsize n⟩
  have hfloor : floor (Function.update m.chunkLen i n) =
      Function.update (floor m.chunkLen) i n := by
    rw [floor_update, max_eq_right (by omega)]
  refine ⟨c, hnew, ?_⟩
  unfold HashMap.storeNode
  simp only [Option.bind_eq_bind, hold, hnew, Option.bind_some]
  by_cases hsame : o = c
  · -- as many chunks as before: overwrite them
    have hlen : ((L.chunks i).length : ℤ) = c := by omega
    obtain ⟨data', hsplit, hchunks, -, -⟩ :=
      hcons.overwrite data (by rw [getChunkNum_credit, hnew, hlen]) hia
    rw [if_neg (by simpa using hsame), allocator_eq m d, split_credit, hsplit]
    have hback := hchunks.perm (List.perm_cons_erase hi)
    rw [← hfloor] at hback
    exact .inl ⟨by omega, _, L, rfl,
      h.stored hback rfl (le_refl d) hnew (by omega) (by omega) fun _ _ => rfl, rfl⟩
  · rw [if_pos (by simpa using hsame)]
    by_cases hlack : (c : ℤ) > o ∧ m.allocator.freeTotal < c - o
    · rw [if_pos hlack]
      exact .inr ⟨by omega, .inl rfl⟩
    · -- free the old chunks, then take new ones
      rw [if_neg hlack]
      obtain ⟨next', freeList', hfree, hrel⟩ := hcons.release
      rw [allocator_eq m d, free_credit, hfree, Option.map_some, Option.bind_some]
      obtain ⟨a, ha⟩ : ∃ a, a = { m.allocator.credit (-d) with
          next := next', freeList := freeList'
          freeTotal := (m.allocator.credit (-d)).freeTotal + (L.chunks i).length } := ⟨_, rfl⟩
      rw [← ha] at hrel ⊢
      have hlen : ((L.chunks i).reverse ++ L.freeChunks).length =
          L.freeChunks.length + (L.chunks i).length := by
        rw [List.length_append, List.length_reverse, Nat.add_comm]
      have hcount := hrel.freeTotal
      rw [hlen] at hcount
      have hnum : a.getChunkNum n = some (c : ℤ) := by
        rw [ha]
        exact hnew
      by_cases henough : c ≤ L.freeChunks.length + (L.chunks i).length
      · obtain ⟨hd', next'', freeList'', data', hmalloc, hsplit, hchunks, -⟩ :=
          hrel.acquire hia data hnum (by omega)
        rw [malloc_credit hd (by omega), hmalloc, Option.map_some, Option.bind_some, split_credit,
          hsplit]
        have hback := hchunks.perm (List.perm_cons_erase hi)
        rw [← hfloor] at hback
        have hhigh : (c : ℤ) ≤ (Function.update L.chunks i
            (((L.chunks i).reverse ++ L.freeChunks).take c).reverse i).length := by
          rw [Function.update_self, List.length_reverse, List.length_take]
          omega
        exact .inl ⟨henough, _, _, rfl, h.stored hback (by rw [ha]; rfl) (le_refl d) hnew
          (by omega) hhigh fun j hj => Function.update_of_ne hj _ _, rfl⟩
      · -- the counter is not too low, so `malloc` goes beyond the end of the list
        have hshort := malloc_short (a := a.credit d) (c := c) hrel.free hrel.free_nodup (by omega)
          (by change (c : ℤ) ≤ a.freeTotal + d; omega)
        rw [hshort]
        exact .inr ⟨by omega, .inr rfl⟩

/-- For a negative length it does not return, or the node gives its chunks back. -/
theorem storeNode_neg (h : Loose hash m L d) (hi : i ∈ L.add) {data : ℕ → UInt8} {n : ℤ}
    (hn : n < 0) {ok : Bool} (hret : m.storeNode i data n = some (ok, m')) :
    ∃ e L', Loose hash m' L' e ∧ L'.toNodeLists = L.toNodeLists ∧ (ok = false → m' = m) ∧ d ≤ e ∧
      (d = 0 → (e = 0 ↔ ¬ m.allocator.Negative n)) := by
  obtain ⟨o, hold, hlow, hown⟩ := h.chunkNum hi
  have hsize : 0 < m.allocator.chunkSize := h.chunks.chunkSize_pos hi
  have htotal := h.freeTotal
  have hd := h.nonneg
  have hcons := h.chunks_cons hi
  have hia : i ∉ L.add.erase i := List.Nodup.not_mem_erase h.placed.nodes.add_nodup
  have hheads := (h.chunks.chain i hi).head
  obtain ⟨c, hnew⟩ : ∃ c, m.allocator.getChunkNum n = some c := by
    rw [getChunkNum, if_neg (by omega)]
    exact ⟨_, rfl⟩
  have hone := getChunkNum_le_one hn hnew
  have hneg := getChunkNum_neg_iff hnew
  have hfloor : floor (Function.update m.chunkLen i n) =
      Function.update (floor m.chunkLen) i 0 := by
    rw [floor_update, max_eq_left (by omega)]
  unfold HashMap.storeNode at hret
  simp only [Option.bind_eq_bind, hold, hnew, Option.bind_some] at hret
  by_cases hsame : o = c
  · rw [if_neg (by simpa using hsame)] at hret
    obtain ⟨a', hsplit, hret⟩ := Option.bind_eq_some_iff.mp hret
    obtain ⟨rfl, rfl⟩ := Prod.mk.inj (Option.some.inj hret)
    -- the copy returns only without a chunk
    cases hl : L.chunks i with
    | cons b l =>
        rw [hl, List.head?_cons] at hheads
        rw [hheads, split_neg data hn] at hsplit
        exact absurd hsplit (by simp)
    | nil =>
        rw [hl] at hheads hown
        rw [hheads, List.head?_nil, split_none] at hsplit
        obtain rfl := Option.some.inj hsplit
        rw [List.length_nil] at hown
        have hchunks := h.chunks.setEmpty hi hl
        rw [← hfloor] at hchunks
        have hstored := h.stored hchunks rfl (le_refl d) hnew (by omega)
          (by rw [hl, List.length_nil]; omega) fun _ _ => rfl
        rw [← allocator_eq] at hstored
        refine ⟨d, L, hstored, rfl, by simp, le_refl d, fun hzero => ?_⟩
        rw [← hneg]
        omega
  · rw [if_pos (by simpa using hsame)] at hret
    by_cases hlack : c > o ∧ m.allocator.freeTotal < c - o
    · rw [if_pos hlack] at hret
      obtain ⟨rfl, rfl⟩ := Prod.mk.inj (Option.some.inj hret)
      refine ⟨d, L, h, rfl, fun _ => rfl, le_refl d, fun hzero => ?_⟩
      rw [← hneg]
      omega
    · -- the old chunks become free
      rw [if_neg hlack] at hret
      obtain ⟨next', freeList', hfree, hrel⟩ := hcons.release
      rw [allocator_eq m d, free_credit, hfree, Option.map_some, Option.bind_some] at hret
      obtain ⟨a, ha⟩ : ∃ a, a = { m.allocator.credit (-d) with
          next := next', freeList := freeList'
          freeTotal := (m.allocator.credit (-d)).freeTotal + (L.chunks i).length } := ⟨_, rfl⟩
      rw [← ha] at hrel hret
      have hcount := hrel.freeTotal
      rw [List.length_append, List.length_reverse] at hcount
      obtain ⟨⟨hd', a₁⟩, hmalloc, hret⟩ := Option.bind_eq_some_iff.mp hret
      obtain ⟨a₂, hsplit, hret⟩ := Option.bind_eq_some_iff.mp hret
      obtain ⟨rfl, rfl⟩ := Prod.mk.inj (Option.some.inj hret)
      by_cases hpos : c ≤ 0
      · -- `malloc` only counts
        have htake := malloc_of_nonpos (a := a.credit d) hpos (by change c ≤ a.freeTotal + d; omega)
        obtain ⟨rfl, rfl⟩ := Prod.mk.inj (Option.some.inj (hmalloc.symm.trans htake))
        rw [split_none] at hsplit
        obtain rfl := Option.some.inj hsplit
        have hback := (hrel.addEmpty hia (by rw [ha]; exact hsize)).perm (List.perm_cons_erase hi)
        rw [← hfloor] at hback
        have hstored := h.stored (e := d - c) hback (by rw [ha]; rfl) (by omega) hnew (by omega)
          (by rw [Function.update_self, List.length_nil]; omega)
          fun j hj => Function.update_of_ne hj _ _
        rw [credit_credit]
        refine ⟨d - c, _, hstored, rfl, by simp, by omega, fun hzero => ?_⟩
        rw [← hneg]
        omega
      · -- there is a chunk to copy into, which does not return
        have hhead := (malloc_head hmalloc).1
        cases hd' with
        | none =>
            refine absurd (hhead.mpr ⟨by omega, ?_⟩) (by simp)
            change c ≤ a.freeTotal + d
            omega
        | some b =>
            rw [split_neg data hn] at hsplit
            exact absurd hsplit (by simp)

/-- The part of `update_node` that stores, for any length. -/
theorem storeNode (h : Loose hash m L d) (hi : i ∈ L.add) {data : ℕ → UInt8} {n : ℤ} {ok : Bool}
    (hret : m.storeNode i data n = some (ok, m')) :
    ∃ e L', Loose hash m' L' e ∧ L'.toNodeLists = L.toNodeLists ∧ (ok = false → m' = m) ∧ d ≤ e ∧
      (d = 0 → (e = 0 ↔ ¬ m.allocator.Negative n)) := by
  rcases lt_or_ge n 0 with hn | hn
  · exact h.storeNode_neg hi hn hret
  · obtain ⟨n, rfl⟩ := Int.eq_ofNat_of_zero_le hn
    have hnot : ¬ m.allocator.Negative n := fun hneg => by
      have := hneg.neg
      omega
    obtain ⟨c, -, ⟨-, m₁, L', hstore, h', hsame⟩ | ⟨-, hfail | hnone⟩⟩ := h.storeNode_nat hi data n
    · obtain ⟨rfl, rfl⟩ := Prod.mk.inj (Option.some.inj (hret.symm.trans hstore))
      exact ⟨d, L', h', hsame, by simp, le_refl d, fun hzero => iff_of_true hzero hnot⟩
    · obtain ⟨rfl, rfl⟩ := Prod.mk.inj (Option.some.inj (hret.symm.trans hfail))
      exact ⟨d, L, h, rfl, fun _ => rfl, le_refl d, fun hzero => iff_of_true hzero hnot⟩
    · rw [hret] at hnone
      exact absurd hnone (by simp)

/-! ## A new node -/

/-- With a node that is free, and the chunk number known, the two other needs are left. -/
theorem canHold_iff {fr : List ℕ} {n c : ℕ} (hfree : L.free = i :: fr)
    (hnew : m.allocator.getChunkNum n = some (c : ℤ)) :
    CanHold m L n ↔ 0 < m.bucketSize ∧ 0 < c ∧ c ≤ L.freeChunks.length := by
  constructor
  · rintro ⟨-, hB, c', hnew', hc⟩
    obtain rfl := Int.natCast_inj.mp (Option.some.inj (hnew.symm.trans hnew'))
    exact ⟨hB, hc⟩
  · rintro ⟨hB, hc⟩
    exact ⟨by simp [hfree], hB, c, hnew, hc⟩

/-- A free node that gets a value, and a place in its bucket and in the access list. -/
theorem used (h : Loose hash m L d) {fr : List ℕ} (hfree : L.free = i :: fr)
    (hB : 0 < m.bucketSize) (k : K) {a : ChunkAllocator} {hd : Option ℕ} {n c : ℕ}
    {frc : List ℕ} {chunks : ℕ → List ℕ}
    (hchunks : ChunksHold a (Function.update m.chunkHead i hd)
      (Function.update (floor m.chunkLen) i n) (i :: L.add) frc chunks)
    (hsize : a.chunkSize = m.allocator.chunkSize)
    (hnew : m.allocator.getChunkNum n = some (c : ℤ)) (hhigh : c ≤ (chunks i).length)
    (hsame : ∀ j, j ≠ i → chunks j = L.chunks j) :
    ∃ m', useNode hash { m with
        freeList := m.nodeNext i, nodeNext := Function.update m.nodeNext i none
        allocator := a.credit d } i k n hd = some m' ∧
      Loose hash (m'.insertAddListHead i)
        { usedLists hash m L.toNodeLists i k with freeChunks := frc, chunks := chunks } d := by
  obtain ⟨m', huse, hnodes, next, prev, head, tail, nodeNext, nodePrev, bucket, num, num', heq⟩ :=
    h.placed.nodes.insertNode_use hfree hB k n hd (a.credit d)
  have hd := h.nonneg
  refine ⟨m', huse, ⟨hnodes, h.placed.out, .inl ?_⟩, ?_, hd, ?_⟩
  · rw [heq]
    exact hB
  · rw [heq, credit_credit, Int.add_right_neg, credit_zero, floor_update,
      max_eq_right (by omega)]
    exact hchunks
  · rw [heq]
    intro j hj c' hc'
    rw [getChunkNum_congr hsize] at hc'
    exact h.owed_update i (i :: L.add) chunks
      (fun j hj hji => (List.mem_cons.mp hj).resolve_left hji) (le_refl d) hnew (by omega)
      (by omega) hsame j hj c' hc'

/-- `insert_node`, for a length that is not negative, succeeds exactly with what the value
needs. -/
theorem insertNode_nat (h : Loose hash m L d) (k : K) (data : ℕ → UInt8) (n : ℕ) :
    CanHold m L n ∧ (∃ i m' L', m.insertNode hash k data n = some (some i, m') ∧
        Loose hash m' L' d) ∨
      ¬ CanHold m L n ∧ (m.insertNode hash k data n = some (none, m) ∨
        m.insertNode hash k data n = none) := by
  have htotal := h.freeTotal
  have hd := h.nonneg
  cases hfree : L.free with
  | nil => exact .inr ⟨fun hcan => hcan.1 hfree, .inl (h.placed.nodes.insertNode_nil hfree)⟩
  | cons i fr =>
      have hia : i ∉ L.add := fun hia => h.placed.nodes.not_mem_free hia (by simp [hfree])
      have hcons : m.insertNode hash k data n = _ := h.placed.nodes.insertNode_cons hfree
      by_cases hsize : 0 < m.allocator.chunkSize
      · obtain ⟨c, hnew⟩ : ∃ c : ℕ, m.allocator.getChunkNum n = some (c : ℤ) :=
          ⟨_, getChunkNum_natCast hsize n⟩
        rw [canHold_iff hfree hnew]
        rw [hnew, Option.bind_some] at hcons
        by_cases henough : c ≤ L.freeChunks.length
        · obtain ⟨hd', next', freeList', data', hmalloc, hsplit, hchunks, hnone, -⟩ :=
            h.chunks.acquire hia data hnew henough
          obtain ⟨a₁, ha₁⟩ : ∃ a₁, a₁ = { m.allocator.credit (-d) with
              next := next', freeList := freeList'
              freeTotal := (m.allocator.credit (-d)).freeTotal - c } := ⟨_, rfl⟩
          obtain ⟨a₂, ha₂⟩ : ∃ a₂, a₂ = { m.allocator.credit (-d) with
              next := next', freeList := freeList'
              freeTotal := (m.allocator.credit (-d)).freeTotal - c, data := data' } := ⟨_, rfl⟩
          rw [← ha₁] at hmalloc hsplit
          rw [← ha₂] at hsplit hchunks
          have htake : m.allocator.malloc c = some (hd', a₁.credit d) := by
            rw [allocator_eq m d, malloc_credit hd (by rw [h.chunks.freeTotal]; omega), hmalloc]
            rfl
          rw [htake, Option.bind_some] at hcons
          cases hd' with
          | none =>
              have hsame := ((malloc_head htake).2 rfl).2 (by omega)
              rw [hsame] at hcons
              exact .inr ⟨fun hcan => by have := hnone.mp rfl; omega, .inl hcons⟩
          | some hd' =>
              simp only [split_credit, hsplit, Option.map_some, Option.bind_some] at hcons
              by_cases hB : 0 < m.bucketSize
              · have hhigh : c ≤ (Function.update L.chunks i
                    (L.freeChunks.take c).reverse i).length := by
                  rw [Function.update_self, List.length_reverse, List.length_take]
                  omega
                obtain ⟨m', huse, hloose⟩ := h.used hfree hB k hchunks (by rw [ha₂]; rfl) hnew
                  hhigh fun j hj => Function.update_of_ne hj _ _
                rw [huse, Option.bind_some] at hcons
                have hpos : c ≠ 0 := fun hzero => by simpa using hnone.mpr hzero
                exact .inl ⟨⟨hB, by omega, henough⟩, i, _, _, hcons, hloose⟩
              · rw [useNode_of_zero (by change m.bucketSize = 0; omega)] at hcons
                exact .inr ⟨fun hcan => hB hcan.1, .inr hcons⟩
        · refine .inr ⟨fun hcan => henough hcan.2.2, ?_⟩
          rw [hcons]
          by_cases hlack : m.allocator.freeTotal < c
          · rw [malloc_lack hlack]
            exact .inl rfl
          · rw [malloc_short h.freeChain h.chunks.free_nodup (by omega)
              (by omega)]
            exact .inr rfl
      · refine .inr ⟨?_, .inr ?_⟩
        · rintro ⟨-, -, c, hnew, -⟩
          exact hsize (getChunkNum_room hnew).1
        · rw [hcons, getChunkNum, if_pos (by omega)]
          rfl

/-- For a negative length it fails, and at most the counter becomes higher. -/
theorem insertNode_neg (h : Loose hash m L d) {k : K} {data : ℕ → UInt8} {n : ℤ} (hn : n < 0)
    {r : Option ℕ} (hret : m.insertNode hash k data n = some (r, m')) :
    r = none ∧ ∃ e, m' = { m with allocator := m.allocator.credit (e - d) } ∧
      Loose hash m' L e ∧ d ≤ e ∧ (e = d ↔ ¬ (m.freeList ≠ none ∧ m.allocator.Negative n)) := by
  have htotal := h.freeTotal
  have hd := h.nonneg
  have hlist := h.freeList_none_iff
  have hrefl : m = { m with allocator := m.allocator.credit (d - d) } := by
    rw [Int.sub_self, credit_zero]
  cases hfree : L.free with
  | nil =>
      rw [h.placed.nodes.insertNode_nil hfree] at hret
      obtain ⟨rfl, rfl⟩ := Prod.mk.inj (Option.some.inj hret)
      exact ⟨rfl, d, hrefl, h, le_refl d, iff_of_true rfl fun hneg => hneg.1 (hlist.mpr hfree)⟩
  | cons i fr =>
      have hsome : m.freeList ≠ none := fun hnone => by simp [hlist.mp hnone] at hfree
      rw [h.placed.nodes.insertNode_cons hfree] at hret
      obtain ⟨c, hnew, hret⟩ := Option.bind_eq_some_iff.mp hret
      obtain ⟨⟨hd', a⟩, hmalloc, hret⟩ := Option.bind_eq_some_iff.mp hret
      have hone := getChunkNum_le_one hn hnew
      have hneg := getChunkNum_neg_iff hnew
      have hcounts : ¬ (m.freeList ≠ none ∧ m.allocator.Negative n) ↔ 0 ≤ c := by
        rw [← hneg]
        simp [hsome]
      by_cases hpos : c ≤ 0
      · -- `malloc` only counts
        obtain ⟨rfl, rfl⟩ := Prod.mk.inj (Option.some.inj
          (hmalloc.symm.trans (malloc_of_nonpos hpos (by omega))))
        obtain ⟨rfl, rfl⟩ := Prod.mk.inj (Option.some.inj hret)
        have hsub : d - c - d = -c := by omega
        have hback : -c + -(d - c) = -d := by omega
        refine ⟨rfl, d - c, by rw [hsub], ⟨h.placed.setAllocator _, ?_, by omega, ?_⟩, by omega, ?_⟩
        · rw [credit_credit, hback]
          exact h.chunks
        · intro j hj c' hc'
          have howed := h.owed j hj c' hc'
          omega
        · rw [hcounts]
          omega
      · -- a chunk that `malloc` hands out cannot be filled
        cases hd' with
        | none =>
            obtain ⟨rfl, rfl⟩ := Prod.mk.inj (Option.some.inj hret)
            rw [((malloc_head hmalloc).2 rfl).2 (by omega)]
            exact ⟨rfl, d, hrefl, h, le_refl d, iff_of_true rfl (hcounts.mpr (by omega))⟩
        | some b =>
            obtain ⟨a', hsplit, -⟩ := Option.bind_eq_some_iff.mp hret
            rw [split_neg data hn] at hsplit
            exact absurd hsplit (by simp)

/-- `insert_node`, for any length. -/
theorem insertNode (h : Loose hash m L d) {k : K} {data : ℕ → UInt8} {n : ℤ} {r : Option ℕ}
    (hret : m.insertNode hash k data n = some (r, m')) :
    ∃ e L', Loose hash m' L' e ∧ d ≤ e ∧ (r = none → e = d → m' = m) ∧
      (e = d ↔ ¬ (m.freeList ≠ none ∧ m.allocator.Negative n)) := by
  rcases lt_or_ge n 0 with hn | hn
  · obtain ⟨-, e, hm, h', hle, hiff⟩ := h.insertNode_neg hn hret
    refine ⟨e, L, h', hle, fun _ he => ?_, hiff⟩
    rw [hm, he, Int.sub_self, credit_zero]
  · obtain ⟨n, rfl⟩ := Int.eq_ofNat_of_zero_le hn
    have hnot : ¬ (m.freeList ≠ none ∧ m.allocator.Negative n) := fun hneg => by
      have := hneg.2.neg
      omega
    rcases h.insertNode_nat k data n with ⟨-, i, m₁, L', hinsert, h'⟩ | ⟨-, hfail | hnone⟩
    · obtain ⟨rfl, rfl⟩ := Prod.mk.inj (Option.some.inj (hret.symm.trans hinsert))
      exact ⟨d, L', h', le_refl d, by simp, iff_of_true rfl hnot⟩
    · obtain ⟨rfl, rfl⟩ := Prod.mk.inj (Option.some.inj (hret.symm.trans hfail))
      exact ⟨d, L, h, le_refl d, fun _ _ => rfl, iff_of_true rfl hnot⟩
    · rw [hret] at hnone
      exact absurd hnone (by simp)

/-! ## The other parts of a call -/

/-- `delete_node` gives the node and its chunks back. -/
theorem deleteNode (h : Loose hash m L d) (hi : i ∈ L.add) :
    ∃ m' L', m.deleteNode hash i none none = some (0, m', none, none) ∧ Loose hash m' L' d := by
  have hB := h.placed.bucketSize_pos hi
  obtain ⟨next', freeList', hfree, hrel⟩ := (h.chunks_cons hi).release
  obtain ⟨a, ha⟩ : ∃ a, a = { m.allocator.credit (-d) with
      next := next', freeList := freeList'
      freeTotal := (m.allocator.credit (-d)).freeTotal + (L.chunks i).length } := ⟨_, rfl⟩
  rw [← ha] at hfree hrel
  have hgive : m.allocator.free (m.chunkHead i) = some (a.credit d) := by
    rw [allocator_eq m d, free_credit, hfree, Option.map_some]
  obtain ⟨m', hdelete, hnodes, next, prev, head', tail', nodeNext, nodePrev, bucket, num, num',
    freeList, heq⟩ := h.placed.nodes.deleteNode hi hB hgive
  refine ⟨m', { freedLists hash m L.toNodeLists i with
    freeChunks := (L.chunks i).reverse ++ L.freeChunks, chunks := L.chunks }, hdelete,
    ⟨⟨hnodes, h.placed.out, .inl ?_⟩, ?_, h.nonneg, ?_⟩⟩
  · rw [heq]
    exact hB
  · rw [heq, credit_credit, Int.add_right_neg, credit_zero, floor_update]
    exact hrel.setOther (List.Nodup.not_mem_erase h.placed.nodes.add_nodup) none 0
  · have howed := h.owed_update i (L.add.erase i) L.chunks
      (fun j hj _ => List.mem_of_mem_erase hj) (le_refl d)
      (getChunkNum_zero (h.chunks.chunkSize_pos hi)) (by have := h.nonneg; omega)
      (Int.natCast_nonneg _) fun _ _ => rfl
    rw [heq, ha]
    exact howed

/-- An access changes the access list. -/
theorem touch (h : Loose hash m L d) (hi : i ∈ L.add) :
    (m.insertAddListHead i).allocator = m.allocator ∧
      Loose hash (m.insertAddListHead i) (Lists.touch L i) d := by
  obtain ⟨next, prev, head, tail, heq, hnodes⟩ := h.placed.nodes.touch hi
  refine ⟨by rw [heq], ⟨hnodes, h.placed.out, .inl ?_⟩, ?_, h.nonneg, ?_⟩
  · rw [heq]
    exact h.placed.bucketSize_pos hi
  · rw [heq]
    exact h.chunks_cons hi
  · rw [heq]
    exact fun j hj => h.owed j ((List.perm_cons_erase hi).mem_iff.mpr hj)

theorem used_iff (h : Loose hash m L d) : m.Used i ↔ i ∈ L.add :=
  h.placed.nodes.used_iff h.placed.buckets

theorem present_iff (h : Loose hash m L d) {k : K} : m.Present k ↔ ∃ i ∈ L.add, m.key i = k := by
  simp only [Present, h.used_iff]

theorem visit_mem (h : Loose hash m L d) {n : ℕ} (hvisit : m.visit n = some i) : i ∈ L.add := by
  rw [h.placed.nodes.visit] at hvisit
  exact List.mem_of_getElem? hvisit

theorem openInit (hash : K → ℕ) (pool : HashMap K)
    (nodeTotal bucketSize nChunks chunkSize : ℕ) :
    ∃ L, Loose hash (pool.openInit nodeTotal bucketSize nChunks chunkSize) L 0 := by
  have h : Holds hash (pool.openInit nodeTotal bucketSize nChunks chunkSize) _ :=
    holds_openInit pool nodeTotal bucketSize nChunks chunkSize
  refine ⟨⟨⟨[], (List.range nodeTotal).reverse, fun _ => [], []⟩, (List.range nChunks).reverse,
    fun _ => []⟩, placed_openInit pool nodeTotal bucketSize nChunks chunkSize, ?_, le_refl 0,
    by simp⟩
  rw [Int.neg_zero, credit_zero]
  exact ⟨h.chunks.free, by simp, h.chunks.partition, by simp, h.chunks.freeTotal⟩

section
variable [DecidableEq K]

/-- `find_node` moves a node with the key to the front, or there is none. -/
theorem findNode (h : Loose hash m L d) {k : K} {r : Option ℕ}
    (hret : m.findNode hash k = some (r, m')) :
    r = none ∧ m' = m ∧ ¬ m.Present k ∨
      ∃ i ∈ L.add, r = some i ∧ m.Present k ∧ m' = m.insertAddListHead i := by
  have hB : 0 < m.bucketSize := by
    by_contra hzero
    rw [findNode_of_zero (by omega)] at hret
    exact absurd hret (by simp)
  rw [h.present_iff]
  rcases h.placed.nodes.findNode hB k with ⟨hmiss, habsent⟩ | ⟨i, hi, hk, hhit⟩
  · obtain ⟨rfl, rfl⟩ := Prod.mk.inj (Option.some.inj (hret.symm.trans hmiss))
    exact .inl ⟨rfl, rfl, fun ⟨i, hi, hk⟩ => habsent i hi hk⟩
  · obtain ⟨rfl, rfl⟩ := Prod.mk.inj (Option.some.inj (hret.symm.trans hhit))
    exact .inr ⟨i, hi, rfl, ⟨i, hi, hk⟩, rfl⟩

/-- A lookup leaves the allocator alone. -/
theorem lookup (h : Loose hash m L d) {k : K} {r : Option ℕ}
    (hret : m.findNode hash k = some (r, m')) :
    ∃ L', Loose hash m' L' d ∧ m'.allocator = m.allocator ∧
      ∀ i, r = some i → i ∈ L'.add ∧ m.Present k := by
  rcases h.findNode hret with ⟨rfl, rfl, -⟩ | ⟨i, hi, rfl, hk, rfl⟩
  · exact ⟨L, h, rfl, by simp⟩
  · obtain ⟨halloc, h'⟩ := h.touch hi
    refine ⟨_, h', halloc, fun j hj => ?_⟩
    obtain rfl := Option.some.inj hj
    exact ⟨List.mem_cons_self, hk⟩

/-- Each call keeps the structure.  The counter never becomes lower, and it becomes higher
when a negative chunk number reaches `malloc`. -/
theorem call (h : Loose hash m L d) {op : Op K} {out : Out}
    (hret : m.call hash op = some (out, m')) :
    ∃ e L', Loose hash m' L' e ∧ d ≤ e ∧ (d = 0 → (e = 0 ↔ ¬ Credits m op)) := by
  have hkeep : ∀ {m' L'}, Loose hash m' L' d → ¬ Credits m op →
      ∃ e L', Loose hash m' L' e ∧ d ≤ e ∧ (d = 0 → (e = 0 ↔ ¬ Credits m op)) :=
    fun h' hnot => ⟨d, _, h', le_refl d, fun hzero => iff_of_true hzero hnot⟩
  cases call_parts hret with
  | insert hnode =>
      obtain ⟨e, L', h', hle, -, hiff⟩ := h.insertNode hnode
      exact ⟨e, L', h', hle, fun hzero => by rw [← hzero]; exact hiff⟩
  | setNew hfind hnode =>
      rcases h.findNode hfind with ⟨-, rfl, habsent⟩ | ⟨i, -, hnone, -⟩
      · obtain ⟨e, L', h', hle, -, hiff⟩ := h.insertNode hnode
        refine ⟨e, L', h', hle, fun hzero => ?_⟩
        rw [← hzero, hiff, Credits]
        simp only [habsent, false_or]
      · exact absurd hnone (by simp)
  | setOld hfind hstore =>
      obtain ⟨L₁, h₁, halloc, hfound⟩ := h.lookup hfind
      obtain ⟨hi, hk⟩ := hfound _ rfl
      obtain ⟨e, L', h', -, -, hle, hiff⟩ := h₁.storeNode hi hstore
      refine ⟨e, L', h', hle, fun hzero => ?_⟩
      rw [hiff hzero, Credits, halloc]
      simp only [hk, true_or, true_and]
  | find hfind =>
      obtain ⟨L', h', -⟩ := h.lookup hfind
      exact hkeep h' id
  | bufOld hfind _ =>
      obtain ⟨L', h', -⟩ := h.lookup hfind
      exact hkeep h' id
  | bufNew hfind =>
      obtain ⟨L', h', -⟩ := h.lookup hfind
      exact hkeep h' id
  | deleteOld hfind hdelete =>
      obtain ⟨L₁, h₁, -, hfound⟩ := h.lookup hfind
      obtain ⟨m₂, L', hrun, h'⟩ := h₁.deleteNode (hfound _ rfl).1
      obtain rfl := (Prod.mk.inj (Prod.mk.inj (Option.some.inj (hdelete.symm.trans hrun))).2).1
      exact hkeep h' id
  | deleteNew hfind =>
      obtain ⟨L', h', -⟩ := h.lookup hfind
      exact hkeep h' id
  | updateOld hvisit hstore =>
      obtain ⟨e, L', h', -, -, hle, hiff⟩ := h.storeNode (h.visit_mem hvisit) hstore
      refine ⟨e, L', h', hle, fun hzero => ?_⟩
      rw [hiff hzero, Credits, hvisit]
      simp
  | updateNew hvisit => exact hkeep h fun hcredits => hcredits.1 hvisit
  | eraseOld hvisit hdelete =>
      obtain ⟨m₂, L', hrun, h'⟩ := h.deleteNode (h.visit_mem hvisit)
      obtain rfl := (Prod.mk.inj (Prod.mk.inj (Option.some.inj (hdelete.symm.trans hrun))).2).1
      exact hkeep h' id
  | eraseNew _ => exact hkeep h id
  | getCount => exact hkeep h id

/-- Every run keeps the structure. -/
theorem run {s : HashMap K} (h : Loose hash s L d) {tr : List (Op K × Out)}
    (hrun : Run.Allows (Returns hash) s tr m) : ∃ e L', Loose hash m L' e := by
  have hstep : ∀ m op out m', (∃ e L', Loose hash m L' e) → Returns hash m op out m' →
      ∃ e L', Loose hash m' L' e := by
    rintro m op out m' ⟨e, L', h⟩ hret
    obtain ⟨e', L'', h', -⟩ := h.call hret
    exact ⟨e', L'', h'⟩
  exact Run.Allows.invariant hstep ⟨d, L, h⟩ hrun

end

end Loose
end HashMap
end Spp
