import Spp.Hash.AnyLength

/-!
# Rejected writes

`insert_node` and `update_node` are to leave the pool alone when they return `NULL`, and the
counter of free chunks is to be the length of their list.  Both hold exactly as long as no
length with a negative chunk number reaches `malloc`.

## Main definitions

* `FreeCount` — the counter is the length of the list.
* `Intact` — what a write has to leave.
* `TooSmall` — a buffer for the old value that `merge` rejects.
-/

namespace Spp

open Links ChunkAllocator

namespace HashMap

variable {K : Type} {hash : K → ℕ} {m m' : HashMap K} {L : Lists} {i : ℕ}

/-- The counter of free chunks is the length of their list. -/
def FreeCount (m : HashMap K) : Prop :=
  ∃ l, Chain m.allocator.next m.allocator.freeList l ∧ m.allocator.freeTotal = l.length

/-- A write that returned `NULL` has changed nothing, and the counter is right after any
write. -/
def Intact (m : HashMap K) (ok : Bool) (m' : HashMap K) : Prop :=
  (ok = false → m' = m) ∧ FreeCount m'

/-- The caller's buffer is too small for the old value. -/
def TooSmall (m : HashMap K) (i : ℕ) (oldData : Option (ℕ → UInt8)) (oldLen : Option ℤ) : Prop :=
  oldData ≠ none ∧ ∃ len, oldLen = some len ∧ len < m.chunkLen i

theorem Loose.freeCount_iff {d : ℤ} (h : Loose hash m L d) : FreeCount m ↔ d = 0 := by
  have htotal := h.freeTotal
  constructor
  · rintro ⟨l, hl, hcount⟩
    rw [h.freeChain.unique hl] at htotal
    omega
  · rintro rfl
    exact ⟨_, h.freeChain, by rw [htotal, Int.add_zero]⟩

/-- `update_node` fails on the old value exactly where the buffer is too small. -/
theorem oldValue_code {oldData oldData' : Option (ℕ → UInt8)} {oldLen oldLen' : Option ℤ} {ret : ℤ}
    (h : m.oldValue i oldData oldLen = some (ret, oldData', oldLen')) :
    ret ≠ 0 ↔ TooSmall m i oldData oldLen := by
  cases oldLen with
  | none =>
      obtain rfl : ret = 0 := by
        cases oldData <;> exact ((Prod.mk.inj (Option.some.inj h)).1).symm
      simp [TooSmall]
  | some len =>
      cases oldData with
      | none =>
          obtain rfl := (Prod.mk.inj (Option.some.inj h)).1
          simp [TooSmall]
      | some buf =>
          obtain ⟨⟨code, buf', len'⟩, hmerge, hr⟩ := Option.bind_eq_some_iff.mp h
          obtain rfl := (Prod.mk.inj (Option.some.inj hr)).1
          simp only [TooSmall, ne_eq, reduceCtorEq, not_false_eq_true, Option.some.injEq, true_and,
            exists_eq_left']
          rw [merge] at hmerge
          split_ifs at hmerge with hlt
          · obtain rfl := (Prod.mk.inj (Option.some.inj hmerge)).1
            exact iff_of_true (by decide) hlt
          · split at hmerge
            · exact absurd hmerge (by simp)
            · obtain rfl := (Prod.mk.inj (Option.some.inj hmerge)).1
              exact iff_of_false (by simp) hlt

/-! ## One write -/

theorem Loose.insertNode_intact (h : Loose hash m L 0) {k : K} {data : ℕ → UInt8} {len : ℤ}
    {r : Option ℕ} (hret : m.insertNode hash k data len = some (r, m')) :
    Intact m r.isSome m' ↔ ¬ (m.freeList ≠ none ∧ m.allocator.Negative len) := by
  obtain ⟨e, L', h', -, hsame, hiff⟩ := h.insertNode hret
  rw [← hiff, Intact, h'.freeCount_iff]
  exact ⟨And.right, fun he => ⟨fun hnone => hsame (by simpa using hnone) he, he⟩⟩

theorem Loose.updateNode_intact (h : Loose hash m L 0) (hi : m.Used i)
    {data : ℕ → UInt8} {len : ℤ} {oldData oldData' : Option (ℕ → UInt8)} {oldLen oldLen' : Option ℤ}
    {ok : Bool} (hret : m.updateNode i data len oldData oldLen = some (ok, m', oldData', oldLen')) :
    Intact m ok m' ↔ ¬ (m.allocator.Negative len ∧ ¬ TooSmall m i oldData oldLen) := by
  obtain ⟨⟨ret, od, ol⟩, hold, hret⟩ := Option.bind_eq_some_iff.mp hret
  have hcode := oldValue_code hold
  by_cases hfail : ret ≠ 0
  · -- the old value does not fit
    simp only [if_pos hfail] at hret
    obtain ⟨rfl, hrest⟩ := Prod.mk.inj (Option.some.inj hret)
    obtain rfl := (Prod.mk.inj hrest).1
    exact iff_of_true ⟨fun _ => rfl, h.freeCount_iff.mpr rfl⟩ fun hneg => hneg.2 (hcode.mp hfail)
  · simp only [if_neg hfail] at hret
    obtain ⟨⟨ok', m₁⟩, hstore, hret⟩ := Option.bind_eq_some_iff.mp hret
    obtain ⟨rfl, hrest⟩ := Prod.mk.inj (Option.some.inj hret)
    obtain rfl := (Prod.mk.inj hrest).1
    obtain ⟨e, L', h', -, hsame, -, hiff⟩ := h.storeNode (h.used_iff.mp hi) hstore
    have hfits : ¬ TooSmall m i oldData oldLen := fun hsmall => hfail (hcode.mpr hsmall)
    rw [Intact, h'.freeCount_iff, hiff rfl]
    simp only [hfits, not_false_eq_true, and_true]
    exact ⟨And.right, fun hnot => ⟨hsame, hnot⟩⟩

/-! ## Runs -/

section
variable [DecidableEq K]

/-- The structure, with the right counter. -/
def Tight (hash : K → ℕ) (m : HashMap K) : Prop := ∃ L, Loose hash m L 0

omit [DecidableEq K] in
theorem Tight.freeCount (h : Tight hash m) : FreeCount m := by
  obtain ⟨L, h⟩ := h
  exact h.freeCount_iff.mpr rfl

theorem Tight.call (h : Tight hash m) {op : Op K} {out : Out}
    (hret : m.call hash op = some (out, m')) :
    (FreeCount m' ↔ ¬ Credits m op) ∧ (FreeCount m' → Tight hash m') := by
  obtain ⟨L, h⟩ := h
  obtain ⟨e, L', h', -, hiff⟩ := h.call hret
  refine ⟨h'.freeCount_iff.trans (hiff rfl), fun hcount => ?_⟩
  obtain rfl := h'.freeCount_iff.mp hcount
  exact ⟨L', h'⟩

/-- In every run of calls on a freshly opened pool, the counter stays right if and only if
no call passes a length with a negative chunk number on to `malloc`.  In the states that such
runs reach, `insert_node` and `update_node` leave the pool as they have to, if and only if
they do not do so either. -/
theorem intact_iff (hash : K → ℕ) (pool : HashMap K)
    (nodeTotal bucketSize nChunks chunkSize : ℕ) (tr : List (Op K × Out)) (m : HashMap K) :
    (Run.Allows (Run.Within (Returns hash) fun m _ _ m' => FreeCount m ∧ FreeCount m')
        (pool.openInit nodeTotal bucketSize nChunks chunkSize) tr m ↔
      Run.Allows (Run.Within (Returns hash) fun m op _ _ => ¬ Credits m op)
        (pool.openInit nodeTotal bucketSize nChunks chunkSize) tr m) ∧
    (Run.Allows (Run.Within (Returns hash) fun m op _ _ => ¬ Credits m op)
        (pool.openInit nodeTotal bucketSize nChunks chunkSize) tr m →
      FreeCount m ∧
      (∀ k data len r m', m.insertNode hash k data len = some (r, m') →
        (Intact m r.isSome m' ↔ ¬ (m.freeList ≠ none ∧ m.allocator.Negative len))) ∧
      (∀ i data len oldData oldLen ok m' oldData' oldLen', m.Used i →
        m.updateNode i data len oldData oldLen = some (ok, m', oldData', oldLen') →
        (Intact m ok m' ↔ ¬ (m.allocator.Negative len ∧ ¬ TooSmall m i oldData oldLen)))) := by
  have hopen : Tight hash (pool.openInit nodeTotal bucketSize nChunks chunkSize) :=
    Loose.openInit hash pool nodeTotal bucketSize nChunks chunkSize
  have hstep : ∀ m op out m', Tight hash m → Returns hash m op out m' → ¬ Credits m op →
      (FreeCount m ∧ FreeCount m') ∧ Tight hash m' := by
    intro m op out m' h hret hnot
    obtain ⟨hiff, hnext⟩ := h.call hret
    exact ⟨⟨h.freeCount, hiff.mpr hnot⟩, hnext (hiff.mpr hnot)⟩
  refine ⟨⟨fun hrun => Run.Allows.within ?_ hopen hrun, fun hrun =>
    Run.Allows.within hstep hopen hrun⟩, fun hrun => ?_⟩
  · rintro m op out m' h hret ⟨-, hcount⟩
    obtain ⟨hiff, hnext⟩ := h.call hret
    exact ⟨hiff.mp hcount, hnext hcount⟩
  · obtain ⟨L, h⟩ : Tight hash m := Run.Allows.invariant
      (fun m op out m' h hret => (hstep m op out m' h hret.1 hret.2).2) hopen hrun
    exact ⟨h.freeCount_iff.mpr rfl, fun _ _ _ _ _ hret => h.insertNode_intact hret,
      fun _ _ _ _ _ _ _ _ _ hi hret => h.updateNode_intact hi hret⟩

/-- A new map with one free chunk, where an insert of length -1 fails: then the counter says
2. -/
theorem insertNode_not_intact :
    ∃ m', ((default : HashMap ℕ).openInit 1 1 1 1).insertNode id 7 (fun _ => 0) (-1) =
        some (none, m') ∧
      m' ≠ (default : HashMap ℕ).openInit 1 1 1 1 ∧ m'.allocator.freeTotal = 2 ∧
      ¬ FreeCount m' := by
  have hrun : (((default : HashMap ℕ).openInit 1 1 1 1).insertNode id 7 (fun _ => 0) (-1)).map
      (fun r => (r.1, r.2.allocator.freeTotal)) = some (none, 2) := by
    decide +kernel
  obtain ⟨⟨r, m'⟩, hret, hr⟩ := Option.map_eq_some_iff.mp hrun
  obtain ⟨rfl, htotal⟩ := Prod.mk.inj hr
  obtain ⟨L, h⟩ := Loose.openInit (id : ℕ → ℕ) default 1 1 1 1
  obtain ⟨e, L', h', -, -, hiff⟩ := h.insertNode hret
  have hcount : ¬ FreeCount m' := fun hcount =>
    hiff.mp (h'.freeCount_iff.mp hcount) ⟨by decide +kernel, by decide, .inl rfl⟩
  refine ⟨m', hret, ?_, htotal, hcount⟩
  rintro rfl
  exact hcount (h.freeCount_iff.mpr rfl)

end

end HashMap
end Spp
