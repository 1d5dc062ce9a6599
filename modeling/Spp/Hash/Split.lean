import Spp.Hash.Credit

/-!
# Chains that callers hold

What `malloc` hands out, `split` fills and `merge` reads back.  The callers of an allocator
hold the chains they have got and not yet freed, and no chunk is in two of them; so a `split`
changes no chunk of another chain, and `merge` returns what was stored.

## Main definitions

* `Reached` — what calls on a new pool lead to.
* `Shared` — the free list and the chains share out the chunks.
* `Delivers`, `MergesTo` — what `merge` returns for a buffer of any length.
-/

namespace Spp

open Links

namespace ChunkAllocator

/-- What calls on a new pool lead to, with the chains that the callers hold: the head, and
how many chunks were asked for. -/
inductive Reached (pool : ChunkAllocator) (nChunks chunkSize : ℕ) :
    ChunkAllocator → List (Option ℕ × ℤ) → Prop
  | init : Reached pool nChunks chunkSize (pool.initPoolData nChunks chunkSize) []
  | malloc {a a' held hd c} : Reached pool nChunks chunkSize a held →
      a.malloc c = some (hd, a') → hd ≠ none ∨ c = 0 →
      Reached pool nChunks chunkSize a' ((hd, c) :: held)
  | mallocFails {a a' held c} : Reached pool nChunks chunkSize a held →
      a.malloc c = some (none, a') → Reached pool nChunks chunkSize a' held
  | free {a a' held hd c} : Reached pool nChunks chunkSize a held → (hd, c) ∈ held →
      a.free hd = some a' → Reached pool nChunks chunkSize a' (held.erase (hd, c))
  | split {a a' held hd c dataBuf len} : Reached pool nChunks chunkSize a held →
      (hd, c) ∈ held → a.split hd dataBuf len = some a' → Reached pool nChunks chunkSize a' held

/-- Each held chain with its chunks; the other chunks are on the free list, and the counter
is at least their number. -/
structure Shared (a : ChunkAllocator) (held : List (Option ℕ × ℤ)) (fr : List ℕ)
    (chains : List ((Option ℕ × ℤ) × List ℕ)) : Prop where
  free : Chain a.next a.freeList fr
  chain : ∀ p ∈ chains, Chain a.next p.1.1 p.2 ∧ p.1.2 = p.2.length
  heads : (chains.map Prod.fst).Perm held
  partition : (fr ++ chains.flatMap Prod.snd).Perm (List.range a.chunkTotal)
  freeTotal : fr.length ≤ a.freeTotal

variable {a a' : ChunkAllocator} {held : List (Option ℕ × ℤ)} {hd : Option ℕ} {c : ℤ}

namespace Shared

variable {fr : List ℕ} {chains : List ((Option ℕ × ℤ) × List ℕ)}

theorem nodup (h : Shared a held fr chains) : (fr ++ chains.flatMap Prod.snd).Nodup :=
  h.partition.nodup_iff.mpr List.nodup_range

/-- A held chain, in front of the others. -/
theorem front (h : Shared a held fr chains) (hmem : (hd, c) ∈ held) :
    ∃ l rest, Shared a ((hd, c) :: held.erase (hd, c)) fr (((hd, c), l) :: rest) := by
  obtain ⟨⟨x, l⟩, hp, rfl⟩ := List.mem_map.mp (h.heads.mem_iff.mpr hmem)
  have hperm := List.perm_cons_erase hp
  refine ⟨l, chains.erase ((hd, c), l), h.free, fun p hp => h.chain p (hperm.mem_iff.mpr hp), ?_,
    ?_, h.freeTotal⟩
  · exact ((hperm.map Prod.fst).symm.trans h.heads).trans (List.perm_cons_erase hmem)
  · exact ((hperm.flatMap_right Prod.snd).symm.append_left fr).trans h.partition

/-- The chunks of the chain in front are no others' chunks. -/
theorem split_cons {l : List ℕ} {x : Option ℕ × ℤ} (h : Shared a held fr ((x, l) :: chains)) :
    (l ++ fr).Nodup ∧ l.length ≤ a.chunkTotal ∧
      ∀ b ∈ l, ∀ p ∈ chains, b ∉ p.2 := by
  have hnd := h.nodup
  rw [List.flatMap_cons, ← List.append_assoc, List.nodup_append] at hnd
  obtain ⟨hown, -, hdisj⟩ := hnd
  have hlen := h.partition.length_eq
  simp only [List.length_range, List.flatMap_cons, List.length_append] at hlen
  refine ⟨(List.perm_append_comm.nodup_iff).mp hown, by omega, fun b hb p hp hbp => ?_⟩
  exact hdisj b (List.mem_append_right _ hb) b (List.mem_flatMap.mpr ⟨p, hp, hbp⟩) rfl

/-- A new pool. -/
theorem init (pool : ChunkAllocator) (nChunks chunkSize : ℕ) :
    Shared (pool.initPoolData nChunks chunkSize) [] (List.range nChunks).reverse [] := by
  obtain ⟨next', freeList', heq, hchain⟩ := initPoolData_spec pool nChunks chunkSize
  rw [heq]
  exact ⟨hchain, by simp, by simp, by simp [List.reverse_perm], by simp⟩

/-- `malloc` hands out a new chain. -/
theorem malloc (h : Shared a held fr chains) (hret : a.malloc c = some (hd, a'))
    (hc : hd ≠ none ∨ c = 0) :
    ∃ fr' l, Shared a' ((hd, c) :: held) fr' (((hd, c), l) :: chains) := by
  obtain ⟨hhead, -⟩ := malloc_head hret
  have htotal := h.freeTotal
  have hbound : 0 ≤ c ∧ c ≤ a.freeTotal := by
    rcases hc with hne | rfl
    · have := hhead.mp hne
      omega
    · omega
  obtain ⟨n, rfl⟩ := Int.eq_ofNat_of_zero_le hbound.1
  have hfrnd : fr.Nodup := (List.nodup_append.mp h.nodup).1
  have henough : n ≤ fr.length := by
    by_contra hshort
    rw [malloc_short h.free hfrnd (by omega) hbound.2] at hret
    exact absurd hret (by simp)
  have hlen : (fr.take n).length = n := by
    rw [List.length_take]
    omega
  have hparts : fr.take n ++ fr.drop n = fr := List.take_append_drop _ _
  have hfree := h.free
  rw [← hparts] at hfree hfrnd
  obtain ⟨hd', next', freeList', hmalloc, hchain, hrest, hframe⟩ :=
    malloc_spec hfree hfrnd (by omega)
  rw [hlen, hret] at hmalloc
  obtain ⟨rfl, rfl⟩ := Prod.mk.inj (Option.some.inj hmalloc)
  refine ⟨fr.drop n, (fr.take n).reverse, hrest, fun p hp => ?_, h.heads.cons _, ?_, ?_⟩
  · rcases List.mem_cons.mp hp with rfl | hp
    · exact ⟨hchain, by rw [List.length_reverse, hlen]⟩
    · -- the chunks come from the free list
      obtain ⟨hold, hcount⟩ := h.chain p hp
      refine ⟨hold.congr fun b hb => hframe b fun hbt => ?_, hcount⟩
      exact (List.nodup_append.mp h.nodup).2.2 b (List.mem_of_mem_take hbt) b
        (List.mem_flatMap.mpr ⟨p, hp, hb⟩) rfl
  · rw [List.flatMap_cons, ← List.append_assoc]
    refine (List.Perm.append_right _ ?_).trans h.partition
    refine (List.perm_append_comm.trans ((List.reverse_perm _).append_right _)).trans ?_
    rw [hparts]
  · rw [List.length_drop]
    simp only
    omega

/-- `malloc` that hands out nothing changes no link. -/
theorem mallocFails (h : Shared a held fr chains) (hret : a.malloc c = some (none, a')) :
    Shared a' held fr chains := by
  have htotal := h.freeTotal
  by_cases hc : 0 ≤ c
  · rw [((malloc_head hret).2 rfl).2 hc]
    exact h
  · rw [malloc_of_nonpos (by omega) (by omega)] at hret
    obtain ⟨-, rfl⟩ := Prod.mk.inj (Option.some.inj hret)
    exact ⟨h.free, h.chain, h.heads, h.partition, by simp only [credit]; omega⟩

/-- `free` takes the chain back. -/
theorem giveBack (h : Shared a held fr chains) (hmem : (hd, c) ∈ held)
    (hret : a.free hd = some a') : ∃ fr' rest, Shared a' (held.erase (hd, c)) fr' rest := by
  obtain ⟨l, rest, h⟩ := h.front hmem
  obtain ⟨hnd, hlen, hdisj⟩ := h.split_cons
  obtain ⟨next', freeList', hrun, hfree, hframe⟩ :=
    free_spec (h.chain _ List.mem_cons_self).1 h.free hnd hlen
  obtain rfl := Option.some.inj (hret.symm.trans hrun)
  refine ⟨l.reverse ++ fr, rest, hfree, fun p hp => ?_, h.heads.cons_inv, ?_, ?_⟩
  · obtain ⟨hold, hcount⟩ := h.chain p (.tail _ hp)
    exact ⟨hold.congr fun b hb => hframe b fun hbl => hdisj b hbl p hp hb, hcount⟩
  · have hperm : (l.reverse ++ fr).Perm (fr ++ l) :=
      ((List.reverse_perm _).append_right _).trans List.perm_append_comm
    refine (hperm.append_right _).trans ?_
    rw [List.append_assoc]
    exact h.partition
  · have htotal := h.freeTotal
    rw [List.length_append, List.length_reverse]
    push_cast
    omega

/-- The data of the chunks is no part of the chains. -/
theorem setData (h : Shared a held fr chains) (data : ℕ → ℕ → UInt8) :
    Shared { a with data := data } held fr chains :=
  ⟨h.free, h.chain, h.heads, h.partition, h.freeTotal⟩

end Shared

/-- `split` changes the data of chunks. -/
theorem splitLoop_frame {dataBuf : ℕ → UInt8} {fuel readPos : ℕ} {len : ℤ}
    (h : splitLoop dataBuf fuel hd readPos len a = some a') :
    a' = { a with data := a'.data } := by
  induction fuel generalizing hd readPos len a with
  | zero =>
      cases hd with
      | none => exact (Option.some.inj h) ▸ rfl
      | some i => exact absurd h (by simp [splitLoop])
  | succ fuel ih =>
      cases hd with
      | none => exact (Option.some.inj h) ▸ rfl
      | some i =>
          rw [splitLoop] at h
          split_ifs at h
          · obtain rfl := Option.some.inj h
            rfl
          · exact ih (a := { a with
              data := Function.update a.data i
                (Mem.write (a.data i) 0 (Mem.read dataBuf readPos a.chunkSize)) }) h

theorem Reached.shared {pool : ChunkAllocator} {nChunks chunkSize : ℕ}
    (h : Reached pool nChunks chunkSize a held) : ∃ fr chains, Shared a held fr chains := by
  induction h with
  | init => exact ⟨_, _, Shared.init pool nChunks chunkSize⟩
  | malloc _ hret hc ih =>
      obtain ⟨fr, chains, h⟩ := ih
      obtain ⟨fr', l, h'⟩ := h.malloc hret hc
      exact ⟨fr', _, h'⟩
  | mallocFails _ hret ih =>
      obtain ⟨fr, chains, h⟩ := ih
      exact ⟨fr, chains, h.mallocFails hret⟩
  | free _ hmem hret ih =>
      obtain ⟨fr, chains, h⟩ := ih
      exact h.giveBack hmem hret
  | split _ _ hret ih =>
      obtain ⟨fr, chains, h⟩ := ih
      rw [splitLoop_frame hret]
      exact ⟨fr, chains, h.setData _⟩

/-! ## Reading back -/

/-- `merge` returns the value in the buffer, sets its length and keeps the other bytes. -/
def Delivers (a : ChunkAllocator) (hd : Option ℕ) (value : List UInt8) (buf : ℕ → UInt8)
    (len : ℤ) : Prop :=
  ∃ buf', a.merge hd value.length buf len = some (0, buf', (value.length : ℤ)) ∧
    Mem.read buf' 0 value.length = value ∧ ∀ j, value.length ≤ j → buf' j = buf j

/-- What `merge` returns for a value: a buffer that is large enough gets it; a shorter one is
left alone with an error, and the retry with the reported length succeeds. -/
def MergesTo (a : ChunkAllocator) (hd : Option ℕ) (value : List UInt8) : Prop :=
  ∀ (buf : ℕ → UInt8) (len : ℤ),
    ((value.length : ℤ) ≤ len → Delivers a hd value buf len) ∧
    (len < value.length → ∃ code len', a.merge hd value.length buf len = some (code, buf, len') ∧
      code ≠ 0 ∧ len' = value.length ∧ Delivers a hd value buf len')

/-- `merge` returns the first bytes of a chain. -/
theorem mergesTo_content {chain : List ℕ} {n : ℕ} (hchain : Chain a.next hd chain)
    (htotal : chain.length ≤ a.chunkTotal) (hlen : n ≤ chain.length * a.chunkSize) :
    MergesTo a hd (content a.chunkSize a.data chain n) := by
  have hvalue := length_content a.data hlen
  have hread : ∀ buf, Mem.read (Mem.write buf 0 (content a.chunkSize a.data chain n)) 0 n =
      content a.chunkSize a.data chain n := by
    intro buf
    have hself := Mem.read_write_self buf 0 (content a.chunkSize a.data chain n)
    rwa [hvalue] at hself
  have hdelivers : ∀ (buf : ℕ → UInt8) (len : ℤ), (n : ℤ) ≤ len →
      Delivers a hd (content a.chunkSize a.data chain n) buf len := by
    intro buf len hroom
    rw [Delivers, hvalue]
    refine ⟨_, by rw [merge_spec buf len hchain htotal hlen, if_neg (by omega)], hread buf, ?_⟩
    exact fun j hj => Mem.write_of_ge _ _ (by rw [hvalue]; omega)
  intro buf len
  rw [hvalue]
  refine ⟨hdelivers buf len, fun hshort => ?_⟩
  refine ⟨chunkAllocatorErrorInvalidParam, n, ?_, by decide, rfl, hdelivers buf n (le_refl _)⟩
  rw [merge_spec buf len hchain htotal hlen, if_pos hshort]

/-- Of every chain that the callers of an allocator hold: `split` of so many bytes as the
chain was got for changes the data of its own chunks alone, and `merge` returns the bytes. -/
theorem merge_split {pool : ChunkAllocator} {nChunks chunkSize : ℕ}
    (h : Reached pool nChunks chunkSize a held) (hmem : (hd, c) ∈ held)
    (dataBuf : ℕ → UInt8) {n : ℕ} (hnum : a.getChunkNum n = some c) :
    ∃ chain a', Chain a.next hd chain ∧ c = chain.length ∧ a.split hd dataBuf n = some a' ∧
      a' = { a with data := a'.data } ∧ (∀ j, j ∉ chain → a'.data j = a.data j) ∧
      MergesTo a' hd (Mem.read dataBuf 0 n) := by
  obtain ⟨fr, chains, h⟩ := h.shared
  obtain ⟨chain, rest, h⟩ := h.front hmem
  obtain ⟨hnd, htotal, -⟩ := h.split_cons
  obtain ⟨hchain, hcount⟩ : Chain a.next hd chain ∧ c = chain.length :=
    h.chain _ List.mem_cons_self
  obtain ⟨-, -, hlen⟩ := getChunkNum_room hnum
  rw [hcount, Int.toNat_natCast] at hlen
  obtain ⟨data', hsplit, hcontent, hframe⟩ :=
    split_spec dataBuf hchain (List.nodup_append.mp hnd).1 htotal hlen
  refine ⟨chain, _, hchain, hcount, hsplit, rfl, hframe, ?_⟩
  rw [← hcontent]
  exact mergesTo_content (a := { a with data := data' }) hchain htotal hlen

/-- Three bytes in two chunks of two. -/
theorem merge_split_three :
    ∃ a hd, Reached default 2 2 a [(some hd, 2)] ∧
      ∃ chain a', Chain a.next (some hd) chain ∧ (2 : ℤ) = chain.length ∧
        a.split (some hd) (fun i => i.toUInt8) (3 : ℕ) = some a' ∧
        a' = { a with data := a'.data } ∧ (∀ j, j ∉ chain → a'.data j = a.data j) ∧
        MergesTo a' (some hd) (Mem.read (fun i => i.toUInt8) 0 3) := by
  have hrun : (((default : ChunkAllocator).initPoolData 2 2).malloc 2).map
      (fun r => (r.1, r.2.chunkSize)) = some (some 0, 2) := by decide
  obtain ⟨⟨hd, a⟩, hret, hr⟩ := Option.map_eq_some_iff.mp hrun
  obtain ⟨rfl, hsize⟩ := Prod.mk.inj hr
  have hreached : Reached default 2 2 a [(some 0, 2)] := .malloc .init hret (.inl (by simp))
  refine ⟨a, 0, hreached, ?_⟩
  refine merge_split hreached List.mem_cons_self (fun i => i.toUInt8) (n := 3) ?_
  rw [getChunkNum, hsize]
  decide

end ChunkAllocator
end Spp
