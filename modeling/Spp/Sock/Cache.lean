import Spp.Lib.Mem
import Mathlib.Algebra.Group.Nat.Defs
import Mathlib.Tactic.Common

/-!
# The raw cache

`CRawCache` keeps bytes in one block of the memory pool, with a head offset and a
length.  `append` makes room by moving the bytes to the front or into a larger block,
and `skip` gives the block back when no byte is left.  The cache's purpose is a queue of
bytes: `append` adds at the end and `skip` removes from the front.

The memory pool is a parameter: it refuses, or hands out a block of at least the size
asked for and below 2 GB, with any content.  Lengths are `unsigned` in the source; with
these bounds no sum of them wraps.

## Main definitions

* `Payload` — the bytes of a blob, whose length is an `int`.
* `Block`, `Alloc` — the memory pool.
* `RawCache`, `append`, `skip` — the cache; `content` is the queue it holds.
-/

namespace Spp

/-- The bytes of a blob; its length is an `int`. -/
abbrev Payload := { bs : List UInt8 // bs.length < 2 ^ 31 }

theorem Payload.nil_lt : ([] : List UInt8).length < 2 ^ 31 := by decide

/-- The bytes from an offset on. -/
def Payload.drop (data : Payload) (n : ℕ) : Payload :=
  ⟨data.1.drop n, by rw [List.length_drop]; have := data.2; omega⟩

/-- What `allocate` hands out for a request of `n` bytes. -/
structure Block (n : ℕ) where
  size : ℕ
  content : ℕ → UInt8
  fits : n ≤ size
  bound : size < 2 ^ 31

/-- The answers of the memory pool, `none` for `NULL`. -/
abbrev Alloc := (n : ℕ) → Option (Block n)

/-- A pool that hands out zeroed blocks of exactly the size asked for. -/
def Alloc.exact : Alloc := fun n =>
  if h : n < 2 ^ 31 then some ⟨n, fun _ => 0, Nat.le_refl n, h⟩ else none

/-- A `CRawCache`: `mem` is the block at `_mem`, `none` for `NULL`. -/
structure RawCache where
  mem : Option (ℕ → UInt8)
  blockSize : ℕ
  dataHead : ℕ
  dataLen : ℕ
  empty : mem = none → dataLen = 0
  room : dataHead + dataLen ≤ blockSize
  bound : blockSize < 2 ^ 31

namespace RawCache

/-- A new cache. -/
def new : RawCache := ⟨none, 0, 0, 0, fun _ => rfl, by omega, by omega⟩

/-- `data` with `data_len`: the bytes in the cache. -/
def content (c : RawCache) : List UInt8 :=
  match c.mem with
  | none => []
  | some m => Mem.read m c.dataHead c.dataLen

/-- `append`; `none` is the exception. -/
def append (c : RawCache) (data : Payload) (alloc : Alloc) : Option RawCache :=
  match c.mem with
  | none => (alloc data.1.length).map fun b =>
      { mem := some (Mem.write b.content 0 data.1)
        blockSize := b.size, dataHead := 0, dataLen := data.1.length
        empty := by simp, room := le_of_eq_of_le (by omega) b.fits, bound := b.bound }
  | some m =>
      if h : data.1.length + c.dataHead + c.dataLen ≤ c.blockSize then
        some { c with
          mem := some (Mem.write m (c.dataHead + c.dataLen) data.1)
          dataLen := c.dataLen + data.1.length
          empty := by simp, room := by omega }
      else if h' : data.1.length + c.dataLen > c.blockSize then
        -- a larger block, with the old bytes in front
        (alloc (data.1.length + c.dataLen)).map fun b =>
          { mem := some (Mem.write (Mem.write b.content 0 (Mem.read m c.dataHead c.dataLen))
              c.dataLen data.1)
            blockSize := b.size, dataHead := 0, dataLen := c.dataLen + data.1.length
            empty := by simp, room := le_of_eq_of_le (by omega) b.fits, bound := b.bound }
      else
        -- the old bytes move to the head of the block
        some { c with
          mem := some (Mem.write (Mem.write m 0 (Mem.read m c.dataHead c.dataLen))
            c.dataLen data.1)
          dataHead := 0, dataLen := c.dataLen + data.1.length
          empty := by simp, room := by omega }

/-- `skip`: drop bytes from the front. -/
def skip (c : RawCache) (length : ℕ) : RawCache :=
  match hm : c.mem with
  | none => c
  | some _ =>
      if h : length ≥ c.dataLen then new
      else { c with
        dataHead := c.dataHead + length, dataLen := c.dataLen - length
        empty := fun hnone => absurd (hm.symm.trans hnone) (by simp)
        room := le_of_eq_of_le (by omega) c.room }

/-! ## The queue of bytes -/

variable {c c' : RawCache} {data : Payload} {alloc : Alloc}

@[simp] theorem content_new : new.content = [] := rfl

@[simp] theorem length_content (c : RawCache) : c.content.length = c.dataLen := by
  unfold content
  split
  · next hm => rw [c.empty hm]; rfl
  · exact Mem.length_read _ _ _

theorem dataLen_eq_zero_iff : c.dataLen = 0 ↔ c.content = [] := by
  rw [← length_content, List.length_eq_zero_iff]

/-- The bytes of two stores, one behind the other. -/
theorem read_write_append (m : ℕ → UInt8) (dst : ℕ) (bs cs : List UInt8) :
    Mem.read (Mem.write (Mem.write m dst bs) (dst + bs.length) cs) dst (bs.length + cs.length) =
      bs ++ cs := by
  rw [← Mem.write_append, ← List.length_append, Mem.read_write_self]

/-- `append` adds its bytes at the end. -/
theorem content_append (h : c.append data alloc = some c') : c'.content = c.content ++ data.1 := by
  unfold append at h
  split at h
  · next hm =>
    obtain ⟨b, -, rfl⟩ := Option.map_eq_some_iff.mp h
    have hempty : c.content = [] := dataLen_eq_zero_iff.mp (c.empty hm)
    rw [hempty]
    exact Mem.read_write_self _ _ _
  · next m hm =>
    have hold : c.content = Mem.read m c.dataHead c.dataLen := by rw [content, hm]
    split at h
    · obtain rfl := Option.some.inj h
      rw [hold]
      change Mem.read _ c.dataHead (c.dataLen + data.1.length) = _
      rw [Mem.read_add, Mem.read_write_self, Mem.read_write_of_disjoint _ _ (.inl (Nat.le_refl _))]
    · have hmoved : ∀ b : ℕ → UInt8, Mem.read (Mem.write (Mem.write b 0
          (Mem.read m c.dataHead c.dataLen)) c.dataLen data.1) 0 (c.dataLen + data.1.length) =
          c.content ++ data.1 := by
        intro b
        have happend := read_write_append b 0 c.content data.1
        rw [Nat.zero_add, length_content] at happend
        rw [← hold]
        exact happend
      split at h
      · obtain ⟨b, -, rfl⟩ := Option.map_eq_some_iff.mp h
        exact hmoved _
      · obtain rfl := Option.some.inj h
        exact hmoved _

/-- `skip` removes bytes from the front. -/
theorem content_skip (c : RawCache) (n : ℕ) : (c.skip n).content = c.content.drop n := by
  unfold skip
  split
  · next hm =>
    have hempty : c.content = [] := dataLen_eq_zero_iff.mp (c.empty hm)
    rw [hempty, List.drop_nil]
  · next m hm =>
    have hold : c.content = Mem.read m c.dataHead c.dataLen := by rw [content, hm]
    split
    · next h =>
      refine (List.drop_eq_nil_of_le ?_).symm
      rw [length_content]
      exact h
    · next h =>
      have hsplit : c.dataLen = n + (c.dataLen - n) := by omega
      have hdrop : c.content = Mem.read m c.dataHead n ++
          Mem.read m (c.dataHead + n) (c.dataLen - n) := by
        rw [hold, ← Mem.read_add, ← hsplit]
      rw [hdrop, List.drop_left' (Mem.length_read _ _ _)]
      simp only [content, hm]

/-- Skipping everything leaves nothing. -/
theorem content_skip_all (c : RawCache) : (c.skip c.dataLen).content = [] := by
  rw [content_skip]
  exact List.drop_eq_nil_of_le (by rw [length_content])

end RawCache
end Spp
