import Spp.Lib.StdMap
import Spp.Lib.Word
import Spp.Lib.Run

/-!
# The memory pool

`CMemPool` hands out blocks whose sizes are powers of two.  For each size it keeps the list of
free blocks and the set of all its blocks, the stub.  It takes new blocks from `new` many at a
time, and gives blocks back to `delete` when many are free or when its capacity is reached.

The heap is part of the state; it knows the blocks that `new` has given and `delete` has not
taken back.  Where `new` puts a block is up to the allocator; a `new` that throws is left out.
A function that stops at its assertion has no result.

## Main definitions

* `Heap`, `Allocator` — `new` and `delete`.
* `MemPool` — the pool, with the heap.
* `release`, `releaseSize`, `extend`, `allocate`, `recycle`, `destroy` — what it does.
* `PoolOp`, `poolStep` — the calls of its users, who hold blocks.
-/

namespace Spp

/-! ## The heap -/

/-- The size of each block at its address, and the history of the heap: the bytes that `new`
has given and `delete` has taken back, and how often `delete` was called for an address where
no block is. -/
structure Heap where
  blocks : StdMap ℕ ℕ
  newed : ℕ
  deleted : ℕ
  again : ℕ

/-- Where `new` puts a block. -/
structure Allocator where
  pick : Heap → ℕ → ℕ
  fresh : ∀ (heap : Heap) size, heap.blocks.find? (pick heap size) = none

/-- The allocator that goes up. -/
def Allocator.above : Allocator where
  pick heap _ := (heap.blocks.entries.map Prod.fst).foldr max 0 + 1
  fresh heap _ := by
    have hle : ∀ ps : List ℕ, ∀ p ∈ ps, p ≤ ps.foldr max 0 := by
      intro ps
      induction ps with
      | nil => simp
      | cons q ps ih => simpa using fun p hp => .inr (ih p hp)
    rw [StdMap.find?_eq_none_iff]
    intro hmem
    have hlast := hle _ _ hmem
    omega

namespace Heap

def init : Heap := ⟨.empty, 0, 0, 0⟩

def new (heap : Heap) (p size : ℕ) : Heap :=
  { heap with blocks := heap.blocks.insert p size, newed := heap.newed + size }

def delete (heap : Heap) (p : ℕ) : Heap :=
  match heap.blocks.find? p with
  | some size => { heap with blocks := heap.blocks.erase p, deleted := heap.deleted + size }
  | none => { heap with again := heap.again + 1 }

def deleteAll (heap : Heap) (ps : List ℕ) : Heap := ps.foldl delete heap

end Heap

/-! ## The pool -/

def cExtendSet : ℕ := 128

/-- 1M -/
def cSlot1 : ℕ := 2 ^ 20

/-- 64M -/
def cSlot2 : ℕ := 2 ^ 26

/-- 128M -/
def cAllocCapcity : ℕ := 2 * cSlot2

def cMaxPoolSize : ℕ := 2000 * 2 ^ 20

/-- 1G -/
def cMaxWaterMark : ℕ := 2 ^ 30

/-- A `CMemPool` with its heap.  `exact` is history: no sum, difference or product of 32 bits
in `extend`, `release` and `release_size` has left its range. -/
structure MemPool where
  free : StdMap ℕ (List ℕ)
  stub : StdMap ℕ (List ℕ)
  allocatedSize : ℕ
  waterMark : ℕ
  heap : Heap
  exact : Bool

namespace MemPool

def init : MemPool := ⟨.empty, .empty, 0, cMaxWaterMark, .init, true⟩

/-- The loop of `fit_block_size`, for a word of 32 bits. -/
def fitShift : ℕ → ℕ → ℕ → ℕ
  | 0, _, i => i
  | fuel + 1, size, i => if size = 0 then i else fitShift fuel (size / 2) (i + 1)

/-- The shift by 32 that a size from 2^31 on leads to is left open by C++; the machine takes
the count modulo 32. -/
def fitBlockSize (size : ℕ) : ℕ := 2 ^ (fitShift 32 (size / 2 ^ 10) 10 % 32)

def fitExtendSet (size : ℕ) : ℕ :=
  if size < cSlot1 then cExtendSet
  else if size < cSlot2 then cAllocCapcity / size
  else 1

/-- How many free blocks of a size are to be given back. -/
def releaseCount (blockSize freeCount stubCount waterMark : ℕ) : ℕ :=
  if u32 (freeCount * blockSize) < 2 ^ 20 then 0
  else if blockSize > cSlot2 then (if freeCount > 1 then freeCount / 2 else freeCount)
  else if freeCount ≥ stubCount / 2 ∨ u32 (freeCount * blockSize) ≥ waterMark then freeCount / 2
  else 0

/-- The history of the arithmetic: the exact value is in the range. -/
def note (s : MemPool) (inRange : Prop) [Decidable inRange] : MemPool :=
  { s with exact := s.exact && decide inRange }

/-- `release` for the list and the set of a size; the deleted blocks stay in the set. -/
def release (s : MemPool) (size : ℕ) (l set : List ℕ) : Option MemPool :=
  let todoCount := releaseCount size (u32 l.length) (u32 set.length) s.waterMark
  let s := s.note (l.length * size < 2 ^ 32)
  if todoCount = 0 then some s
  else
    let s := s.note (size * todoCount < 2 ^ 32)
    -- assert(_allocated_size >= size * todo_count)
    if s.allocatedSize < u32 (size * todoCount) then none
    else some { s with
      free := s.free.modify size fun l => l.drop todoCount
      allocatedSize := u32sub s.allocatedSize (u32 (size * todoCount))
      heap := s.heap.deleteAll (l.take todoCount) }

/-- `last_alloc_size - _allocated_size` -/
def released (s : MemPool) (last : ℕ) : ℕ := u32sub last s.allocatedSize

/-- The loop of `release_size`; `purge_size` is 2 to the first argument. -/
def purge (last memSize : ℕ) : ℕ → MemPool → Option MemPool
  | 0, s => some s
  | e + 1, s =>
      let s := s.note (s.allocatedSize ≤ last)
      if s.released last < memSize ∧ 2 ^ (e + 1) ≥ cSlot1 then
        match s.stub.find? (2 ^ e), s.free.find? (2 ^ e) with
        | some set, some l => (s.release (2 ^ e) l set).bind (purge last memSize e)
        | _, _ => purge last memSize e s
      else some s

/-- `release_size`, with its code. -/
def releaseSize (s : MemPool) (memSize : ℕ) : Option (MemPool × ℤ) :=
  let last := s.allocatedSize
  (purge last memSize 31 { s with waterMark := cAllocCapcity }).map fun s =>
    let s := { s with waterMark := cMaxWaterMark }
    if s.released last < memSize then (s, -1) else (s, 0)

variable (A : Allocator)

/-- The loop of `extend`. -/
def newBlocks (size : ℕ) : ℕ → MemPool → MemPool
  | 0, s => s
  | n + 1, s =>
      let p := A.pick s.heap size
      newBlocks size n { s with
        free := s.free.modify size fun l => p :: l
        stub := s.stub.modify size fun set => set.insert p
        heap := s.heap.new p size }

/-- `extend`, with its code. -/
def extend (s : MemPool) (size : ℕ) : Option (MemPool × ℤ) :=
  let extendSet := fitExtendSet size
  let bytes := u32 (size * extendSet)
  let s := s.note (size * extendSet < 2 ^ 32 ∧ s.allocatedSize + size * extendSet < 2 ^ 32)
  let sum := u32 (s.allocatedSize + bytes)
  let room := if sum ≥ cMaxPoolSize then s.releaseSize (u32sub sum cMaxPoolSize) else some (s, 0)
  room.map fun (s, code) =>
    if code ≠ 0 then (s, -1)
    else
      let s := newBlocks A size extendSet s
      let s := s.note (s.allocatedSize + size * extendSet < 2 ^ 32)
      ({ s with allocatedSize := u32 (s.allocatedSize + bytes) }, 0)

def extendNewSize (s : MemPool) (size : ℕ) : Option (MemPool × ℤ) :=
  extend A { s with free := s.free.insert size [], stub := s.stub.insert size [] } size

/-- The end of `allocate`: a block from the list of its size, which may have to be extended
first. -/
def takeBlock (s : MemPool) (blockSize : ℕ) : Option (MemPool × Option (ℕ × ℕ)) :=
  match s.free.find? blockSize with
  | none => some (s, none)
  | some (p :: l) =>
      some ({ s with free := s.free.modify blockSize fun _ => l }, some (p, blockSize))
  | some [] =>
      (extend A s blockSize).map fun (s, code) =>
        if code ≠ 0 then (s, none)
        else
          match s.free.find? blockSize with
          | some (p :: l) =>
              ({ s with free := s.free.modify blockSize fun _ => l }, some (p, blockSize))
          | _ => (s, none)

/-- `allocate`: the block with `result_size`, or nothing for `NULL`. -/
def allocate (s : MemPool) (size : ℕ) : Option (MemPool × Option (ℕ × ℕ)) :=
  let blockSize := fitBlockSize size
  if s.free.find? blockSize = none then
    (extendNewSize A s blockSize).bind fun (s, code) =>
      if code ≠ 0 then some (s, none) else takeBlock A s blockSize
  else takeBlock A s blockSize

/-- `recycle`, with its code. -/
def recycle (s : MemPool) (mem memSize : ℕ) : Option (MemPool × ℤ) :=
  match s.stub.find? memSize with
  | none => some (s, -1)
  | some set =>
      if mem ∉ set then some (s, -1)
      else
        match s.free.find? memSize with
        | none => some (s, -1)
        | some l =>
            let s := { s with free := s.free.modify memSize fun l => mem :: l }
            (s.release memSize (mem :: l) set).map fun s => (s, 0)

/-- The destructor deletes what is in the sets. -/
def destroy (s : MemPool) : Heap :=
  s.stub.entries.foldl (fun heap e => heap.deleteAll e.2) s.heap

end MemPool

/-! ## The users -/

/-- A call of a user. -/
inductive PoolOp
  | allocate (size : ℕ)
  | recycle (mem memSize : ℕ)

/-- What a call returns; `none` when an assertion has failed. -/
inductive PoolOut
  | block (result : Option (ℕ × ℕ))
  | code (ret : ℤ)
  | abort

/-- The pool, and the blocks that its users hold with the sizes they were given. -/
structure PoolUse where
  pool : MemPool
  held : List (ℕ × ℕ)

/-- One call.  After a failed assertion nothing changes any more. -/
def poolStep (A : Allocator) (s : PoolUse) : PoolOp → PoolUse × PoolOut
  | .allocate size =>
      match s.pool.allocate A size with
      | none => (s, .abort)
      | some (pool, none) => ({ s with pool := pool }, .block none)
      | some (pool, some b) => (⟨pool, b :: s.held⟩, .block (some b))
  | .recycle mem memSize =>
      match s.pool.recycle mem memSize with
      | none => (s, .abort)
      | some (pool, ret) => (⟨pool, s.held.erase (mem, memSize)⟩, .code ret)

end Spp
