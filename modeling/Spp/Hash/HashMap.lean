import Spp.Hash.ChunkAlloc
import Spp.Lib.Word

/-!
# The shared-memory hash map

`CHashMap` keeps its nodes in a pool: a used node is in the list of its key's bucket
and in the access list (the "add list"), a free one in the free list.  The value of a
node lies in a chain of chunks.  `CShmHashMap` calls these operations under a lock.

As in the allocator, a handler is an index with `none` for `INVALID_BC_MEM_HANDLER`,
the node fields are arrays over the index, and a function is in `Option` where the C
code can fail to return.  The access time, the access count and the flag of a node are
left out: no operation reads them.

## Main definitions

* `HashMap` — the pool.
* `findNode`, `insertNode`, `updateNode`, `replaceNode`, `deleteNode` — `CHashMap`.
* `setValue`, `find`, `findBuf`, `insert`, `delete` — `CShmHashMap`.
* `Op`, `Out`, `call` — one call, for runs.
-/

namespace Spp

open Links

/-- A `THashMap` with its nodes and its chunk allocator. -/
structure HashMap (K : Type) where
  nodeTotal : ℕ
  bucketSize : ℕ
  usedNodeNum : ℤ
  usedBucketNum : ℤ
  addHead : Option ℕ
  addTail : Option ℕ
  freeList : Option ℕ
  bucket : ℕ → Option ℕ
  key : ℕ → K
  chunkLen : ℕ → ℤ
  chunkHead : ℕ → Option ℕ
  nodePrev : ℕ → Option ℕ
  nodeNext : ℕ → Option ℕ
  addPrev : ℕ → Option ℕ
  addNext : ℕ → Option ℕ
  allocator : ChunkAllocator
deriving Inhabited

namespace HashMap

variable {K : Type}

/-! ## The free list -/

def freeListInsert (m : HashMap K) (i : ℕ) : HashMap K :=
  { m with nodeNext := Function.update m.nodeNext i m.freeList, freeList := some i }

/-- Take the node at the head of the free list; `none` is `NULL`. -/
def freeListRemove (m : HashMap K) : Option (ℕ × HashMap K) :=
  match m.freeList with
  | none => none
  | some i => some (i, { m with
      freeList := m.nodeNext i, nodeNext := Function.update m.nodeNext i none })

def initNode (m : HashMap K) (i : ℕ) : HashMap K :=
  { m with
    chunkLen := Function.update m.chunkLen i 0
    chunkHead := Function.update m.chunkHead i none
    nodeNext := Function.update m.nodeNext i none
    nodePrev := Function.update m.nodePrev i none
    addNext := Function.update m.addNext i none
    addPrev := Function.update m.addPrev i none }

/-- `init_pool_data`, on a pool with any content. -/
def initPoolData (pool : HashMap K) (nodeTotal bucketSize : ℕ) : HashMap K :=
  let m := { pool with
    nodeTotal := nodeTotal, bucketSize := bucketSize, usedNodeNum := 0, usedBucketNum := 0
    addHead := none, addTail := none, freeList := none
    bucket := (List.range bucketSize).foldl (fun f b => Function.update f b none) pool.bucket }
  (List.range nodeTotal).foldl (fun m i => (m.initNode i).freeListInsert i) m

/-- `open` with `init` set. -/
def openInit (pool : HashMap K) (nodeTotal bucketSize nChunks chunkSize : ℕ) : HashMap K :=
  let m := pool.initPoolData nodeTotal bucketSize
  { m with allocator := m.allocator.initPoolData nChunks chunkSize }

/-! ## The access list -/

def deleteFromAddList (m : HashMap K) (i : ℕ) : HashMap K :=
  if m.addNext i = none ∧ m.addPrev i = none ∧ m.addHead ≠ some i ∧ m.addTail ≠ some i then m
  else
    { m with
      addNext := Function.update (unlinkNext m.addNext m.addPrev i) i none
      addPrev := Function.update (unlinkPrev m.addNext m.addPrev i) i none
      addHead := if m.addHead = some i then m.addNext i else m.addHead
      addTail := if m.addTail = some i then m.addPrev i else m.addTail }

def insertAddListHead (m : HashMap K) (i : ℕ) : HashMap K :=
  let m := m.deleteFromAddList i
  { m with
    addNext := Function.update m.addNext i m.addHead
    addPrev := pushPrev m.addPrev m.addHead i
    addHead := some i
    addTail := if m.addTail = none then some i else m.addTail }

/-! ## The buckets -/

variable (hash : K → ℕ)

/-- `get_bucket_id`, which divides by the bucket count. -/
def getBucketId (m : HashMap K) (k : K) : Option ℕ :=
  if m.bucketSize = 0 then none else some (u32 (hash k) % m.bucketSize)

/-- The walk of `get_bucket_list_len`. -/
def bucketListLenLoop (m : HashMap K) : ℕ → Option ℕ → ℕ → Option ℕ
  | _, none, num => some num
  | 0, some _, _ => none
  | fuel + 1, some i, num => m.bucketListLenLoop fuel (m.nodeNext i) (num + 1)

def getBucketListLen (m : HashMap K) (bucketId : ℕ) : Option ℕ :=
  m.bucketListLenLoop m.nodeTotal (m.bucket bucketId) 0

def insertNodeList (m : HashMap K) (i : ℕ) : Option (HashMap K) := do
  let b ← m.getBucketId hash (m.key i)
  some { m with
    nodeNext := Function.update m.nodeNext i (m.bucket b)
    nodePrev := pushPrev m.nodePrev (m.bucket b) i
    bucket := Function.update m.bucket b (some i)
    usedNodeNum := m.usedNodeNum + 1 }

def deleteFromNodeList (m : HashMap K) (i : ℕ) : Option (HashMap K) := do
  let b ← m.getBucketId hash (m.key i)
  some { m with
    nodeNext := Function.update (unlinkNext m.nodeNext m.nodePrev i) i none
    nodePrev := Function.update (unlinkPrev m.nodeNext m.nodePrev i) i none
    bucket := if m.bucket b = some i then Function.update m.bucket b (m.nodeNext i) else m.bucket
    usedNodeNum := m.usedNodeNum - 1 }

def useNode (m : HashMap K) (i : ℕ) (k : K) (chunkLen : ℤ) (chunkHead : Option ℕ) :
    Option (HashMap K) := do
  let m := { m with
    key := Function.update m.key i k
    chunkLen := Function.update m.chunkLen i chunkLen
    chunkHead := Function.update m.chunkHead i chunkHead }
  let b ← m.getBucketId hash (m.key i)
  let bucketListLen ← m.getBucketListLen b
  -- the bucket changes from unused
  let m := if bucketListLen = 0 then { m with usedBucketNum := m.usedBucketNum + 1 } else m
  m.insertNodeList hash i

def freeNode (m : HashMap K) (i : ℕ) : Option (HashMap K) := do
  let m ← m.deleteFromNodeList hash i
  let a ← m.allocator.free (m.chunkHead i)
  let m := { m with allocator := a }
  let b ← m.getBucketId hash (m.key i)
  let bucketListLen ← m.getBucketListLen b
  -- the bucket changes to unused
  let m := if bucketListLen = 0 then { m with usedBucketNum := m.usedBucketNum - 1 } else m
  some (m.initNode i)

/-! ## The operations of `CHashMap` -/

/-- The walk of `find_node`; `some none` is the end of the list. -/
def findLoop [DecidableEq K] (m : HashMap K) (k : K) : ℕ → Option ℕ → Option (Option ℕ)
  | _, none => some none
  | 0, some _ => none
  | fuel + 1, some i => if m.key i = k then some (some i) else m.findLoop k fuel (m.nodeNext i)

/-- `find_node`: the node, moved to the head of the access list, or `NULL`. -/
def findNode [DecidableEq K] (m : HashMap K) (k : K) : Option (Option ℕ × HashMap K) := do
  let b ← m.getBucketId hash k
  match ← m.findLoop k m.nodeTotal (m.bucket b) with
  | none => some (none, m)
  | some i => some (some i, m.insertAddListHead i)

/-- `insert_node`: the new node, or `NULL`. -/
def insertNode (m : HashMap K) (k : K) (newData : ℕ → UInt8) (newLen : ℤ) :
    Option (Option ℕ × HashMap K) :=
  match m.freeListRemove with
  | none => some (none, m)
  | some (i, m) => do
      let newChunkNum ← m.allocator.getChunkNum newLen
      match ← m.allocator.malloc newChunkNum with
      | (none, a) => some (none, { m with allocator := a }.freeListInsert i)
      | (some head, a) =>
          let a ← a.split (some head) newData newLen
          let m ← { m with allocator := a }.useNode hash i k newLen (some head)
          some (some i, m.insertAddListHead i)

/-- The old value that `update_node` and `delete_node` hand out before they change
it: the code of `merge`, the caller's buffer and the caller's length. -/
def oldValue (m : HashMap K) (i : ℕ) (oldData : Option (ℕ → UInt8)) (oldLen : Option ℤ) :
    Option (ℤ × Option (ℕ → UInt8) × Option ℤ) :=
  match oldData, oldLen with
  | some buf, some len => do
      let (ret, buf, len) ← m.allocator.merge (m.chunkHead i) (m.chunkLen i) buf len
      some (ret, some buf, some len)
  | oldData, some _ => some (0, oldData, some (m.chunkLen i))
  | oldData, none => some (0, oldData, none)

/-- The part of `update_node` behind the old value: false is `NULL`. -/
def storeNode (m : HashMap K) (i : ℕ) (newData : ℕ → UInt8) (newLen : ℤ) :
    Option (Bool × HashMap K) := do
  let oldChunkNum ← m.allocator.getChunkNum (m.chunkLen i)
  let newChunkNum ← m.allocator.getChunkNum newLen
  if oldChunkNum ≠ newChunkNum then
    if newChunkNum > oldChunkNum ∧ m.allocator.freeTotal < newChunkNum - oldChunkNum then
      some (false, m)
    else
      -- the chunks are freed first, then new ones are taken
      let a ← m.allocator.free (m.chunkHead i)
      let (head, a) ← a.malloc newChunkNum
      let a ← a.split head newData newLen
      some (true, { m with
        allocator := a
        chunkLen := Function.update m.chunkLen i newLen
        chunkHead := Function.update m.chunkHead i head })
  else
    let a ← m.allocator.split (m.chunkHead i) newData newLen
    some (true, { m with allocator := a, chunkLen := Function.update m.chunkLen i newLen })

/-- `update_node`: false is `NULL`; the caller's buffer and length come back. -/
def updateNode (m : HashMap K) (i : ℕ) (newData : ℕ → UInt8) (newLen : ℤ)
    (oldData : Option (ℕ → UInt8)) (oldLen : Option ℤ) :
    Option (Bool × HashMap K × Option (ℕ → UInt8) × Option ℤ) := do
  let (ret, oldData, oldLen) ← m.oldValue i oldData oldLen
  if ret ≠ 0 then some (false, m, oldData, oldLen)
  else
    let (ok, m) ← m.storeNode i newData newLen
    some (ok, m, oldData, oldLen)

def replaceNode [DecidableEq K] (m : HashMap K) (k : K) (newData : ℕ → UInt8) (newLen : ℤ)
    (oldData : Option (ℕ → UInt8)) (oldLen : Option ℤ) :
    Option (Bool × HashMap K × Option (ℕ → UInt8) × Option ℤ) := do
  match ← m.findNode hash k with
  | (some i, m) => m.updateNode i newData newLen oldData oldLen
  | (none, m) =>
      let (node, m) ← m.insertNode hash k newData newLen
      some (node.isSome, m, oldData, oldLen)

/-- `delete_node`: the returned code; the caller's buffer and length come back. -/
def deleteNode (m : HashMap K) (i : ℕ) (data : Option (ℕ → UInt8)) (dataLen : Option ℤ) :
    Option (ℤ × HashMap K × Option (ℕ → UInt8) × Option ℤ) := do
  let (ret, data, dataLen) ← m.oldValue i data dataLen
  if ret ≠ 0 then some (-1, m, data, dataLen)
  else
    let m ← (m.deleteFromAddList i).freeNode hash i
    some (0, m.freeListInsert i, data, dataLen)

/-- `merge_node_data`: without a buffer and a length it returns -1. -/
def mergeNodeData (m : HashMap K) (i : ℕ) (data : Option (ℕ → UInt8)) (dataLen : Option ℤ) :
    Option (ℤ × Option (ℕ → UInt8) × Option ℤ) :=
  match data, dataLen with
  | some _, some _ => m.oldValue i data dataLen
  | _, _ => do
      let (_, data, dataLen) ← m.oldValue i data dataLen
      some (-1, data, dataLen)

/-! ## The operations of `CShmHashMap` -/

section
variable [DecidableEq K]

def find (m : HashMap K) (k : K) : Option (Bool × HashMap K) := do
  let (node, m) ← m.findNode hash k
  some (node.isSome, m)

/-- `Find` with a buffer: the code, the buffer and the length. -/
def findBuf (m : HashMap K) (k : K) (buf : Option (ℕ → UInt8)) (bufLen : Option ℤ) :
    Option (ℤ × Option (ℕ → UInt8) × Option ℤ × HashMap K) := do
  match ← m.findNode hash k with
  | (some i, m) =>
      let (ret, buf, bufLen) ← m.mergeNodeData i buf bufLen
      some (ret, buf, bufLen, m)
  | (none, m) => some (-1, buf, bufLen, m)

def insert (m : HashMap K) (k : K) (data : ℕ → UInt8) (dataLen : ℤ) :
    Option (ℤ × HashMap K) := do
  let (node, m) ← m.insertNode hash k data dataLen
  some (if node = none then -1 else 0, m)

def setValue (m : HashMap K) (k : K) (data : ℕ → UInt8) (dataLen : ℤ) :
    Option (ℤ × HashMap K) := do
  let (ok, m, _, _) ← m.replaceNode hash k data dataLen none none
  some (if ok = false then -1 else 0, m)

def delete (m : HashMap K) (k : K) : Option (ℤ × HashMap K) := do
  match ← m.findNode hash k with
  | (some i, m) =>
      let (ret, m, _, _) ← m.deleteNode hash i none none
      some (ret, m)
  | (none, m) => some (-1, m)

end

def getCount (m : HashMap K) : ℤ := m.usedNodeNum

/-! ## Calls -/

/-- A call on the map.  A visitor reaches the node it updates or erases from `begin`
with `next`, here `n` times. -/
inductive Op (K : Type)
  | insert (k : K) (data : ℕ → UInt8) (dataLen : ℤ)
  | setValue (k : K) (data : ℕ → UInt8) (dataLen : ℤ)
  | find (k : K)
  | findBuf (k : K) (buf : Option (ℕ → UInt8)) (bufLen : Option ℤ)
  | delete (k : K)
  | updateData (n : ℕ) (data : ℕ → UInt8) (dataLen : ℤ)
  | erase (n : ℕ)
  | getCount

/-- What a call returns. -/
inductive Out
  | ret (code : ℤ)
  | found (yes : Bool)
  | buf (code : ℤ) (buf : Option (ℕ → UInt8)) (bufLen : Option ℤ)
  | node (ok : Bool)

/-- `begin`, then `next` so many times. -/
def visit (m : HashMap K) : ℕ → Option ℕ
  | 0 => m.addHead
  | n + 1 => (m.visit n).bind m.addNext

/-- One call. -/
def call [DecidableEq K] (m : HashMap K) : Op K → Option (Out × HashMap K)
  | .insert k data dataLen => (m.insert hash k data dataLen).map fun r => (.ret r.1, r.2)
  | .setValue k data dataLen => (m.setValue hash k data dataLen).map fun r => (.ret r.1, r.2)
  | .find k => (m.find hash k).map fun r => (.found r.1, r.2)
  | .findBuf k buf bufLen =>
      (m.findBuf hash k buf bufLen).map fun r => (.buf r.1 r.2.1 r.2.2.1, r.2.2.2)
  | .delete k => (m.delete hash k).map fun r => (.ret r.1, r.2)
  | .updateData n data dataLen =>
      match m.visit n with
      | none => some (.node false, m)
      | some i => (m.updateNode i data dataLen none none).map fun r => (.node r.1, r.2.1)
  | .erase n =>
      match m.visit n with
      | none => some (.ret (-1), m)
      | some i => (m.deleteNode hash i none none).map fun r => (.ret r.1, r.2.1)
  | .getCount => some (.ret m.getCount, m)

end HashMap
end Spp
