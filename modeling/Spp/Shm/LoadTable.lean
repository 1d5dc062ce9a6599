import Mathlib.Logic.Function.Basic
import Spp.Lib.Mem
import Spp.Lib.Word
import Spp.Shm.MQ

/-!
# The load table

`CLoadTable` keeps blocks one after another in shared memory, each behind a header with its key
and its length.  A process looks up a key once, by a scan from the first block on, and then
remembers where the block is.

A key is a string without a zero byte.  `Init_LoadItem` is not called with a null pointer, and
the guard locks nothing: a call is one step.

## Main definitions

* `BlockHeader` — the header, as bytes.
* `LoadTable` — the mapped segment; `findblock`, `initLoadItem`, `read`, `write` — the calls.
* `LoadTables` — the segment and what each process remembers; `LoadOp`, `LoadTables.step`.
-/

namespace Spp

/-! ## The header of a block -/

/-- `MAX_KEY_LEN`. -/
def maxKeyLen : ℕ := 32

/-- `sizeof(BlockHeader)`. -/
def blockHeadLen : ℕ := 40

/-- A string of C, without its zero. -/
abbrev Key := { key : List UInt8 // 0 ∉ key }

/-- A `BlockHeader`; `key` has the 32 bytes of `key_`. -/
structure BlockHeader where
  key : List UInt8
  timestamp : UInt32
  flag : UInt8
  len : UInt16

/-- `strncpy` into `n` bytes: a longer string is cut off, without a zero. -/
def strncpy (n : ℕ) (s : List UInt8) : List UInt8 :=
  s.take n ++ List.replicate (n - s.length) 0

namespace BlockHeader

/-- A zero byte stands before `len_`, which is aligned. -/
def bytes (h : BlockHeader) : List UInt8 :=
  h.key ++ (le 4 h.timestamp.toNat ++ (h.flag :: 0 :: le 2 h.len.toNat))

def parse (bs : List UInt8) : BlockHeader where
  key := bs.take maxKeyLen
  timestamp := .ofNat (ofLe ((bs.drop maxKeyLen).take 4))
  flag := (bs.drop (maxKeyLen + 4)).headD 0
  len := .ofNat (ofLe ((bs.drop (maxKeyLen + 6)).take 2))

/-- The string at `key_`, which ends with the first zero byte of the header. -/
def keyString (h : BlockHeader) : List UInt8 := h.bytes.takeWhile (· ≠ 0)

end BlockHeader

/-! ## The segment -/

/-- An `ItemInfo`. -/
structure ItemInfo where
  len : ℕ
  pos : ℕ
  deriving DecidableEq

/-- A mapped segment: `*tail_` and the bytes from `block_` on. -/
structure LoadTable where
  blocksize : ℕ
  tail : ℕ
  block : ℕ → UInt8

/-- The `items_` of a process. -/
abbrev Items := Key → Option ItemInfo

namespace LoadTable

/-- `init` on a segment that was just created. -/
def init (shmsize : ShmSize) (block : ℕ → UInt8) : LoadTable where
  blocksize := u32sub shmsize.1 8
  tail := 0
  block := Mem.write block 0 (List.replicate 4 0)

/-- The header at an offset. -/
def header (t : LoadTable) (pos : ℕ) : BlockHeader := .parse (Mem.read t.block pos blockHeadLen)

/-- The loop of `findblock`, which runs at most once for each byte. -/
def findLoop (t : LoadTable) (key : Key) : ℕ → ℕ → Option ItemInfo
  | 0, _ => none
  | fuel + 1, pos =>
      if pos < t.tail then
        let header := t.header pos
        if header.keyString = key.1 ∧ pos + blockHeadLen + header.len.toNat ≤ t.tail then
          some ⟨header.len.toNat, pos + blockHeadLen⟩
        else findLoop t key fuel (pos + (blockHeadLen + header.len.toNat))
      else none

/-- `findblock`; nothing is found in a table that is empty or full. -/
def findblock (t : LoadTable) (key : Key) : Option ItemInfo :=
  if t.tail = 0 ∨ t.tail ≥ t.blocksize then none else t.findLoop key t.tail 0

/-- `Init_LoadItem`. -/
def initLoadItem (t : LoadTable) (items : Items) (key : Key) (len : UInt16) :
    LoadTable × Items × ℤ :=
  match items key with
  | some info => (t, items, info.len)
  | none =>
      match (t.findblock key).filter fun info => info.pos > 0 ∧ info.len > 0 with
      | some info => (t, Function.update items key (some info), info.len)
      | none =>
          if u32 (t.tail + blockHeadLen + len.toNat) > t.blocksize then (t, items, 0)
          else
            let header := BlockHeader.mk (strncpy maxKeyLen key.1) 0 0 len
            let block := Mem.write t.block t.tail header.bytes
            let block := Mem.write block (t.tail + blockHeadLen) (List.replicate len.toNat 0)
            ({ t with tail := u32 (t.tail + blockHeadLen + len.toNat), block := block },
              Function.update items key (some ⟨len.toNat, t.tail + blockHeadLen⟩), len.toNat)

/-- What `read` returns, and what it copies to the buffer. -/
structure LoadRead where
  ret : ℤ
  copied : List UInt8
  deriving DecidableEq

/-- `read` at the time `nowtime`: the whole block is copied. -/
def read (t : LoadTable) (items : Items) (key : Key) (bufLen : UInt16) (nowtime : UInt32)
    (timeout : Int32) : LoadRead :=
  match items key with
  | none => ⟨-1, []⟩
  | some info =>
      if info.pos + info.len > t.tail then ⟨0, []⟩
      else
        let header := t.header (info.pos - blockHeadLen)
        if nowtime - header.timestamp > timeout.toUInt32 then ⟨0, []⟩
        else ⟨min info.len bufLen.toNat, Mem.read t.block info.pos info.len⟩

/-- `write` at the time `now`, of `len` bytes. -/
def write (t : LoadTable) (items : Items) (key : Key)
    (buf : { bs : List UInt8 // bs.length < 2 ^ 16 })
    (now : UInt32) : LoadTable × ℤ :=
  match items key with
  | none => (t, -1)
  | some info =>
      if info.pos + info.len > t.tail then (t, 0)
      else
        let header := { t.header (info.pos - blockHeadLen) with timestamp := now }
        let block := Mem.write t.block (info.pos - blockHeadLen) header.bytes
        let writelen := min info.len buf.1.length
        ({ t with block := Mem.write block info.pos (buf.1.take writelen) }, writelen)

end LoadTable

/-! ## The processes -/

/-- The segment, and what each process remembers. -/
structure LoadTables (ι : Type) where
  table : LoadTable
  items : ι → Items

/-- A call of a process. -/
inductive LoadOp (ι : Type)
  | initLoadItem (p : ι) (key : Key) (len : { len : UInt16 // len ≠ 0 })
  | read (p : ι) (key : Key) (bufLen : UInt16) (nowtime : UInt32) (timeout : Int32)
  | write (p : ι) (key : Key) (buf : { bs : List UInt8 // bs.length < 2 ^ 16 }) (now : UInt32)

/-- What a call returns; of `Init_LoadItem` also where the key is then. -/
inductive LoadOut
  | inited (ret : ℤ) (info : Option ItemInfo)
  | read (r : LoadTable.LoadRead)
  | wrote (ret : ℤ)
  deriving DecidableEq

namespace LoadTables

variable {ι : Type} [DecidableEq ι]

/-- No process has attached to the new segment before. -/
def init (shmsize : ShmSize) (block : ℕ → UInt8) : LoadTables ι :=
  ⟨.init shmsize block, fun _ _ => none⟩

def step (s : LoadTables ι) : LoadOp ι → LoadTables ι × LoadOut
  | .initLoadItem p key len =>
      let (table, items, ret) := s.table.initLoadItem (s.items p) key len.1
      (⟨table, Function.update s.items p items⟩, .inited ret (items key))
  | .read p key bufLen nowtime timeout =>
      (s, .read (s.table.read (s.items p) key bufLen nowtime timeout))
  | .write p key buf now =>
      let (table, ret) := s.table.write (s.items p) key buf now
      (⟨table, s.items⟩, .wrote ret)

end LoadTables

end Spp
