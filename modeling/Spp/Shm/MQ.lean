import Spp.Lib.Word
import Spp.Lib.Cyclic

/-!
# The shared-memory message queue

`CShmMQ` keeps its messages in one block of shared memory, between the offsets
`*head_` and `*tail_`.  A message is a 27-byte head (time stamp, total length,
flow, message type, length of the extended data), the data and the extended data,
stored cyclically: at the end of the block either part may wrap.

`enqueue` and `dequeue_i` are modelled branch by branch.  The copies a branch makes
are a list of segments, in the order of the source's `memcpy` calls, so that the
same definitions serve the sequential queue and the interleaved one.

## Main definitions

* `Blob`, `Msg`, `Delivery` — what goes in and what comes out.
* `ShmMQ` — the mapped segment.
* `ShmMQ.enqueue`, `ShmMQ.dequeueI`, `ShmMQ.getstat` — the operations.
-/

namespace Spp

/-- `COMMU_ERR_MQFULL`. -/
def commuErrMqFull : ℤ := -121
/-- `COMMU_ERR_MQEMPTY`. -/
def commuErrMqEmpty : ℤ := -122
/-- `COMMU_ERR_OTFBUFF`. -/
def commuErrOtfBuff : ℤ := -123

/-- `MAX_BLOB_DATA_LEN`, the largest payload a receiver's buffer takes. -/
def maxBlobDataLen : ℕ := 2 ^ 24

/-- `C_TM_PRIVATE_SIZE`: the size of a `struct timeval`. -/
def cTmPrivateSize : ℕ := 16
/-- `C_PUB_HEAD_SIZE`: total length and flow. -/
def cPubHeadSize : ℕ := 8
/-- `C_TYPE_HEAD_SIZE`: message type and length of the extended data. -/
def cTypeHeadSize : ℕ := 3
/-- `C_HEAD_SIZE`. -/
def cHeadSize : ℕ := cPubHeadSize + cTmPrivateSize + cTypeHeadSize

/-- A `struct timeval`, as the two words its bytes are copied from. -/
structure Timeval where
  sec : UInt64
  usec : UInt64
  deriving DecidableEq, Repr

/-- The bytes of a `struct timeval`. -/
def Timeval.bytes (t : Timeval) : List UInt8 := le 8 t.sec.toNat ++ le 8 t.usec.toNat

/-- The `struct timeval` that 16 bytes are read as. -/
def Timeval.ofBytes (bs : List UInt8) : Timeval :=
  ⟨UInt64.ofNat (ofLe (bs.take 8)), UInt64.ofNat (ofLe ((bs.drop 8).take 8))⟩

/-- The part of a `blob_type` that is sent: `len` bytes of `data` and `ext_len`
bytes of `extdata`, where `len` is an `int` and `ext_len` an `unsigned short`. -/
structure Blob where
  data : List UInt8
  extdata : List UInt8
  data_lt : data.length < 2 ^ 31
  extdata_lt : extdata.length < 2 ^ 16

namespace Blob

theorem nil_lt : ([] : List UInt8).length < 2 ^ 16 := by decide

def len (b : Blob) : ℕ := b.data.length
def extLen (b : Blob) : ℕ := b.extdata.length

/-- Head, data and extended data, as an `unsigned`. -/
def totalLen (b : Blob) : ℕ := u32 (cHeadSize + b.len + b.extLen)

theorem totalLen_eq (b : Blob) : b.totalLen = cHeadSize + b.len + b.extLen := by
  have hdata := b.data_lt
  have hext := b.extdata_lt
  refine u32_of_lt ?_
  simp only [cHeadSize, cPubHeadSize, cTmPrivateSize, cTypeHeadSize, len, extLen]
  omega

end Blob

/-- One call of `enqueue`: its arguments, and the clock it reads. -/
structure Msg where
  blob : Blob
  flow : UInt32
  msgtype : UInt8
  tval : Timeval

/-- What a successful `dequeue_i` hands to its caller. -/
structure Delivery where
  data : List UInt8
  extdata : List UInt8
  flow : UInt32
  msgtype : UInt8
  timeStamp : Timeval
  deriving DecidableEq, Repr

/-- The head fields that `dequeue_i` takes out of the block. -/
structure Head where
  timeStamp : Timeval
  totalLen : ℕ
  flow : UInt32
  msgtype : UInt8
  extLen : ℕ
  deriving DecidableEq, Repr

/-- `sHead` as `dequeue_i` reads it. -/
def Head.parse (sHead : List UInt8) : Head where
  timeStamp := Timeval.ofBytes (sHead.take cTmPrivateSize)
  totalLen := ofLe ((sHead.drop cTmPrivateSize).take 4)
  flow := UInt32.ofNat (ofLe ((sHead.drop (cTmPrivateSize + 4)).take 4))
  msgtype := (sHead.drop (cTmPrivateSize + cPubHeadSize)).headD 0
  extLen := ofLe ((sHead.drop (cTmPrivateSize + cPubHeadSize + 1)).take 2)

namespace Msg

/-- `sHead` as `enqueue` fills it. -/
def sHead (m : Msg) : List UInt8 :=
  m.tval.bytes ++ (le 4 m.blob.totalLen ++ (le 4 m.flow.toNat ++
    (m.msgtype :: le 2 m.blob.extLen)))

/-- The bytes a message takes in the block. -/
def bytes (m : Msg) : List UInt8 := m.sHead ++ (m.blob.data ++ m.blob.extdata)

/-- What the receiver must get for the message. -/
def delivery (m : Msg) : Delivery :=
  ⟨m.blob.data, m.blob.extdata, m.flow, m.msgtype, m.tval⟩

/-- The total length of a message. -/
def size (m : Msg) : ℕ := m.blob.totalLen

/-- A message with no data and no extended data. -/
def HeaderOnly (m : Msg) : Prop := m.blob.len = 0 ∧ m.blob.extLen = 0

instance (m : Msg) : Decidable m.HeaderOnly := inferInstanceAs (Decidable (_ ∧ _))

end Msg

/-- A mapped queue segment.  `blocksize_` comes from an `int` segment size. -/
structure ShmMQ where
  blocksize : ℕ
  blocksize_lt : blocksize < 2 ^ 31
  head : ℕ
  tail : ℕ
  block : ℕ → UInt8

/-- A segment size that has room for the two offsets. -/
abbrev ShmSize := { n : ℕ // 8 ≤ n ∧ n < 2 ^ 31 }

/-- The copies of one branch of `enqueue`, and the tail it publishes. -/
structure WritePlan where
  writes : List (ℕ × List UInt8)
  newTail : ℕ

/-- The copies out of the block of one branch of `dequeue_i`, and the head it
publishes. -/
structure ReadPlan where
  dataReads : List (ℕ × ℕ)
  extReads : List (ℕ × ℕ)
  newHead : ℕ

/-- The ways a `dequeue_i` call ends. -/
inductive Dequeued
  /-- `COMMU_ERR_MQEMPTY`. -/
  | empty
  /-- The assertion on the lengths fails. -/
  | aborted
  /-- `COMMU_ERR_OTFBUFF`: the data does not fit the receiver's buffer. -/
  | otfbuff (h : Head)
  /-- A message, returned with 0. -/
  | ok (d : Delivery)
  deriving DecidableEq

namespace ShmMQ

/-- `init` on a segment that was just created: both offsets are zeroed, the block
is what the system hands out. -/
def init (shmsize : ShmSize) (block : ℕ → UInt8) : ShmMQ where
  blocksize := u32sub shmsize.1 8
  blocksize_lt := by
    have h := shmsize.2
    rw [u32sub_of_le h.1 (by omega)]
    omega
  head := 0
  tail := 0
  block := block

/-- The free length, from a snapshot of the two offsets. -/
def freeLen (B head tail : ℕ) : ℕ :=
  if head > tail then u32sub head tail else u32sub (u32 (head + B)) tail

/-- The used length in `dequeue_i`, where the offsets differ. -/
def usedLen (B head tail : ℕ) : ℕ :=
  if tail > head then u32sub tail head else u32sub (u32 (tail + B)) head

/-- `getstat`: used, free and total length. -/
structure Stat where
  usedlen : ℕ
  freelen : ℕ
  totallen : ℕ
  deriving DecidableEq, Repr

def getstat (q : ShmMQ) : Stat where
  usedlen :=
    if q.tail ≥ q.head then u32sub q.tail q.head
    else u32sub (u32 (q.tail + q.blocksize)) q.head
  freelen := freeLen q.blocksize q.head q.tail
  totallen := q.blocksize

/-- The four write branches of `enqueue`. -/
def writePlan (B tail : ℕ) (m : Msg) : WritePlan :=
  let b := m.blob
  let tailLen := u32sub B tail
  if tailLen ≥ b.totalLen then
    { writes := [(tail, m.sHead), (tail + cHeadSize, b.data),
        (tail + cHeadSize + b.len, b.extdata)]
      newTail := u32 (tail + b.totalLen) }
  else if tailLen ≥ cHeadSize + b.len ∧ tailLen < b.totalLen then
    let firstLen := u32sub (u32sub tailLen cHeadSize) b.len
    let secondLen := u32sub b.extLen firstLen
    { writes := [(tail, m.sHead), (tail + cHeadSize, b.data),
        (tail + cHeadSize + b.len, b.extdata.take firstLen),
        (0, (b.extdata.drop firstLen).take secondLen)]
      newTail := u32sub (u32 (tail + b.totalLen)) B }
  else if tailLen ≥ cHeadSize ∧ tailLen < cHeadSize + b.len then
    let firstLen := u32sub tailLen cHeadSize
    let secondLen := u32sub b.len firstLen
    { writes := [(tail, m.sHead), (tail + cHeadSize, b.data.take firstLen),
        (0, (b.data.drop firstLen).take secondLen), (secondLen, b.extdata)]
      newTail := u32sub (u32 (tail + b.totalLen)) B }
  else
    let secondLen := u32sub cHeadSize tailLen
    { writes := [(tail, m.sHead.take tailLen), (0, (m.sHead.drop tailLen).take secondLen),
        (secondLen, b.data), (secondLen + b.len, b.extdata)]
      newTail := u32 (secondLen + b.len + b.extLen) }

/-- `enqueue`: the new segment and the returned code. -/
def enqueue (q : ShmMQ) (m : Msg) : ShmMQ × ℤ :=
  if freeLen q.blocksize q.head q.tail ≤ m.blob.totalLen then (q, commuErrMqFull)
  else
    let plan := writePlan q.blocksize q.tail m
    ({ q with block := Cyclic.scatter q.block plan.writes, tail := plan.newTail }, 0)

/-- The copies of the head, and the offset at which the data starts. -/
def headReads (B head : ℕ) : List (ℕ × ℕ) × ℕ :=
  if head + cHeadSize > B then
    let firstSize := u32sub B head
    let secondSize := u32sub cHeadSize firstSize
    ([(head, firstSize), (0, secondSize)], secondSize)
  else
    -- at the end of the block the data starts at its beginning
    let dataPos := u32 (head + cHeadSize)
    ([(head, cHeadSize)], if dataPos = B then 0 else dataPos)

/-- `blob->len`, computed in `size_t` and kept in an `int`. -/
def blobLen (h : Head) : ℤ := s32 (h.totalLen - cHeadSize - h.extLen)

/-- The assertion on the lengths. -/
def lengthsOk (usedLen : ℕ) (h : Head) : Prop :=
  h.totalLen ≤ usedLen ∧ blobLen h ≤ s32 (h.totalLen - cHeadSize) ∧ blobLen h ≥ 0

instance (usedLen : ℕ) (h : Head) : Decidable (lengthsOk usedLen h) :=
  inferInstanceAs (Decidable (_ ∧ _ ∧ _))

/-- The three read branches of `dequeue_i`. -/
def readPlan (B dataPos len extLen dataLen : ℕ) : ReadPlan :=
  if u32 (dataPos + len) > B then
    let firstSize := u32sub B dataPos
    let secondSize := u32sub len firstSize
    { dataReads := [(dataPos, firstSize), (0, secondSize)]
      extReads := [(secondSize, extLen)]
      newHead := u32 (secondSize + extLen) }
  else if B ≥ u32 (dataPos + len) ∧ B < u32 (dataPos + dataLen) then
    let firstSize := u32sub (u32sub B dataPos) len
    let secondSize := u32sub extLen firstSize
    { dataReads := [(dataPos, len)]
      extReads := [(dataPos + len, firstSize), (0, secondSize)]
      newHead := secondSize }
  else
    { dataReads := [(dataPos, len)]
      extReads := [(dataPos + len, extLen)]
      newHead := u32 (dataPos + dataLen) }

/-- The read branches taken for a parsed head. -/
def bodyPlan (B dataPos : ℕ) (h : Head) : ReadPlan :=
  readPlan B dataPos (blobLen h).toNat h.extLen (u32sub h.totalLen cHeadSize)

/-- What the caller gets for a parsed head and the bytes read after it. -/
def deliver (h : Head) (data extdata : List UInt8) : Delivery :=
  ⟨data, extdata, h.flow, h.msgtype, h.timeStamp⟩

/-- `dequeue_i`: the new segment and how the call ends. -/
def dequeueI (q : ShmMQ) : ShmMQ × Dequeued :=
  if q.head = q.tail then (q, .empty)
  else
    let used := usedLen q.blocksize q.head q.tail
    let (reads, dataPos) := headReads q.blocksize q.head
    let h := Head.parse (Cyclic.gather q.block reads)
    if ¬ lengthsOk used h then (q, .aborted)
    else if blobLen h > maxBlobDataLen then (q, .otfbuff h)
    else
      let plan := bodyPlan q.blocksize dataPos h
      ({ q with head := plan.newHead },
        .ok (deliver h (Cyclic.gather q.block plan.dataReads)
          (Cyclic.gather q.block plan.extReads)))

end ShmMQ

open Cyclic

/-! ## The head of a message -/

@[simp] theorem Timeval.length_bytes (t : Timeval) : t.bytes.length = 16 := by
  simp [Timeval.bytes]

theorem Timeval.ofBytes_bytes (t : Timeval) : Timeval.ofBytes t.bytes = t := by
  have hsec : t.sec.toNat < 256 ^ 8 := t.sec.toNat_lt
  have husec : t.usec.toNat < 256 ^ 8 := t.usec.toNat_lt
  have htake : t.bytes.take 8 = le 8 t.sec.toNat := List.take_left' (length_le 8 _)
  have hdrop : t.bytes.drop 8 = le 8 t.usec.toNat := List.drop_left' (length_le 8 _)
  have hfull : (le 8 t.usec.toNat).take 8 = le 8 t.usec.toNat :=
    List.take_of_length_le (length_le 8 _).le
  unfold Timeval.ofBytes
  rw [htake, hdrop, hfull, ofLe_le_of_lt hsec, ofLe_le_of_lt husec]
  simp

namespace Msg
variable (m : Msg)

theorem length_sHead : m.sHead.length = cHeadSize := by
  simp [sHead, cHeadSize, cPubHeadSize, cTmPrivateSize, cTypeHeadSize]

theorem size_eq : m.size = cHeadSize + m.blob.data.length + m.blob.extdata.length :=
  m.blob.totalLen_eq

theorem length_bytes : m.bytes.length = m.size := by
  rw [bytes, List.length_append, List.length_append, m.length_sHead, m.size_eq]
  omega

theorem size_lt : m.size < 2 ^ 32 := u32_lt _

/-- The head is read back as it was written. -/
theorem parse_sHead : Head.parse m.sHead =
    ⟨m.tval, m.size, m.flow, m.msgtype, m.blob.extLen⟩ := by
  have h0 : m.sHead.take 16 = m.tval.bytes := List.take_left' m.tval.length_bytes
  have h1 : m.sHead.drop 16 = le 4 m.blob.totalLen ++ (le 4 m.flow.toNat ++
      (m.msgtype :: le 2 m.blob.extLen)) := List.drop_left' m.tval.length_bytes
  have h2 : m.sHead.drop 20 = le 4 m.flow.toNat ++ (m.msgtype :: le 2 m.blob.extLen) := by
    rw [show 20 = 16 + 4 from rfl, ← List.drop_drop, h1]
    exact List.drop_left' (length_le 4 _)
  have h3 : m.sHead.drop 24 = m.msgtype :: le 2 m.blob.extLen := by
    rw [show 24 = 20 + 4 from rfl, ← List.drop_drop, h2]
    exact List.drop_left' (length_le 4 _)
  have h4 : m.sHead.drop 25 = le 2 m.blob.extLen := by
    rw [show 25 = 24 + 1 from rfl, ← List.drop_drop, h3]
    rfl
  have htotal : m.blob.totalLen < 256 ^ 4 := m.size_lt
  have hflow : m.flow.toNat < 256 ^ 4 := m.flow.toNat_lt
  have hext : m.blob.extLen < 256 ^ 2 := m.blob.extdata_lt
  unfold Head.parse
  simp only [cTmPrivateSize, cPubHeadSize, Nat.reduceAdd, h0, h1, h2, h3, h4, List.headD_cons]
  rw [List.take_left' (length_le 4 _), List.take_left' (length_le 4 _),
    List.take_of_length_le (length_le 2 _).le, ofLe_le_of_lt htotal, ofLe_le_of_lt hflow,
    ofLe_le_of_lt hext, Timeval.ofBytes_bytes, UInt32.ofNat_toNat]
  rfl
end Msg

namespace ShmMQ

/-! ## The two offsets -/

/-- The tail lies `n` cells behind the head, with at most one wrap. -/
def Apart (B head tail n : ℕ) : Prop :=
  head ≤ B ∧ tail ≤ B ∧
    (tail = head + n ∨ tail + B = head + n ∧ tail < head ∧ 0 < tail)

section offsets
variable {B head tail n : ℕ}

/-- The free length is what the stored bytes leave of the block. -/
theorem Apart.freeLen (h : Apart B head tail n) (hB : B < 2 ^ 31) :
    freeLen B head tail = B - n := by
  obtain ⟨hhead, htail, hoff⟩ := h
  unfold ShmMQ.freeLen
  rcases hoff with hoff | ⟨hoff, hlt, -⟩
  · rw [if_neg (by omega), u32_of_lt (n := head + B) (by omega), u32sub_of_le (by omega) (by omega)]
    omega
  · rw [if_pos (by omega), u32sub_of_le (by omega) (by omega)]
    omega

/-- The used length is the number of stored bytes. -/
theorem Apart.usedLen (h : Apart B head tail n) (hB : B < 2 ^ 31) (hne : head ≠ tail) :
    usedLen B head tail = n := by
  obtain ⟨hhead, htail, hoff⟩ := h
  unfold ShmMQ.usedLen
  rcases hoff with hoff | ⟨hoff, hlt, -⟩
  · rw [if_pos (by omega), u32sub_of_le (by omega) (by omega)]
    omega
  · rw [if_neg (by omega), u32_of_lt (n := tail + B) (by omega), u32sub_of_le (by omega) (by omega)]
    omega

/-- `getstat` computes the used length as `dequeue_i` does, and zero for equal offsets. -/
theorem Apart.usedlen {q : ShmMQ} (h : Apart q.blocksize q.head q.tail n) :
    q.getstat.usedlen = n := by
  have hB := q.blocksize_lt
  by_cases heq : q.head = q.tail
  · obtain ⟨hhead, htail, hoff⟩ := h
    unfold getstat
    simp only
    rw [if_pos heq.le, u32sub_of_le heq.le (by omega)]
    omega
  · rw [← h.usedLen hB heq]
    unfold getstat ShmMQ.usedLen
    simp only
    split_ifs <;> first | rfl | omega

/-- Stream positions less than a block apart have offsets that far apart. -/
theorem apart_pos {R W : ℕ} (hle : R ≤ W) (hroom : W = R ∨ W - R < B)
    (hstart : W = 0 ∨ 0 < B) : Apart B (pos B R) (pos B W) (W - R) := by
  have hpos : ∀ k, k ≤ W → pos B k ≤ B := by
    intro k hk
    rcases hstart with h0 | h0
    · rw [show k = 0 by omega, pos_zero]
      omega
    · exact pos_le h0 k
  have hR := hpos R hle
  refine ⟨hR, hpos W le_rfl, ?_⟩
  rcases Nat.eq_or_lt_of_le hle with heq | hlt
  · left
    rw [heq]
    omega
  · have hadd := pos_add (B := B) (n := W - R) R (by omega) (by omega)
    rw [Nat.add_sub_cancel' hle, advance] at hadd
    rw [hadd]
    split_ifs <;> omega

end offsets

/-! ## The copies of each branch -/

variable {B k p : ℕ}

/-- What each write branch of `enqueue` does: its copies lie on the cells behind the
tail, carry the message, and the published tail is the offset after them. -/
theorem writePlan_spec (m : Msg) (hB : B < 2 ^ 31) (hp : p ≤ B) (hmod : p % B = k % B)
    (hfit : m.size ≤ B) :
    Covers B k (spans (writePlan B p m).writes) ∧
      payload (writePlan B p m).writes = m.bytes ∧
      (writePlan B p m).newTail = advance B p m.size := by
  have hsize : m.blob.totalLen = 27 + m.blob.len + m.blob.extLen := m.blob.totalLen_eq
  have hdata : m.blob.data.length = m.blob.len := rfl
  have hext : m.blob.extdata.length = m.blob.extLen := rfl
  have hhead : m.sHead.length = 27 := m.length_sHead
  have htail : u32sub B p = B - p := u32sub_of_le hp (by omega)
  have hC : cHeadSize = 27 := rfl
  change m.blob.totalLen ≤ B at hfit
  unfold writePlan
  simp only [htail, hC, Msg.size]
  by_cases h1 : B - p ≥ m.blob.totalLen
  · -- everything lies before the end of the block
    have hnew : u32 (p + m.blob.totalLen) = p + m.blob.totalLen := u32_of_lt (by omega)
    rw [if_pos h1]
    refine ⟨?_, by simp [Msg.bytes], ?_⟩
    · simp only [spans_cons, spans_nil, covers_cons, hhead, hdata, hext]
      exact ⟨segment_eq (d := 0) hmod (by omega) (by omega) (by omega),
        segment_eq (d := 27) hmod (by omega) (by omega) (by omega),
        segment_eq (d := 27 + m.blob.len) hmod (by omega) (by omega) (by omega), trivial⟩
    · rw [advance, if_pos (by omega)]
      exact hnew
  have hadv : advance B p m.blob.totalLen = p + m.blob.totalLen - B := if_neg (by omega)
  have hnew : u32sub (u32 (p + m.blob.totalLen)) B = p + m.blob.totalLen - B := by
    rw [u32_of_lt (n := p + m.blob.totalLen) (by omega), u32sub_of_le (by omega) (by omega)]
  rw [if_neg h1, hadv]
  by_cases h2 : B - p ≥ 27 + m.blob.len ∧ B - p < m.blob.totalLen
  · -- the extended data wraps
    have hfirst : u32sub (u32sub (B - p) 27) m.blob.len = B - p - 27 - m.blob.len := by
      rw [u32sub_of_le (a := B - p) (by omega) (by omega), u32sub_of_le (by omega) (by omega)]
    have hsecond : u32sub m.blob.extLen (B - p - 27 - m.blob.len) =
        m.blob.extLen - (B - p - 27 - m.blob.len) := u32sub_of_le (by omega) (by omega)
    rw [if_pos h2, hfirst, hsecond]
    refine ⟨?_, ?_, hnew⟩
    · simp only [spans_cons, spans_nil, covers_cons, hhead, hdata, hext, List.length_take,
        List.length_drop]
      exact ⟨segment_eq (d := 0) hmod (by omega) (by omega) (by omega),
        segment_eq (d := 27) hmod (by omega) (by omega) (by omega),
        segment_eq (d := 27 + m.blob.len) hmod (by omega) (by omega) (by omega),
        segment_eq (d := B - p) hmod (by omega) (by omega) (by omega), trivial⟩
    · have hrest : (m.blob.extdata.drop (B - p - 27 - m.blob.len)).take
          (m.blob.extLen - (B - p - 27 - m.blob.len)) =
          m.blob.extdata.drop (B - p - 27 - m.blob.len) :=
        List.take_of_length_le (by rw [List.length_drop]; omega)
      simp [Msg.bytes, hrest]
  rw [if_neg h2]
  by_cases h3 : B - p ≥ 27 ∧ B - p < 27 + m.blob.len
  · -- the data wraps
    have hfirst : u32sub (B - p) 27 = B - p - 27 := u32sub_of_le (by omega) (by omega)
    have hsecond : u32sub m.blob.len (B - p - 27) = m.blob.len - (B - p - 27) :=
      u32sub_of_le (by omega) (by omega)
    rw [if_pos h3, hfirst, hsecond]
    refine ⟨?_, ?_, hnew⟩
    · simp only [spans_cons, spans_nil, covers_cons, hhead, hdata, hext, List.length_take,
        List.length_drop]
      exact ⟨segment_eq (d := 0) hmod (by omega) (by omega) (by omega),
        segment_eq (d := 27) hmod (by omega) (by omega) (by omega),
        segment_eq (d := B - p) hmod (by omega) (by omega) (by omega),
        segment_eq (d := 27 + m.blob.len) hmod (by omega) (by omega) (by omega), trivial⟩
    · have hrest : (m.blob.data.drop (B - p - 27)).take (m.blob.len - (B - p - 27)) =
          m.blob.data.drop (B - p - 27) :=
        List.take_of_length_le (by rw [List.length_drop]; omega)
      simp only [payload_cons, payload_nil, hrest, List.append_nil, Msg.bytes]
      rw [← List.append_assoc (m.blob.data.take _), List.take_append_drop]
  · -- the head itself wraps
    have hsecond : u32sub 27 (B - p) = 27 - (B - p) := u32sub_of_le (by omega) (by omega)
    have hlast : u32 (27 - (B - p) + m.blob.len + m.blob.extLen) =
        27 - (B - p) + m.blob.len + m.blob.extLen := u32_of_lt (by omega)
    rw [if_neg h3, hsecond]
    refine ⟨?_, ?_, ?_⟩
    · simp only [spans_cons, spans_nil, covers_cons, hhead, hdata, hext, List.length_take,
        List.length_drop]
      exact ⟨segment_eq (d := 0) hmod (by omega) (by omega) (by omega),
        segment_eq (d := B - p) hmod (by omega) (by omega) (by omega),
        segment_eq (d := 27) hmod (by omega) (by omega) (by omega),
        segment_eq (d := 27 + m.blob.len) hmod (by omega) (by omega) (by omega), trivial⟩
    · have hrest : (m.sHead.drop (B - p)).take (27 - (B - p)) = m.sHead.drop (B - p) :=
        List.take_of_length_le (by rw [List.length_drop]; omega)
      simp only [payload_cons, payload_nil, hrest, List.append_nil, Msg.bytes]
      rw [← List.append_assoc (m.sHead.take _), List.take_append_drop]
    · change u32 (27 - (B - p) + m.blob.len + m.blob.extLen) = _
      omega


/-- The copies of the head lie on the first cells of the message, and the data starts
behind it, at the beginning of the block when the head ends with the block. -/
theorem headReads_spec (hB : B < 2 ^ 31) (hp : p ≤ B) (hmod : p % B = k % B)
    (hfit : cHeadSize ≤ B) :
    Covers B k (headReads B p).1 ∧ total (headReads B p).1 = cHeadSize ∧
      (headReads B p).2 = if p + cHeadSize < B then p + cHeadSize else p + cHeadSize - B := by
  have hC : cHeadSize = 27 := rfl
  unfold headReads
  rw [hC] at hfit ⊢
  by_cases h1 : p + 27 > B
  · have hfirst : u32sub B p = B - p := u32sub_of_le hp (by omega)
    have hsecond : u32sub 27 (B - p) = 27 - (B - p) := u32sub_of_le (by omega) (by omega)
    rw [if_pos h1, if_neg (by omega)]
    simp only [hfirst, hsecond]
    refine ⟨⟨segment_eq (d := 0) hmod (by omega) (by omega) (by omega),
      segment_eq (d := B - p) hmod (by omega) (by omega) (by omega), trivial⟩, ?_, ?_⟩
    · simp only [total_cons, total_nil]
      omega
    · omega
  · have hpos : u32 (p + 27) = p + 27 := u32_of_lt (by omega)
    rw [if_neg h1, hpos]
    refine ⟨⟨segment_eq (d := 0) hmod (by omega) (by omega) (by omega), trivial⟩, rfl, ?_⟩
    change (if p + 27 = B then 0 else p + 27) = _
    split_ifs <;> omega

/-- What each read branch of `dequeue_i` does: its copies lie on the cells of the data
and the extended data, and the published head is the offset after them. -/
theorem readPlan_spec (len ext : ℕ) (hB : B < 2 ^ 31) (hp : p ≤ B) (hmod : p % B = k % B)
    (hfit : len + ext ≤ B) :
    Covers B k (readPlan B p len ext (len + ext)).dataReads ∧
      total (readPlan B p len ext (len + ext)).dataReads = len ∧
      Covers B (k + len) (readPlan B p len ext (len + ext)).extReads ∧
      total (readPlan B p len ext (len + ext)).extReads = ext ∧
      (readPlan B p len ext (len + ext)).newHead = advance B p (len + ext) := by
  have hlen : u32 (p + len) = p + len := u32_of_lt (by omega)
  have hall : u32 (p + (len + ext)) = p + (len + ext) := u32_of_lt (by omega)
  have hfirst : u32sub B p = B - p := u32sub_of_le hp (by omega)
  unfold readPlan
  rw [hlen, hall, hfirst]
  by_cases h1 : p + len > B
  · -- the data wraps
    have hsecond : u32sub len (B - p) = len - (B - p) := u32sub_of_le (by omega) (by omega)
    have hnew : u32 (len - (B - p) + ext) = len - (B - p) + ext := u32_of_lt (by omega)
    rw [if_pos h1, advance, if_neg (by omega)]
    simp only [hsecond, hnew]
    refine ⟨⟨segment_eq (d := 0) hmod (by omega) (by omega) (by omega),
      segment_eq (d := B - p) hmod (by omega) (by omega) (by omega), trivial⟩, ?_,
      ⟨segment_eq (d := len) hmod (by omega) (by omega) (by omega), trivial⟩, rfl, ?_⟩
    · simp only [total_cons, total_nil]
      omega
    · omega
  rw [if_neg h1]
  by_cases h2 : B ≥ p + len ∧ B < p + (len + ext)
  · -- the extended data wraps
    have hfirst' : u32sub (B - p) len = B - p - len := u32sub_of_le (by omega) (by omega)
    have hsecond : u32sub ext (B - p - len) = ext - (B - p - len) :=
      u32sub_of_le (by omega) (by omega)
    rw [if_pos h2, advance, if_neg (by omega)]
    simp only [hfirst', hsecond]
    refine ⟨⟨segment_eq (d := 0) hmod (by omega) (by omega) (by omega), trivial⟩, rfl,
      ⟨segment_eq (d := len) hmod (by omega) (by omega) (by omega),
        segment_eq (d := B - p) hmod (by omega) (by omega) (by omega), trivial⟩, ?_, ?_⟩
    · simp only [total_cons, total_nil]
      omega
    · omega
  · rw [if_neg h2, advance, if_pos (by omega)]
    exact ⟨⟨segment_eq (d := 0) hmod (by omega) (by omega) (by omega), trivial⟩, rfl,
      ⟨segment_eq (d := len) hmod (by omega) (by omega) (by omega), trivial⟩, rfl, rfl⟩


/-! ## A message on the block -/

/-- The offset `dequeue_i` publishes after a message of `n` bytes at the offset `p`.  A
message that is a head only and ends with the block is the exception: its data
would start at offset zero, and that is where the head moves. -/
def nextHead (B p n : ℕ) : ℕ :=
  if p + cHeadSize = B ∧ n = cHeadSize then 0 else advance B p n

variable {m : Msg} {f : ℕ → UInt8}

theorem blobLen_parse (m : Msg) : blobLen (Head.parse m.sHead) = m.blob.len := by
  have hsize : m.size = cHeadSize + m.blob.len + m.blob.extLen := m.size_eq
  have hlen : m.blob.len < 2 ^ 31 := m.blob.data_lt
  unfold blobLen
  rw [m.parse_sHead, s32_of_bounds] <;> simp only [hsize] <;> push_cast <;> omega

/-- The assertion holds for a message that lies within the used length. -/
theorem lengthsOk_parse {used : ℕ} (hB : m.size < 2 ^ 31) (hused : m.size ≤ used) :
    lengthsOk used (Head.parse m.sHead) := by
  have hsize : m.size = cHeadSize + m.blob.len + m.blob.extLen := m.size_eq
  have hC : cHeadSize = 27 := rfl
  refine ⟨?_, ?_, ?_⟩
  · rw [m.parse_sHead]
    exact hused
  · rw [blobLen_parse, m.parse_sHead, s32_of_bounds] <;> simp only [hsize, hC] <;>
      push_cast <;> omega
  · rw [blobLen_parse]
    omega

/-- The head copies of a message on the block return its head. -/
theorem gather_headReads (hB : B < 2 ^ 31) (hp : p ≤ B) (hmod : p % B = k % B)
    (hfit : m.size ≤ B) (hwin : Window f B k m.bytes) :
    gather f (headReads B p).1 = m.sHead := by
  have hsize := m.size_eq
  obtain ⟨hcov, htotal, -⟩ := headReads_spec hB hp hmod (by omega)
  exact hwin.left.gather hcov (by rw [htotal, m.length_sHead])

/-- The body copies of a message lie on the cells of its data and extended data, and
the head moves behind the message. -/
theorem bodyPlan_parse (m : Msg) (hB : B < 2 ^ 31) (hp : p ≤ B) (hmod : p % B = k % B)
    (hfit : m.size ≤ B) :
    let plan := bodyPlan B (headReads B p).2 (Head.parse m.sHead)
    Covers B (k + cHeadSize) plan.dataReads ∧ total plan.dataReads = m.blob.len ∧
      Covers B (k + cHeadSize + m.blob.len) plan.extReads ∧
      total plan.extReads = m.blob.extLen ∧ plan.newHead = nextHead B p m.size := by
  have hsize : m.size = cHeadSize + m.blob.len + m.blob.extLen := m.size_eq
  have hC : cHeadSize = 27 := rfl
  obtain ⟨-, -, hpos⟩ := headReads_spec hB hp hmod (by omega)
  have hle : (headReads B p).2 ≤ B := by
    rw [hpos]
    split_ifs <;> omega
  have hmod' : (headReads B p).2 % B = (k + cHeadSize) % B := by
    rw [hpos, mod_add_eq hmod]
    split_ifs
    · rfl
    · exact (Nat.mod_eq_sub_mod (by omega)).symm
  have hplan : bodyPlan B (headReads B p).2 (Head.parse m.sHead) =
      readPlan B (headReads B p).2 m.blob.len m.blob.extLen (m.blob.len + m.blob.extLen) := by
    have hbody : u32sub m.size cHeadSize = m.blob.len + m.blob.extLen := by
      rw [u32sub_of_le (by omega) m.size_lt]
      omega
    unfold bodyPlan
    rw [blobLen_parse, m.parse_sHead, hbody, Int.toNat_natCast]
  obtain ⟨hdata, htotal, hext, htotal', hnew⟩ :=
    readPlan_spec m.blob.len m.blob.extLen hB hle hmod' (by omega)
  rw [hplan]
  refine ⟨hdata, htotal, hext, htotal', ?_⟩
  rw [hnew, hpos, nextHead, hsize, hC, advance, advance]
  split_ifs <;> omega

/-- The data and the extended data of a message on the block. -/
theorem window_data (hwin : Window f B k m.bytes) :
    Window f B (k + cHeadSize) m.blob.data ∧
      Window f B (k + cHeadSize + m.blob.len) m.blob.extdata := by
  have hbody : Window f B (k + cHeadSize) (m.blob.data ++ m.blob.extdata) := by
    rw [← m.length_sHead]
    exact hwin.right
  exact ⟨hbody.left, hbody.right⟩

variable {q : ShmMQ}

/-- What `dequeue_i` does when a message lies on the block at the head. -/
theorem dequeueI_spec (hp : q.head ≤ q.blocksize)
    (hmod : q.head % q.blocksize = k % q.blocksize) (hfit : m.size ≤ q.blocksize)
    (hwin : Window q.block q.blocksize k m.bytes) (hne : q.head ≠ q.tail)
    (hused : m.size ≤ usedLen q.blocksize q.head q.tail) :
    q.dequeueI =
      if m.blob.len > maxBlobDataLen then (q, .otfbuff (Head.parse m.sHead))
      else ({ q with head := nextHead q.blocksize q.head m.size }, .ok m.delivery) := by
  have hB := q.blocksize_lt
  have hhead := gather_headReads hB hp hmod hfit hwin
  have hparse := bodyPlan_parse m hB hp hmod hfit
  generalize hplan : bodyPlan q.blocksize (headReads q.blocksize q.head).2 (Head.parse m.sHead) =
    plan at hparse
  obtain ⟨hcov, htotal, hcov', htotal', hnew⟩ := hparse
  obtain ⟨hwin, hwin'⟩ := window_data hwin
  have hdata := hwin.gather hcov htotal
  have hext := hwin'.gather hcov' htotal'
  have hok : lengthsOk (usedLen q.blocksize q.head q.tail) (Head.parse m.sHead) :=
    lengthsOk_parse (by omega) hused
  unfold dequeueI
  rw [if_neg hne]
  simp only [hhead, hok, not_true_eq_false, if_false, blobLen_parse, hplan, hdata, hext,
    hnew]
  by_cases hlen : m.blob.len > maxBlobDataLen
  · rw [if_pos (by exact_mod_cast hlen), if_pos hlen]
  · rw [if_neg (by exact_mod_cast hlen), if_neg hlen, deliver, m.parse_sHead, Msg.delivery]

end ShmMQ
end Spp
