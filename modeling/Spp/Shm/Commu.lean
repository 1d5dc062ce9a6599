import Spp.Shm.Fifo

/-!
# The component over two message queues

`CTShmCommu` sends through one queue and receives through the other.  `sendto` enqueues a blob
under its `ext_type`; `poll` takes the oldest message and calls back by the type that it carries.

The worker is built without `_SPP_PROXY`, so a poll takes one message at most, and without
`LOAD_CHECK_ENABLE`.  Messages do not expire: `msg_timeout_` is 0, and both sides set
`expiretime_` to 0.  A worker that shares the queue with others takes a lock around `dequeue`.

## Main definitions

* `extTypeNone` and the others — the types of a blob.
* `BlobType`, `sendto` — sending.
* `CbType`, `Callback`, `poll` — receiving.
-/

namespace Spp

/-! ## Sending -/

def extTypeNone : UInt8 := 0x00
def extTypeConnected : UInt8 := 0x01
def extTypeOverload : UInt8 := 0x02
def extTypeTimeout : UInt8 := 0x03
def extTypeDisconnect : UInt8 := 0x04
def extTypeConnextinfo : UInt8 := 0x10

/-- A `blob_type`, without its owner. -/
structure BlobType where
  blob : Blob
  extType : UInt8

/-- The message that `enqueue` makes of a blob. -/
def BlobType.msg (b : BlobType) (flow : UInt32) (tval : Timeval) : Msg :=
  ⟨b.blob, flow, b.extType, tval⟩

/-! ## Receiving -/

/-- The callbacks that `poll` makes. -/
inductive CbType
  | connected
  | overload
  | timeout
  | disconnect
  | recvdata
  deriving DecidableEq

/-- A callback, with the fields of `buff_blob_`. -/
structure Callback where
  cb : CbType
  flow : UInt32
  data : List UInt8
  extType : UInt8
  extdata : List UInt8
  deriving DecidableEq

/-- The switch over the type. -/
def cbOf (msgtype : UInt8) : CbType :=
  if msgtype = extTypeConnected then .connected
  else if msgtype = extTypeOverload then .overload
  else if msgtype = extTypeTimeout then .timeout
  else if msgtype = extTypeDisconnect then .disconnect
  else .recvdata

/-- What a poll returns, `none` where an assertion fails, and the callback that it makes. -/
structure Polled where
  ret : Option ℤ
  call : Option Callback

namespace ShmMQ

/-- `CTShmCommu::sendto`. -/
def sendto (q : ShmMQ) (flow : UInt32) (b : BlobType) (tval : Timeval) : ShmMQ × ℤ :=
  q.enqueue (b.msg flow tval)

/-- `CTShmCommu::poll`. -/
def poll (q : ShmMQ) : ShmMQ × Polled :=
  match q.dequeueI with
  | (q, .ok d) => (q, ⟨some 0, some ⟨cbOf d.msgtype, d.flow, d.data, d.msgtype, d.extdata⟩⟩)
  | (q, .empty) => (q, ⟨some commuErrMqEmpty, none⟩)
  | (q, .otfbuff _) => (q, ⟨some commuErrOtfBuff, none⟩)
  | (q, .aborted) => (q, ⟨none, none⟩)

/-- The queue has no room for the blob. -/
def NoRoom (q : ShmMQ) (b : BlobType) : Prop :=
  freeLen q.blocksize q.head q.tail ≤ b.blob.totalLen

instance (q : ShmMQ) (b : BlobType) : Decidable (q.NoRoom b) := inferInstanceAs (Decidable (_ ≤ _))

variable {q : ShmMQ} {ms : List Msg} {m : Msg} {b : BlobType} {flow : UInt32} {tval : Timeval}

theorem sendto_of_noRoom (h : q.NoRoom b) : q.sendto flow b tval = (q, commuErrMqFull) :=
  if_pos h

/-- A blob that the receiver's buffer takes is stored, where there is room. -/
theorem Stores.sendto (h : Stores q ms) (flow : UInt32) (tval : Timeval) (hroom : ¬ q.NoRoom b)
    (hlen : b.blob.len ≤ maxBlobDataLen) :
    (q.sendto flow b tval).2 = 0 ∧ Stores (q.sendto flow b tval).1 (ms ++ [b.msg flow tval]) := by
  obtain ⟨R, W, h⟩ := h
  have hret : (q.sendto flow b tval).2 = 0 := congrArg Prod.snd (if_neg hroom)
  cases h.enqueue (m := b.msg flow tval) hlen with
  | inl hfull =>
      have hcode : (q.sendto flow b tval).2 = commuErrMqFull := by rw [ShmMQ.sendto, hfull]
      rw [hret] at hcode
      exact absurd hcode (by decide)
  | inr hstored => exact ⟨hret, R, _, hstored.2⟩

/-- A poll of an empty queue. -/
theorem Stores.poll_nil (h : Stores q []) : q.poll = (q, ⟨some commuErrMqEmpty, none⟩) := by
  obtain ⟨R, W, h⟩ := h
  rw [poll, h.dequeueI_nil]

/-- A poll takes the oldest message, and calls back by its type. -/
theorem Stores.poll_cons (h : Stores q (m :: ms)) (hend : ¬ q.AtBlockEnd) :
    q.poll.2 = ⟨some 0, some ⟨cbOf m.msgtype, m.flow, m.blob.data, m.msgtype, m.blob.extdata⟩⟩ ∧
      Stores q.poll.1 ms := by
  obtain ⟨R, W, h⟩ := h
  rw [poll, h.dequeueI_cons]
  exact ⟨rfl, _, _, h.tail_of_cons hend⟩

end ShmMQ

end Spp
