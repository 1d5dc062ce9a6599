import Spp.Proto.Xxtea

/-!
# Packets and the packer

A packet is a header of 29 bytes, a body and the end mark `EOT`.  The packer collects
the body field by field, with integers in network order, and `GetPack` puts header, body
and end mark together in a buffer; a body may be enciphered on the way.

## Main definitions

* `MsgHeader` — the header; `MsgHeader.bytes` — its bytes in a packet.
* `Packer`, `Packer.packByte` … `Packer.packString` — the body so far; one field more.
* `Packer.packHeader`, `Packer.getPack`, `Packer.getPackKey` — the packet.
-/

namespace Spp

/-! ## Constants -/

/-- `SOH`. -/
def soh : UInt8 := 74

/-- `EOT`. -/
def eot : UInt8 := 87

/-- `MAIN_VER`. -/
def mainVer : UInt8 := 1

/-- `SUB_VER`. -/
def subVer : UInt8 := 0

/-- `ENC_TYPE_NONE`. -/
def encTypeNone : UInt8 := 0

/-- `ENC_TYPE_TEA`. -/
def encTypeTea : UInt8 := 1

/-- `SOURCE_TYPE_IM_CLIENT`. -/
def sourceTypeImClient : UInt8 := 1

/-- `MSG_HEADER_LEN`. -/
def msgHeaderLen : ℕ := 29

/-- `MSG_ENC_TYPE_POS`. -/
def msgEncTypePos : ℕ := 23

/-- `RET_OK`. -/
def retOk : ℕ := 0

/-- `ERR_PROTOCOL`. -/
def errProtocol : ℕ := 1

/-- `ERR_ENC_TYPE`. -/
def errEncType : ℕ := 2

/-- `ERR_PROTOCOL_VER`. -/
def errProtocolVer : ℕ := 3

/-! ## Byte order -/

/-- `htons` and `ntohs` on a little-endian host. -/
def htons (x : ℕ) : ℕ := bswap 2 x

/-- `htonl` and `ntohl` on a little-endian host. -/
def htonl (x : ℕ) : ℕ := bswap 4 x

/-- `myhtonll` and `myntohll`, which swap the two halves. -/
def myhtonll (x : ℕ) : ℕ := htonl x * 2 ^ 32 + htonl (x / 2 ^ 32)

theorem myhtonll_eq (x : ℕ) : myhtonll x = bswap 8 x := by
  have h := bswap_add 4 4 x
  norm_num [htonl, myhtonll] at h ⊢
  omega

/-! ## The header -/

/-- `MsgHeader`, with the values of its constructor. -/
structure MsgHeader where
  soh : UInt8 := Spp.soh
  mainVer : UInt8 := Spp.mainVer
  subVer : UInt8 := Spp.subVer
  packLen : UInt32 := 0
  mainCmd : UInt16 := 0
  subCmd : UInt16 := 0
  seq : UInt32 := 0
  fromUin : UInt32 := 0
  toUin : UInt32 := 0
  encType : UInt8 := encTypeNone
  sourceType : UInt8 := sourceTypeImClient
  rev : UInt32 := 0
  deriving DecidableEq

/-- The header in a packet of `len` bytes. -/
def MsgHeader.bytes (h : MsgHeader) (len : ℕ) : List UInt8 :=
  [h.soh] ++ ([h.mainVer] ++ ([h.subVer] ++ (be 4 len ++ (be 2 h.mainCmd.toNat ++
    (be 2 h.subCmd.toNat ++ (be 4 h.seq.toNat ++ (be 4 h.fromUin.toNat ++
      (be 4 h.toUin.toNat ++ ([h.encType] ++ ([h.sourceType] ++ be 4 h.rev.toNat))))))))))

@[simp] theorem MsgHeader.length_bytes (h : MsgHeader) (len : ℕ) :
    (h.bytes len).length = msgHeaderLen := by
  simp [bytes, msgHeaderLen]

/-- `Packer`: the bytes in its stream. -/
structure Packer where
  oss : List UInt8 := []

namespace Packer

def packByte (pk : Packer) (v : UInt8) : Packer := ⟨pk.oss ++ [v]⟩

def packWord (pk : Packer) (v : UInt16) : Packer := ⟨pk.oss ++ le 2 (htons v.toNat)⟩

def packDWord (pk : Packer) (v : UInt32) : Packer := ⟨pk.oss ++ le 4 (htonl v.toNat)⟩

def packQWord (pk : Packer) (v : UInt64) : Packer := ⟨pk.oss ++ le 8 (myhtonll v.toNat)⟩

/-- `PackBinary`, where `v` points to at least `len` bytes. -/
def packBinary (pk : Packer) (v : List UInt8) (len : ℕ) : Packer :=
  if len < 1 then pk else ⟨pk.oss ++ v.take len⟩

/-- `PackString` of a `std::string`. -/
def packString (pk : Packer) (v : List UInt8) : Packer := ⟨pk.oss ++ v ++ [0]⟩

/-- `PackString` of a `const char *`: nothing for `NULL`, else the bytes up to a NUL. -/
def packCString (pk : Packer) : Option (List UInt8) → Packer
  | none => pk
  | some v => ⟨pk.oss ++ v.takeWhile (· ≠ 0) ++ [0]⟩

@[simp] theorem oss_packByte (pk : Packer) (v : UInt8) : (pk.packByte v).oss = pk.oss ++ [v] := rfl
@[simp] theorem oss_packWord (pk : Packer) (v : UInt16) :
    (pk.packWord v).oss = pk.oss ++ be 2 v.toNat := by
  simp [packWord, htons]
@[simp] theorem oss_packDWord (pk : Packer) (v : UInt32) :
    (pk.packDWord v).oss = pk.oss ++ be 4 v.toNat := by
  simp [packDWord, htonl]
@[simp] theorem oss_packQWord (pk : Packer) (v : UInt64) :
    (pk.packQWord v).oss = pk.oss ++ be 8 v.toNat := by
  simp [packQWord, myhtonll_eq]
@[simp] theorem oss_packString (pk : Packer) (v : List UInt8) :
    (pk.packString v).oss = pk.oss ++ (v ++ [0]) := by
  simp [packString]
@[simp] theorem oss_packBinary (pk : Packer) (v : List UInt8) (len : ℕ) :
    (pk.packBinary v len).oss = pk.oss ++ v.take len := by
  rw [packBinary]
  split
  next h =>
    have hzero : len = 0 := by omega
    simp [hzero]
  next => rfl

/-! ## The packet -/

/-- `PackHeader`; the `pack_len` of the header is not looked at. -/
def packHeader (hbuf : ℕ → UInt8) (h : MsgHeader) (bodySize : ℕ) : ℕ → UInt8 :=
  let m := Mem.write hbuf 0 [h.soh]
  let m := Mem.write m 1 [h.mainVer]
  let m := Mem.write m 2 [h.subVer]
  let m := Mem.write m 3 (le 4 (htonl (u32 (msgHeaderLen + bodySize + 1))))
  let m := Mem.write m 7 (le 2 (htons h.mainCmd.toNat))
  let m := Mem.write m 9 (le 2 (htons h.subCmd.toNat))
  let m := Mem.write m 11 (le 4 (htonl h.seq.toNat))
  let m := Mem.write m 15 (le 4 (htonl h.fromUin.toNat))
  let m := Mem.write m 19 (le 4 (htonl h.toUin.toNat))
  let m := Mem.write m 23 [h.encType]
  let m := Mem.write m 24 [h.sourceType]
  Mem.write m 25 (le 4 (htonl h.rev.toNat))

/-- `GetPack(h)`.  The buffer has `pack_len` bytes; `none` if the copies would not stay in
it.  Every byte of it is written before it is copied out. -/
def getPack (pk : Packer) (h : MsgHeader) : Option (List UInt8) :=
  let bodySize := u32 pk.oss.length
  let packLen := u32 (msgHeaderLen + bodySize + 1)
  if packLen < msgHeaderLen + bodySize + 1 then none
  else
    let hbuf := packHeader (fun _ => 0) h bodySize
    let hbuf := Mem.write hbuf msgHeaderLen (pk.oss.take bodySize)
    let hbuf := Mem.write hbuf (packLen - 1) [eot]
    some (Mem.read hbuf 0 packLen)

/-- `GetPack(h, key, key_len)`; the length of the key is not looked at. -/
def getPackKey (pk : Packer) (h : MsgHeader) (key : TeaKey) : Option (List UInt8) :=
  if h.encType ≠ encTypeTea then pk.getPack h
  else
    let body := pk.oss
    let packLen := u32 (msgHeaderLen + body.length + 1)
    if packLen < msgHeaderLen + body.length + 1 then none
    else
      let hbuf := packHeader (fun _ => 0) h (u32 body.length)
      let hbuf := Mem.write hbuf msgHeaderLen body
      let hbuf := xxteaEncrypt hbuf msgHeaderLen (u32 body.length) key.words
      let hbuf := Mem.write hbuf (packLen - 1) [eot]
      some (Mem.read hbuf 0 packLen)

theorem packHeader_eq (hbuf : ℕ → UInt8) (h : MsgHeader) (n : ℕ) :
    packHeader hbuf h n = Mem.write hbuf 0 (h.bytes (u32 (msgHeaderLen + n + 1))) := by
  simp only [packHeader, MsgHeader.bytes, Mem.write_append, htonl, htons, le_bswap,
    List.length_singleton, length_be, Nat.reduceAdd]

variable {pk : Packer} {h : MsgHeader}

/-- What the buffer holds before a body is enciphered. -/
theorem write_packHeader (body : List UInt8) :
    Mem.write (packHeader (fun _ => 0) h body.length) msgHeaderLen body =
      Mem.write (fun _ => 0) 0 (h.bytes (u32 (msgHeaderLen + body.length + 1)) ++ body) := by
  rw [Mem.write_append, packHeader_eq, MsgHeader.length_bytes, Nat.zero_add]

/-- A packet is header, body and end mark. -/
theorem getPack_eq (hlen : msgHeaderLen + pk.oss.length + 1 < 2 ^ 32) :
    pk.getPack h =
      some (h.bytes (msgHeaderLen + pk.oss.length + 1) ++ pk.oss ++ [eot]) := by
  have hbody : u32 pk.oss.length = pk.oss.length := u32_of_lt (by omega)
  have hpack : u32 (msgHeaderLen + pk.oss.length + 1) = msgHeaderLen + pk.oss.length + 1 :=
    u32_of_lt hlen
  have hend : msgHeaderLen + pk.oss.length + 1 - 1 =
      0 + (h.bytes (msgHeaderLen + pk.oss.length + 1) ++ pk.oss).length := by simp
  simp only [getPack, hbody, hpack, List.take_length, write_packHeader, hend,
    ← Mem.write_append, lt_irrefl, if_false]
  have hread := Mem.read_write_self (fun _ : ℕ => (0 : UInt8)) 0
    (h.bytes (msgHeaderLen + pk.oss.length + 1) ++ pk.oss ++ [eot])
  simp only [List.length_append, MsgHeader.length_bytes, List.length_singleton] at hread
  rw [hread]

end Packer

end Spp
