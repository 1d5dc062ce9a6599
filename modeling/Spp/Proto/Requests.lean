import Spp.Proto.FixedPacker

/-!
# Requests of the data platform

A request is built by a series of `Pack` calls that does not depend on the packer: the growing
one of `MakeReq(string)` or the fixed one of `MakeReq(buf, len)`.  So the builders are written
as the series they make, and where a typed value of a condition is of no known type the series
ends with an error.

## Main definitions

* `DpQueryReq`, `DpUpdateReq`, `DpInsertReq`, `DpDeleteReq`, `DpCountReq`, `DpCondFindReq`,
  `DpReq` — the requests.
* `Script` — the calls a builder makes, and the value of `PackTLV` that it looks at.
* `condLoop` — the loop over the conditions, whose counter has 16 bits.
* `DpReq.script`, `DpReq.makeReq`, `DpReq.makeReqBuf` — the builders.
* `PackCall.bytes` — what a call adds to a packet.
-/

namespace Spp

/-! ## Constants -/

/-- `SYNC_FLAG_MASK`. -/
def syncFlagMask : UInt16 := 1

/-- `PRIMARY_KEY_FLAG_MASK`. -/
def primaryKeyFlagMask : UInt16 := 2

/-- `INSERT_MAIN_CMD`. -/
def insertMainCmd : UInt16 := 0x0500

/-- `UPDATE_MAIN_CMD`. -/
def updateMainCmd : UInt16 := 0x0501

/-- `DELETE_MAIN_CMD`. -/
def deleteMainCmd : UInt16 := 0x0502

/-- `QUERY_MAIN_CMD`. -/
def queryMainCmd : UInt16 := 0x0503

/-- `COUNT_MAIN_CMD`. -/
def countMainCmd : UInt16 := 0x0504

/-- `COND_FIND_MAIN_CMD`. -/
def condFindMainCmd : UInt16 := 0x0981

/-! ## The requests -/

/-- `ConditionExpression`. -/
structure ConditionExpression (R : Type) where
  fieldId : UInt32
  opCode : UInt8
  data : TLV R

/-- `BaseDpReq`: the parts of the header that can be set, and the cookie. -/
structure BaseDpReq where
  seq : UInt32 := 0
  toUin : UInt32 := 0
  sourceType : UInt8 := sourceTypeImClient
  cookie : List UInt8 := []

/-- `m_Header` of a request. -/
def BaseDpReq.header (r : BaseDpReq) (mainCmd : UInt16) : MsgHeader where
  mainCmd := mainCmd
  seq := r.seq
  toUin := r.toUin
  sourceType := r.sourceType

structure DpQueryReq (R : Type) extends BaseDpReq where
  retFieldSet : List UInt32
  condSet : List (ConditionExpression R)
  logicExp : List UInt8
  bPrimaryKey : Bool

structure DpUpdateReq (R : Type) extends BaseDpReq where
  condFieldSet : List (ConditionExpression R)
  updFieldSet : List (ConditionExpression R)
  logicExp : List UInt8
  bAsyn : Bool

structure DpInsertReq (R : Type) extends BaseDpReq where
  insFieldSet : List (ConditionExpression R)
  bAsyn : Bool

structure DpDeleteReq (R : Type) extends BaseDpReq where
  condFieldSet : List (ConditionExpression R)
  logicExp : List UInt8
  bAsyn : Bool

structure DpCountReq (R : Type) extends BaseDpReq where
  condFieldSet : List (ConditionExpression R)
  logicExp : List UInt8

structure DpCondFindReq (R : Type) extends BaseDpReq where
  condSet : List (ConditionExpression R)
  nLimitNumber : UInt16
  nStatus : UInt16

/-- A request of one of the six kinds. -/
inductive DpReq (R : Type)
  | query (r : DpQueryReq R)
  | update (r : DpUpdateReq R)
  | insert (r : DpInsertReq R)
  | delete (r : DpDeleteReq R)
  | count (r : DpCountReq R)
  | condFind (r : DpCondFindReq R)

/-! ## The calls of the builders -/

/-- The calls of a builder, and the error that ended them, or `retOk`. -/
structure Script (R : Type) where
  calls : List (PackCall R)
  ret : ℕ

variable {R : Type}

/-- `PackBinary` of the first `len` bytes of a string. -/
def PackCall.data (s : List UInt8) (len : UInt32) : PackCall R :=
  .binary (fun i => s.getD i 0) len

/-- `PackTLV`. -/
def tlvScript (tlv : TLV R) : Script R :=
  let head : List (PackCall R) := [.byte tlv.type, .dword tlv.length]
  match TlvKind.ofType tlv.type with
  | some .byte => ⟨head ++ [.byte tlv.intValue.toUInt8], retOk⟩
  | some .word => ⟨head ++ [.word tlv.intValue.toUInt16], retOk⟩
  | some .dword => ⟨head ++ [.dword tlv.intValue.toUInt32], retOk⟩
  | some .qword => ⟨head ++ [.qword tlv.intValue], retOk⟩
  | some .real => ⟨head ++ [.real tlv.realValue], retOk⟩
  | some .binary =>
      ⟨head ++ [.data tlv.stringValue (.ofNat tlv.stringValue.length)], retOk⟩
  | none => ⟨head, errProtocol⟩

/-- The calls for one condition; `op` packs the operator. -/
def condScript (op : UInt8 → PackCall R) (c : ConditionExpression R) : Script R :=
  let tlv := tlvScript c.data
  ⟨[.dword c.fieldId, op c.opCode] ++ tlv.calls, tlv.ret⟩

/-- `for(unsigned short i = 0; i < cond_num; i++)`, for as many turns as `fuel` says. -/
def condLoop (op : UInt8 → PackCall R) (conds : List (ConditionExpression R)) (condNum : ℕ) :
    ℕ → UInt16 → Option (Script R)
  | 0, _ => none
  | fuel + 1, i =>
      if i.toNat < condNum then
        match conds[i.toNat]? with
        | none => none
        | some c =>
            let one := condScript op c
            if one.ret ≠ retOk then some one
            else (condLoop op conds condNum fuel (i + 1)).map fun rest =>
              ⟨one.calls ++ rest.calls, rest.ret⟩
      else some ⟨[], retOk⟩

/-- A builder that has conditions between other fields. -/
def condsBetween (head : List (PackCall R)) (conds : Option (Script R))
    (tail : List (PackCall R)) : Option (Script R) :=
  conds.map fun c =>
    if c.ret ≠ retOk then ⟨head ++ c.calls, c.ret⟩ else ⟨head ++ c.calls ++ tail, retOk⟩

/-- The loop over the fields of an update or an insert, which ignores what `PackTLV` returns. -/
def fieldCalls (num : ℕ) (fields : List (ConditionExpression R)) : List (PackCall R) :=
  (fields.take num).flatMap fun f => [.dword f.fieldId] ++ (tlvScript f.data).calls

/-- `PackCookie`. -/
def BaseDpReq.cookieCalls (r : BaseDpReq) : List (PackCall R) :=
  let cookieLen : UInt16 := .ofNat r.cookie.length
  [.word cookieLen, .data r.cookie cookieLen.toUInt32]

/-- The logic expression, with a call for an empty one as well. -/
def logicCalls (logicExp : List UInt8) : List (PackCall R) :=
  let logicExpLen : UInt16 := .ofNat logicExp.length
  [.word logicExpLen, .data logicExp logicExpLen.toUInt32]

/-- The logic expression, without a call for an empty one. -/
def logicCallsIf (logicExp : List UInt8) : List (PackCall R) :=
  let logicExpLen : UInt16 := .ofNat logicExp.length
  [.word logicExpLen] ++ if logicExpLen.toNat > 0 then [.data logicExp logicExpLen.toUInt32] else []

/-! What each builder packs in front of its conditions and behind them, and how many conditions
it goes through. -/

namespace DpQueryReq

def condNum (r : DpQueryReq R) : ℕ := u32 r.condSet.length

def front (r : DpQueryReq R) : List (PackCall R) :=
  let flags : UInt16 := if r.bPrimaryKey then primaryKeyFlagMask else 0
  [.word flags, .word (.ofNat r.condNum)]

def back (r : DpQueryReq R) : List (PackCall R) :=
  let retFieldNum : UInt16 := .ofNat r.retFieldSet.length
  logicCallsIf r.logicExp ++ ([.word retFieldNum] ++
    ((r.retFieldSet.take retFieldNum.toNat).map .dword ++ r.cookieCalls))

end DpQueryReq

namespace DpUpdateReq

def condNum (r : DpUpdateReq R) : UInt16 := .ofNat r.condFieldSet.length

def front (r : DpUpdateReq R) : List (PackCall R) :=
  let flags : UInt16 := if !r.bAsyn then syncFlagMask else 0
  [.word flags, .word r.condNum]

def back (r : DpUpdateReq R) : List (PackCall R) :=
  let updateFieldNum : UInt16 := .ofNat r.updFieldSet.length
  logicCalls r.logicExp ++ ([.word updateFieldNum] ++
    (fieldCalls updateFieldNum.toNat r.updFieldSet ++ r.cookieCalls))

end DpUpdateReq

namespace DpInsertReq

def front (r : DpInsertReq R) : List (PackCall R) :=
  let flags : UInt16 := if !r.bAsyn then syncFlagMask else 0
  [.word flags]

def back (r : DpInsertReq R) : List (PackCall R) :=
  let insFieldNum : UInt16 := .ofNat r.insFieldSet.length
  [.word insFieldNum] ++ (fieldCalls insFieldNum.toNat r.insFieldSet ++ r.cookieCalls)

end DpInsertReq

namespace DpDeleteReq

def condNum (r : DpDeleteReq R) : UInt16 := .ofNat r.condFieldSet.length

def front (r : DpDeleteReq R) : List (PackCall R) :=
  let flags : UInt16 := if !r.bAsyn then syncFlagMask else 0
  [.word flags, .word r.condNum]

def back (r : DpDeleteReq R) : List (PackCall R) := logicCalls r.logicExp ++ r.cookieCalls

end DpDeleteReq

namespace DpCountReq

def condNum (r : DpCountReq R) : UInt16 := .ofNat r.condFieldSet.length

def front (r : DpCountReq R) : List (PackCall R) := [.word 0, .word r.condNum]

def back (r : DpCountReq R) : List (PackCall R) := logicCallsIf r.logicExp ++ r.cookieCalls

end DpCountReq

namespace DpCondFindReq

def condNum (r : DpCondFindReq R) : ℕ := u32 r.condSet.length

def front (r : DpCondFindReq R) : List (PackCall R) :=
  [.word r.nLimitNumber, .word r.nStatus, .word (.ofNat r.condNum)]

def back (r : DpCondFindReq R) : List (PackCall R) := r.cookieCalls

/-- The operator is packed as a word. -/
def packOp (op : UInt8) : PackCall R := .word op.toUInt16

end DpCondFindReq

namespace DpReq

/-- The body of `MakeReq` up to `GetPack`. -/
def script (fuel : ℕ) : DpReq R → Option (Script R)
  | .query r => condsBetween r.front (condLoop .byte r.condSet r.condNum fuel 0) r.back
  | .update r =>
      condsBetween r.front (condLoop .byte r.condFieldSet r.condNum.toNat fuel 0) r.back
  | .insert r => some ⟨r.front ++ r.back, retOk⟩
  | .delete r =>
      condsBetween r.front (condLoop .byte r.condFieldSet r.condNum.toNat fuel 0) r.back
  | .count r =>
      condsBetween r.front (condLoop .byte r.condFieldSet r.condNum.toNat fuel 0) r.back
  | .condFind r =>
      condsBetween r.front (condLoop DpCondFindReq.packOp r.condSet r.condNum fuel 0) r.back

/-- `m_Header`. -/
def header : DpReq R → MsgHeader
  | .query r => r.header queryMainCmd
  | .update r => r.header updateMainCmd
  | .insert r => r.header insertMainCmd
  | .delete r => r.header deleteMainCmd
  | .count r => r.header countMainCmd
  | .condFind r => r.header condFindMainCmd

end DpReq

/-! ## The two packers -/

variable [CDouble R]

/-- A call of the growing packer; `none` where `PackReal` overruns. -/
def Packer.call (pk : Packer) : PackCall R → Option Packer
  | .byte v => some (pk.packByte v)
  | .word v => some (pk.packWord v)
  | .dword v => some (pk.packDWord v)
  | .qword v => some (pk.packQWord v)
  | .real v => pk.packReal v
  | .binary v len => some (pk.packBinary (Mem.read v 0 len.toNat) len.toNat)
  | .string v => some (pk.packString v)
  | .cstring v => some (pk.packCString v)

def Packer.run : Packer → List (PackCall R) → Option Packer
  | pk, [] => some pk
  | pk, c :: cs => (pk.call c).bind fun pk => pk.run cs

namespace DpReq

/-- `MakeReq(string)`: the value returned, and the string where it is set.  `none` where it does
not return, or writes outside its own arrays. -/
def makeReq (r : DpReq R) (fuel : ℕ) : Option (ℤ × Option (List UInt8)) := do
  let s ← r.script fuel
  let pk ← Packer.run {} s.calls
  if s.ret ≠ retOk then some (s.ret, none)
  else
    let req ← pk.getPack r.header
    some (s32 req.length, some req)

/-- `MakeReq(buf, len)`: the value returned, and the packer; a buffer that `Init` turns away is
not touched. -/
def makeReqBuf (r : DpReq R) (fuel : ℕ) (buf : ℕ → UInt8) (len : UInt32) :
    Option (ℤ × FixedPacker) :=
  match FixedPacker.init buf len with
  | none => some (-1, ⟨buf, 0, len, errProtocol, [], false⟩)
  | some pk => do
      let s ← r.script fuel
      let pk := Run.final FixedPacker.step pk s.calls
      if s.ret ≠ retOk then some (s.ret, pk)
      else if pk.err ≠ 0 then some (-1, pk)
      else some (pk.getPack r.header)

end DpReq

/-! ## What a call adds -/

/-- What a call adds to a packet. -/
def PackCall.bytes : PackCall R → List UInt8
  | .byte v => [v]
  | .word v => be 2 v.toNat
  | .dword v => be 4 v.toNat
  | .qword v => be 8 v.toNat
  | .real v => CDouble.sprintf v ++ [0]
  | .binary v len => Mem.read v 0 len.toNat
  | .string v => v ++ [0]
  | .cstring none => []
  | .cstring (some v) => v.takeWhile (· ≠ 0) ++ [0]

namespace PackCall

@[simp] theorem bytes_byte (v : UInt8) : (byte v : PackCall R).bytes = [v] := rfl
@[simp] theorem bytes_word (v : UInt16) : (word v : PackCall R).bytes = be 2 v.toNat := rfl
@[simp] theorem bytes_dword (v : UInt32) : (dword v : PackCall R).bytes = be 4 v.toNat := rfl
@[simp] theorem bytes_qword (v : UInt64) : (qword v : PackCall R).bytes = be 8 v.toNat := rfl
@[simp] theorem bytes_real (v : R) : (real v).bytes = CDouble.sprintf v ++ [0] := rfl

end PackCall

/-- Of a string the bytes that are asked for. -/
theorem bytes_data (s : List UInt8) {len : UInt32} (h : len.toNat ≤ s.length) :
    (PackCall.data s len : PackCall R).bytes = s.take len.toNat := by
  rw [PackCall.data, PackCall.bytes]
  exact Mem.read_getD s h

/-- The text of a real fits in `data[64]`. -/
def PackCall.Prints : PackCall R → Prop
  | .real v => (CDouble.sprintf v).length < 64
  | _ => True

instance (c : PackCall R) : Decidable c.Prints := by
  cases c <;> simp only [PackCall.Prints] <;> infer_instance

theorem takeWhile_sprintf (v : R) :
    (CDouble.sprintf v).takeWhile (· ≠ 0) = CDouble.sprintf v := by
  rw [List.takeWhile_eq_self_iff]
  intro b hb
  simpa using ne_of_mem_of_not_mem hb (CDouble.nul_notMem v)

theorem Packer.call_eq (pk : Packer) (c : PackCall R) :
    pk.call c = if c.Prints then some ⟨pk.oss ++ c.bytes⟩ else none := by
  cases c with
  | byte v => rfl
  | word v => simp [Packer.call, PackCall.Prints, PackCall.bytes, packWord, htons]
  | dword v => simp [Packer.call, PackCall.Prints, PackCall.bytes, packDWord, htonl]
  | qword v => simp [Packer.call, PackCall.Prints, PackCall.bytes, packQWord, myhtonll_eq]
  | real v =>
      simp only [Packer.call, PackCall.Prints, PackCall.bytes, packReal, packCString,
        takeWhile_sprintf, List.append_assoc]
  | binary v len =>
      have hoss := oss_packBinary pk (Mem.read v 0 len.toNat) len.toNat
      rw [List.take_of_length_le (by simp)] at hoss
      simp only [Packer.call, PackCall.Prints, PackCall.bytes, if_true, ← hoss]
  | string v => simp [Packer.call, PackCall.Prints, PackCall.bytes, packString]
  | cstring v =>
      cases v with
      | none => simp [Packer.call, PackCall.Prints, PackCall.bytes, packCString]
      | some v => simp [Packer.call, PackCall.Prints, PackCall.bytes, packCString]

/-- A series of calls adds the bytes of each. -/
theorem Packer.run_eq (pk : Packer) (calls : List (PackCall R)) :
    pk.run calls = if ∀ c ∈ calls, c.Prints then some ⟨pk.oss ++ calls.flatMap PackCall.bytes⟩
      else none := by
  induction calls generalizing pk with
  | nil => simp [Packer.run]
  | cons c calls ih =>
      rw [Packer.run, call_eq]
      by_cases hc : c.Prints
      · simp [hc, ih]
      · simp [hc]

/-- `PackTLV` makes the calls of its script. -/
theorem packTLV_eq (pk : Packer) (tlv : TLV R) :
    packTLV pk tlv = (pk.run (tlvScript tlv).calls).map fun pk => ((tlvScript tlv).ret, pk) := by
  rw [packTLV, tlvScript]
  cases TlvKind.ofType tlv.type with
  | none => simp [Packer.run, Packer.call]
  | some kind =>
      cases kind with
      | binary =>
          have hlen : (UInt32.ofNat tlv.stringValue.length).toNat = u32 tlv.stringValue.length := by
            simp [u32]
          have hread := Mem.read_getD tlv.stringValue (Nat.mod_le tlv.stringValue.length (2 ^ 32))
          rw [← u32] at hread
          simp only [Packer.run, Packer.call, PackCall.data, List.cons_append, List.nil_append,
            hlen, hread]
          simp [Packer.packBinary, List.take_take]
      | real => simp [Packer.run, Packer.call]
      | byte => simp [Packer.run, Packer.call]
      | word => simp [Packer.run, Packer.call]
      | dword => simp [Packer.run, Packer.call]
      | qword => simp [Packer.run, Packer.call]

end Spp
