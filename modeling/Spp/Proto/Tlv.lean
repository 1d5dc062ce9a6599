import Spp.Proto.UnPacker
import Spp.Lib.Format

/-!
# Typed values in a body

A `TLV` is a type, a length and a value.  The length is packed as it stands, and only a
string or a binary is read by it; a real is packed as text.

## Main definitions

* `CDouble R` — doubles, with the conversions of the C library.
* `TLV`, `TlvKind` — a value; the cases of `switch(tlv.type)`.
* `packTLV`, `unPackTLV` — the functions of the source.
* `TlvView`, `tlvView` — what a `TLV` says; how it is read off a body strictly.
-/

namespace Spp

/-- The doubles of the source, and how the C library writes them with `"%f"` and reads
them. -/
class CDouble (R : Type) where
  zero : R
  sprintf : R → List UInt8
  atof : List UInt8 → R
  nul_notMem : ∀ v, 0 ∉ sprintf v
  sprintf_ne_nil : ∀ v, sprintf v ≠ []

/-- `TLV`. -/
structure TLV (R : Type) where
  type : UInt8
  length : UInt32
  intValue : UInt64
  realValue : R
  stringValue : List UInt8

/-- The cases of `switch(tlv.type)`; strings and binaries are one. -/
inductive TlvKind
  | byte
  | word
  | dword
  | qword
  | real
  | binary
  deriving DecidableEq

/-- The case of a type: `TLV_BYTE`, `TLV_WORD`, `TLV_DWORD`, `TLV_QWORD`, `TLV_REAL`,
`TLV_STRING`, `TLV_BINARY`, or the default. -/
def TlvKind.ofType (type : UInt8) : Option TlvKind :=
  match type.toNat with
  | 0 => some .byte
  | 1 => some .word
  | 2 => some .dword
  | 3 => some .qword
  | 4 => some .real
  | 5 | 6 => some .binary
  | _ => none

variable {R : Type} [CDouble R]

/-! ## Packing -/

/-- `PackReal`; `none` if the text overruns `data[64]`. -/
def Packer.packReal (pk : Packer) (v : R) : Option Packer :=
  if (CDouble.sprintf v).length < 64 then some (pk.packCString (some (CDouble.sprintf v)))
  else none

/-- `PackTLV`: the value returned and the packer, or `none` where `PackReal` overruns. -/
def packTLV (pk : Packer) (tlv : TLV R) : Option (ℕ × Packer) :=
  let pk := (pk.packByte tlv.type).packDWord tlv.length
  match TlvKind.ofType tlv.type with
  | some .byte => some (retOk, pk.packByte tlv.intValue.toUInt8)
  | some .word => some (retOk, pk.packWord tlv.intValue.toUInt16)
  | some .dword => some (retOk, pk.packDWord tlv.intValue.toUInt32)
  | some .qword => some (retOk, pk.packQWord tlv.intValue)
  | some .real => (pk.packReal tlv.realValue).map fun pk => (retOk, pk)
  | some .binary => some (retOk, pk.packBinary tlv.stringValue (u32 tlv.stringValue.length))
  | none => some (errProtocol, pk)

/-! ## Unpacking -/

/-- `UnPackReal`. -/
def UnPacker.unPackReal (u : UnPacker) : R × UnPacker :=
  match u.unPackStringLen with
  | (some p, u) => (if p.length > 0 then CDouble.atof p else CDouble.zero, u)
  | (none, u) => (CDouble.zero, u)

/-- The `switch` of `UnPackTLV`. -/
def unPackValue (u : UnPacker) (tlv : TLV R) : ℕ × TLV R × UnPacker :=
  match TlvKind.ofType tlv.type with
  | some .byte =>
      let (v, u) := u.unPackByte
      (retOk, { tlv with intValue := v.toUInt64 }, u)
  | some .word =>
      let (v, u) := u.unPackWord
      (retOk, { tlv with intValue := v.toUInt64 }, u)
  | some .dword =>
      let (v, u) := u.unPackDWord
      (retOk, { tlv with intValue := v.toUInt64 }, u)
  | some .qword =>
      let (v, u) := u.unPackQWord
      (retOk, { tlv with intValue := v }, u)
  | some .real =>
      let (v, u) : R × UnPacker := u.unPackReal
      (retOk, { tlv with realValue := v }, u)
  | some .binary =>
      let (_, v, u) := u.unPackBinaryStr tlv.stringValue tlv.length.toNat
      (retOk, { tlv with stringValue := v }, u)
  | none => (errProtocol, tlv, u)

/-- `UnPackTLV` into a fresh `TLV`, whose numbers are not set. -/
def unPackTLV (u : UnPacker) : ℕ × TLV R × UnPacker :=
  let (type, u) := u.unPackByte
  let (length, u) := u.unPackDWord
  unPackValue u ⟨type, length, 0, CDouble.zero, []⟩

/-- The loop over `n` values pushed back on a vector, which stops where `UnPackTLV`
fails. -/
def unPackTLVs : ℕ → List (TLV R) → UnPacker → ℕ × List (TLV R) × UnPacker
  | 0, v, u => (retOk, v, u)
  | n + 1, v, u =>
      let (ret, tlv, u) : ℕ × TLV R × UnPacker := unPackTLV u
      if ret ≠ retOk then (ret, v, u) else unPackTLVs n (v ++ [tlv]) u

/-! ## What a value says -/

/-- The member of a `TLV` that its type selects. -/
inductive TlvValue (R : Type)
  | int (v : UInt64)
  | real (v : R)
  | bytes (v : List UInt8)
  deriving DecidableEq

/-- A `TLV` without the members that its type does not select. -/
structure TlvView (R : Type) where
  type : UInt8
  length : UInt32
  value : TlvValue R
  deriving DecidableEq

omit [CDouble R] in
/-- What a `TLV` says. -/
def TLV.view (t : TLV R) : TlvView R :=
  ⟨t.type, t.length,
    match TlvKind.ofType t.type with
    | some .real => .real t.realValue
    | some .binary => .bytes t.stringValue
    | _ => .int t.intValue⟩

/-- A value of the case `k` off the front of a string. -/
def tlvValue (length : UInt32) : TlvKind → Format.Parser (TlvValue R)
  | .byte, bs => (Format.byte bs).map fun r => (.int r.1.toUInt64, r.2)
  | .word, bs => (Format.word bs).map fun r => (.int r.1.toUInt64, r.2)
  | .dword, bs => (Format.dword bs).map fun r => (.int r.1.toUInt64, r.2)
  | .qword, bs => (Format.qword bs).map fun r => (.int r.1, r.2)
  | .real, bs => (Format.cstr bs).map fun r =>
      (.real (if r.1.length > 0 then CDouble.atof r.1 else CDouble.zero), r.2)
  | .binary, bs => (Format.take length.toNat bs).map fun r => (.bytes r.1, r.2)

/-- A typed value off the front of a string. -/
def tlvView : Format.Parser (TlvView R) := fun bs => do
  let (type, bs) ← Format.byte bs
  let (length, bs) ← Format.dword bs
  let kind ← TlvKind.ofType type
  let (value, bs) ← tlvValue length kind bs
  some (⟨type, length, value⟩, bs)

/-! ## Unpacking reads what is there -/

namespace UnPacker

variable {u : UnPacker} {bs rest : List UInt8}

theorem At.byte {v : UInt8} (h : u.At bs) (hp : Format.byte bs = some (v, rest)) :
    u.unPackByte = (v, u.next 1) ∧ (u.next 1).At rest := by
  rw [Format.byte_eq_some_iff] at hp
  subst hp
  have h' : u.At ([v] ++ rest) := h
  exact ⟨h.unPackByte, h'.next⟩

theorem At.word {v : UInt16} (h : u.At bs) (hp : Format.word bs = some (v, rest)) :
    u.unPackWord = (v, u.next 2) ∧ (u.next 2).At rest := by
  rw [Format.word_eq_some_iff] at hp
  subst hp
  exact ⟨by simpa using h.unPackWord (length_be 2 _), by simpa using h.next⟩

theorem At.dword {v : UInt32} (h : u.At bs) (hp : Format.dword bs = some (v, rest)) :
    u.unPackDWord = (v, u.next 4) ∧ (u.next 4).At rest := by
  rw [Format.dword_eq_some_iff] at hp
  subst hp
  exact ⟨by simpa using h.unPackDWord (length_be 4 _), by simpa using h.next⟩

theorem At.qword {v : UInt64} (h : u.At bs) (hp : Format.qword bs = some (v, rest)) :
    u.unPackQWord = (v, u.next 8) ∧ (u.next 8).At rest := by
  rw [Format.qword_eq_some_iff] at hp
  subst hp
  exact ⟨by simpa using h.unPackQWord (length_be 8 _), by simpa using h.next⟩

/-- A binary of length 0 leaves the string as it was. -/
theorem At.binaryStr {v : List UInt8} {n : ℕ} (h : u.At bs) (data : List UInt8)
    (hp : Format.take n bs = some (v, rest)) :
    ∃ u', u.unPackBinaryStr data n = (retOk, if n = 0 then data else v, u') ∧ u'.At rest := by
  obtain ⟨rfl, rfl⟩ := Format.take_eq_some_iff.mp hp
  by_cases hnil : v = []
  · subst hnil
    exact ⟨u, by simpa using h.unPackBinaryStr_zero data, h⟩
  · refine ⟨u.next v.length, ?_, h.next⟩
    rw [h.unPackBinaryStr hnil, if_neg (by simpa using hnil)]

theorem At.real {v : List UInt8} (h : u.At bs) (hp : Format.cstr bs = some (v, rest)) :
    ∃ u', u.unPackReal = ((if v.length > 0 then CDouble.atof v else CDouble.zero : R), u') ∧
      u'.At rest := by
  obtain ⟨rfl, hv⟩ := Format.cstr_eq_some_iff.mp hp
  refine ⟨u.next (v.length + 1), ?_, h.next_string⟩
  rw [unPackReal, h.unPackStringLen hv]

/-- `UnPackTLV` reads a value that is there as it is. -/
theorem At.tlv {v : TlvView R} (h : u.At bs) (hp : tlvView bs = some (v, rest)) :
    ∃ (t : TLV R) (u' : UnPacker), unPackTLV u = (retOk, t, u') ∧ t.view = v ∧ u'.At rest := by
  simp only [tlvView, Option.bind_eq_bind, Option.bind_eq_some_iff, Prod.exists,
    Option.some.injEq, Prod.mk.injEq] at hp
  obtain ⟨type, bs₁, htype, length, bs₂, hlength, kind, hkind, value, bs₃, hvalue, rfl, rfl⟩ := hp
  obtain ⟨hread, h⟩ := h.byte htype
  obtain ⟨hread', h⟩ := h.dword hlength
  simp only [unPackTLV, hread, hread', unPackValue, hkind]
  cases kind with
  | byte =>
      simp only [tlvValue, Option.map_eq_some_iff, Prod.exists, Prod.mk.injEq] at hvalue
      obtain ⟨w, _, hw, rfl, rfl⟩ := hvalue
      obtain ⟨hread'', h⟩ := h.byte hw
      simp only [hread'']
      exact ⟨_, _, rfl, by simp [TLV.view, hkind], h⟩
  | word =>
      simp only [tlvValue, Option.map_eq_some_iff, Prod.exists, Prod.mk.injEq] at hvalue
      obtain ⟨w, _, hw, rfl, rfl⟩ := hvalue
      obtain ⟨hread'', h⟩ := h.word hw
      simp only [hread'']
      exact ⟨_, _, rfl, by simp [TLV.view, hkind], h⟩
  | dword =>
      simp only [tlvValue, Option.map_eq_some_iff, Prod.exists, Prod.mk.injEq] at hvalue
      obtain ⟨w, _, hw, rfl, rfl⟩ := hvalue
      obtain ⟨hread'', h⟩ := h.dword hw
      simp only [hread'']
      exact ⟨_, _, rfl, by simp [TLV.view, hkind], h⟩
  | qword =>
      simp only [tlvValue, Option.map_eq_some_iff, Prod.exists, Prod.mk.injEq] at hvalue
      obtain ⟨w, _, hw, rfl, rfl⟩ := hvalue
      obtain ⟨hread'', h⟩ := h.qword hw
      simp only [hread'']
      exact ⟨_, _, rfl, by simp [TLV.view, hkind], h⟩
  | real =>
      simp only [tlvValue, Option.map_eq_some_iff, Prod.exists, Prod.mk.injEq] at hvalue
      obtain ⟨w, _, hw, rfl, rfl⟩ := hvalue
      obtain ⟨u', hread'', h⟩ := h.real (R := R) hw
      simp only [hread'']
      exact ⟨_, _, rfl, by simp [TLV.view, hkind], h⟩
  | binary =>
      simp only [tlvValue, Option.map_eq_some_iff, Prod.exists, Prod.mk.injEq] at hvalue
      obtain ⟨w, _, hw, rfl, rfl⟩ := hvalue
      obtain ⟨u', hread'', h⟩ := h.binaryStr [] hw
      have hsame : (if length.toNat = 0 then [] else w) = w := by
        obtain ⟨-, hlen⟩ := Format.take_eq_some_iff.mp hw
        split
        next h0 => exact (List.length_eq_zero_iff.mp (hlen.trans h0)).symm
        next => rfl
      rw [hsame] at hread''
      simp only [hread'']
      exact ⟨_, _, rfl, by simp [TLV.view, hkind], h⟩

end UnPacker

end Spp
