import Spp.Proto.Tlv

/-!
# Where the unpacker stands

An accessor that finds too little leaves the offset where it is, and the next one reads on
from there.  So the place of every read follows from the packet alone, also in a body that
ends early.

## Main definitions

* `UnPacker.Stands buf len p` — the unpacker is at the place `p` of a body of `len` bytes.
* `skip`, `typeAt`, `tlvEnd` — the place after a read; the type that `UnPackTLV` reads; the
  place where it leaves off.
* `MeetsUnknown` — a type that is not known comes up.
-/

namespace Spp

/-! ## Places -/

/-- The place after `n` bytes are read at `p`, which needs them to be there. -/
def skip (len n p : ℕ) : ℕ := if p + n ≤ len then p + n else p

/-- The byte that `UnPackByte` reads at `p`; it may be the one behind the body. -/
def typeAt (buf : ℕ → UInt8) (len p : ℕ) : UInt8 :=
  if p ≤ len then buf (msgHeaderLen + p) else 0

/-- The place where `UnPackTLV` leaves off. -/
def tlvEnd (buf : ℕ → UInt8) (len p : ℕ) : ℕ :=
  let q := skip (len + 1) 1 p
  let length := if q + 4 ≤ len then ofBe (Mem.read buf (msgHeaderLen + q) 4) else 0
  let r := skip len 4 q
  match TlvKind.ofType (typeAt buf len p) with
  | some .byte => skip (len + 1) 1 r
  | some .word => skip len 2 r
  | some .dword => skip len 4 r
  | some .qword => skip len 8 r
  | some .real => skip len (UnPacker.scan buf (len - r) (msgHeaderLen + r) + 1) r
  | some .binary => if u32 (r + length) ≤ len then u32 (r + length) else r
  | none => r

/-- Among the first `n` types that `UnPackTLV` reads from the place `p` on, one is not
known. -/
def MeetsUnknown (buf : ℕ → UInt8) (len : ℕ) : ℕ → ℕ → Prop
  | 0, _ => False
  | n + 1, p =>
      TlvKind.ofType (typeAt buf len p) = none ∨ MeetsUnknown buf len n (tlvEnd buf len p)

namespace UnPacker

/-- The unpacker is at the place `p` of the body, which has `len` bytes. -/
structure Stands (buf : ℕ → UInt8) (len p : ℕ) (u : UnPacker) : Prop where
  mem : u.mem = buf
  pBody : u.pBody = msgHeaderLen
  bodyLen : u.bodyLen = len
  offset : u.offset = p
  offset_le : p ≤ len + 1
  len_lt : len + 30 < 2 ^ 32

variable {buf : ℕ → UInt8} {len p n : ℕ} {u : UnPacker}

/-! ## One read -/

theorem Stands.fail (h : u.Stands buf len p) : u.fail.Stands buf len p :=
  ⟨h.mem, h.pBody, h.bodyLen, h.offset, h.offset_le, h.len_lt⟩

theorem Stands.touch (h : u.Stands buf len p) (start : ℕ) :
    (u.touch start n).Stands buf len p :=
  ⟨h.mem, h.pBody, h.bodyLen, h.offset, h.offset_le, h.len_lt⟩

theorem Stands.advance (h : u.Stands buf len p) (hle : u32 (p + n) ≤ len + 1) :
    (u.advance n).Stands buf len (u32 (p + n)) := by
  refine ⟨h.mem, h.pBody, h.bodyLen, ?_, hle, h.len_lt⟩
  simp [UnPacker.advance, h.offset]

theorem Stands.unPackByte (h : u.Stands buf len p) :
    u.unPackByte.1 = typeAt buf len p ∧
      u.unPackByte.2.Stands buf len (skip (len + 1) 1 p) := by
  have hle := h.offset_le
  have hlt := h.len_lt
  rw [UnPacker.unPackByte, h.offset, h.bodyLen, typeAt, skip]
  split
  next hend =>
    rw [if_neg (by omega), if_neg (by omega)]
    exact ⟨rfl, h.fail⟩
  next hin =>
    have hwrap : u32 (p + 1) = p + 1 := u32_of_lt (by omega)
    rw [if_pos (by omega), if_pos (by omega), ← hwrap, h.mem, h.pBody]
    exact ⟨rfl, (h.touch p).advance (by omega)⟩

theorem Stands.unPackUint (h : u.Stands buf len p) (hn : n ≤ 8) :
    (u.unPackUint n).1 =
        (if p + n ≤ len then ofLe (Mem.read buf (msgHeaderLen + p) n) else 0) ∧
      (u.unPackUint n).2.Stands buf len (skip len n p) := by
  have hle := h.offset_le
  have hlt := h.len_lt
  have hwrap : u32 (p + n) = p + n := u32_of_lt (by omega)
  have hback : msgHeaderLen + (p + n) - n = msgHeaderLen + p := by omega
  have hadvance : (u.advance n).offset = p + n := by simp [UnPacker.advance, h.offset, hwrap]
  rw [UnPacker.unPackUint, h.offset, h.bodyLen, skip, hwrap]
  split
  next hend =>
    rw [if_neg (by omega), if_neg (by omega)]
    exact ⟨rfl, h.fail⟩
  next hin =>
    have hstands := h.advance (n := n) (by omega)
    rw [hwrap] at hstands
    rw [if_pos (by omega), if_pos (by omega)]
    refine ⟨?_, hstands.touch _⟩
    simp only [hadvance, hstands.mem, hstands.pBody, hback]

theorem Stands.unPackWord (h : u.Stands buf len p) :
    u.unPackWord.1 =
        .ofNat (if p + 2 ≤ len then ofBe (Mem.read buf (msgHeaderLen + p) 2) else 0) ∧
      u.unPackWord.2.Stands buf len (skip len 2 p) := by
  obtain ⟨hvalue, hstands⟩ := h.unPackUint (n := 2) (by omega)
  refine ⟨?_, hstands⟩
  simp only [UnPacker.unPackWord, hvalue, htons]
  split
  · rw [bswap_ofLe (by simp)]
  · rfl

theorem Stands.unPackDWord (h : u.Stands buf len p) :
    u.unPackDWord.1 =
        .ofNat (if p + 4 ≤ len then ofBe (Mem.read buf (msgHeaderLen + p) 4) else 0) ∧
      u.unPackDWord.2.Stands buf len (skip len 4 p) := by
  obtain ⟨hvalue, hstands⟩ := h.unPackUint (n := 4) (by omega)
  refine ⟨?_, hstands⟩
  simp only [UnPacker.unPackDWord, hvalue, htonl]
  split
  · rw [bswap_ofLe (by simp)]
  · rfl

theorem Stands.unPackQWord (h : u.Stands buf len p) :
    u.unPackQWord.2.Stands buf len (skip len 8 p) :=
  (h.unPackUint (n := 8) (by omega)).2

theorem Stands.unPackBinaryStr (h : u.Stands buf len p) (data : List UInt8) :
    (u.unPackBinaryStr data n).2.2.Stands buf len
      (if u32 (p + n) ≤ len then u32 (p + n) else p) := by
  have hle := h.offset_le
  have hlt := h.len_lt
  rw [UnPacker.unPackBinaryStr, h.offset, h.bodyLen]
  by_cases hend : u32 (p + n) > len
  · rw [if_pos hend, if_neg (by omega)]
    exact h.fail
  · rw [if_neg hend, if_pos (by omega)]
    split
    next hzero =>
      have hwrap : u32 (p + n) = p := by rw [hzero, Nat.add_zero, u32_of_lt (by omega)]
      rw [hwrap]
      exact h
    next => exact (h.touch p).advance (by omega)

theorem Stands.unPackReal {R : Type} [CDouble R] (h : u.Stands buf len p) :
    (u.unPackReal : R × UnPacker).2.Stands buf len
      (skip len (scan buf (len - p) (msgHeaderLen + p) + 1) p) := by
  have hle := h.offset_le
  have hlt := h.len_lt
  have hscan := scan_le buf (len - p) (msgHeaderLen + p)
  rw [UnPacker.unPackReal, UnPacker.unPackStringLen, h.offset, h.bodyLen, h.mem, h.pBody, skip]
  by_cases hend : p + scan buf (len - p) (msgHeaderLen + p) ≥ len
  · rw [if_pos hend, if_neg (by omega)]
    exact h.touch p
  · have hwrap : u32 (p + (scan buf (len - p) (msgHeaderLen + p) + 1)) =
        p + (scan buf (len - p) (msgHeaderLen + p) + 1) := u32_of_lt (by omega)
    rw [if_neg hend, if_pos (by omega), ← hwrap]
    exact (h.touch p).advance (by omega)

/-- Integers in a row are read as long as there are four bytes left. -/
theorem Stands.unPackDWords (h : u.Stands buf len p) (n : ℕ) (v : List UInt32) :
    ∃ q, (unPackDWords n v u).2.Stands buf len q ∧
      (p + 4 * n ≤ len → q = p + 4 * n) ∧ (len < p + 4 * n → len < q + 4) := by
  induction n generalizing u p v with
  | zero => exact ⟨p, h, fun _ => rfl, fun hlt => by omega⟩
  | succ n ih =>
      obtain ⟨-, hstep⟩ := h.unPackDWord
      obtain ⟨q, hq, hfit, hlack⟩ := ih hstep (v ++ [u.unPackDWord.1])
      refine ⟨q, hq, ?_, ?_⟩
      · intro hle
        have hskip : skip len 4 p = p + 4 := by rw [skip, if_pos (by omega)]
        rw [hskip] at hfit
        rw [hfit (by omega)]
        omega
      · intro hlt
        by_cases hroom : p + 4 ≤ len
        · rw [skip, if_pos hroom] at hlack
          exact hlack (by omega)
        · rw [skip, if_neg hroom] at hfit hlack
          by_cases hrest : p + 4 * n ≤ len
          · have := hfit hrest
            omega
          · exact hlack (by omega)

/-! ## Values in a row -/

variable {R : Type} [CDouble R]

/-- `UnPackTLV` fails at a type that is not known, and nowhere else. -/
theorem Stands.unPackTLV (h : u.Stands buf len p) :
    ((unPackTLV u : ℕ × TLV R × UnPacker).1 = retOk ↔
        TlvKind.ofType (typeAt buf len p) ≠ none) ∧
      (unPackTLV u : ℕ × TLV R × UnPacker).2.2.Stands buf len (tlvEnd buf len p) := by
  obtain ⟨htype, h⟩ := h.unPackByte
  obtain ⟨hlength, h⟩ := h.unPackDWord
  generalize hq : skip (len + 1) 1 p = q at hlength h
  simp only [Spp.unPackTLV, unPackValue, htype, tlvEnd, hq]
  cases hkind : TlvKind.ofType (typeAt buf len p) with
  | none => exact ⟨by simp [errProtocol, retOk], h⟩
  | some kind =>
      cases kind <;> dsimp only
      case byte => exact ⟨by simp, h.unPackByte.2⟩
      case word => exact ⟨by simp, h.unPackWord.2⟩
      case dword => exact ⟨by simp, h.unPackDWord.2⟩
      case qword => exact ⟨by simp, h.unPackQWord⟩
      case real => exact ⟨by simp, h.unPackReal⟩
      case binary =>
        refine ⟨by simp, ?_⟩
        have hnat : (if q + 4 ≤ len then ofBe (Mem.read buf (msgHeaderLen + q) 4) else 0) <
            UInt32.size := by
          split
          · simpa using ofBe_lt (Mem.read buf (msgHeaderLen + q) 4)
          · decide
        rw [hlength, UInt32.toNat_ofNat_of_lt' hnat]
        exact h.unPackBinaryStr []

theorem Stands.unPackTLVs_eq_retOk_iff (h : u.Stands buf len p) (n : ℕ) (v : List (TLV R)) :
    (unPackTLVs n v u).1 = retOk ↔ ¬ MeetsUnknown buf len n p := by
  induction n generalizing u p v with
  | zero => simp [unPackTLVs, MeetsUnknown]
  | succ n ih =>
      obtain ⟨hret, hstands⟩ := h.unPackTLV (R := R)
      simp only [unPackTLVs, MeetsUnknown]
      split
      next hfail =>
        have hunknown : TlvKind.ofType (typeAt buf len p) = none := by
          by_contra hknown
          exact hfail (hret.mpr hknown)
        simp [hfail, hunknown]
      next hok =>
        have hknown := hret.mp (not_not.mp hok)
        simp [hknown, ih hstands]

end UnPacker

end Spp
