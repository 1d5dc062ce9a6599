import Spp.Proto.UnPacker
import Spp.Lib.Run

/-!
# What the unpacker reads

The fixed-width accessors stay inside the body.  Three others do not always:
`UnPackByte` admits the offset behind the last byte, `UnPackBinary` adds a length to the
offset that may wrap around, and `UnPackString` reads a byte before it compares its place
with the end, and reports no error where it finds none.  A series of calls stays inside the
body exactly when none of its calls is one of these.

## Main definitions

* `InBody` — all that was read lies in the body, and so does the offset.
* `Lacks` — the call asks for more than is left.
* `Safe` — the call stays inside the body and reports what it lacks.
* `Roomy` — the call is none of the three.
-/

namespace Spp.UnPacker

/-- The bytes of the body from the offset on. -/
def rest (u : UnPacker) : List UInt8 :=
  Mem.read u.mem (u.pBody + u.offset) (u.bodyLen - u.offset)

/-- The accessors read nothing outside the body, and the offset is inside. -/
structure InBody (u : UnPacker) : Prop where
  offset_le : u.offset ≤ u.bodyLen
  touched : ∀ r ∈ u.touched, r.1 + r.2 ≤ u.bodyLen

/-- The call asks for more than is left of the body; a string ends with a NUL. -/
def Lacks (u : UnPacker) : Call → Prop
  | .byte => u.bodyLen - u.offset < 1
  | .word => u.bodyLen - u.offset < 2
  | .dword => u.bodyLen - u.offset < 4
  | .qword => u.bodyLen - u.offset < 8
  | .binary _ len | .binaryPtr len | .binaryStr _ len => u.bodyLen - u.offset < len.toNat
  | .string | .stringLen => 0 ∉ u.rest

/-- The call stays inside the body; if it asks for more than is left, `GetErr` says so and
the offset is where it was. -/
def Safe (u : UnPacker) (c : Call) : Prop :=
  (u.call c).1.InBody ∧
    (u.Lacks c → (u.call c).1.getErr ≠ retOk ∧ (u.call c).1.offset = u.offset)

/-- `UnPackByte` is not called at the end of the body, the offset and the length of a
binary stay below `2 ^ 32`, and a string has its NUL inside the body. -/
def Roomy (u : UnPacker) : Call → Prop
  | .byte => u.offset ≠ u.bodyLen
  | .word | .dword | .qword => True
  | .binary _ len | .binaryPtr len | .binaryStr _ len => u.offset + len.toNat < 2 ^ 32
  | .string | .stringLen => 0 ∈ u.rest

instance (u : UnPacker) (c : Call) : Decidable (u.Roomy c) := by
  cases c <;> simp only [Roomy] <;> infer_instance

variable {u : UnPacker} {n : ℕ} {c : Call}

/-! ## One call -/

theorem inBody_fail (h : u.InBody) : u.fail.InBody := ⟨h.offset_le, h.touched⟩

theorem inBody_touch_iff (h : u.InBody) :
    (u.touch u.offset n).InBody ↔ u.offset + n ≤ u.bodyLen := by
  constructor
  · intro ht
    exact ht.touched (u.offset, n) (by simp [touch])
  · intro hle
    refine ⟨h.offset_le, ?_⟩
    intro r hr
    rcases List.mem_append.mp hr with hr | hr
    · exact h.touched r hr
    · simp only [List.mem_singleton] at hr
      subst hr
      exact hle

theorem inBody_next_iff (h : u.InBody) : (u.next n).InBody ↔ u.offset + n ≤ u.bodyLen := by
  rw [← inBody_touch_iff h]
  constructor
  · intro hn
    exact ⟨h.offset_le, hn.touched⟩
  · intro ht
    have hle := (inBody_touch_iff h).mp ht
    exact ⟨(Nat.mod_le _ _).trans hle, ht.touched⟩

/-- The accessors for wide integers test as they should. -/
theorem unPackUint_safe (h : u.InBody) (hlen : u.bodyLen + 30 < 2 ^ 32) (hn : n ≤ 8) :
    (u.unPackUint n).2.InBody ∧ (u.bodyLen - u.offset < n →
      (u.unPackUint n).2.getErr ≠ retOk ∧ (u.unPackUint n).2.offset = u.offset) := by
  have hle := h.offset_le
  have hwrap : u32 (u.offset + n) = u.offset + n := u32_of_lt (by omega)
  rw [unPackUint, hwrap]
  split
  next hlack => exact ⟨inBody_fail h, fun _ => ⟨Nat.one_ne_zero, rfl⟩⟩
  next hfit =>
    have hnext : ((u.advance n).touch ((u.advance n).offset - n) n) = u.next n := by
      simp [next, advance, touch, hwrap]
    simp only [hnext]
    exact ⟨(inBody_next_iff h).mpr (by omega), fun hlack => by omega⟩

/-- What the three accessors for binaries share. -/
theorem binary_safe_iff {len : ℕ} (h : u.InBody) (hlen : u.bodyLen + 30 < 2 ^ 32)
    (hlt : len < 2 ^ 32) :
    let u' := if u32 (u.offset + len) > u.bodyLen then u.fail else u.next len
    (u'.InBody ∧ (u.bodyLen - u.offset < len → u'.getErr ≠ retOk ∧ u'.offset = u.offset)) ↔
      u.offset + len < 2 ^ 32 := by
  have hle := h.offset_le
  by_cases hwrap : u.offset + len < 2 ^ 32
  · simp only [hwrap, iff_true, u32_of_lt hwrap]
    split
    next hlack => exact ⟨inBody_fail h, fun _ => ⟨Nat.one_ne_zero, rfl⟩⟩
    next hfit => exact ⟨(inBody_next_iff h).mpr (by omega), fun hlack => by omega⟩
  · have hsmall : ¬ u32 (u.offset + len) > u.bodyLen := by
      rw [u32]
      omega
    simp only [hwrap, iff_false, if_neg hsmall]
    rintro ⟨hin, -⟩
    have := (inBody_next_iff h).mp hin
    omega

theorem scan_lt_iff (m : ℕ → UInt8) (left q : ℕ) :
    scan m left q < left ↔ 0 ∈ Mem.read m q left := by
  induction left generalizing q with
  | zero => simp
  | succ left ih =>
      rw [scan, Mem.read_succ]
      by_cases h0 : m q = 0
      · simp [h0]
      · simp [h0, ih, eq_comm]

/-- What the two accessors for strings share. -/
theorem string_safe_iff (h : u.InBody) :
    let n := scan u.mem (u.bodyLen - u.offset) (u.pBody + u.offset)
    let u' := if u.offset + n ≥ u.bodyLen then u.touch u.offset (n + 1) else u.next (n + 1)
    (u'.InBody ∧ (0 ∉ u.rest → u'.getErr ≠ retOk ∧ u'.offset = u.offset)) ↔ 0 ∈ u.rest := by
  have hle := h.offset_le
  have hscan := scan_le u.mem (u.bodyLen - u.offset) (u.pBody + u.offset)
  have hiff := scan_lt_iff u.mem (u.bodyLen - u.offset) (u.pBody + u.offset)
  simp only [rest, ← hiff]
  split
  next hend =>
    constructor
    · rintro ⟨hin, -⟩
      have := (inBody_touch_iff h).mp hin
      omega
    · intro hlt
      omega
  next hend =>
    constructor
    · intro _
      omega
    · intro hlt
      exact ⟨(inBody_next_iff h).mpr (by omega), fun hno => absurd hlt hno⟩

/-- A call is safe exactly when it is none of the three that are not. -/
theorem safe_iff (h : u.InBody) (hlen : u.bodyLen + 30 < 2 ^ 32) :
    u.Safe c ↔ u.Roomy c := by
  have hle := h.offset_le
  cases c with
  | byte =>
      have hstate : (u.call .byte).1 = u.next 1 := by
        rw [call, unPackByte, if_neg (Nat.not_lt.mpr hle)]
        rfl
      simp only [Safe, Lacks, Roomy, hstate, inBody_next_iff h]
      constructor
      · rintro ⟨hin, -⟩
        omega
      · intro hne
        exact ⟨by omega, fun hlack => by omega⟩
  | word => exact iff_of_true (unPackUint_safe h hlen (by omega)) trivial
  | dword => exact iff_of_true (unPackUint_safe h hlen (by omega)) trivial
  | qword => exact iff_of_true (unPackUint_safe h hlen (by omega)) trivial
  | binary v len =>
      have hstate : (u.call (.binary v len)).1 =
          if u32 (u.offset + len.toNat) > u.bodyLen then u.fail else u.next len.toNat := by
        simp only [call, unPackBinary]
        split <;> rfl
      simp only [Safe, hstate]
      exact binary_safe_iff h hlen len.toNat_lt
  | binaryPtr len =>
      have hstate : (u.call (.binaryPtr len)).1 =
          if u32 (u.offset + len.toNat) > u.bodyLen then u.fail else u.next len.toNat := by
        simp only [call, unPackBinaryPtr]
        split <;> rfl
      simp only [Safe, hstate]
      exact binary_safe_iff h hlen len.toNat_lt
  | binaryStr data len =>
      by_cases hzero : len.toNat = 0
      · have hfit : ¬ u32 (u.offset + 0) > u.bodyLen := by
          rw [u32_of_lt (by omega)]
          omega
        have hstate : (u.call (.binaryStr data len)).1 = u := by
          simp only [call, unPackBinaryStr, hzero, if_neg hfit, if_true]
        simp only [Safe, Lacks, Roomy, hstate, hzero]
        exact iff_of_true ⟨h, fun hlack => by omega⟩ (by omega)
      · have hstate : (u.call (.binaryStr data len)).1 =
            if u32 (u.offset + len.toNat) > u.bodyLen then u.fail else u.next len.toNat := by
          simp only [call, unPackBinaryStr, if_neg hzero]
          split <;> rfl
        simp only [Safe, hstate]
        exact binary_safe_iff h hlen len.toNat_lt
  | string =>
      have hstate : (u.call .string).1 =
          let n := scan u.mem (u.bodyLen - u.offset) (u.pBody + u.offset)
          if u.offset + n ≥ u.bodyLen then u.touch u.offset (n + 1) else u.next (n + 1) := by
        simp only [call, unPackString]
        split <;> rfl
      simp only [Safe, hstate]
      exact string_safe_iff h
  | stringLen =>
      have hstate : (u.call .stringLen).1 =
          let n := scan u.mem (u.bodyLen - u.offset) (u.pBody + u.offset)
          if u.offset + n ≥ u.bodyLen then u.touch u.offset (n + 1) else u.next (n + 1) := by
        simp only [call, unPackStringLen]
        split <;> rfl
      simp only [Safe, hstate]
      exact string_safe_iff h

/-! ## Series of calls -/

theorem bodyLen_call : (u.call c).1.bodyLen = u.bodyLen := by
  cases c <;>
    simp only [call, unPackByte, unPackWord, unPackDWord, unPackQWord, unPackUint, unPackBinary,
      unPackBinaryPtr, unPackBinaryStr, unPackString, unPackStringLen] <;>
    repeat' split
  all_goals rfl

/-- A packet that `Init` accepts has a body, 30 bytes shorter than itself. -/
theorem init_bodyLen {u₀ : UnPacker} {data : ℕ → UInt8} {len : ℕ} (hlt : len < 2 ^ 32)
    (hok : (u₀.init data len).1 = retOk) :
    msgHeaderLen + 1 ≤ len ∧ (u₀.init data len).2.bodyLen = len - (msgHeaderLen + 1) := by
  have hlen : msgHeaderLen + 1 ≤ len := by
    by_contra hshort
    have hlt : len < msgHeaderLen + 1 := by omega
    simp [init, checkPack, hlt, errProtocol, retOk] at hok
  refine ⟨hlen, ?_⟩
  rw [msgHeaderLen] at hlen ⊢
  have hsub : u32sub len 29 = len - 29 := u32sub_of_le (by omega) hlt
  simp only [init, msgHeaderLen, hsub]
  rw [u32sub_of_le (by omega) (by omega)]
  omega

/-- The accessors stay inside the body and report what they lack exactly as long as
`UnPackByte` is not called at the end of the body, no length makes the offset wrap around,
and every string has its NUL inside the body. -/
theorem calls_safe_iff (u₀ : UnPacker) (data : ℕ → UInt8) (len : UInt32)
    (hok : (u₀.init data len.toNat).1 = retOk) (calls : List Call) :
    Run.Always call Safe (u₀.init data len.toNat).2 calls ↔
      Run.Always call Roomy (u₀.init data len.toNat).2 calls := by
  have hbody := init_bodyLen len.toNat_lt hok
  have hlt := len.toNat_lt
  rw [msgHeaderLen] at hbody
  refine Run.always_congr (fun u => u.InBody ∧ u.bodyLen + 30 < 2 ^ 32) ?_ ?_ ?_
  · intro u c hu hsafe
    exact ⟨hsafe.1, by rw [bodyLen_call]; exact hu.2⟩
  · intro u c hu
    exact safe_iff hu.1 hu.2
  · refine ⟨⟨Nat.zero_le _, ?_⟩, by omega⟩
    simp [init]

/-- A packet with a byte, a word and a string in its body. -/
def shortPack : List UInt8 :=
  [74, 1, 0, 0, 0, 0, 35, 5, 0, 0, 0, 0, 0, 0, 1, 0, 0, 0, 2, 0, 0, 0, 3, 0, 1, 0, 0, 0, 0,
    7, 1, 2, 97, 0, 87]

/-- They are read, and a word behind them is missed. -/
theorem calls_safe_short :
    let u := (fresh.init (fun i => shortPack.getD i 0) (35 : UInt32).toNat).2
    Run.Always call Safe u [.byte, .word, .string, .word] ∧
      (Run.trace call u [.byte, .word, .string]).map Prod.snd =
        [.byte 7, .word 258, .string [97]] := by
  intro u
  constructor
  · apply (calls_safe_iff fresh (fun i => shortPack.getD i 0) 35 (by decide) _).mpr
    exact ⟨by decide, trivial, by decide, trivial, trivial⟩
  · decide

/-- A packet with an empty body. -/
def emptyPack : List UInt8 :=
  [74, 1, 0, 0, 0, 0, 30, 5, 0, 0, 0, 0, 0, 0, 1, 0, 0, 0, 2, 0, 0, 0, 3, 0, 1, 0, 0, 0, 0, 87]

/-- In an empty body `UnPackByte` returns the end mark. -/
theorem not_calls_safe : ¬ ∀ (u₀ : UnPacker) (data : ℕ → UInt8) (len : UInt32),
    (u₀.init data len.toNat).1 = retOk → ∀ calls : List Call,
      Run.Always call Safe (u₀.init data len.toNat).2 calls := by
  intro h
  have hsafe := h fresh (fun i => emptyPack.getD i 0) 30 (by decide) [.byte]
  exact absurd hsafe.1.1.offset_le (by decide)

end Spp.UnPacker
