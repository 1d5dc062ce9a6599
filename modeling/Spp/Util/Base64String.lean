import Mathlib.Data.List.TakeWhile
import Spp.Util.Base64

/-!
# Base64 of a string

The functions on strings allocate a buffer for the one on buffers, and assign it as a C string.
`base64_decode` allocates three bytes for each four characters that are there, but writes three also
for the last ones, and its table is reached through signed characters.

## Main definitions

* `encodeToString`, `decodeToString` — the functions from a buffer to a string.
* `encodeString`, `decodeString` — those from a string to a string.
* `Safe` — decoding stays in what it may touch.
* `Restored`, `Restorable` — a string is decoded from what it has been encoded to, and when.
-/

namespace Spp.Base64

/-- The value of an `int` expression, which is not defined outside of the range. -/
def int (z : ℤ) : Option ℤ := if -2 ^ 31 ≤ z ∧ z < 2 ^ 31 then some z else none

/-- The C string at the beginning of a buffer. -/
def cstr (bs : List UInt8) : List UInt8 := bs.takeWhile (· ≠ 0)

/-- `base64_encode` to a string that holds `dst`; the list is what can be read. -/
def encodeToString (src : List UInt8) (srcLen : ℤ) (dst : List UInt8) : Option (List UInt8) :=
  if srcLen ≤ 0 then some dst
  else do
    let n ← int (srcLen + 2)
    let dstlen ← int (n / 3 * 4)
    let pdst ← base64Encode (src.take srcLen.toNat)
    if pdst.length ≤ dstlen + 1 then some (cstr pdst) else none

/-- `base64_decode` to a string that holds `dst`; the list is what can be read. -/
def decodeToString (src : List UInt8) (srcLen : ℤ) (dst : List UInt8) : Option (List UInt8) :=
  if srcLen ≤ 0 then some dst
  else do
    let dstlen := srcLen.toNat / 4 * 3
    let pdst ← base64Decode src srcLen
    if pdst.length ≤ dstlen + 1 then some (cstr (pdst.set dstlen 0)) else none

/-- `base64_encode` from a string; its size is converted to `int`. -/
def encodeString (src dst : List UInt8) : Option (List UInt8) :=
  encodeToString (src ++ [0]) (s32 src.length) dst

/-- `base64_decode` from a string; its size is converted to `int`. -/
def decodeString (src dst : List UInt8) : Option (List UInt8) :=
  decodeToString (src ++ [0]) (s32 src.length) dst

/-! ## C strings -/

theorem cstr_append_zero (bs : List UInt8) : cstr (bs ++ [0]) = cstr bs := by
  rw [cstr, cstr, List.takeWhile_append]
  split
  · next hlength =>
      have hself := (List.takeWhile_prefix fun c : UInt8 => decide (c ≠ 0)).eq_of_length hlength
      rw [hself]
      simp
  · rfl

theorem length_cstr_le (bs : List UInt8) : (cstr bs).length ≤ bs.length :=
  (List.takeWhile_prefix _).length_le

theorem cstr_eq_self_iff {bs : List UInt8} : cstr bs = bs ↔ 0 ∉ bs := by
  rw [cstr, List.takeWhile_eq_self_iff]
  constructor
  · intro hall hmem
    simpa using hall 0 hmem
  · intro hnot c hc
    simpa using fun hzero : c = 0 => hnot (hzero ▸ hc)

theorem cstr_append_fill (src : List UInt8) : cstr (src ++ fill src) = cstr src := by
  rw [fill]
  induction (3 - src.length % 3) % 3 with
  | zero => simp
  | succ n ih => rw [List.replicate_succ', ← List.append_assoc, cstr_append_zero, ih]

/-! ## What is decoded -/

theorem putAll_eq_some {dst cs out : List UInt8} (h : putAll dst cs = some out) :
    out = dst ++ cs := by
  induction cs generalizing dst with
  | nil => simpa [putAll] using h.symm
  | cons c cs ih =>
      have hput : putAll dst (c :: cs) = (put dst c).bind fun dst => putAll dst cs := rfl
      rw [hput, put] at h
      split at h
      · rw [ih h, List.append_assoc]
        rfl
      · cases h

/-- The rounds write three bytes each behind what has been written. -/
theorem decodeLoop_behind {src dst out : List UInt8} {n : ℕ}
    (h : decodeLoop src n dst = some out) :
    dst <+: out ∧ out.length = dst.length + 3 * ((n + 3) / 4) := by
  induction src, n, dst using decodeLoop.induct with
  | case1 src dst =>
      rw [decodeLoop] at h
      cases h
      exact ⟨List.prefix_rfl, rfl⟩
  | case2 a b c d src n dst ih =>
      simp only [decodeLoop, Option.bind_eq_bind, Option.bind_eq_some_iff] at h
      obtain ⟨x, -, y, -, z, -, w, -, dst', hput, hrest⟩ := h
      obtain ⟨hbehind, hlength⟩ := ih dst' hrest
      rw [putAll_eq_some hput] at hbehind hlength
      refine ⟨(List.prefix_append _ _).trans hbehind, ?_⟩
      rw [hlength, List.length_append]
      simp only [List.length_cons, List.length_nil]
      omega
  | case3 src n dst hshort =>
      rw [decodeLoop.eq_3 _ _ _ hshort] at h
      cases h

theorem isSome_decodeMap (c : UInt8) : (decodeMap c).isSome ↔ c < 128 := by
  revert c
  exact forall_byte (by decide +kernel)

theorem exists_four {src : List UInt8} {k : ℕ} (h : 4 * (k + 1) ≤ src.length) :
    ∃ a b c d rest, src = a :: b :: c :: d :: rest := by
  match src, h with
  | a :: b :: c :: d :: src, _ => exact ⟨a, b, c, d, src, rfl⟩

/-- Characters are decoded if and only if none is negative. -/
theorem isSome_decodeLoop {k : ℕ} {src dst : List UInt8} (hsrc : 4 * k ≤ src.length)
    (hdst : dst.length + 3 * k < 2 ^ 31) :
    (decodeLoop src (4 * k) dst).isSome ↔ ∀ c ∈ src.take (4 * k), c < 128 := by
  induction k generalizing src dst with
  | zero => simp [decodeLoop]
  | succ k ih =>
      obtain ⟨a, b, c, d, src, rfl⟩ := exists_four hsrc
      simp only [Nat.mul_succ, List.take_succ_cons, List.forall_mem_cons]
      by_cases hall : a < 128 ∧ b < 128 ∧ c < 128 ∧ d < 128
      · obtain ⟨ha, hb, hc, hd⟩ := hall
        obtain ⟨x, hx⟩ := Option.isSome_iff_exists.mp ((isSome_decodeMap a).mpr ha)
        obtain ⟨y, hy⟩ := Option.isSome_iff_exists.mp ((isSome_decodeMap b).mpr hb)
        obtain ⟨z, hz⟩ := Option.isSome_iff_exists.mp ((isSome_decodeMap c).mpr hc)
        obtain ⟨w, hw⟩ := Option.isSome_iff_exists.mp ((isSome_decodeMap d).mpr hd)
        rw [decodeLoop_cons hx hy hz hw _ _ (by omega),
          ih (by simp at hsrc; omega) (by simp; omega)]
        simp [ha, hb, hc, hd]
      · apply iff_of_false
        · intro hsome
          obtain ⟨out, hout⟩ := Option.isSome_iff_exists.mp hsome
          simp only [decodeLoop, Option.bind_eq_bind, Option.bind_eq_some_iff] at hout
          obtain ⟨x, hx, y, hy, z, hz, w, hw, -⟩ := hout
          exact hall ⟨(isSome_decodeMap a).mp (hx ▸ rfl), (isSome_decodeMap b).mp (hy ▸ rfl),
            (isSome_decodeMap c).mp (hz ▸ rfl), (isSome_decodeMap d).mp (hw ▸ rfl)⟩
        · rintro ⟨ha, hb, hc, hd, -⟩
          exact hall ⟨ha, hb, hc, hd⟩

/-- The buffer takes what is written if and only if no characters are left over. -/
theorem decodeToString_eq (src dst : List UInt8) {n : ℕ} (hn : 0 < n) : decodeToString src n dst =
    if 4 ∣ n then (decodeLoop src n []).map cstr else none := by
  rw [decodeToString, if_neg (by omega), base64Decode, Int.toNat_natCast]
  cases hloop : decodeLoop src n [] with
  | none => simp
  | some out =>
      obtain ⟨-, hlength⟩ := decodeLoop_behind hloop
      rw [List.length_nil, Nat.zero_add] at hlength
      simp only [Option.bind_eq_bind, Option.bind_some, Option.map_some, Option.pure_def]
      by_cases hfour : 4 ∣ n
      · have hdstlen : out.length = n / 4 * 3 := by omega
        have hset : (out ++ [0]).set (n / 4 * 3) 0 = out ++ [0] := by
          rw [← hdstlen]
          simp
        rw [if_pos hfour, if_pos (by simp [hdstlen]), hset, cstr_append_zero]
      · rw [if_neg hfour, if_neg (by simp [hlength]; omega)]

/-- Decoding `n` of the characters that can be read. -/
theorem isSome_decodeToString {src : List UInt8} {n : ℕ} (hn : 0 < n) (hsrc : n ≤ src.length)
    (hint : n < 2 ^ 31) (dst : List UInt8) : (decodeToString src n dst).isSome ↔
      4 ∣ n ∧ ∀ c ∈ src.take n, c < 128 := by
  rw [decodeToString_eq _ _ hn]
  split
  · next hfour =>
      obtain ⟨k, rfl⟩ := hfour
      have hsome := @isSome_decodeLoop k src [] hsrc (by rw [List.length_nil]; omega)
      simp [← hsome]
  · next hfour => simp [hfour]

/-- `base64_decode` reads only the characters, and stays in its table and in the buffer that it has
allocated. -/
def Safe (src : List UInt8) : Prop :=
  ∀ dst, (decodeToString src src.length dst).isSome

/-- Decoding is safe if and only if the characters come in fours and none is negative. -/
theorem decode_safe_iff {src : List UInt8} (hint : src.length < 2 ^ 31) :
    Safe src ↔ 4 ∣ src.length ∧ ∀ c ∈ src, c < 128 := by
  rcases Nat.eq_zero_or_pos src.length with hzero | hpos
  · rw [List.length_eq_zero_iff.mp hzero]
    simp [Safe, decodeToString]
  · simp only [Safe, isSome_decodeToString hpos le_rfl hint, List.take_length, forall_const]

theorem decode_safe_iff_four : Safe [81, 85, 74, 68] :=
  (decode_safe_iff (by decide)).mpr ⟨by decide, by simp⟩

/-- One character is too few. -/
theorem not_safe : ¬ ∀ src : List UInt8, src.length < 2 ^ 31 → Safe src := by
  intro hall
  have hsome := hall [65] (by decide) []
  exact absurd hsome (by decide)

/-! ## What is restored -/

/-- What is encoded to the one string is decoded to the other one. -/
def Restored (src enc dec : List UInt8) : Prop :=
  ∃ chars, encodeString src enc = some chars ∧ decodeString chars dec = some src

/-- Characters that are decoded to bytes of which the first one is NUL. -/
structure StartsWithNul (src : List UInt8) : Prop where
  four : 4 ∣ src.length
  nonneg : ∀ c ∈ src, c < 128
  start : ∃ a b rest, src = a :: b :: rest ∧ (a = pad ∨ a = 65) ∧ (b = pad ∨ 65 ≤ b ∧ b ≤ 80)

/-- A string has no NUL, and an `int` counts its characters.  Where its size as an `int` is not
positive, the strings are left as they are. -/
def Restorable (src enc dec : List UInt8) : Prop :=
  if 0 < s32 src.length then src.length ≤ 3 * (2 ^ 29 - 1) ∧ 0 ∉ src
  else if 0 < s32 enc.length then src = [] ∧ StartsWithNul (enc.take (s32 enc.length).toNat)
  else dec = src

theorem toChar_shiftLeft_eq_zero {a : UInt8} {x : Int32} (ha : decodeMap a = some x) :
    toChar (x <<< 2) = 0 ↔ a = pad ∨ a = 65 := by
  have hall : ∀ a, (decodeMap a).all fun x : Int32 =>
      decide (toChar (x <<< 2) = 0 ↔ a = pad ∨ a = 65) := forall_byte (by decide +kernel)
  have hone := hall a
  rw [ha] at hone
  exact of_decide_eq_true hone

theorem toChar_shiftRight_eq_zero {b : UInt8} {y : Int32} (hb : decodeMap b = some y) :
    toChar (y >>> 4) = 0 ↔ b = pad ∨ 65 ≤ b ∧ b ≤ 80 := by
  have hall : ∀ b, (decodeMap b).all fun y : Int32 =>
      decide (toChar (y >>> 4) = 0 ↔ b = pad ∨ 65 ≤ b ∧ b ≤ 80) := forall_byte (by decide +kernel)
  have hone := hall b
  rw [hb] at hone
  exact of_decide_eq_true hone

theorem cstr_eq_nil_iff {c : UInt8} {bs out : List UInt8} (h : c :: bs <+: out) :
    cstr out = [] ↔ c = 0 := by
  obtain ⟨rest, rfl⟩ := h
  by_cases hc : c = 0
  · simp [cstr, hc]
  · simp [cstr, hc]

/-- The first byte of four characters and more. -/
theorem cstr_decodeLoop_eq_nil_iff {a b c d : UInt8} {src out : List UInt8} {n : ℕ}
    (h : decodeLoop (a :: b :: c :: d :: src) (n + 4) [] = some out) :
    cstr out = [] ↔ (a = pad ∨ a = 65) ∧ (b = pad ∨ 65 ≤ b ∧ b ≤ 80) := by
  have hround := h
  simp only [decodeLoop, Option.bind_eq_bind, Option.bind_eq_some_iff] at hround
  obtain ⟨x, hx, y, hy, z, hz, w, hw, -⟩ := hround
  rw [decodeLoop_cons hx hy hz hw _ _ (by decide)] at h
  rw [cstr_eq_nil_iff (decodeLoop_behind h).1, toChar_or, UInt8.or_eq_zero_iff,
    toChar_shiftLeft_eq_zero hx, toChar_shiftRight_eq_zero hy]

/-- The empty string is decoded from characters that start with a NUL byte. -/
theorem decodeToString_eq_nil_iff {src : List UInt8} {n : ℕ} (hn : 0 < n) (hsrc : n ≤ src.length)
    (hint : n < 2 ^ 31) (dst : List UInt8) :
    decodeToString src n dst = some [] ↔ StartsWithNul (src.take n) := by
  have hlength : (src.take n).length = n := List.length_take_of_le hsrc
  by_cases hsafe : 4 ∣ n ∧ ∀ c ∈ src.take n, c < 128
  · obtain ⟨⟨k, rfl⟩, hnonneg⟩ := hsafe
    obtain ⟨out, hout⟩ := Option.isSome_iff_exists.mp
      ((@isSome_decodeLoop k src [] hsrc (by rw [List.length_nil]; omega)).mpr hnonneg)
    rw [decodeToString_eq _ _ hn, if_pos (Nat.dvd_mul_right 4 k), hout, Option.map_some,
      Option.some_inj]
    cases k with
    | zero => exact absurd hn (Nat.lt_irrefl 0)
    | succ k =>
        obtain ⟨a, b, c, d, src, rfl⟩ := exists_four hsrc
        rw [cstr_decodeLoop_eq_nil_iff hout]
        constructor
        · rintro ⟨ha, hb⟩
          exact ⟨hlength.symm ▸ Nat.dvd_mul_right 4 _, hnonneg, a, b, _, rfl, ha, hb⟩
        · rintro ⟨-, -, a', b', rest, htake, ha, hb⟩
          cases htake
          exact ⟨ha, hb⟩
  · apply iff_of_false
    · intro hnil
      exact hsafe ((isSome_decodeToString hn hsrc hint dst).mp (hnil ▸ rfl))
    · intro hstart
      exact hsafe ⟨hlength ▸ hstart.four, hstart.nonneg⟩

theorem zero_notMem_text (src : List UInt8) : 0 ∉ text src := by
  obtain ⟨body, htext, hbody⟩ := text_letters src
  rw [htext, List.mem_append, not_or]
  constructor
  · intro hmem
    exact absurd (hbody 0 hmem) (by decide)
  · intro hmem
    exact absurd (List.eq_of_mem_replicate hmem) (by decide)

theorem int_of_nonneg {z : ℤ} (hlo : 0 ≤ z) (hhi : z < 2 ^ 31) : int z = some z :=
  if_pos ⟨by omega, hhi⟩

/-- Encoding `n` of the bytes that can be read. -/
theorem encodeToString_of_le {src : List UInt8} {n : ℕ} (hn : 0 < n) (hsrc : n ≤ src.length)
    (hle : n ≤ 3 * (2 ^ 29 - 1)) (dst : List UInt8) :
    encodeToString src n dst = some (text (src.take n)) := by
  have hlength : (src.take n).length = n := List.length_take_of_le hsrc
  have hencode : base64Encode (src.take n) = some (text (src.take n) ++ [0]) := by
    rw [base64Encode_eq, hlength, if_pos (by omega)]
  have hroom : ((text (src.take n) ++ [0]).length : ℤ) ≤ (n + 2) / 3 * 4 + 1 := by
    rw [List.length_append, length_text, hlength, List.length_singleton]
    omega
  have hn2 : int ((n : ℤ) + 2) = some ((n : ℤ) + 2) := int_of_nonneg (by omega) (by omega)
  have hdstlen : int (((n : ℤ) + 2) / 3 * 4) = some (((n : ℤ) + 2) / 3 * 4) :=
    int_of_nonneg (by omega) (by omega)
  rw [encodeToString, if_neg (by omega), Int.toNat_natCast, hencode, hn2]
  rw [Option.bind_eq_bind, Option.bind_some, hdstlen, Option.bind_eq_bind, Option.bind_some,
    Option.bind_some, if_pos hroom, cstr_append_zero, cstr_eq_self_iff.mpr (zero_notMem_text _)]

theorem encodeToString_of_lt {src : List UInt8} {n : ℕ} (hsrc : n ≤ src.length)
    (hlong : 3 * (2 ^ 29 - 1) < n) (dst : List UInt8) : encodeToString src n dst = none := by
  have hlength : (src.take n).length = n := List.length_take_of_le hsrc
  have hencode : base64Encode (src.take n) = none := base64Encode_eq_none (hlength.symm ▸ hlong)
  rw [encodeToString, if_neg (by omega), Int.toNat_natCast, hencode]
  cases int (↑n + 2) with
  | none => rfl
  | some m => simp

/-- The characters of some bytes are decoded to these as a C string. -/
theorem decodeString_text {src : List UInt8} (hne : src ≠ [])
    (hlong : src.length ≤ 3 * (2 ^ 29 - 1)) (dst : List UInt8) :
    decodeString (text src) dst = some (cstr src) := by
  have hlength := length_text src
  have hpos : 0 < src.length := List.length_pos_iff.mpr hne
  have hfits : ([] : List UInt8).length + (src ++ fill src).length < 2 ^ 31 := by
    rw [length_append_fill, List.length_nil]
    omega
  have hloop := decodeLoop_text src [0] hfits
  rw [decodeString, s32_of_lt (by omega), decodeToString_eq _ _ (by omega),
    if_pos (Dvd.intro _ hlength.symm), hloop, Option.map_some, List.nil_append, cstr_append_fill]

/-- A size that an `int` shows as positive is the `int`, or does not fit. -/
theorem s32_natCast_cases {n : ℕ} (h : 0 < s32 n) : ∃ m : ℕ, s32 n = m ∧ 0 < m ∧ m < 2 ^ 31 ∧
    (m = n ∨ m < n ∧ 2 ^ 31 ≤ n) := by
  refine ⟨(s32 n).toNat, ?_⟩
  simp only [s32] at h ⊢
  omega

/-- What is encoded from a string is decoded to a C string. -/
theorem restored_of_pos {src : List UInt8} {m : ℕ} (hm : s32 src.length = m) (hpos : 0 < m)
    (hle : m ≤ src.length) (enc dec : List UInt8) :
    Restored src enc dec ↔ m ≤ 3 * (2 ^ 29 - 1) ∧ cstr (src.take m) = src := by
  have hsrc : m ≤ (src ++ [0]).length := by
    rw [List.length_append]
    omega
  have hlength : (src.take m).length = m := List.length_take_of_le hle
  rw [Restored, encodeString, hm]
  by_cases hlong : m ≤ 3 * (2 ^ 29 - 1)
  · rw [encodeToString_of_le hpos hsrc hlong, List.take_append_of_le_length hle]
    have hdecode := decodeString_text (List.length_pos_iff.mp (hlength.symm ▸ hpos))
      (hlength.symm ▸ hlong) dec
    constructor
    · rintro ⟨chars, hchars, hrest⟩
      cases hchars
      rw [hdecode] at hrest
      exact ⟨hlong, Option.some_inj.mp hrest⟩
    · rintro ⟨-, hcstr⟩
      exact ⟨_, rfl, hdecode.trans (congrArg some hcstr)⟩
  · rw [encodeToString_of_lt hsrc (Nat.lt_of_not_le hlong)]
    apply iff_of_false
    · rintro ⟨chars, hchars, -⟩
      cases hchars
    · rintro ⟨hshort, -⟩
      exact hlong hshort

theorem restored_of_nonpos {src : List UInt8} (hneg : ¬ 0 < s32 src.length)
    (enc dec : List UInt8) : Restored src enc dec ↔ decodeString enc dec = some src := by
  have hencode : encodeString src enc = some enc := by
    rw [encodeString, encodeToString, if_pos (not_lt.mp hneg)]
  rw [Restored, hencode]
  constructor
  · rintro ⟨chars, hchars, hdecode⟩
    cases hchars
    exact hdecode
  · intro hdecode
    exact ⟨enc, rfl, hdecode⟩

/-- Fewer bytes are decoded than there are characters. -/
theorem length_lt_of_decodeToString {src dst out : List UInt8} {n : ℕ} (hn : 0 < n)
    (h : decodeToString src n dst = some out) : out.length < n := by
  rw [decodeToString_eq _ _ hn] at h
  split at h
  · next hfour =>
      obtain ⟨bytes, hloop, rfl⟩ := Option.map_eq_some_iff.mp h
      have hlength := (decodeLoop_behind hloop).2
      have hcstr := length_cstr_le bytes
      rw [List.length_nil] at hlength
      omega
  · cases h

/-- A string is restored if and only if it has no NUL and an `int` counts its characters, or the
strings that are left as they are hold what they should. -/
theorem restored_iff (src enc dec : List UInt8) :
    Restored src enc dec ↔ Restorable src enc dec := by
  rw [Restorable]
  split
  · next hpos =>
      obtain ⟨m, hm, hmpos, hmint, hcases⟩ := s32_natCast_cases hpos
      rcases hcases with rfl | ⟨hlt, hbig⟩
      · rw [restored_of_pos hm hmpos le_rfl, List.take_length, cstr_eq_self_iff]
      · -- only some of the bytes are encoded
        rw [restored_of_pos hm hmpos hlt.le]
        apply iff_of_false
        · rintro ⟨-, hcstr⟩
          have hshort := length_cstr_le (src.take m)
          rw [hcstr, List.length_take] at hshort
          omega
        · rintro ⟨hshort, -⟩
          omega
  · next hneg =>
      rw [restored_of_nonpos hneg]
      split
      · next hpos =>
          obtain ⟨m, hm, hmpos, hmint, hcases⟩ := s32_natCast_cases hpos
          have hle : m ≤ enc.length := by omega
          have hsrc : m ≤ (enc ++ [0]).length := by
            rw [List.length_append]
            omega
          rw [decodeString, hm, Int.toNat_natCast]
          by_cases hnil : src = []
          · rw [hnil, decodeToString_eq_nil_iff hmpos hsrc hmint, List.take_append_of_le_length hle]
            simp
          · -- no decoding gives that many bytes
            apply iff_of_false
            · intro hdecode
              have hfew := length_lt_of_decodeToString hmpos hdecode
              have hmany : 0 < src.length := List.length_pos_iff.mpr hnil
              simp only [s32] at hneg
              omega
            · rintro ⟨hempty, -⟩
              exact hnil hempty
      · next hneg' =>
          rw [decodeString, decodeToString, if_pos (not_lt.mp hneg'), Option.some_inj]

/-- One NUL is lost. -/
theorem not_restored : ¬ ∀ src enc dec : List UInt8, Restored src enc dec := by
  intro hall
  have hsize : s32 ([0] : List UInt8).length = (1 : ℕ) := by decide
  have hrest := (restored_of_pos hsize Nat.one_pos le_rfl [] []).mp (hall [0] [] [])
  exact absurd hrest.2 (by decide)

end Spp.Base64
