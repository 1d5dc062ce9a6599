import Spp.Lib.Word

/-!
# Base64 of a buffer

`base64_encode` writes four characters for three bytes, and pads the last ones with `=`.
`base64_decode` writes three bytes for four characters.  A character is signed, and is widened in an
expression, where a shift moves the bits of a negative number too; an index is an `int`, which
cannot count on from 2^31 - 1.

## Main definitions

* `base64Encode`, `base64Decode` — the functions on buffers, `none` where this is undefined.
* `text` — the characters that encode a list of bytes.
* `RoundTrip` — a list of bytes is written as such characters, and read back from them.
-/

namespace Spp.Base64

/-- `base64_map` -/
def base64Map : List UInt8 :=
  "ABCDEFGHIJKLMNOPQRSTUVWXYZabcdefghijklmnopqrstuvwxyz0123456789+/".toList.map
    fun c => UInt8.ofNat c.toNat

/-- `base64_decode_map` -/
def base64DecodeMap : List UInt8 := [
  255, 255, 255, 255, 255, 255, 255, 255, 255, 255, 255, 255, 255, 255, 255, 255, 255, 255, 255, 255,
  255, 255, 255, 255, 255, 255, 255, 255, 255, 255, 255, 255, 255, 255, 255, 255, 255, 255, 255, 255,
  255, 255, 255, 62, 255, 255, 255, 63, 52, 53, 54, 55, 56, 57, 58, 59, 60, 61, 255, 255,
  255, 0, 255, 255, 255, 0, 1, 2, 3, 4, 5, 6, 7, 8, 9, 10, 11, 12, 13, 14,
  15, 16, 17, 18, 19, 20, 21, 22, 23, 24, 25, 255, 255, 255, 255, 255, 255, 26, 27, 28,
  29, 30, 31, 32, 33, 34, 35, 36, 37, 38, 39, 40, 41, 42, 43, 44, 45, 46, 47, 48,
  49, 50, 51, 255, 255, 255, 255, 255, 255, 255, 255, 255, 255, 255, 255, 255, 255, 255, 255, 255,
  255, 255, 255, 255, 255, 255, 255, 255, 255, 255, 255, 255, 255, 255, 255, 255, 255, 255, 255, 255,
  255, 255, 255, 255, 255, 255, 255, 255, 255, 255, 255, 255, 255, 255, 255, 255, 255, 255, 255, 255,
  255, 255, 255, 255, 255, 255, 255, 255, 255, 255, 255, 255, 255, 255, 255, 255, 255, 255, 255, 255,
  255, 255, 255, 255, 255, 255, 255, 255, 255, 255, 255, 255, 255, 255, 255, 255, 255, 255, 255, 255,
  255, 255, 255, 255, 255, 255, 255, 255, 255, 255, 255, 255, 255, 255, 255, 255, 255, 255, 255, 255,
  255, 255, 255, 255, 255, 255, 255, 255, 255, 255, 255, 255, 255, 255, 255, 255]

/-- The character `=`. -/
def pad : UInt8 := 61

/-- A signed character in an expression. -/
def toInt (c : UInt8) : Int32 := c.toInt8.toInt32

/-- What is left of an expression in a character. -/
def toChar (x : Int32) : UInt8 := x.toInt8.toUInt8

/-- `base64_map[x]`, where a mask keeps `x` inside. -/
def encodeMap (x : Int32) : UInt8 := base64Map.getD x.toNatClampNeg 0

/-- `base64_decode_map[c]`; a negative index lies outside. -/
def decodeMap (c : UInt8) : Option Int32 :=
  if 0 ≤ toInt c then base64DecodeMap[c.toNat]?.map toInt else none

/-- `dst[j++] = c`, where `dst` are the bytes before `j`. -/
def put (dst : List UInt8) (c : UInt8) : Option (List UInt8) :=
  if dst.length + 1 < 2 ^ 31 then some (dst ++ [c]) else none

/-- Some of these assignments. -/
def putAll (dst cs : List UInt8) : Option (List UInt8) := cs.foldlM put dst

/-- `base64_encode` without the last assignment, from `src[i]` on. -/
def encodeLoop : List UInt8 → List UInt8 → Option (List UInt8)
  | a :: b :: c :: src, dst => do
      let dst ← putAll dst [
        encodeMap (toInt a >>> 2 &&& 0x3F),
        encodeMap ((toInt a <<< (4 : Int32) &&& 0x30) + (toInt b >>> (4 : Int32) &&& 0xF)),
        encodeMap ((toInt b <<< (2 : Int32) &&& 0x3C) + (toInt c >>> (6 : Int32) &&& 0x3)),
        encodeMap (toInt c &&& 0x3F)]
      encodeLoop src dst
  | [a], dst =>
      putAll dst [
        encodeMap (toInt a >>> 2 &&& 0x3F),
        encodeMap (toInt a <<< 4 &&& 0x30),
        pad,
        pad]
  | [a, b], dst =>
      putAll dst [
        encodeMap (toInt a >>> 2 &&& 0x3F),
        encodeMap ((toInt a <<< (4 : Int32) &&& 0x30) + (toInt b >>> (4 : Int32) &&& 0xF)),
        encodeMap (toInt b <<< 2 &&& 0x3C),
        pad]
  | [], dst => some dst

/-- `base64_encode` of the bytes `src`: what it writes to `dst`. -/
def base64Encode (src : List UInt8) : Option (List UInt8) := do
  let dst ← encodeLoop src []
  return dst ++ [0]

/-- `base64_decode` without the last assignment, from `src[i]` on, where `i` is `n` before
`src_len`.  The list is what can be read. -/
def decodeLoop : List UInt8 → ℕ → List UInt8 → Option (List UInt8)
  | _, 0, dst => some dst
  | a :: b :: c :: d :: src, n + 1, dst => do
      let x ← decodeMap a
      let y ← decodeMap b
      let z ← decodeMap c
      let w ← decodeMap d
      let dst ← putAll dst [
        toChar (x <<< 2 ||| y >>> 4),
        toChar (y <<< 4 ||| z >>> 2),
        toChar (z <<< 6 ||| w)]
      decodeLoop src (n + 1 - 4) dst
  | _, _ + 1, _ => none

/-- `base64_decode` -/
def base64Decode (src : List UInt8) (srcLen : ℤ) : Option (List UInt8) := do
  let dst ← decodeLoop src srcLen.toNat []
  return dst ++ [0]

/-! ## The characters that encode a list of bytes -/

/-- The character for six bits. -/
def letter (n : ℕ) : UInt8 := base64Map.getD n 0

/-- The bits of the bytes in groups of six, with `=` for groups that have none. -/
def text : List UInt8 → List UInt8
  | a :: b :: c :: src =>
      letter (a.toNat / 4) :: letter (a.toNat % 4 * 16 + b.toNat / 16) ::
        letter (b.toNat % 16 * 4 + c.toNat / 64) :: letter (c.toNat % 64) :: text src
  | [a] => [letter (a.toNat / 4), letter (a.toNat % 4 * 16), pad, pad]
  | [a, b] =>
      [letter (a.toNat / 4), letter (a.toNat % 4 * 16 + b.toNat / 16), letter (b.toNat % 16 * 4),
        pad]
  | [] => []

theorem length_text (src : List UInt8) : (text src).length = 4 * ((src.length + 2) / 3) := by
  induction src using text.induct with
  | case1 a b c src ih =>
      simp only [text, List.length_cons, ih]
      omega
  | case2 a => simp [text]
  | case3 a b => simp [text]
  | case4 => simp [text]

/-! ## Six bits of the bytes -/

/-- A property of bytes that holds of the numbers below 256. -/
theorem forall_byte {P : UInt8 → Prop} (h : ∀ n : Fin 256, P (.ofNat n)) (a : UInt8) : P a := by
  simpa using h a.toFin

/-- The masks and shifts take out the bits of a byte that its quotients and remainders are. -/
theorem toInt_bits (a : UInt8) :
    toInt a >>> 2 &&& 0x3F = .ofNat (a.toNat / 4) ∧
      toInt a <<< 4 &&& 0x30 = .ofNat (a.toNat % 4 * 16) ∧
      toInt a >>> 4 &&& 0xF = .ofNat (a.toNat / 16) ∧
      toInt a <<< 2 &&& 0x3C = .ofNat (a.toNat % 16 * 4) ∧
      toInt a >>> 6 &&& 0x3 = .ofNat (a.toNat / 64) ∧
      toInt a &&& 0x3F = .ofNat (a.toNat % 64) := by
  revert a
  exact forall_byte (by decide +kernel)

theorem toInt_shiftRight_two (a : UInt8) : toInt a >>> 2 &&& 0x3F = .ofNat (a.toNat / 4) :=
  (toInt_bits a).1

theorem toInt_shiftLeft_four (a : UInt8) : toInt a <<< 4 &&& 0x30 = .ofNat (a.toNat % 4 * 16) :=
  (toInt_bits a).2.1

theorem toInt_shiftRight_four (b : UInt8) : toInt b >>> 4 &&& 0xF = .ofNat (b.toNat / 16) :=
  (toInt_bits b).2.2.1

theorem toInt_shiftLeft_two (b : UInt8) : toInt b <<< 2 &&& 0x3C = .ofNat (b.toNat % 16 * 4) :=
  (toInt_bits b).2.2.2.1

theorem toInt_shiftRight_six (c : UInt8) : toInt c >>> 6 &&& 0x3 = .ofNat (c.toNat / 64) :=
  (toInt_bits c).2.2.2.2.1

theorem toInt_and (c : UInt8) : toInt c &&& 0x3F = .ofNat (c.toNat % 64) :=
  (toInt_bits c).2.2.2.2.2

theorem first_lt (a : UInt8) : a.toNat / 4 < 64 := by
  have ha := a.toNat_lt
  omega

theorem second_lt (a b : UInt8) : a.toNat % 4 * 16 + b.toNat / 16 < 64 := by
  have hb := b.toNat_lt
  omega

theorem third_lt (b c : UInt8) : b.toNat % 16 * 4 + c.toNat / 64 < 64 := by
  have hc := c.toNat_lt
  omega

theorem fourth_lt (c : UInt8) : c.toNat % 64 < 64 := Nat.mod_lt _ (by decide)

theorem second_lt_of_last (a : UInt8) : a.toNat % 4 * 16 < 64 := by omega

theorem third_lt_of_last (b : UInt8) : b.toNat % 16 * 4 < 64 := by omega

variable {m n k l : ℕ}

theorem encodeMap_ofNat (hn : n < 64) : encodeMap (.ofNat n) = letter n := by
  rw [encodeMap, Int32.toNatClampNeg_ofNat_of_lt (by omega), letter]

/-! ## The loop that encodes -/

theorem putAll_eq {dst : List UInt8} (cs : List UInt8) (hdst : dst.length < 2 ^ 31) :
    putAll dst cs = if dst.length + cs.length < 2 ^ 31 then some (dst ++ cs) else none := by
  induction cs generalizing dst with
  | nil => rw [if_pos (by simpa using hdst), List.append_nil]; rfl
  | cons c cs ih =>
      have hput : putAll dst (c :: cs) = (put dst c).bind fun dst => putAll dst cs := rfl
      rw [hput, put]
      by_cases hc : dst.length + 1 < 2 ^ 31
      · have hlen : (dst ++ [c]).length = dst.length + 1 := by simp
        rw [if_pos hc, Option.bind_some, ih (hlen ▸ hc), hlen]
        simp [Nat.add_assoc, Nat.add_comm 1]
      · rw [if_neg hc, if_neg (by simp; omega), Option.bind_none]

/-- The characters of three bytes. -/
theorem encode_group (a b c : UInt8) :
    [encodeMap (toInt a >>> 2 &&& 0x3F),
      encodeMap ((toInt a <<< (4 : Int32) &&& 0x30) + (toInt b >>> (4 : Int32) &&& 0xF)),
      encodeMap ((toInt b <<< (2 : Int32) &&& 0x3C) + (toInt c >>> (6 : Int32) &&& 0x3)),
      encodeMap (toInt c &&& 0x3F)] =
    [letter (a.toNat / 4), letter (a.toNat % 4 * 16 + b.toNat / 16),
      letter (b.toNat % 16 * 4 + c.toNat / 64), letter (c.toNat % 64)] := by
  rw [toInt_shiftRight_two, toInt_shiftLeft_four, toInt_shiftRight_four, toInt_shiftLeft_two,
    toInt_shiftRight_six, toInt_and, ← Int32.ofNat_add, ← Int32.ofNat_add]
  rw [encodeMap_ofNat (first_lt a), encodeMap_ofNat (second_lt a b), encodeMap_ofNat (third_lt b c),
    encodeMap_ofNat (fourth_lt c)]

theorem encodeLoop_eq (src : List UInt8) {dst : List UInt8} (hdst : dst.length < 2 ^ 31) :
    encodeLoop src dst =
      if dst.length + (text src).length < 2 ^ 31 then some (dst ++ text src) else none := by
  induction src using text.induct generalizing dst with
  | case1 a b c src ih =>
      rw [encodeLoop, encode_group, putAll_eq _ hdst, text]
      split
      · next hfits =>
          rw [Option.bind_eq_bind, Option.bind_some, ih (by simpa using hfits)]
          simp [Nat.add_assoc, Nat.add_comm 4]
      · next hover => rw [if_neg (by simp at hover ⊢; omega)]; rfl
  | case2 a =>
      rw [encodeLoop, toInt_shiftRight_two, toInt_shiftLeft_four, putAll_eq _ hdst, text,
        encodeMap_ofNat (first_lt a), encodeMap_ofNat (second_lt_of_last a)]
  | case3 a b =>
      rw [encodeLoop, toInt_shiftRight_two, toInt_shiftLeft_four, toInt_shiftRight_four,
        toInt_shiftLeft_two, ← Int32.ofNat_add, putAll_eq _ hdst, text,
        encodeMap_ofNat (first_lt a), encodeMap_ofNat (second_lt a b),
        encodeMap_ofNat (third_lt_of_last b)]
  | case4 => rw [encodeLoop, text, if_pos (by simpa using hdst), List.append_nil]

/-- Encoding is possible as long as an `int` counts the characters. -/
theorem base64Encode_eq (src : List UInt8) : base64Encode src =
    if 4 * ((src.length + 2) / 3) < 2 ^ 31 then some (text src ++ [0]) else none := by
  rw [base64Encode, encodeLoop_eq src (by decide), List.length_nil, Nat.zero_add, length_text]
  split <;> rfl

/-! ## Three bytes from four characters -/

/-- The letters of the alphabet stand for the numbers from 0 on. -/
theorem map_decodeMap : base64Map.map decodeMap = (List.range 64).map fun n => some (.ofNat n) := by
  decide +kernel

theorem length_base64Map : base64Map.length = 64 := by simpa using congrArg List.length map_decodeMap

theorem letter_mem (hn : n < 64) : letter n ∈ base64Map := by
  have hget := List.getElem?_eq_getElem (length_base64Map ▸ hn)
  rw [letter, List.getD_eq_getElem?_getD, hget, Option.getD_some]
  exact List.getElem_mem _

/-- The character stands for six bits. -/
structure StandsFor (c : UInt8) (n : ℕ) : Prop where
  decodeMap_eq : decodeMap c = some (.ofNat n)
  lt : n < 64

theorem letter_standsFor (hn : n < 64) : StandsFor (letter n) n := by
  refine ⟨?_, hn⟩
  have hget := congrArg (fun l => l[n]?) map_decodeMap
  simp only [List.getElem?_map, List.getElem?_range hn, Option.map_some,
    List.getElem?_eq_getElem (length_base64Map ▸ hn), Option.some_inj] at hget
  rw [letter, List.getD_eq_getElem?_getD, List.getElem?_eq_getElem (length_base64Map ▸ hn)]
  exact hget

theorem pad_standsFor : StandsFor pad 0 := ⟨by decide, by decide⟩

/-- Bits that do not meet are added. -/
theorem ofNat_or_ofNat (m : ℕ) {i : ℕ} (hn : n < 2 ^ i) :
    UInt8.ofNat (m * 2 ^ i) ||| UInt8.ofNat n = UInt8.ofNat (m * 2 ^ i + n) := by
  rw [← UInt8.ofNat_or, Nat.mul_comm, Nat.two_pow_add_eq_or_of_lt hn]

theorem toChar_or (x y : Int32) : toChar (x ||| y) = toChar x ||| toChar y := by simp [toChar]

theorem toChar_shiftLeft (i : Fin 7) (hm : m < 64) :
    toChar (.ofNat m <<< .ofNat i) = .ofNat (m * 2 ^ i.1) := by
  have hall : ∀ i : Fin 7, ∀ m : Fin 64,
      toChar (.ofNat m <<< .ofNat i) = .ofNat (m.1 * 2 ^ i.1) := by decide +kernel
  exact hall i ⟨m, hm⟩

theorem toChar_shiftRight (i : Fin 5) (hn : n < 64) :
    toChar (.ofNat n >>> .ofNat i) = .ofNat (n / 2 ^ i.1) := by
  have hall : ∀ i : Fin 5, ∀ n : Fin 64,
      toChar (.ofNat n >>> .ofNat i) = .ofNat (n.1 / 2 ^ i.1) := by decide +kernel
  exact hall i ⟨n, hn⟩

/-- The bytes of four characters. -/
theorem decode_group (hm : m < 64) (hn : n < 64) (hk : k < 64) (hl : l < 64) :
    [toChar (Int32.ofNat m <<< (2 : Int32) ||| Int32.ofNat n >>> (4 : Int32)),
      toChar (Int32.ofNat n <<< (4 : Int32) ||| Int32.ofNat k >>> (2 : Int32)),
      toChar (Int32.ofNat k <<< (6 : Int32) ||| Int32.ofNat l)] =
    [UInt8.ofNat (m * 4 + n / 16), UInt8.ofNat (n * 16 + k / 4), UInt8.ofNat (k * 64 + l)] := by
  have hm2 : toChar (Int32.ofNat m <<< (2 : Int32)) = .ofNat (m * 4) := toChar_shiftLeft 2 hm
  have hn4 : toChar (Int32.ofNat n >>> (4 : Int32)) = .ofNat (n / 16) := toChar_shiftRight 4 hn
  have hn4' : toChar (Int32.ofNat n <<< (4 : Int32)) = .ofNat (n * 16) := toChar_shiftLeft 4 hn
  have hk2 : toChar (Int32.ofNat k >>> (2 : Int32)) = .ofNat (k / 4) := toChar_shiftRight 2 hk
  have hk6 : toChar (Int32.ofNat k <<< (6 : Int32)) = .ofNat (k * 64) := toChar_shiftLeft 6 hk
  have hl0 : toChar (Int32.ofNat l) = .ofNat l := by simp [toChar]
  have hfirst : UInt8.ofNat (m * 4) ||| .ofNat (n / 16) = .ofNat (m * 4 + n / 16) :=
    ofNat_or_ofNat (i := 2) m (by omega)
  have hsecond : UInt8.ofNat (n * 16) ||| .ofNat (k / 4) = .ofNat (n * 16 + k / 4) :=
    ofNat_or_ofNat (i := 4) n (by omega)
  have hthird : UInt8.ofNat (k * 64) ||| .ofNat l = .ofNat (k * 64 + l) :=
    ofNat_or_ofNat (i := 6) k hl
  rw [toChar_or, toChar_or, toChar_or, hm2, hn4, hn4', hk2, hk6, hl0, hfirst, hsecond, hthird]

/-! ## The loop that decodes -/

/-- One round. -/
theorem decodeLoop_cons {a b c d : UInt8} {x y z w : Int32} (ha : decodeMap a = some x)
    (hb : decodeMap b = some y) (hc : decodeMap c = some z) (hd : decodeMap d = some w)
    (src : List UInt8) (len : ℕ) {dst : List UInt8} (hdst : dst.length + 3 < 2 ^ 31) :
    decodeLoop (a :: b :: c :: d :: src) (len + 4) dst = decodeLoop src len (dst ++
      [toChar (x <<< 2 ||| y >>> 4), toChar (y <<< 4 ||| z >>> 2), toChar (z <<< 6 ||| w)]) := by
  rw [decodeLoop, ha, hb, hc, hd]
  simp only [Option.bind_eq_bind, Option.bind_some]
  rw [putAll_eq _ (by omega), if_pos (by simpa using hdst), Option.bind_some]
  rfl

/-- One round, for characters of six bits each. -/
theorem decodeLoop_group {a b c d : UInt8} (ha : StandsFor a m) (hb : StandsFor b n)
    (hc : StandsFor c k) (hd : StandsFor d l) (src : List UInt8) (len : ℕ) {dst : List UInt8}
    (hdst : dst.length + 3 < 2 ^ 31) :
    decodeLoop (a :: b :: c :: d :: src) (len + 4) dst = decodeLoop src len (dst ++
      [UInt8.ofNat (m * 4 + n / 16), UInt8.ofNat (n * 16 + k / 4), UInt8.ofNat (k * 64 + l)]) := by
  rw [decodeLoop_cons ha.decodeMap_eq hb.decodeMap_eq hc.decodeMap_eq hd.decodeMap_eq src len hdst,
    decode_group ha.lt hb.lt hc.lt hd.lt]

theorem ofNat_eq_of_mod {a : UInt8} (h : n % 256 = a.toNat) : UInt8.ofNat n = a := by
  apply UInt8.toNat_inj.mp
  simpa using h

/-- The bytes that fill the last group. -/
def fill (src : List UInt8) : List UInt8 := List.replicate ((3 - src.length % 3) % 3) 0

theorem length_append_fill (src : List UInt8) :
    (src ++ fill src).length = 3 * ((src.length + 2) / 3) := by
  rw [List.length_append, fill, List.length_replicate]
  omega

/-- What has been encoded is decoded, with zeros for the bits that are missing. -/
theorem decodeLoop_text (src rest : List UInt8) {dst : List UInt8}
    (hdst : dst.length + (src ++ fill src).length < 2 ^ 31) :
    decodeLoop (text src ++ rest) (text src).length dst = some (dst ++ (src ++ fill src)) := by
  induction src using text.induct generalizing dst with
  | case1 a b c src ih =>
      have ha : a.toNat < 256 := a.toNat_lt
      have hb : b.toNat < 256 := b.toNat_lt
      have hc : c.toNat < 256 := c.toNat_lt
      have hfill : fill (a :: b :: c :: src) = fill src := by
        rw [fill, fill, show (a :: b :: c :: src).length % 3 = src.length % 3 by simp; omega]
      rw [hfill] at hdst ⊢
      simp only [text, List.cons_append, List.length_cons] at hdst ⊢
      rw [decodeLoop_group (letter_standsFor (first_lt a)) (letter_standsFor (second_lt a b))
        (letter_standsFor (third_lt b c)) (letter_standsFor (fourth_lt c)) _ _ (by omega),
        ofNat_eq_of_mod (a := a) (by omega), ofNat_eq_of_mod (a := b) (by omega),
        ofNat_eq_of_mod (a := c) (by omega)]
      rw [ih (by simp at hdst ⊢; omega)]
      simp
  | case2 a =>
      have ha : a.toNat < 256 := a.toNat_lt
      simp only [text, List.cons_append, List.nil_append, List.length_cons, List.length_nil,
        Nat.zero_add] at hdst ⊢
      rw [decodeLoop_group (letter_standsFor (first_lt a)) (letter_standsFor (second_lt_of_last a))
        pad_standsFor pad_standsFor _ 0 (by simp [fill] at hdst; omega),
        ofNat_eq_of_mod (a := a) (by omega), ofNat_eq_of_mod (a := 0) (by simp; omega),
        ofNat_eq_of_mod (a := 0) (by simp)]
      simp [decodeLoop, fill]
  | case3 a b =>
      have ha : a.toNat < 256 := a.toNat_lt
      have hb : b.toNat < 256 := b.toNat_lt
      simp only [text, List.cons_append, List.nil_append, List.length_cons, List.length_nil,
        Nat.zero_add] at hdst ⊢
      rw [decodeLoop_group (letter_standsFor (first_lt a)) (letter_standsFor (second_lt a b))
        (letter_standsFor (third_lt_of_last b)) pad_standsFor _ 0 (by simp [fill] at hdst; omega),
        ofNat_eq_of_mod (a := a) (by omega), ofNat_eq_of_mod (a := b) (by omega),
        ofNat_eq_of_mod (a := 0) (by simp; omega)]
      simp [decodeLoop, fill]
  | case4 => simp [text, decodeLoop, fill]

/-- What has been encoded is decoded as long as an `int` counts the bytes. -/
theorem base64Decode_text (src rest : List UInt8) (hsrc : 3 * ((src.length + 2) / 3) < 2 ^ 31) :
    base64Decode (text src ++ rest) (text src).length = some (src ++ fill src ++ [0]) := by
  have hdst : ([] : List UInt8).length + (src ++ fill src).length < 2 ^ 31 := by
    rw [length_append_fill, List.length_nil, Nat.zero_add]
    exact hsrc
  rw [base64Decode, Int.toNat_natCast, decodeLoop_text src rest hdst]
  rfl

/-! ## The round trip -/

/-- The characters are letters of the alphabet, and padding for the bytes that the last group does
not have. -/
structure Padded (chars : List UInt8) (n : ℕ) : Prop where
  length : chars.length = 4 * ((n + 2) / 3)
  letters : ∃ body, chars = body ++ List.replicate ((3 - n % 3) % 3) pad ∧
    ∀ c ∈ body, c ∈ base64Map

theorem text_letters (src : List UInt8) : ∃ body,
    text src = body ++ List.replicate ((3 - src.length % 3) % 3) pad ∧ ∀ c ∈ body, c ∈ base64Map := by
  induction src using text.induct with
  | case1 a b c src ih =>
      obtain ⟨body, htext, hbody⟩ := ih
      have hmod : (a :: b :: c :: src).length % 3 = src.length % 3 := by
        simp only [List.length_cons]
        omega
      rw [hmod]
      refine ⟨letter (a.toNat / 4) :: letter (a.toNat % 4 * 16 + b.toNat / 16) ::
        letter (b.toNat % 16 * 4 + c.toNat / 64) :: letter (c.toNat % 64) :: body, ?_, ?_⟩
      · rw [text, htext]
        rfl
      · simp only [List.forall_mem_cons]
        exact ⟨letter_mem (first_lt a), letter_mem (second_lt a b), letter_mem (third_lt b c),
          letter_mem (fourth_lt c), hbody⟩
  | case2 a =>
      refine ⟨[letter (a.toNat / 4), letter (a.toNat % 4 * 16)], by simp [text], ?_⟩
      simp only [List.forall_mem_cons]
      exact ⟨letter_mem (first_lt a), letter_mem (second_lt_of_last a), nofun⟩
  | case3 a b =>
      refine ⟨[letter (a.toNat / 4), letter (a.toNat % 4 * 16 + b.toNat / 16),
        letter (b.toNat % 16 * 4)], by simp [text], ?_⟩
      simp only [List.forall_mem_cons]
      exact ⟨letter_mem (first_lt a), letter_mem (second_lt a b),
        letter_mem (third_lt_of_last b), nofun⟩
  | case4 => exact ⟨[], rfl, nofun⟩

theorem text_padded (src : List UInt8) : Padded (text src) src.length :=
  ⟨length_text src, text_letters src⟩

/-- The bytes are written as characters with a NUL behind them, and read back from these as the
first of a few more bytes. -/
def RoundTrip (src : List UInt8) : Prop :=
  ∃ chars, base64Encode src = some (chars ++ [0]) ∧ Padded chars src.length ∧
    ∃ dst, base64Decode chars chars.length = some dst ∧ dst.take src.length = src ∧
      dst.length ≤ 3 * ((src.length + 2) / 3) + 1

/-- There are more characters than an `int` counts. -/
theorem base64Encode_eq_none {src : List UInt8} (h : 3 * (2 ^ 29 - 1) < src.length) :
    base64Encode src = none := by
  rw [base64Encode_eq, if_neg (by omega)]

/-- Bytes make the round trip if and only if an `int` counts the characters. -/
theorem roundTrip_iff (src : List UInt8) : RoundTrip src ↔ src.length ≤ 3 * (2 ^ 29 - 1) := by
  constructor
  · rintro ⟨chars, hencode, -⟩
    by_contra hlong
    rw [base64Encode_eq_none (Nat.lt_of_not_le hlong)] at hencode
    cases hencode
  · intro hlen
    have hdecode := base64Decode_text src [] (by omega)
    rw [List.append_nil] at hdecode
    refine ⟨text src, ?_, text_padded src, _, hdecode, ?_, ?_⟩
    · rw [base64Encode_eq, if_pos (by omega)]
    · rw [List.append_assoc, List.take_left]
    · rw [List.length_append, length_append_fill, List.length_singleton]

/-- An `int` does not count the characters of 1610612734 bytes. -/
theorem not_roundTrip : ¬ ∀ src : List UInt8, src.length < 2 ^ 31 → RoundTrip src := by
  intro hall
  have hlength : (List.replicate 1610612734 (0 : UInt8)).length = 1610612734 :=
    List.length_replicate
  obtain ⟨chars, hencode, -⟩ := hall (List.replicate 1610612734 0) (by rw [hlength]; decide)
  rw [base64Encode_eq_none (by rw [hlength]; decide)] at hencode
  cases hencode

end Spp.Base64
