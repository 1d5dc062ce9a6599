import Mathlib.Data.List.Basic
import Mathlib.Tactic.Ring

/-!
# Machine words

Unsigned and signed 32-bit arithmetic on naturals and integers, and the
little-endian bytes of a word.  A C expression of type `unsigned int` is written
with `u32` and `u32sub`, so that a wrap-around is visible in the definition that
models it; a conversion to `int` is written with `s32`.

## Main definitions

* `u32 n`, `u32sub a b` — the value of an `unsigned int` expression.
* `s32 z`, `toUnsigned z` — the value of a conversion to `int` and to `unsigned`.
* `le n x`, `ofLe bs` — `n` little-endian bytes of `x`, and back.
* `be n x`, `ofBe bs` — the same, most significant byte first.
* `bswap n x` — the value whose little-endian bytes are the big-endian ones of `x`.
-/

namespace Spp

/-- The value kept by an `unsigned int`. -/
def u32 (n : ℕ) : ℕ := n % 2 ^ 32

/-- Subtraction of two `unsigned int` values. -/
def u32sub (a b : ℕ) : ℕ := (a + 2 ^ 32 - b) % 2 ^ 32

/-- The value kept by an `int`, for the two's complement conversion. -/
def s32 (z : ℤ) : ℤ := (z + 2 ^ 31) % 2 ^ 32 - 2 ^ 31

/-- A conversion of a signed number to `unsigned`. -/
def toUnsigned (z : ℤ) : ℕ := (z % 2 ^ 32).toNat

theorem u32_lt (n : ℕ) : u32 n < 2 ^ 32 := Nat.mod_lt _ (by norm_num)

theorem u32_of_lt {n : ℕ} (h : n < 2 ^ 32) : u32 n = n := Nat.mod_eq_of_lt h

theorem u32sub_of_le {a b : ℕ} (hb : b ≤ a) (ha : a < 2 ^ 32) : u32sub a b = a - b := by
  unfold u32sub
  omega

theorem s32_of_bounds {z : ℤ} (hlo : -2 ^ 31 ≤ z) (hhi : z < 2 ^ 31) : s32 z = z := by
  unfold s32
  omega

theorem s32_of_lt {n : ℕ} (h : n < 2 ^ 31) : s32 n = n :=
  s32_of_bounds (by omega) (by omega)

/-- A natural number as an `int` is not larger. -/
theorem s32_le (n : ℕ) : s32 n ≤ n := by
  unfold s32
  omega

/-- An `unsigned int` from 2^31 on becomes negative. -/
theorem s32_of_ge {n : ℕ} (h : 2 ^ 31 ≤ n) (h' : n < 2 ^ 32) : s32 n = n - 2 ^ 32 := by
  unfold s32
  omega

/-- The `n` low bytes of `x`, least significant first. -/
def le : ℕ → ℕ → List UInt8
  | 0, _ => []
  | n + 1, x => UInt8.ofNat (x % 256) :: le n (x / 256)

/-- The number that little-endian bytes stand for. -/
def ofLe : List UInt8 → ℕ
  | [] => 0
  | b :: bs => b.toNat + 256 * ofLe bs

@[simp] theorem length_le (n x : ℕ) : (le n x).length = n := by
  induction n generalizing x with
  | zero => rfl
  | succ n ih => simp [le, ih]

theorem ofLe_lt (bs : List UInt8) : ofLe bs < 256 ^ bs.length := by
  induction bs with
  | nil => simp [ofLe]
  | cons b bs ih =>
      have hb : b.toNat < 256 := b.toNat_lt
      simp only [ofLe, List.length_cons, Nat.pow_succ]
      omega

theorem ofLe_le (n x : ℕ) : ofLe (le n x) = x % 256 ^ n := by
  induction n generalizing x with
  | zero => simp [ofLe, le, Nat.mod_one]
  | succ n ih =>
      have hb : (UInt8.ofNat (x % 256)).toNat = x % 256 := by simp
      simp only [le, ofLe, ih, hb]
      rw [Nat.pow_succ', Nat.mod_mul]

/-- A word that fits its bytes is read back from them. -/
theorem ofLe_le_of_lt {n x : ℕ} (h : x < 256 ^ n) : ofLe (le n x) = x := by
  rw [ofLe_le, Nat.mod_eq_of_lt h]

theorem le_ofLe (bs : List UInt8) : le bs.length (ofLe bs) = bs := by
  induction bs with
  | nil => rfl
  | cons b bs ih =>
      have hb : b.toNat < 256 := b.toNat_lt
      have hlow : (b.toNat + 256 * ofLe bs) % 256 = b.toNat := by omega
      have hhigh : (b.toNat + 256 * ofLe bs) / 256 = ofLe bs := by omega
      simp [le, ofLe, hlow, hhigh, ih]

/-- Only the low bytes count. -/
theorem le_mod (n x : ℕ) : le n (x % 256 ^ n) = le n x := by
  have h := le_ofLe (le n x)
  rwa [ofLe_le, length_le] at h

theorem le_add (m n x : ℕ) : le (m + n) x = le m x ++ le n (x / 256 ^ m) := by
  induction m generalizing x with
  | zero => simp [le]
  | succ m ih =>
      have hdiv : x / 256 / 256 ^ m = x / 256 ^ (m + 1) := by
        rw [Nat.div_div_eq_div_mul, Nat.pow_succ']
      rw [Nat.succ_add, le, ih, hdiv]
      rfl

theorem ofLe_append (bs cs : List UInt8) :
    ofLe (bs ++ cs) = ofLe bs + 256 ^ bs.length * ofLe cs := by
  induction bs with
  | nil => simp [ofLe]
  | cons b bs ih =>
      simp only [List.cons_append, ofLe, ih, List.length_cons]
      ring

/-! ## Network byte order -/

/-- The `n` low bytes of `x`, most significant first. -/
def be (n x : ℕ) : List UInt8 := (le n x).reverse

/-- The number that big-endian bytes stand for. -/
def ofBe (bs : List UInt8) : ℕ := ofLe bs.reverse

/-- The bytes of an `n`-byte word the other way round. -/
def bswap (n x : ℕ) : ℕ := ofLe (be n x)

@[simp] theorem length_be (n x : ℕ) : (be n x).length = n := by simp [be]

theorem be_mod (n x : ℕ) : be n (x % 256 ^ n) = be n x := by rw [be, le_mod, be]

theorem be_add (m n x : ℕ) : be (m + n) x = be n (x / 256 ^ m) ++ be m x := by
  rw [be, le_add, List.reverse_append, be, be]

theorem ofBe_append (bs cs : List UInt8) :
    ofBe (bs ++ cs) = 256 ^ cs.length * ofBe bs + ofBe cs := by
  rw [ofBe, List.reverse_append, ofLe_append, List.length_reverse, ofBe, ofBe, Nat.add_comm]

theorem ofBe_lt (bs : List UInt8) : ofBe bs < 256 ^ bs.length := by
  simpa [ofBe] using ofLe_lt bs.reverse

theorem ofBe_be (n x : ℕ) : ofBe (be n x) = x % 256 ^ n := by
  simp [ofBe, be, ofLe_le]

theorem ofBe_be_of_lt {n x : ℕ} (h : x < 256 ^ n) : ofBe (be n x) = x := by
  simp [ofBe, be, ofLe_le_of_lt h]

@[simp] theorem uint16_ofBe_be (v : UInt16) : UInt16.ofNat (ofBe (be 2 v.toNat)) = v := by
  rw [ofBe_be_of_lt (by simpa using v.toNat_lt), UInt16.ofNat_toNat]

@[simp] theorem uint32_ofBe_be (v : UInt32) : UInt32.ofNat (ofBe (be 4 v.toNat)) = v := by
  rw [ofBe_be_of_lt (by simpa using v.toNat_lt), UInt32.ofNat_toNat]

@[simp] theorem uint64_ofBe_be (v : UInt64) : UInt64.ofNat (ofBe (be 8 v.toNat)) = v := by
  rw [ofBe_be_of_lt (by simpa using v.toNat_lt), UInt64.ofNat_toNat]

theorem be_ofBe (bs : List UInt8) : be bs.length (ofBe bs) = bs := by
  have h := le_ofLe bs.reverse
  rw [List.length_reverse] at h
  rw [be, ofBe, h, List.reverse_reverse]

theorem be_uint16 {bs : List UInt8} (h : bs.length = 2) :
    be 2 (UInt16.ofNat (ofBe bs)).toNat = bs := by
  have hlt : ofBe bs < 2 ^ 16 := by simpa [h] using ofBe_lt bs
  rw [UInt16.toNat_ofNat_of_lt' hlt, ← h, be_ofBe]

theorem be_uint32 {bs : List UInt8} (h : bs.length = 4) :
    be 4 (UInt32.ofNat (ofBe bs)).toNat = bs := by
  have hlt : ofBe bs < 2 ^ 32 := by simpa [h] using ofBe_lt bs
  rw [UInt32.toNat_ofNat_of_lt' hlt, ← h, be_ofBe]

theorem be_uint64 {bs : List UInt8} (h : bs.length = 8) :
    be 8 (UInt64.ofNat (ofBe bs)).toNat = bs := by
  have hlt : ofBe bs < 2 ^ 64 := by simpa [h] using ofBe_lt bs
  rw [UInt64.toNat_ofNat_of_lt' hlt, ← h, be_ofBe]

/-- A word stored with its bytes swapped is stored in network order. -/
@[simp] theorem le_bswap (n x : ℕ) : le n (bswap n x) = be n x := by
  have h := le_ofLe (be n x)
  rwa [length_be] at h

/-- A word loaded and swapped is what its bytes in network order stand for. -/
theorem bswap_ofLe {n : ℕ} {bs : List UInt8} (h : bs.length = n) :
    bswap n (ofLe bs) = ofBe bs := by
  subst h
  rw [bswap, be, le_ofLe, ofBe]

/-- A wide word is swapped by halves. -/
theorem bswap_add (m n x : ℕ) :
    bswap (m + n) x = bswap n (x / 256 ^ m) + 256 ^ n * bswap m x := by
  rw [bswap, be, le_add, List.reverse_append, ofLe_append]
  simp [bswap, be]

end Spp
