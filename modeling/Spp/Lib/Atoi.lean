import Mathlib.Data.List.TakeWhile
import Spp.Lib.Hex
import Spp.Lib.Word

/-!
# Numbers read from text

`strtol` for the bases 0 and 10, where a `long` has 64 bits, and `atoi`.

## Main definitions

* `strtol0`, `strtol10` — what `strtol` returns.
* `atoi` — the number as an `int`.
-/

namespace Spp

def isSpace (c : Char) : Bool := c = ' ' || (9 ≤ c.toNat && c.toNat ≤ 13)

/-- Whether there is a minus, and what is behind the blanks and the sign. -/
def takeSign (cs : List Char) : Bool × List Char :=
  match cs.dropWhile isSpace with
  | '-' :: cs => (true, cs)
  | '+' :: cs => (false, cs)
  | cs => (false, cs)

/-- The number that the leading digits write in base `b`, up to 10. -/
def leadingNumber (b : ℕ) (cs : List Char) : ℕ :=
  Nat.ofDigitChars b (cs.takeWhile fun c => c.isDigit && c.toNat < 48 + b) 0

def isHexDigit (c : Char) : Bool := c.isDigit || ('a' ≤ c.toLower && c.toLower ≤ 'f')

/-- The number that the leading digits write in the base that they are marked with. -/
def leadingMarked : List Char → ℕ
  | '0' :: x :: d :: cs =>
      if x.toLower = 'x' && isHexDigit d then
        hexVal (((d :: cs).takeWhile isHexDigit).map Char.toLower)
      else leadingNumber 8 (x :: d :: cs)
  | '0' :: cs => leadingNumber 8 cs
  | cs => leadingNumber 10 cs

/-- A `long` with this sign and magnitude, or the closest that there is. -/
def toLong (neg : Bool) (n : ℕ) : ℤ :=
  if neg then max (-2 ^ 63) (-n) else min (2 ^ 63 - 1) n

/-- `strtol` with base 0. -/
def strtol0 (cs : List Char) : ℤ := toLong (takeSign cs).1 (leadingMarked (takeSign cs).2)

/-- `strtol` with base 10. -/
def strtol10 (cs : List Char) : ℤ := toLong (takeSign cs).1 (leadingNumber 10 (takeSign cs).2)

def atoi (cs : List Char) : ℤ := s32 (strtol10 cs)

variable {n : ℕ}

theorem le_atoi (cs : List Char) : -2 ^ 31 ≤ atoi cs := by
  simp only [atoi, s32]
  omega

theorem atoi_lt (cs : List Char) : atoi cs < 2 ^ 31 := by
  simp only [atoi, s32]
  omega

theorem toUnsigned_s32 (h : n < 2 ^ 32) : toUnsigned (s32 n) = n := by
  simp only [toUnsigned, s32]
  omega

theorem isSpace_of_isDigit {c : Char} (h : c.isDigit = true) : isSpace c = false := by
  have hrange := Char.isDigit_iff_toNat.mp h
  have hne : c ≠ ' ' := by
    intro heq
    rw [heq] at h
    exact absurd h (by decide)
  have hlarge : ¬ c.toNat ≤ 13 := by
    have hlow : 48 ≤ c.toNat := hrange.1
    omega
  simp [isSpace, hne, hlarge]

/-- A digit is neither a blank nor a sign. -/
theorem takeSign_of_digits {cs : List Char} (h : ∀ c ∈ cs, c.isDigit = true) :
    takeSign cs = (false, cs) := by
  cases cs with
  | nil => rfl
  | cons c cs =>
      have hdigit : c.isDigit = true := h c List.mem_cons_self
      have hspace := isSpace_of_isDigit hdigit
      have hminus : c ≠ '-' := by
        intro heq
        exact absurd (heq ▸ hdigit) (by decide)
      have hplus : c ≠ '+' := by
        intro heq
        exact absurd (heq ▸ hdigit) (by decide)
      simp [takeSign, hspace, hminus, hplus]

theorem leadingNumber_toDigits (n : ℕ) : leadingNumber 10 (Nat.toDigits 10 n) = n := by
  have hall : ∀ c ∈ Nat.toDigits 10 n, (c.isDigit && c.toNat < 48 + 10) = true := by
    intro c hc
    have hdigit := Nat.isDigit_of_mem_toDigits (by decide) (by decide) hc
    have hhigh : c.toNat ≤ 57 := (Char.isDigit_iff_toNat.mp hdigit).2
    simp only [hdigit, Bool.true_and, decide_eq_true_eq]
    omega
  rw [leadingNumber, List.takeWhile_eq_self_iff.mpr hall]
  exact Nat.ofDigitChars_ten_toDigits

theorem strtol10_toDigits (h : n < 2 ^ 63) : strtol10 (Nat.toDigits 10 n) = n := by
  have hsign := takeSign_of_digits fun c hc =>
    Nat.isDigit_of_mem_toDigits (b := 10) (n := n) (by decide) (by decide) hc
  rw [strtol10, hsign, leadingNumber_toDigits, toLong]
  simp only [Bool.false_eq_true, if_false]
  omega

/-- Every number of 32 bits can be written so that `atoi` reads it. -/
theorem toUnsigned_atoi_toDigits (h : n < 2 ^ 32) : toUnsigned (atoi (Nat.toDigits 10 n)) = n := by
  rw [atoi, strtol10_toDigits (by omega), toUnsigned_s32 h]

end Spp
