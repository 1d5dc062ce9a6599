import Mathlib.Tactic.IntervalCases

/-!
# Numbers in hexadecimal

How a number is printed with `%x` and, padded with zeros to a width, with `%0kx`.

## Main definitions

* `hex n` — the digits of `n`, `"0"` for 0.
* `hexPadded k n` — the digits of `n` behind as many zeros as `k` places take.
* `hexVal` — the number that is written.
-/

namespace Spp

/-- What `%x` prints. -/
def hex (n : ℕ) : List Char := Nat.toDigits 16 n

/-- What `%0kx` prints. -/
def hexPadded (k n : ℕ) : List Char := List.replicate (k - (hex n).length) '0' ++ hex n

/-- The value of a digit. -/
def hexDigit (c : Char) : ℕ := if c.toNat < 97 then c.toNat - 48 else c.toNat - 87

/-- The number that the digits write. -/
def hexVal (cs : List Char) : ℕ := cs.foldl (fun n c => 16 * n + hexDigit c) 0

variable {k m n : ℕ}

theorem hexDigit_digitChar (h : n < 16) : hexDigit n.digitChar = n := by
  interval_cases n <;> rfl

theorem hexVal_concat (cs : List Char) (c : Char) :
    hexVal (cs ++ [c]) = 16 * hexVal cs + hexDigit c := by
  simp [hexVal]

@[simp] theorem hexVal_hex (n : ℕ) : hexVal (hex n) = n := by
  induction n using Nat.strong_induction_on with
  | _ n ih =>
    unfold hex
    by_cases hlt : n < 16
    · rw [Nat.toDigits_of_lt_base hlt]
      simp [hexVal, hexDigit_digitChar hlt]
    · rw [Nat.toDigits_of_base_le (by decide) (Nat.le_of_not_lt hlt), hexVal_concat,
        hexDigit_digitChar (Nat.mod_lt n (by decide))]
      have hdiv : hexVal (Nat.toDigits 16 (n / 16)) = n / 16 :=
        ih (n / 16) (Nat.div_lt_self (by omega) (by decide))
      rw [hdiv]
      exact Nat.div_add_mod n 16

theorem hexVal_zeros (j : ℕ) (cs : List Char) :
    hexVal (List.replicate j '0' ++ cs) = hexVal cs := by
  induction j with
  | zero => rfl
  | succ j ih => exact ih

@[simp] theorem hexVal_hexPadded (k n : ℕ) : hexVal (hexPadded k n) = n := by
  rw [hexPadded, hexVal_zeros, hexVal_hex]

theorem hexPadded_inj : hexPadded k m = hexPadded k n ↔ m = n := by
  constructor
  · intro heq
    have hval := congrArg hexVal heq
    simpa using hval
  · intro heq
    rw [heq]

theorem length_hex_le (hk : 0 < k) : (hex n).length ≤ k ↔ n < 16 ^ k :=
  Nat.length_toDigits_le_iff (by decide) hk

/-- The two ways to print agree on one number, and only from `k` digits on. -/
theorem hex_eq_hexPadded_iff (hk : 1 < k) :
    hex m = hexPadded k n ↔ m = n ∧ 16 ^ (k - 1) ≤ m := by
  have hlen := length_hex_le (n := m) (k := k - 1) (by omega)
  constructor
  · intro heq
    have hmn : m = n := by
      have hval := congrArg hexVal heq
      simpa using hval
    subst hmn
    have hlength := congrArg List.length heq
    rw [hexPadded, List.length_append, List.length_replicate] at hlength
    refine ⟨rfl, ?_⟩
    by_contra hlt
    have hshort := hlen.mpr (Nat.lt_of_not_le hlt)
    omega
  · rintro ⟨rfl, hle⟩
    have hlong : k - (hex m).length = 0 := by
      have hnot : ¬ (hex m).length ≤ k - 1 := fun hshort => absurd (hlen.mp hshort) (by omega)
      omega
    rw [hexPadded, hlong]
    rfl

end Spp
