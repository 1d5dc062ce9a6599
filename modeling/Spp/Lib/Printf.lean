import Spp.Lib.Mem
import Spp.Lib.Word

/-!
# Printing into a buffer

The conversions of `printf` for numbers and strings, and `snprintf` as C99 has it: it stores
what fits with a NUL behind it, and returns how long the text would have been.

## Main definitions

* `decimal`, `zeroPadded`, `leftAligned` — `%d`, `%0wd` and `%-w` in front of a conversion.
* `Formatted`, `Formatted.ret` — a text, and what `snprintf` returns for it.
* `Buffer`, `snprintf` — a memory that keeps account of what is printed into it.
* `Printed`, `Filled` — the bytes that have been printed.
-/

namespace Spp.Printf

/-- The bytes of a string of ASCII characters. -/
def ascii (s : String) : List UInt8 := s.toList.map fun c => .ofNat c.toNat

def digits (n : ℕ) : List UInt8 := (Nat.toDigits 10 n).map fun c => .ofNat c.toNat

def sign (z : ℤ) : List UInt8 := if z < 0 then ascii "-" else []

/-- `%d`. -/
def decimal (z : ℤ) : List UInt8 := sign z ++ digits z.natAbs

/-- `%0wd`: the zeros stand behind the sign. -/
def zeroPadded (w : ℕ) (z : ℤ) : List UInt8 :=
  sign z ++ (List.replicate (w - (decimal z).length) 48 ++ digits z.natAbs)

/-- `%-w`: blanks stand behind the text. -/
def leftAligned (w : ℕ) (bs : List UInt8) : List UInt8 :=
  bs ++ List.replicate (w - bs.length) 32

theorem length_digits_le {n k : ℕ} (hk : 0 < k) (h : n < 10 ^ k) : (digits n).length ≤ k := by
  rw [digits, List.length_map, Nat.length_toDigits_le_iff (by omega) hk]
  exact h

theorem length_sign_le (z : ℤ) : (sign z).length ≤ 1 := by
  rw [sign]
  split <;> decide

/-- An `int` has at most ten digits and a sign. -/
theorem length_decimal_le (z : Int32) : (decimal z.toInt).length ≤ 11 := by
  have hlow := z.le_toInt
  have hhigh := z.toInt_lt
  have hsign := length_sign_le z.toInt
  have hdigits : (digits z.toInt.natAbs).length ≤ 10 := length_digits_le (by omega) (by omega)
  rw [decimal, List.length_append]
  omega

theorem length_zeroPadded (w : ℕ) (z : ℤ) :
    (zeroPadded w z).length = max w (decimal z).length := by
  simp only [zeroPadded, decimal, List.length_append, List.length_replicate]
  omega

theorem length_leftAligned (w : ℕ) (bs : List UInt8) :
    (leftAligned w bs).length = max w bs.length := by
  simp only [leftAligned, List.length_append, List.length_replicate]
  omega

/-! ## `snprintf` -/

/-- What a format comes to: a text, which ends at an encoding error if there is one. -/
structure Formatted where
  text : List UInt8
  error : Bool

/-- A format that meets no error. -/
def Formatted.ok (bs : List UInt8) : Formatted := ⟨bs, false⟩

/-- What `snprintf` returns: the length of the text, or -1 for an error and for a length that
is not an `int`. -/
def Formatted.ret (f : Formatted) : ℤ :=
  if f.error ∨ 2 ^ 31 ≤ f.text.length then -1 else f.text.length

theorem Formatted.ret_of_lt {f : Formatted} (hok : f.error = false)
    (hlt : f.text.length < 2 ^ 31) : f.ret = f.text.length := by
  rw [ret, if_neg]
  rw [hok]
  simp only [Bool.false_eq_true, false_or, not_le]
  exact hlt

theorem Formatted.ret_bounds (f : Formatted) : -1 ≤ f.ret ∧ f.ret < 2 ^ 31 := by
  rw [ret]
  split
  · omega
  · next h =>
    rw [not_or] at h
    omega

theorem Formatted.ret_eq_or (f : Formatted) : f.ret = f.text.length ∨ f.ret = -1 := by
  rw [ret]
  split
  · exact .inr rfl
  · exact .inl rfl

/-- A memory, with the offset and the number of characters of everything that was printed into
it; a NUL stands behind them. -/
structure Buffer where
  mem : ℕ → UInt8
  prints : List (ℕ × ℕ)

namespace Buffer

/-- Characters with their NUL are stored. -/
def store (b : Buffer) (dst : ℕ) (bs : List UInt8) : Buffer where
  mem := Mem.write b.mem dst (bs ++ [0])
  prints := b.prints ++ [(dst, bs.length)]

/-- `snprintf(dst, n, ..)`. -/
def snprintf (b : Buffer) (dst n : ℕ) (f : Formatted) : Buffer × ℤ :=
  (if n = 0 then b else b.store dst (f.text.take (n - 1)), f.ret)

/-- The byte at the offset has been printed, as a character, or as a NUL where they count. -/
def Printed (b : Buffer) (nul : Bool) (i : ℕ) : Prop :=
  ∃ s ∈ b.prints, s.1 ≤ i ∧ i < s.1 + s.2 + nul.toNat

/-- The characters are the bytes before `n`, a NUL stands behind them at most, and all of them
lie in `size` bytes. -/
structure Filled (b : Buffer) (n size : ℕ) : Prop where
  printed : ∀ i, b.Printed false i ↔ i < n
  upTo : ∀ i, b.Printed true i → i ≤ n
  inside : ∀ s ∈ b.prints, s.1 + s.2 + 1 ≤ size

variable {b : Buffer} {n size dst i : ℕ} {nul : Bool} {bs : List UInt8} {f : Formatted}

theorem printed_store :
    (b.store dst bs).Printed nul i ↔
      b.Printed nul i ∨ dst ≤ i ∧ i < dst + bs.length + nul.toNat := by
  simp only [Printed, store, List.mem_append, List.mem_singleton]
  constructor
  · rintro ⟨s, hs | rfl, hi⟩
    · exact .inl ⟨s, hs, hi⟩
    · exact .inr hi
  · rintro (⟨s, hs, hi⟩ | hi)
    · exact ⟨s, .inl hs, hi⟩
    · exact ⟨(dst, bs.length), .inr rfl, hi⟩

/-- Characters that are stored behind the others, over their NUL. -/
theorem Filled.store (h : b.Filled n size) (hsize : n + bs.length + 1 ≤ size) :
    (b.store n bs).Filled (n + bs.length) size := by
  refine ⟨fun i => ?_, fun i => ?_, fun s hs => ?_⟩
  · rw [printed_store, h.printed, Bool.toNat_false]
    omega
  · rw [printed_store, Bool.toNat_true]
    rintro (hold | hnew)
    · have hle := h.upTo i hold
      omega
    · omega
  · rw [Buffer.store, List.mem_append, List.mem_singleton] at hs
    rcases hs with hs | rfl
    · exact h.inside s hs
    · exact hsize

theorem snprintf_fst (hsize : 0 < size) :
    (b.snprintf dst size f).1 = b.store dst (f.text.take (size - 1)) := if_neg (by omega)

/-- Behind the characters, the NUL has been printed as well. -/
theorem Filled.printed_iff (h : (b.store dst bs).Filled (dst + bs.length) size) :
    (b.store dst bs).Printed nul i ↔ i < dst + bs.length + nul.toNat := by
  cases nul with
  | false => exact h.printed i
  | true =>
      constructor
      · intro hi
        exact Nat.lt_succ_of_le (h.upTo i hi)
      · intro hi
        rcases Nat.lt_succ_iff_lt_or_eq.mp hi with hlt | rfl
        · obtain ⟨s, hs, hlo, hhi⟩ := (h.printed i).mpr hlt
          exact ⟨s, hs, hlo, Nat.lt_succ_of_lt hhi⟩
        · exact printed_store.mpr (.inr ⟨Nat.le_add_right _ _, hi⟩)

/-- The characters stand behind what the memory has in front. -/
theorem read_store {front : List UInt8} (h : Mem.read b.mem 0 front.length = front) :
    Mem.read (b.store front.length bs).mem 0 (front ++ bs).length = front ++ bs := by
  have hkept : Mem.read (Mem.write b.mem front.length (bs ++ [0])) 0 front.length = front := by
    rw [Mem.read_write_of_disjoint _ _ (.inl (by omega)), h]
  rw [store, List.length_append, Mem.read_add, hkept, Nat.zero_add, Mem.write_append,
    Mem.read_write_of_disjoint _ _ (.inl le_rfl), Mem.read_write_self]

end Buffer

end Spp.Printf
