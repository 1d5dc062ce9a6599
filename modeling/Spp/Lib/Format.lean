import Spp.Lib.Word
import Mathlib.Data.List.TakeWhile

/-!
# Reading a byte string

A parser takes a value off the front of a byte string, or fails where the string is too
short.  For each primitive one equivalence says which strings it accepts: those that start
with the bytes of the value.  `Cut` compares a string with a longer one that it is the
beginning of; every primitive takes the same value off both.

## Main definitions

* `Parser α` — a parser.
* `take`, `byte`, `word`, `dword`, `qword`, `cstr` — bytes, big-endian words, a string with
  its NUL.
* `many n p` — `p`, `n` times.
* `Cut d bs full` — `bs` is `full` without its last `d` bytes.
* `Takes p len` — `p` takes `len bs` bytes off `bs`, and it fails only where there are
  fewer.
-/

namespace Spp.Format

/-- A value off the front of a byte string, with what is left. -/
abbrev Parser (α : Type*) := List UInt8 → Option (α × List UInt8)

/-- The next `n` bytes. -/
def take (n : ℕ) : Parser (List UInt8) := fun bs =>
  if n ≤ bs.length then some (bs.take n, bs.drop n) else none

def byte : Parser UInt8
  | [] => none
  | b :: bs => some (b, bs)

def word : Parser UInt16 := fun bs => (take 2 bs).map fun r => (.ofNat (ofBe r.1), r.2)

def dword : Parser UInt32 := fun bs => (take 4 bs).map fun r => (.ofNat (ofBe r.1), r.2)

def qword : Parser UInt64 := fun bs => (take 8 bs).map fun r => (.ofNat (ofBe r.1), r.2)

/-- The bytes up to a NUL, which is taken off too. -/
def cstr : Parser (List UInt8) := fun bs =>
  if 0 ∈ bs then some (bs.takeWhile (· ≠ 0), bs.drop ((bs.takeWhile (· ≠ 0)).length + 1))
  else none

/-- `n` values one behind the other. -/
def many {α : Type*} (p : Parser α) : ℕ → Parser (List α)
  | 0, bs => some ([], bs)
  | n + 1, bs => do
      let (a, bs) ← p bs
      let (as, bs) ← many p n bs
      some (a :: as, bs)

variable {n d : ℕ} {bs xs ys rest full : List UInt8}

/-! ## What the primitives accept -/

theorem take_eq_some_iff : take n bs = some (xs, rest) ↔ bs = xs ++ rest ∧ xs.length = n := by
  constructor
  · intro h
    rw [take] at h
    split at h
    next hle =>
      simp only [Option.some.injEq, Prod.mk.injEq] at h
      rw [← h.1, ← h.2]
      simp [hle]
    next => simp at h
  · rintro ⟨rfl, rfl⟩
    simp [take]

theorem byte_eq_some_iff {v : UInt8} : byte bs = some (v, rest) ↔ bs = v :: rest := by
  cases bs with
  | nil => simp [byte]
  | cons b bs => simp [byte]

theorem word_eq_some_iff {v : UInt16} : word bs = some (v, rest) ↔ bs = be 2 v.toNat ++ rest := by
  simp only [word, Option.map_eq_some_iff, Prod.exists, Prod.mk.injEq, take_eq_some_iff]
  constructor
  · rintro ⟨xs, _, ⟨rfl, hxs⟩, rfl, rfl⟩
    rw [be_uint16 hxs]
  · rintro rfl
    exact ⟨be 2 v.toNat, rest, by simp, by simp, rfl⟩

theorem dword_eq_some_iff {v : UInt32} : dword bs = some (v, rest) ↔ bs = be 4 v.toNat ++ rest := by
  simp only [dword, Option.map_eq_some_iff, Prod.exists, Prod.mk.injEq, take_eq_some_iff]
  constructor
  · rintro ⟨xs, _, ⟨rfl, hxs⟩, rfl, rfl⟩
    rw [be_uint32 hxs]
  · rintro rfl
    exact ⟨be 4 v.toNat, rest, by simp, by simp, rfl⟩

theorem qword_eq_some_iff {v : UInt64} : qword bs = some (v, rest) ↔ bs = be 8 v.toNat ++ rest := by
  simp only [qword, Option.map_eq_some_iff, Prod.exists, Prod.mk.injEq, take_eq_some_iff]
  constructor
  · rintro ⟨xs, _, ⟨rfl, hxs⟩, rfl, rfl⟩
    rw [be_uint64 hxs]
  · rintro rfl
    exact ⟨be 8 v.toNat, rest, by simp, by simp, rfl⟩

theorem takeWhile_append_zero (h : (0 : UInt8) ∉ xs) :
    (xs ++ 0 :: ys).takeWhile (· ≠ 0) = xs := by
  have hall : ∀ b ∈ xs, decide (b ≠ 0) = true := by
    intro b hb
    simpa using ne_of_mem_of_not_mem hb h
  rw [List.takeWhile_append_of_pos hall]
  simp

theorem cstr_eq_some_iff : cstr bs = some (xs, rest) ↔ bs = xs ++ 0 :: rest ∧ 0 ∉ xs := by
  constructor
  · intro h
    rw [cstr] at h
    split at h
    next hmem =>
      obtain ⟨as, cs, rfl, has⟩ := List.eq_append_cons_of_mem hmem
      simp only [takeWhile_append_zero has, Option.some.injEq, Prod.mk.injEq] at h
      rw [← h.1, ← h.2]
      simp [has]
    next => simp at h
  · rintro ⟨rfl, hxs⟩
    rw [cstr, if_pos (by simp), takeWhile_append_zero hxs]
    simp

/-! ## Strings that were cut off -/

/-- `bs` is `full` without its last `d` bytes. -/
structure Cut (d : ℕ) (bs full : List UInt8) : Prop where
  length : bs.length + d = full.length
  isPrefix : bs <+: full

theorem Cut.refl (bs : List UInt8) : Cut 0 bs bs := ⟨rfl, List.prefix_rfl⟩

theorem Cut.take_full (h : n ≤ full.length) : Cut (full.length - n) (full.take n) full :=
  ⟨by rw [List.length_take]; omega, List.take_prefix _ _⟩

/-- Of what is taken off the front, a cut string has as much as the whole one. -/
theorem Cut.append (h : Cut d (xs ++ rest) (xs ++ ys)) : Cut d rest ys := by
  have hlen := h.length
  simp only [List.length_append] at hlen
  exact ⟨by omega, (List.prefix_append_right_inj xs).mp h.isPrefix⟩

theorem Cut.take {as : List UInt8} (h : Cut d bs (xs ++ ys)) (hxs : xs.length = n)
    (ht : take n bs = some (as, rest)) : as = xs ∧ Cut d rest ys := by
  obtain ⟨rfl, hlen⟩ := take_eq_some_iff.mp ht
  obtain ⟨tail, htail⟩ := h.isPrefix
  have hsame : as = xs := by
    rw [List.append_assoc] at htail
    exact (List.append_inj htail (by omega)).1
  subst hsame
  exact ⟨rfl, h.append⟩

theorem Cut.byte {v w : UInt8} (h : Cut d bs (w :: ys)) (ht : byte bs = some (v, rest)) :
    v = w ∧ Cut d rest ys := by
  have hbs := byte_eq_some_iff.mp ht
  have htake : Format.take 1 bs = some ([v], rest) := take_eq_some_iff.mpr ⟨by simpa using hbs, rfl⟩
  have h' : Cut d bs ([w] ++ ys) := h
  obtain ⟨hv, hcut⟩ := h'.take rfl htake
  exact ⟨by simpa using hv, hcut⟩

theorem Cut.word {v w : UInt16} (h : Cut d bs (be 2 w.toNat ++ ys))
    (ht : word bs = some (v, rest)) : v = w ∧ Cut d rest ys := by
  have htake := take_eq_some_iff.mpr ⟨word_eq_some_iff.mp ht, length_be 2 v.toNat⟩
  obtain ⟨hv, hcut⟩ := h.take (length_be 2 w.toNat) htake
  refine ⟨?_, hcut⟩
  rw [← uint16_ofBe_be v, hv, uint16_ofBe_be]

theorem Cut.dword {v w : UInt32} (h : Cut d bs (be 4 w.toNat ++ ys))
    (ht : dword bs = some (v, rest)) : v = w ∧ Cut d rest ys := by
  have htake := take_eq_some_iff.mpr ⟨dword_eq_some_iff.mp ht, length_be 4 v.toNat⟩
  obtain ⟨hv, hcut⟩ := h.take (length_be 4 w.toNat) htake
  refine ⟨?_, hcut⟩
  rw [← uint32_ofBe_be v, hv, uint32_ofBe_be]

theorem Cut.qword {v w : UInt64} (h : Cut d bs (be 8 w.toNat ++ ys))
    (ht : qword bs = some (v, rest)) : v = w ∧ Cut d rest ys := by
  have htake := take_eq_some_iff.mpr ⟨qword_eq_some_iff.mp ht, length_be 8 v.toNat⟩
  obtain ⟨hv, hcut⟩ := h.take (length_be 8 w.toNat) htake
  refine ⟨?_, hcut⟩
  rw [← uint64_ofBe_be v, hv, uint64_ofBe_be]

/-- A NUL that was not cut off ends the same string. -/
theorem Cut.cstr {as : List UInt8} (h : Cut d bs (xs ++ 0 :: ys)) (hxs : (0 : UInt8) ∉ xs)
    (ht : cstr bs = some (as, rest)) : as = xs ∧ Cut d rest ys := by
  obtain ⟨rfl, has⟩ := cstr_eq_some_iff.mp ht
  obtain ⟨tail, htail⟩ := h.isPrefix
  have hsame : as = xs := by
    have htw := congrArg (List.takeWhile (· ≠ 0)) htail
    rwa [List.append_assoc, List.cons_append, takeWhile_append_zero has,
      takeWhile_append_zero hxs] at htw
  subst hsame
  have hcut : Cut d ((as ++ [0]) ++ rest) ((as ++ [0]) ++ ys) := by simpa using h
  exact ⟨rfl, hcut.append⟩

/-! ## How much a parser takes -/

/-- `p` takes `len bs` bytes off a string `bs` that it accepts. -/
def Fits {α : Type*} (p : Parser α) (len : List UInt8 → ℕ) : Prop :=
  ∀ bs a rest, p bs = some (a, rest) → len bs ≤ bs.length ∧ bs.drop (len bs) = rest

/-- `p` accepts a string of `len bs` bytes at least. -/
def Enough {α : Type*} (p : Parser α) (len : List UInt8 → ℕ) : Prop :=
  ∀ bs, len bs ≤ bs.length → ∃ a, p bs = some (a, bs.drop (len bs))

/-- `p` takes `len bs` bytes off a string `bs` exactly where they are there. -/
structure Takes {α : Type*} (p : Parser α) (len : List UInt8 → ℕ) : Prop where
  fits : Fits p len
  enough : Enough p len

/-- The length that a string announces for `n` values in a row. -/
def manyLen (len : List UInt8 → ℕ) : ℕ → List UInt8 → ℕ
  | 0, _ => 0
  | n + 1, bs => len bs + manyLen len n (bs.drop (len bs))

section
variable {α : Type*} {p : Parser α} {len : List UInt8 → ℕ}

theorem take_of_le (n : ℕ) (bs : List UInt8) (h : n ≤ bs.length) :
    take n bs = some (bs.take n, bs.drop n) := by
  simp [take, h]

theorem takes_take (n : ℕ) : Takes (take n) fun _ => n where
  fits := by
    intro bs a rest h
    obtain ⟨rfl, rfl⟩ := take_eq_some_iff.mp h
    simp
  enough := by
    intro bs h
    exact ⟨bs.take n, take_of_le n bs h⟩

theorem takes_byte : Takes byte fun _ => 1 where
  fits := by
    intro bs a rest h
    rw [byte_eq_some_iff] at h
    simp [h]
  enough := by
    intro bs h
    cases bs with
    | nil => simp at h
    | cons b bs => exact ⟨b, rfl⟩

theorem takes_map {β : Type*} (hp : Takes p len) (f : α → β) :
    Takes (fun bs => (p bs).map fun r => (f r.1, r.2)) len where
  fits := by
    intro bs b rest h
    simp only [Option.map_eq_some_iff, Prod.exists, Prod.mk.injEq] at h
    obtain ⟨a, _, ha, -, rfl⟩ := h
    exact hp.fits bs a _ ha
  enough := by
    intro bs h
    obtain ⟨a, ha⟩ := hp.enough bs h
    exact ⟨f a, by simp [ha]⟩

theorem takes_word : Takes word fun _ => 2 :=
  takes_map (takes_take 2) fun xs => UInt16.ofNat (ofBe xs)

theorem takes_dword : Takes dword fun _ => 4 :=
  takes_map (takes_take 4) fun xs => UInt32.ofNat (ofBe xs)

theorem takes_qword : Takes qword fun _ => 8 :=
  takes_map (takes_take 8) fun xs => UInt64.ofNat (ofBe xs)

theorem takes_cstr : Takes cstr fun bs => (bs.takeWhile (· ≠ 0)).length + 1 where
  fits := by
    intro bs a rest h
    obtain ⟨rfl, ha⟩ := cstr_eq_some_iff.mp h
    simp only [takeWhile_append_zero ha]
    simp
  enough := by
    intro bs h
    have hmem : 0 ∈ bs := by
      by_contra hno
      have hall : bs.takeWhile (· ≠ 0) = bs := by
        rw [List.takeWhile_eq_self_iff]
        intro b hb
        simpa using ne_of_mem_of_not_mem hb hno
      simp only [hall] at h
      omega
    exact ⟨_, by rw [cstr, if_pos hmem]⟩

/-- A word is the number that its bytes stand for. -/
theorem word_of_le (bs : List UInt8) (h : 2 ≤ bs.length) :
    word bs = some (.ofNat (ofBe (bs.take 2)), bs.drop 2) := by
  simp [word, take_of_le _ _ h]

theorem dword_of_le (bs : List UInt8) (h : 4 ≤ bs.length) :
    dword bs = some (.ofNat (ofBe (bs.take 4)), bs.drop 4) := by
  simp [dword, take_of_le _ _ h]

theorem word_fits {bs rest : List UInt8} {v : UInt16} (h : word bs = some (v, rest)) :
    2 ≤ bs.length ∧ bs.drop 2 = rest ∧ ofBe (bs.take 2) = v.toNat := by
  rw [word_eq_some_iff] at h
  subst h
  have hbe : ofBe (be 2 v.toNat) = v.toNat := ofBe_be_of_lt (by simpa using v.toNat_lt)
  simp [hbe]

theorem dword_fits {bs rest : List UInt8} {v : UInt32} (h : dword bs = some (v, rest)) :
    4 ≤ bs.length ∧ bs.drop 4 = rest ∧ ofBe (bs.take 4) = v.toNat := by
  rw [dword_eq_some_iff] at h
  subst h
  have hbe : ofBe (be 4 v.toNat) = v.toNat := ofBe_be_of_lt (by simpa using v.toNat_lt)
  simp [hbe]

theorem fits_many (hp : Fits p len) (n : ℕ) : Fits (many p n) (manyLen len n) := by
  induction n with
  | zero =>
      intro bs a rest h
      simp only [many, Option.some.injEq, Prod.mk.injEq] at h
      simp [manyLen, h.2]
  | succ n ih =>
      intro bs as rest h
      simp only [many, Option.bind_eq_bind, Option.bind_eq_some_iff, Prod.exists,
        Option.some.injEq, Prod.mk.injEq] at h
      obtain ⟨a, bs', ha, as', rest', has, -, rfl⟩ := h
      obtain ⟨hle, rfl⟩ := hp _ _ _ ha
      obtain ⟨hle', hrest⟩ := ih _ _ _ has
      rw [List.length_drop] at hle'
      exact ⟨by rw [manyLen]; omega, by rw [manyLen, ← hrest, List.drop_drop]⟩

theorem enough_many (hp : Enough p len) (n : ℕ) : Enough (many p n) (manyLen len n) := by
  induction n with
  | zero =>
      intro bs _
      exact ⟨[], rfl⟩
  | succ n ih =>
      intro bs h
      rw [manyLen] at h
      obtain ⟨a, ha⟩ := hp bs (by omega)
      obtain ⟨as, has⟩ := ih (bs.drop (len bs)) (by rw [List.length_drop]; omega)
      refine ⟨a :: as, ?_⟩
      simp [many, ha, has, manyLen, List.drop_drop]

theorem takes_many (hp : Takes p len) (n : ℕ) : Takes (many p n) (manyLen len n) :=
  ⟨fits_many hp.fits n, enough_many hp.enough n⟩

theorem manyLen_const (c n : ℕ) (bs : List UInt8) : manyLen (fun _ => c) n bs = n * c := by
  induction n generalizing bs with
  | zero => simp [manyLen]
  | succ n ih => rw [manyLen, ih, Nat.succ_mul, Nat.add_comm]

theorem length_of_many {n : ℕ} {bs rest : List UInt8} {as : List α}
    (h : many p n bs = some (as, rest)) : as.length = n := by
  induction n generalizing bs as rest with
  | zero =>
      simp only [many, Option.some.injEq, Prod.mk.injEq] at h
      simp [← h.1]
  | succ n ih =>
      simp only [many, Option.bind_eq_bind, Option.bind_eq_some_iff, Prod.exists,
        Option.some.injEq, Prod.mk.injEq] at h
      obtain ⟨a, bs', -, as', rest', has, rfl, -⟩ := h
      simp [ih has]

theorem le_manyLen {c : ℕ} (h : ∀ bs, c ≤ len bs) (n : ℕ) (bs : List UInt8) :
    n * c ≤ manyLen len n bs := by
  induction n generalizing bs with
  | zero => simp
  | succ n ih =>
      have hfirst := h bs
      have hrest := ih (bs.drop (len bs))
      rw [manyLen, Nat.succ_mul]
      omega

end

end Spp.Format
