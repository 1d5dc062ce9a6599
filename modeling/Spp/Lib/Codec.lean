import Spp.Lib.Format

/-!
# What a parser reads of given bytes

An encoder may lose something: a count or a value that is cut off.  Its bytes are then not read as
what was to be encoded, and neither is a part of them.  `Reads p xs a g` says this of one value:
the bytes `xs` are read as `a` exactly if `g`.  The rules put values together to sequences, lists
with a count and strings with a length.

## Main definitions

* `Exact p xs a` — `p` reads `xs` as `a`, and a part of it as nothing else.
* `Reads p xs a g` — `p` reads `xs` as `a` if `g`, and never a part of it otherwise.
* `seq`, `counted`, `lengthed` — two values, a list with its count, a string with its length.
-/

namespace Spp.Format

variable {α β : Type*} {p : Parser α} {q : Parser β} {xs ys : List UInt8} {a : α} {b : β}
  {g h : Prop}

/-- `p` reads `xs` as `a`, and a part of it as nothing else. -/
structure Exact (p : Parser α) (xs : List UInt8) (a : α) : Prop where
  whole : ∀ ys, p (xs ++ ys) = some (a, ys)
  part : ∀ d bs ys a' rest, Cut d bs (xs ++ ys) → p bs = some (a', rest) →
    a' = a ∧ Cut d rest ys

/-- `p` reads `xs` as `a` if `g`, and never a part of it otherwise. -/
structure Reads (p : Parser α) (xs : List UInt8) (a : α) (g : Prop) : Prop where
  whole : g → ∀ ys, p (xs ++ ys) = some (a, ys)
  part : ∀ d bs ys rest, Cut d bs (xs ++ ys) → p bs = some (a, rest) → g ∧ Cut d rest ys

/-! ## Primitives -/

theorem exact_byte (v : UInt8) : Exact byte [v] v where
  whole := fun _ => rfl
  part := fun _ _ _ _ _ hcut hp => hcut.byte hp

theorem exact_word (v : UInt16) : Exact word (be 2 v.toNat) v where
  whole := fun _ => word_eq_some_iff.mpr rfl
  part := fun _ _ _ _ _ hcut hp => hcut.word hp

theorem exact_dword (v : UInt32) : Exact dword (be 4 v.toNat) v where
  whole := fun _ => dword_eq_some_iff.mpr rfl
  part := fun _ _ _ _ _ hcut hp => hcut.dword hp

theorem exact_qword (v : UInt64) : Exact qword (be 8 v.toNat) v where
  whole := fun _ => qword_eq_some_iff.mpr rfl
  part := fun _ _ _ _ _ hcut hp => hcut.qword hp

theorem exact_cstr (hnul : (0 : UInt8) ∉ xs) : Exact cstr (xs ++ [0]) xs where
  whole := fun ys => cstr_eq_some_iff.mpr ⟨by simp, hnul⟩
  part := by
    intro d bs ys a' rest hcut hp
    rw [List.append_assoc, List.singleton_append] at hcut
    exact hcut.cstr hnul hp

/-- A string is taken whole if its length is the announced one. -/
theorem reads_take {n m : ℕ} (hm : xs.length = n → xs.length ≤ m) :
    Reads (take n) (xs.take m) xs (xs.length = n) where
  whole := by
    intro hlen ys
    rw [List.take_of_length_le (hm hlen)]
    exact take_eq_some_iff.mpr ⟨rfl, hlen⟩
  part := by
    intro d bs ys rest hcut hp
    have hlen := (take_eq_some_iff.mp hp).2
    rw [List.take_of_length_le (hm hlen)] at hcut
    exact ⟨hlen, (hcut.take hlen hp).2⟩

/-! ## Rules -/

theorem Exact.reads (hp : Exact p xs a) : Reads p xs a True where
  whole := fun _ => hp.whole
  part := fun d bs ys rest hcut hr => ⟨trivial, (hp.part d bs ys a rest hcut hr).2⟩

/-- A value that is converted after it was read. -/
theorem Exact.map (hp : Exact p xs a) (f : α → β) (b : β) :
    Reads (fun bs => (p bs).map fun r => (f r.1, r.2)) xs b (f a = b) where
  whole := by
    intro hb ys
    simp [hp.whole, hb]
  part := by
    intro d bs ys rest hcut hr
    simp only [Option.map_eq_some_iff, Prod.exists, Prod.mk.injEq] at hr
    rcases hr with ⟨a', _, ha', hb, rfl⟩
    have hpart := hp.part d bs ys a' _ hcut ha'
    rw [← hpart.1]
    exact ⟨hb, hpart.2⟩

theorem Reads.map (hp : Reads p xs a g) {f : α → β} (hf : Function.Injective f) :
    Reads (fun bs => (p bs).map fun r => (f r.1, r.2)) xs (f a) g where
  whole := by
    intro hg ys
    simp [hp.whole hg]
  part := by
    intro d bs ys rest hcut hr
    simp only [Option.map_eq_some_iff, Prod.exists, Prod.mk.injEq] at hr
    rcases hr with ⟨a', _, ha', hb, rfl⟩
    rw [hf hb] at ha'
    exact hp.part d bs ys _ hcut ha'

theorem Reads.congr (hp : Reads p xs a g) (hgh : g ↔ h) : Reads p xs a h where
  whole := fun hh => hp.whole (hgh.mpr hh)
  part := by
    intro d bs ys rest hcut hr
    have hpart := hp.part d bs ys rest hcut hr
    exact ⟨hgh.mp hpart.1, hpart.2⟩

/-- One value behind the other. -/
def seq (p : Parser α) (q : Parser β) : Parser (α × β) := fun bs =>
  (p bs).bind fun r => (q r.2).map fun s => ((r.1, s.1), s.2)

theorem Reads.seq (hp : Reads p xs a g) (hq : Reads q ys b h) :
    Reads (seq p q) (xs ++ ys) (a, b) (g ∧ h) where
  whole := by
    intro hgh zs
    simp [Format.seq, List.append_assoc, hp.whole hgh.1, hq.whole hgh.2]
  part := by
    intro d bs zs rest hcut hr
    simp only [Format.seq, Option.bind_eq_some_iff, Option.map_eq_some_iff, Prod.exists,
      Prod.mk.injEq] at hr
    rcases hr with ⟨a', bs', ha', b', bs'', hb', ⟨rfl, rfl⟩, rfl⟩
    rw [List.append_assoc] at hcut
    have hfirst := hp.part d bs _ bs' hcut ha'
    have hsecond := hq.part d bs' zs bs'' hfirst.2 hb'
    exact ⟨⟨hfirst.1, hsecond.1⟩, hsecond.2⟩

/-- Values in a row. -/
theorem reads_many {ι : Type*} {enc : ι → List UInt8} {view : ι → α} {good : ι → Prop}
    {is : List ι} (hp : ∀ i ∈ is, Reads p (enc i) (view i) (good i)) :
    Reads (many p is.length) (is.flatMap enc) (is.map view) (∀ i ∈ is, good i) := by
  induction is with
  | nil =>
      constructor
      · intro _ ys
        rfl
      · intro d bs ys rest hcut hr
        simp only [List.length_nil, many, Option.some.injEq, Prod.mk.injEq] at hr
        rw [← hr.2]
        exact ⟨by simp, hcut⟩
  | cons i is ih =>
      rw [List.forall_mem_cons] at hp
      have hrest := ih hp.2
      constructor
      · intro hgood ys
        rw [List.forall_mem_cons] at hgood
        rw [List.flatMap_cons, List.append_assoc, List.length_cons, many, hp.1.whole hgood.1]
        simp [hrest.whole hgood.2]
      · intro d bs ys rest hcut hr
        simp only [List.length_cons, many, Option.bind_eq_bind, Option.bind_eq_some_iff,
          Prod.exists, Option.some.injEq, Prod.mk.injEq, List.map_cons, List.cons.injEq] at hr
        rcases hr with ⟨a', bs', ha', as', bs'', has', ⟨rfl, rfl⟩, rfl⟩
        rw [List.flatMap_cons, List.append_assoc] at hcut
        have hfirst := hp.1.part d bs _ bs' hcut ha'
        have hothers := hrest.part d bs' ys bs'' hfirst.2 has'
        exact ⟨List.forall_mem_cons.mpr ⟨hfirst.1, hothers.1⟩, hothers.2⟩

/-- A list behind its count. -/
def counted (p : Parser α) : Parser (List α) := fun bs =>
  (word bs).bind fun r => many p r.1.toNat r.2

/-- A list whose count is cut off at 16 bits. -/
theorem reads_counted {ι : Type*} {enc : ι → List UInt8} {view : ι → α} {good : ι → Prop}
    {l : List ι} {n : UInt16} (hn : n = .ofNat l.length)
    (hp : ∀ i ∈ l, Reads p (enc i) (view i) (good i)) :
    Reads (counted p) (be 2 n.toNat ++ (l.take n.toNat).flatMap enc) (l.map view)
      (l.length < 65536 ∧ ∀ i ∈ l, good i) := by
  have hmany := reads_many hp
  have hcount : l.length < 65536 → n.toNat = l.length := by
    intro hlt
    rw [hn]
    exact UInt16.toNat_ofNat_of_lt' hlt
  constructor
  · intro hgood ys
    rw [counted, List.append_assoc, (exact_word n).whole, hcount hgood.1, List.take_length]
    simp [hcount hgood.1, hmany.whole hgood.2]
  · intro d bs ys rest hcut hr
    simp only [counted, Option.bind_eq_some_iff, Prod.exists] at hr
    rcases hr with ⟨n', bs', hn', has⟩
    rw [List.append_assoc] at hcut
    have hword := (exact_word n).part d bs _ n' bs' hcut hn'
    have hlen := length_of_many has
    rw [hword.1] at has hlen
    rw [List.length_map] at hlen
    have hcut' := hword.2
    rw [← hlen] at has hcut'
    rw [List.take_length] at hcut'
    have hall := hmany.part d bs' ys rest hcut' has
    exact ⟨⟨by rw [hlen]; exact n.toNat_lt, hall.1⟩, hall.2⟩

/-- A string behind its length. -/
def lengthed : Parser (List UInt8) := fun bs =>
  (word bs).bind fun r => take r.1.toNat r.2

/-- A string whose length is cut off at 16 bits. -/
theorem reads_lengthed {n : UInt16} (hn : n = .ofNat xs.length) :
    Reads lengthed (be 2 n.toNat ++ xs.take n.toNat) xs (xs.length < 65536) := by
  have hcount : xs.length < 65536 → n.toNat = xs.length := by
    intro hlt
    rw [hn]
    exact UInt16.toNat_ofNat_of_lt' hlt
  have htake : Reads (take n.toNat) (xs.take n.toNat) xs _ := reads_take le_of_eq
  constructor
  · intro hlt ys
    rw [lengthed, List.append_assoc, (exact_word n).whole]
    exact htake.whole (hcount hlt).symm ys
  · intro d bs ys rest hcut hr
    simp only [lengthed, Option.bind_eq_some_iff, Prod.exists] at hr
    rcases hr with ⟨n', bs', hn', has⟩
    rw [List.append_assoc] at hcut
    have hword := (exact_word n).part d bs _ n' bs' hcut hn'
    rw [hword.1] at has
    have hall := htake.part d bs' ys rest hword.2 has
    exact ⟨by rw [hall.1]; exact n.toNat_lt, hall.2⟩

/-- A string that has lost its end is not read as the whole. -/
theorem Reads.take_iff (hp : Reads p xs a g) (n : ℕ) :
    p (xs.take n) = some (a, []) ↔ g ∧ xs.length ≤ n := by
  constructor
  · intro hr
    by_cases hle : xs.length ≤ n
    · rw [List.take_of_length_le hle] at hr
      have hcut : Cut 0 xs (xs ++ []) := by rw [List.append_nil]; exact Cut.refl xs
      exact ⟨(hp.part 0 xs [] [] hcut hr).1, hle⟩
    · have hcut : Cut (xs.length - n) (xs.take n) (xs ++ []) := by
        rw [List.append_nil]
        exact Cut.take_full (by omega)
      have hnil := (hp.part _ _ [] [] hcut hr).2.length
      rw [List.length_nil] at hnil
      omega
  · intro hg
    have hwhole := hp.whole hg.1 []
    rwa [List.append_nil, ← List.take_of_length_le hg.2] at hwhole

end Spp.Format
