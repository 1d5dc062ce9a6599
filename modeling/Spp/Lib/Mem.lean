import Mathlib.Data.List.Basic
import Mathlib.Data.List.OfFn

/-!
# Flat memory

A memory is a function from offsets to cells.  `write` is one `memcpy` into it
and `read` one `memcpy` out of it; the lemmas say what a read sees after a write,
and how a read splits at an inner offset.
-/

namespace Spp.Mem

variable {α : Type*}

/-- Store the list `bs` from offset `dst` on. -/
def write (m : ℕ → α) (dst : ℕ) (bs : List α) : ℕ → α := fun i =>
  if dst ≤ i then (bs[i - dst]?).getD (m i) else m i

/-- The `n` cells from offset `src` on. -/
def read (m : ℕ → α) (src n : ℕ) : List α := (List.range n).map fun i => m (src + i)

@[simp] theorem write_nil (m : ℕ → α) (dst : ℕ) : write m dst [] = m := by
  funext i
  simp [write]

theorem write_of_lt (m : ℕ → α) (bs : List α) {dst i : ℕ} (h : i < dst) :
    write m dst bs i = m i := by
  simp [write, Nat.not_le.mpr h]

theorem write_of_ge (m : ℕ → α) (bs : List α) {dst i : ℕ} (h : dst + bs.length ≤ i) :
    write m dst bs i = m i := by
  have hlen : bs.length ≤ i - dst := by omega
  simp [write, List.getElem?_eq_none hlen]

theorem write_add (m : ℕ → α) (bs : List α) (dst : ℕ) {i : ℕ} (h : i < bs.length) :
    write m dst bs (dst + i) = bs[i] := by
  simp [write, h]

/-- Two stores one behind the other are one store. -/
theorem write_append (m : ℕ → α) (dst : ℕ) (bs cs : List α) :
    write m dst (bs ++ cs) = write (write m dst bs) (dst + bs.length) cs := by
  funext i
  by_cases hlt : i < dst + bs.length
  · rw [write_of_lt _ cs hlt]
    by_cases hdst : i < dst
    · rw [write_of_lt _ _ hdst, write_of_lt _ _ hdst]
    · obtain ⟨j, rfl⟩ : ∃ j, i = dst + j := ⟨i - dst, by omega⟩
      rw [write_add _ _ _ (by rw [List.length_append]; omega), write_add m bs dst (by omega),
        List.getElem_append_left]
  · obtain ⟨j, rfl⟩ : ∃ j, i = dst + bs.length + j := ⟨i - (dst + bs.length), by omega⟩
    by_cases hcs : j < cs.length
    · rw [write_add _ cs _ hcs, Nat.add_assoc,
        write_add _ _ _ (by rw [List.length_append]; omega), List.getElem_append_right (by omega)]
      congr 1
      omega
    · rw [write_of_ge _ cs (by omega), write_of_ge _ bs (by omega),
        write_of_ge _ _ (by rw [List.length_append]; omega)]

@[simp] theorem length_read (m : ℕ → α) (src n : ℕ) : (read m src n).length = n := by
  simp [read]

@[simp] theorem getElem_read (m : ℕ → α) (src n i : ℕ) (h : i < (read m src n).length) :
    (read m src n)[i] = m (src + i) := by
  simp [read]

@[simp] theorem read_zero (m : ℕ → α) (src : ℕ) : read m src 0 = [] := rfl

/-- A read splits at any inner offset. -/
theorem read_add (m : ℕ → α) (src a b : ℕ) :
    read m src (a + b) = read m src a ++ read m (src + a) b := by
  simp [read, List.range_add, List.map_map, Function.comp_def, Nat.add_assoc]

theorem read_succ (m : ℕ → α) (src n : ℕ) :
    read m src (n + 1) = m src :: read m (src + 1) n := by
  rw [Nat.add_comm n 1, read_add]
  rfl

theorem read_one_eq_iff {m : ℕ → α} {src : ℕ} {x : α} : read m src 1 = [x] ↔ m src = x := by
  simp [read]

/-- A read sees two lists one behind the other when it sees the first, and the second
behind it. -/
theorem read_append_iff {m : ℕ → α} {src : ℕ} {as bs : List α} :
    read m src (as ++ bs).length = as ++ bs ↔
      read m src as.length = as ∧ read m (src + as.length) bs.length = bs := by
  rw [List.length_append, read_add]
  constructor
  · intro h
    exact List.append_inj h (by simp)
  · rintro ⟨has, hbs⟩
    rw [has, hbs]

theorem take_drop_read (m : ℕ → α) (src : ℕ) {k n len : ℕ} (h : k + n ≤ len) :
    ((read m src len).drop k).take n = read m (src + k) n := by
  apply List.ext_getElem
  · simp only [List.length_take, List.length_drop, length_read]
    omega
  · intro i h₁ h₂
    simp [Nat.add_assoc]

theorem read_congr {m m' : ℕ → α} {src src' n : ℕ}
    (h : ∀ i, i < n → m (src + i) = m' (src' + i)) : read m src n = read m' src' n := by
  refine List.map_congr_left ?_
  intro i hi
  exact h i (List.mem_range.mp hi)

/-- Equal reads see equal cells. -/
theorem cell_of_read {m m' : ℕ → α} {src src' n i : ℕ} (h : read m src n = read m' src' n)
    (hi : i < n) : m (src + i) = m' (src' + i) := by
  have hget := congrArg (fun bs => bs[i]?) h
  simpa [List.getElem?_eq_getElem, hi] using hget

/-- A read is determined by its cells. -/
theorem read_eq {m : ℕ → α} {src : ℕ} {bs : List α}
    (h : ∀ i (hi : i < bs.length), m (src + i) = bs[i]) : read m src bs.length = bs := by
  refine List.ext_getElem (by simp) ?_
  intro i hi hi'
  rw [getElem_read]
  exact h i hi'

@[simp] theorem read_write_self (m : ℕ → α) (dst : ℕ) (bs : List α) :
    read (write m dst bs) dst bs.length = bs :=
  read_eq fun _ hi => write_add m bs dst hi

/-- A cell that is not written has to agree before. -/
theorem write_congr {m m' : ℕ → α} {p p' dst i : ℕ} {bs : List α}
    (h : i < dst ∨ dst + bs.length ≤ i → m (p + i) = m' (p' + i)) :
    write m (p + dst) bs (p + i) = write m' (p' + dst) bs (p' + i) := by
  by_cases hin : i < dst ∨ dst + bs.length ≤ i
  · rcases hin with hlt | hge
    · rw [write_of_lt _ _ (by omega), write_of_lt _ _ (by omega), h (.inl hlt)]
    · rw [write_of_ge _ _ (by omega), write_of_ge _ _ (by omega), h (.inr hge)]
  · obtain ⟨j, rfl⟩ : ∃ j, i = dst + j := ⟨i - dst, by omega⟩
    rw [← Nat.add_assoc, ← Nat.add_assoc, write_add m bs _ (by omega), write_add m' bs _ (by omega)]

theorem write_read (m : ℕ → α) (dst n : ℕ) : write m dst (read m dst n) = m := by
  funext i
  by_cases h : dst ≤ i ∧ i < dst + n
  · obtain ⟨j, rfl⟩ := Nat.exists_eq_add_of_le h.1
    rw [write_add m _ _ (by simpa using h.2), getElem_read]
  · rcases Nat.lt_or_ge i dst with hi | hi
    · exact write_of_lt m _ hi
    · exact write_of_ge m _ (by rw [length_read]; omega)

/-- Reading below or above a write sees the old cells. -/
theorem read_write_of_disjoint (m : ℕ → α) (bs : List α) {dst src n : ℕ}
    (h : src + n ≤ dst ∨ dst + bs.length ≤ src) :
    read (write m dst bs) src n = read m src n := by
  refine read_congr ?_
  intro i hi
  rcases h with h | h
  · exact write_of_lt m bs (by omega)
  · exact write_of_ge m bs (by omega)

/-- A read sees a shorter list that was written at its start, and the old cells behind it. -/
theorem read_write_of_le (m : ℕ → α) (dst : ℕ) {bs : List α} {n : ℕ} (h : bs.length ≤ n) :
    read (write m dst bs) dst n = bs ++ (read m dst n).drop bs.length := by
  obtain ⟨k, rfl⟩ := Nat.exists_eq_add_of_le h
  rw [read_add, read_write_self, read_add m, List.drop_left' (length_read _ _ _),
    read_write_of_disjoint _ _ (.inr le_rfl)]

/-- Reading a list as memory. -/
theorem read_getD [Zero α] (bs : List α) {n : ℕ} (h : n ≤ bs.length) :
    read (fun i => bs.getD i 0) 0 n = bs.take n := by
  refine List.ext_getElem (by simp [h]) ?_
  intro i hi hi'
  have hlt : i < bs.length := by rw [List.length_take] at hi'; omega
  simp [hlt]

end Spp.Mem
