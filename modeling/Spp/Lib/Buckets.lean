import Mathlib.Algebra.BigOperators.Group.Finset.Basic
import Mathlib.Algebra.BigOperators.Group.List.Basic
import Mathlib.Algebra.Order.BigOperators.Group.Finset

/-!
# Tables of buckets

A table has `n` lists, and an entry with key `k` is kept in list `k % n`.  The rules here say
what one operation does to the three things that matter: where the entries are, that no key is
there twice, and how many entries there are.

## Main definitions

* `Buckets.insert`, `Buckets.find?`, `Buckets.erase`, `Buckets.modify`.
* `Buckets.total` — the number of entries.
* `Buckets.Ok` — every entry is in its own list, and no list has a key twice.
-/

namespace Spp.Buckets

variable {α : Type*} (key : α → ℕ) (n : ℕ)

/-- A new entry stands at the head of its list. -/
def insert (b : ℕ → List α) (a : α) : ℕ → List α :=
  Function.update b (key a % n) (a :: b (key a % n))

/-- The first entry with the key. -/
def find? (b : ℕ → List α) (k : ℕ) : Option α := (b (k % n)).find? fun a => key a = k

/-- The first entry with the key is taken out. -/
def erase (b : ℕ → List α) (k : ℕ) : ℕ → List α :=
  Function.update b (k % n) ((b (k % n)).eraseP fun a => key a = k)

/-- The first element with a property is changed. -/
def modifyFirst (p : α → Bool) (f : α → α) : List α → List α
  | [] => []
  | a :: l => if p a then f a :: l else a :: modifyFirst p f l

/-- The first entry with the key is changed. -/
def modify (b : ℕ → List α) (k : ℕ) (f : α → α) : ℕ → List α :=
  Function.update b (k % n) (modifyFirst (fun a => key a = k) f (b (k % n)))

/-- The number of entries. -/
def total (b : ℕ → List α) : ℕ := ∑ j ∈ Finset.range n, (b j).length

/-- Every entry is in its own list, and no list has a key twice. -/
structure Ok (b : ℕ → List α) : Prop where
  placed : ∀ j, ∀ a ∈ b j, key a % n = j
  nodup : ∀ j, ((b j).map key).Nodup

variable {key n} {b : ℕ → List α} {a : α} {k : ℕ} {f : α → α}

theorem ok_empty : Ok key n (fun _ => ([] : List α)) :=
  ⟨by simp, by simp⟩

@[simp] theorem total_empty : total n (fun _ => ([] : List α)) = 0 := by simp [total]

/-! ## One element of a list -/

@[simp] theorem length_modifyFirst (p : α → Bool) (f : α → α) (l : List α) :
    (modifyFirst p f l).length = l.length := by
  induction l with
  | nil => rfl
  | cons a l ih =>
      rw [modifyFirst]
      split
      · simp
      · simp [ih]

theorem map_modifyFirst {p : α → Bool} (hf : ∀ a, p a → key (f a) = key a) (l : List α) :
    (modifyFirst p f l).map key = l.map key := by
  induction l with
  | nil => rfl
  | cons a l ih =>
      rw [modifyFirst]
      split
      next ha => simp [hf a ha]
      next => simp [ih]

/-- A change that a map carries over. -/
theorem modifyFirst_map {β : Type*} {g : α → β} {p : α → Bool} {q : β → Bool} {f' : β → β}
    (hp : ∀ a, q (g a) = p a) (hf : ∀ a, f' (g a) = g (f a)) (l : List α) :
    modifyFirst q f' (l.map g) = (modifyFirst p f l).map g := by
  induction l with
  | nil => rfl
  | cons a l ih =>
      rw [List.map_cons, modifyFirst, modifyFirst, hp]
      split
      · rw [hf, List.map_cons]
      · rw [ih, List.map_cons]

theorem modifyFirst_append {p : α → Bool} {l l' : List α} (hl : ∀ a ∈ l, ¬p a) (ha : p a) :
    modifyFirst p f (l ++ a :: l') = l ++ f a :: l' := by
  induction l with
  | nil => simp [modifyFirst, ha]
  | cons a' l ih =>
      simp only [List.forall_mem_cons] at hl
      rw [List.cons_append, modifyFirst, if_neg hl.1, ih hl.2, List.cons_append]

theorem modifyFirst_eq_self {p : α → Bool} {l : List α} (hl : ∀ a ∈ l, ¬p a) :
    modifyFirst p f l = l := by
  induction l with
  | nil => rfl
  | cons a l ih =>
      simp only [List.forall_mem_cons] at hl
      rw [modifyFirst, if_neg hl.1, ih hl.2]

theorem forall_modifyFirst {Q : α → Prop} {p : α → Bool} (hf : ∀ a, p a → Q a → Q (f a))
    {l : List α} (h : ∀ a ∈ l, Q a) : ∀ a ∈ modifyFirst p f l, Q a := by
  induction l with
  | nil => simp [modifyFirst]
  | cons a l ih =>
      simp only [List.forall_mem_cons] at h
      rw [modifyFirst]
      split
      next ha =>
        simp only [List.forall_mem_cons]
        exact ⟨hf a ha h.1, h.2⟩
      next =>
        simp only [List.forall_mem_cons]
        exact ⟨h.1, ih h.2⟩

/-! ## What all entries satisfy -/

variable {Q : ℕ → α → Prop}

theorem forall_insert (h : ∀ j, ∀ a ∈ b j, Q j a) (ha : Q (key a % n) a) :
    ∀ j, ∀ a' ∈ insert key n b a j, Q j a' := by
  intro j
  by_cases hj : j = key a % n
  · subst hj
    simp only [insert, Function.update_self, List.forall_mem_cons]
    exact ⟨ha, h _⟩
  · rw [insert, Function.update_of_ne hj]
    exact h j

theorem forall_erase (h : ∀ j, ∀ a ∈ b j, Q j a) (k : ℕ) :
    ∀ j, ∀ a ∈ erase key n b k j, Q j a := by
  intro j
  by_cases hj : j = k % n
  · subst hj
    rw [erase, Function.update_self]
    intro a ha
    exact h _ a (List.mem_of_mem_eraseP ha)
  · rw [erase, Function.update_of_ne hj]
    exact h j

theorem forall_modify (h : ∀ j, ∀ a ∈ b j, Q j a) (hf : ∀ j a, key a = k → Q j a → Q j (f a)) :
    ∀ j, ∀ a ∈ modify key n b k f j, Q j a := by
  intro j
  by_cases hj : j = k % n
  · subst hj
    rw [modify, Function.update_self]
    exact forall_modifyFirst (fun a ha => hf _ a (by simpa using ha)) (h _)
  · rw [modify, Function.update_of_ne hj]
    exact h j

/-! ## The table stays well formed -/

theorem keys_modify (hf : ∀ a, key a = k → key (f a) = k) (j : ℕ) :
    (modify key n b k f j).map key = (b j).map key := by
  by_cases hj : j = k % n
  · subst hj
    rw [modify, Function.update_self]
    apply map_modifyFirst
    intro a ha
    have hk : key a = k := by simpa using ha
    rw [hf a hk, hk]
  · rw [modify, Function.update_of_ne hj]

theorem find?_eq_none_iff : find? key n b k = none ↔ ∀ a ∈ b (k % n), key a ≠ k := by
  simp [find?]

theorem find?_insert (b : ℕ → List α) (a : α) (k : ℕ) :
    find? key n (insert key n b a) k = if key a = k then some a else find? key n b k := by
  by_cases hk : key a = k
  · subst hk
    simp [find?, insert]
  · rw [if_neg hk, find?, insert]
    by_cases hj : k % n = key a % n
    · rw [hj, Function.update_self, List.find?_cons_of_neg (by simpa using hk), find?, hj]
    · rw [Function.update_of_ne hj, find?]

theorem find?_modifyFirst (hf : ∀ a, key a = k → key (f a) = k) (k' : ℕ) (l : List α) :
    (modifyFirst (fun a => key a = k) f l).find? (fun a => key a = k') =
      if k' = k then (l.find? fun a => key a = k').map f else l.find? fun a => key a = k' := by
  induction l with
  | nil => simp [modifyFirst]
  | cons a l ih =>
      rw [modifyFirst]
      by_cases ha : key a = k
      · by_cases hk : k' = k
        · simp [ha, hf a ha, hk]
        · have hne : k ≠ k' := Ne.symm hk
          simp [ha, hf a ha, hk, hne]
      · by_cases hk : key a = k'
        · have hne : k' ≠ k := hk ▸ ha
          simp [hk, hne]
        · simpa [ha, hk] using ih

theorem find?_modify (hf : ∀ a, key a = k → key (f a) = k) (k' : ℕ) :
    find? key n (modify key n b k f) k' =
      if k' = k then (find? key n b k').map f else find? key n b k' := by
  by_cases hj : k' % n = k % n
  · rw [find?, modify, hj, Function.update_self, find?_modifyFirst hf, find?, hj]
  · have hk : k' ≠ k := fun heq => hj (heq ▸ rfl)
    rw [find?, modify, Function.update_of_ne hj, if_neg hk, find?]

theorem Ok.insert (h : Ok key n b) (hnone : find? key n b (key a) = none) :
    Ok key n (insert key n b a) where
  placed := forall_insert h.placed rfl
  nodup j := by
    by_cases hj : j = key a % n
    · subst hj
      simp only [Buckets.insert, Function.update_self, List.map_cons, List.nodup_cons]
      refine ⟨?_, h.nodup _⟩
      intro hmem
      simp only [List.mem_map] at hmem
      obtain ⟨a', ha', hkey⟩ := hmem
      exact find?_eq_none_iff.mp hnone a' ha' hkey
    · rw [Buckets.insert, Function.update_of_ne hj]
      exact h.nodup j

theorem Ok.erase (h : Ok key n b) (k : ℕ) : Ok key n (erase key n b k) where
  placed := forall_erase h.placed k
  nodup j := by
    by_cases hj : j = k % n
    · subst hj
      rw [Buckets.erase, Function.update_self]
      exact (h.nodup _).sublist (List.eraseP_sublist.map key)
    · rw [Buckets.erase, Function.update_of_ne hj]
      exact h.nodup j

theorem Ok.modify (h : Ok key n b) (hf : ∀ a, key a = k → key (f a) = k) :
    Ok key n (modify key n b k f) where
  placed := forall_modify h.placed fun j a hk ha => by rw [hf a hk, ← hk, ha]
  nodup j := by
    rw [keys_modify hf]
    exact h.nodup j

/-- No key is there twice in the whole table. -/
theorem Ok.nodup_flatMap (h : Ok key n b) :
    (((List.range n).flatMap b).map key).Nodup := by
  rw [List.map_flatMap, List.nodup_flatMap]
  constructor
  · intro j _
    exact h.nodup j
  · refine List.nodup_range.imp ?_
    intro i j hij k hi hj
    simp only [List.mem_map] at hi hj
    obtain ⟨a, ha, rfl⟩ := hi
    obtain ⟨a', ha', hkey⟩ := hj
    refine hij ?_
    rw [← h.placed i a ha, ← h.placed j a' ha', hkey]

/-- A key that is there stays there. -/
theorem mem_keys_insert {j : ℕ} (h : k ∈ (b j).map key) (a : α) :
    k ∈ (insert key n b a j).map key := by
  by_cases hj : j = key a % n
  · subst hj
    simp only [insert, Function.update_self, List.map_cons, List.mem_cons]
    exact .inr h
  · rwa [insert, Function.update_of_ne hj]

theorem mem_keys_modify {j k' : ℕ} (h : k ∈ (b j).map key)
    (hf : ∀ a, key a = k' → key (f a) = k') : k ∈ (modify key n b k' f j).map key := by
  rwa [keys_modify hf]

/-- The key that is taken out is the only one that goes. -/
theorem mem_keys_erase_iff (h : Ok key n b) (k k' : ℕ) :
    k' ∈ (erase key n b k (k' % n)).map key ↔ k' ∈ (b (k' % n)).map key ∧ k' ≠ k := by
  by_cases hj : k' % n = k % n
  · have hkeys : ((b (k % n)).eraseP fun a => key a = k).map key =
        ((b (k % n)).map key).erase k := by
      rw [List.erase_eq_eraseP, List.eraseP_map]
      congr 2
      funext a
      exact decide_eq_decide.mpr eq_comm
    rw [hj, erase, Function.update_self, hkeys, (h.nodup _).mem_erase_iff, and_comm]
  · have hne : k' ≠ k := fun heq => hj (heq ▸ rfl)
    rw [erase, Function.update_of_ne hj]
    exact (and_iff_left hne).symm

theorem find?_erase (h : Ok key n b) (k k' : ℕ) :
    find? key n (erase key n b k) k' = if k' = k then none else find? key n b k' := by
  by_cases hk : k' = k
  · subst hk
    rw [if_pos rfl, find?_eq_none_iff]
    intro a ha hkey
    have hmem := (mem_keys_erase_iff h k' k').mp (List.mem_map.mpr ⟨a, ha, hkey⟩)
    exact hmem.2 rfl
  · rw [if_neg hk, find?, find?]
    by_cases hj : k' % n = k % n
    · rw [erase, hj, Function.update_self]
      induction b (k % n) with
      | nil => rfl
      | cons a l ih =>
          by_cases ha : key a = k
          · have hne : k ≠ k' := Ne.symm hk
            simp [ha, hne]
          · by_cases hk' : key a = k'
            · simp [hk', hk]
            · simpa [ha, hk'] using ih
    · rw [erase, Function.update_of_ne hj]

/-! ## How many entries there are -/

theorem length_flatMap (n : ℕ) (b : ℕ → List α) :
    ((List.range n).flatMap b).length = total n b := by
  rw [List.length_flatMap]
  rfl

/-- Where the keys are below `m`, there is room for `m` entries. -/
theorem Ok.total_le (h : Ok key n b) {m : ℕ} (hkey : ∀ j, ∀ a ∈ b j, key a < m) :
    total n b ≤ m := by
  have hsub : ((List.range n).flatMap b).map key ⊆ List.range m := by
    intro k hk
    simp only [List.mem_map, List.mem_flatMap] at hk
    obtain ⟨a, ⟨j, -, ha⟩, rfl⟩ := hk
    exact List.mem_range.mpr (hkey j a ha)
  have hle := (List.subperm_of_subset h.nodup_flatMap hsub).length_le
  rwa [List.length_map, length_flatMap, List.length_range] at hle

theorem total_update (b : ℕ → List α) {i : ℕ} (hi : i < n) (l : List α) :
    total n (Function.update b i l) + (b i).length = total n b + l.length := by
  have hrest : ∑ j ∈ (Finset.range n).erase i, (Function.update b i l j).length =
      ∑ j ∈ (Finset.range n).erase i, (b j).length := by
    refine Finset.sum_congr rfl fun j hj => ?_
    rw [Function.update_of_ne (Finset.ne_of_mem_erase hj)]
  have hi' : i ∈ Finset.range n := by simpa using hi
  rw [total, total, ← Finset.add_sum_erase _ _ hi', ← Finset.add_sum_erase _ _ hi', hrest]
  simp only [Function.update_self]
  omega

theorem total_insert (hn : 0 < n) (b : ℕ → List α) (a : α) :
    total n (insert key n b a) = total n b + 1 := by
  have h := total_update b (Nat.mod_lt (key a) hn) (a :: b (key a % n))
  rw [List.length_cons] at h
  rw [insert]
  omega

theorem total_modify (b : ℕ → List α) (k : ℕ) (f : α → α) :
    total n (modify key n b k f) = total n b := by
  refine Finset.sum_congr rfl fun j _ => ?_
  by_cases hj : j = k % n
  · subst hj
    simp [modify]
  · rw [modify, Function.update_of_ne hj]

theorem total_erase (hn : 0 < n) (hmem : k ∈ (b (k % n)).map key) :
    total n (erase key n b k) + 1 = total n b := by
  have h := total_update b (Nat.mod_lt k hn)
    ((b (k % n)).eraseP fun a => key a = k)
  simp only [List.mem_map] at hmem
  obtain ⟨a, ha, hkey⟩ := hmem
  have hlen : ((b (k % n)).eraseP fun a => key a = k).length = (b (k % n)).length - 1 :=
    List.length_eraseP_of_mem ha (by simpa using hkey)
  have hpos := List.length_pos_of_mem ha
  rw [erase]
  omega

end Spp.Buckets
