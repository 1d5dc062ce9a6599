import Mathlib.Algebra.Order.BigOperators.Group.List
import Mathlib.Data.List.Nodup
import Mathlib.Data.List.Sort
import Mathlib.Tactic.Ring

/-!
# Maps that can be walked through

A map with unique keys that keeps its entries in a list, so that a loop can visit them.
`insert` does not replace the value of a key that is there; `put` does.

## Main definitions

* `StdMap` — the entries, with the proof that no key occurs twice.
* `find?`, `insert`, `put`, `modify`, `erase` — the operations.
* `Sorted` — the entries stand in the order of their keys.
* `sumOf` — a sum over the entries.
-/

namespace Spp

structure StdMap (K V : Type*) where
  entries : List (K × V)
  nodup : (entries.map Prod.fst).Nodup

namespace StdMap

variable {K V : Type*}

def empty : StdMap K V := ⟨[], List.nodup_nil⟩

variable [DecidableEq K]

def find? (m : StdMap K V) (k : K) : Option V :=
  (m.entries.find? fun e => e.1 = k).map Prod.snd

/-- Changes the value of a key that is there. -/
def modify (m : StdMap K V) (k : K) (f : V → V) : StdMap K V where
  entries := m.entries.map fun e => if e.1 = k then (e.1, f e.2) else e
  nodup := by
    have hkeys : (m.entries.map fun e => if e.1 = k then (e.1, f e.2) else e).map Prod.fst =
        m.entries.map Prod.fst := by
      rw [List.map_map]
      refine List.map_congr_left fun e _ => ?_
      by_cases he : e.1 = k <;> simp [he]
    rw [hkeys]
    exact m.nodup

def erase (m : StdMap K V) (k : K) : StdMap K V where
  entries := m.entries.filter fun e => e.1 ≠ k
  nodup := (List.filter_sublist.map Prod.fst).nodup m.nodup

/-- Adds a key that is not there. -/
def insert (m : StdMap K V) (k : K) (v : V) : StdMap K V :=
  if h : k ∈ m.entries.map Prod.fst then m
  else ⟨(k, v) :: m.entries, List.nodup_cons.mpr ⟨h, m.nodup⟩⟩

/-- Sets the value of a key; the entries stay in the order of the keys. -/
def put [LE K] [DecidableLE K] (m : StdMap K V) (k : K) (v : V) : StdMap K V :=
  if h : k ∈ m.entries.map Prod.fst then m.modify k fun _ => v
  else
    { entries := m.entries.orderedInsert (fun a b => a.1 ≤ b.1) (k, v)
      nodup := by
        have hperm := (List.perm_orderedInsert (fun a b : K × V => a.1 ≤ b.1) (k, v)
          m.entries).map Prod.fst
        exact hperm.nodup_iff.mpr (List.nodup_cons.mpr ⟨h, m.nodup⟩) }

variable {m : StdMap K V} {k k' : K} {v v' : V} {f : V → V}

/-! ## What is found -/

theorem find?_eq_some_iff : m.find? k = some v ↔ (k, v) ∈ m.entries := by
  obtain ⟨es, hnd⟩ := m
  change (es.find? fun e => e.1 = k).map Prod.snd = some v ↔ (k, v) ∈ es
  induction es with
  | nil => simp
  | cons e es ih =>
    obtain ⟨k', v'⟩ := e
    rw [List.map_cons, List.nodup_cons] at hnd
    by_cases hk : k' = k
    · subst hk
      have habsent : (k', v) ∉ es := fun hmem => hnd.1 (List.mem_map.mpr ⟨(k', v), hmem, rfl⟩)
      simp [habsent, eq_comm]
    · have hne : ¬ k = k' := fun heq => hk heq.symm
      simpa [hk, hne] using ih hnd.2

theorem find?_eq_none_iff : m.find? k = none ↔ k ∉ m.entries.map Prod.fst := by
  rw [Option.eq_none_iff_forall_ne_some, List.mem_map]
  constructor
  · rintro hnone ⟨⟨k', v⟩, hmem, rfl⟩
    exact hnone v (find?_eq_some_iff.mpr hmem)
  · intro habsent v hsome
    exact habsent ⟨(k, v), find?_eq_some_iff.mp hsome, rfl⟩

@[simp] theorem find?_empty : (empty : StdMap K V).find? k = none := rfl

theorem find?_insert_self (h : m.find? k = none) : (m.insert k v).find? k = some v := by
  rw [find?_eq_none_iff] at h
  simp [insert, h, find?]

theorem find?_insert_of_ne (h : k' ≠ k) : (m.insert k v).find? k' = m.find? k' := by
  unfold insert
  split
  · rfl
  · simp [find?, h.symm]

theorem find?_modify_self : (m.modify k f).find? k = (m.find? k).map f := by
  obtain ⟨es, hnd⟩ := m
  change ((es.map fun e => if e.1 = k then (e.1, f e.2) else e).find? fun e => e.1 = k).map Prod.snd =
    ((es.find? fun e => e.1 = k).map Prod.snd).map f
  induction es with
  | nil => rfl
  | cons e es ih =>
    rw [List.map_cons, List.nodup_cons] at hnd
    by_cases he : e.1 = k
    · simp [he]
    · simpa [he] using ih hnd.2

theorem find?_modify_of_ne (h : k' ≠ k) : (m.modify k f).find? k' = m.find? k' := by
  obtain ⟨es, hnd⟩ := m
  change ((es.map fun e => if e.1 = k then (e.1, f e.2) else e).find? fun e => e.1 = k').map Prod.snd =
    (es.find? fun e => e.1 = k').map Prod.snd
  induction es with
  | nil => rfl
  | cons e es ih =>
    rw [List.map_cons, List.nodup_cons] at hnd
    by_cases he : e.1 = k
    · simpa [he, h.symm] using ih hnd.2
    · by_cases he' : e.1 = k'
      · subst he'
        simp [h]
      · simpa [he, he'] using ih hnd.2

theorem find?_erase_self : (m.erase k).find? k = none := by
  rw [find?_eq_none_iff]
  simp [erase]

theorem find?_erase_of_ne (h : k' ≠ k) : (m.erase k).find? k' = m.find? k' := by
  cases hfind : m.find? k' with
  | none =>
    rw [find?_eq_none_iff] at hfind ⊢
    intro hmem
    obtain ⟨e, he, rfl⟩ := List.mem_map.mp hmem
    exact hfind (List.mem_map.mpr ⟨e, (List.mem_filter.mp he).1, rfl⟩)
  | some v =>
    rw [find?_eq_some_iff] at hfind ⊢
    exact List.mem_filter.mpr ⟨hfind, by simpa using h⟩

theorem find?_insert (h : m.find? k = none) :
    (m.insert k v).find? k' = if k' = k then some v else m.find? k' := by
  by_cases hk : k' = k
  · rw [if_pos hk, hk, find?_insert_self h]
  · rw [if_neg hk, find?_insert_of_ne hk]

theorem find?_modify : (m.modify k f).find? k' = if k' = k then (m.find? k).map f else m.find? k' := by
  by_cases hk : k' = k
  · rw [if_pos hk, hk, find?_modify_self]
  · rw [if_neg hk, find?_modify_of_ne hk]

theorem find?_erase : (m.erase k).find? k' = if k' = k then none else m.find? k' := by
  by_cases hk : k' = k
  · rw [if_pos hk, hk, find?_erase_self]
  · rw [if_neg hk, find?_erase_of_ne hk]

theorem find?_put [LE K] [DecidableLE K] :
    (m.put k v).find? k' = if k' = k then some v else m.find? k' := by
  unfold put
  split
  next h =>
    obtain ⟨v', hv'⟩ : ∃ v', m.find? k = some v' := by
      rw [← Option.ne_none_iff_exists']
      simpa [find?_eq_none_iff] using h
    simp [find?_modify, hv']
  next h =>
    apply Option.ext
    intro w
    rw [find?_eq_some_iff, List.mem_orderedInsert]
    by_cases hk : k' = k
    · subst hk
      have habsent : (k', w) ∉ m.entries := fun hmem =>
        h (List.mem_map.mpr ⟨(k', w), hmem, rfl⟩)
      simp [habsent, eq_comm]
    · simp [hk, find?_eq_some_iff]

/-- `modify` leaves the keys as they are. -/
@[simp] theorem find?_modify_eq_none : (m.modify k f).find? k' = none ↔ m.find? k' = none := by
  rw [find?_modify]
  by_cases hk : k' = k <;> simp [hk]

theorem modify_eq_self (h : ∀ v, f v = v) : m.modify k f = m := by
  have hentries : (m.entries.map fun e => if e.1 = k then (e.1, f e.2) else e) = m.entries := by
    conv_rhs => rw [← List.map_id m.entries]
    refine List.map_congr_left fun e _ => ?_
    simp [h]
  unfold modify
  congr

/-! ## The order of the entries -/

/-- The entries stand in the order of their keys, as a walk comes to them. -/
def Sorted [LE K] (m : StdMap K V) : Prop := (m.entries.map Prod.fst).Pairwise (· ≤ ·)

omit [DecidableEq K] in
theorem sorted_empty [LE K] : (empty : StdMap K V).Sorted := .nil

theorem Sorted.erase [LE K] (h : m.Sorted) (k : K) : (m.erase k).Sorted :=
  h.sublist (List.filter_sublist.map Prod.fst)

theorem Sorted.put [LE K] [DecidableLE K] [Std.IsLinearPreorder K] (h : m.Sorted) (k : K)
    (v : V) : (m.put k v).Sorted := by
  unfold StdMap.put
  split
  next =>
    have hkeys : ((m.modify k fun _ => v).entries.map Prod.fst) = m.entries.map Prod.fst := by
      rw [modify, List.map_map]
      refine List.map_congr_left fun e _ => ?_
      by_cases he : e.1 = k <;> simp [he]
    rw [Sorted, hkeys]
    exact h
  next =>
    have htotal : Std.Total fun a b : K × V => a.1 ≤ b.1 := ⟨fun _ _ => Std.le_total⟩
    have htrans : IsTrans (K × V) fun a b => a.1 ≤ b.1 := ⟨fun _ _ _ => Std.le_trans⟩
    exact List.pairwise_map.mpr ((List.pairwise_map.mp h).orderedInsert (k, v) m.entries)

/-- A map without entries finds nothing. -/
theorem entries_ne_nil_iff : m.entries ≠ [] ↔ ∃ k v, m.find? k = some v := by
  constructor
  · intro hne
    obtain ⟨e, he⟩ := List.exists_mem_of_ne_nil m.entries hne
    exact ⟨e.1, e.2, find?_eq_some_iff.mpr he⟩
  · rintro ⟨k, v, hfind⟩
    exact List.ne_nil_of_mem (find?_eq_some_iff.mp hfind)

/-! ## Sums -/

/-- The sum over the entries. -/
def sumOf (m : StdMap K V) (g : K → V → ℕ) : ℕ := (m.entries.map fun e => g e.1 e.2).sum

variable {g : K → V → ℕ}

theorem sumOf_insert (h : m.find? k = none) : (m.insert k v).sumOf g = g k v + m.sumOf g := by
  rw [find?_eq_none_iff] at h
  simp [insert, h, sumOf]

/-- A change of one value changes one summand. -/
theorem sumOf_modify (h : m.find? k = some v) :
    (m.modify k f).sumOf g + g k v = m.sumOf g + g k (f v) := by
  rw [find?_eq_some_iff] at h
  obtain ⟨es, hnd⟩ := m
  change ((es.map fun e => if e.1 = k then (e.1, f e.2) else e).map fun e => g e.1 e.2).sum + g k v =
    (es.map fun e => g e.1 e.2).sum + g k (f v)
  induction es with
  | nil => simp at h
  | cons e es ih =>
    rw [List.map_cons, List.nodup_cons] at hnd
    rcases List.mem_cons.mp h with rfl | hmem
    · have hrest : (es.map fun e => if e.1 = k then (e.1, f e.2) else e) = es := by
        conv_rhs => rw [← List.map_id es]
        refine List.map_congr_left fun e he => ?_
        have hne : e.1 ≠ k := fun heq => hnd.1 (List.mem_map.mpr ⟨e, he, heq⟩)
        simp [hne]
      simp [hrest]
      ring
    · have hne : e.1 ≠ k := by
        rintro rfl
        exact hnd.1 (List.mem_map.mpr ⟨_, hmem, rfl⟩)
      have hsum := ih hnd.2 hmem
      simp only [List.map_cons, List.sum_cons, if_neg hne]
      omega

/-- Each summand is at most the sum. -/
theorem le_sumOf (h : m.find? k = some v) : g k v ≤ m.sumOf g := by
  rw [find?_eq_some_iff] at h
  exact List.single_le_sum (by simp) _ (List.mem_map.mpr ⟨(k, v), h, rfl⟩)

end StdMap
end Spp
