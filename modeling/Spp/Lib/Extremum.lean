import Mathlib.Data.List.DropRight
import Mathlib.Order.Bounds.Basic
import Mathlib.Order.MinMax

/-!
# Running extremes

A cell that takes each value that is greater holds the greatest one of the first content and the
values.  A cell that takes each value that is smaller, and any value while it holds the content that
stands for none, loses what it had when it takes that content from a value.

## Main definitions

* `keepMin` — one value for the second kind of cell.
* `keptBy` — the values of which this cell holds the least.
-/

namespace Spp

variable {α : Type*} [LinearOrder α] {z v t : α} {l : List α}

/-- A cell that takes greater values. -/
theorem isGreatest_foldl_max (l : List α) (z : α) : IsGreatest {v | v ∈ z :: l} (l.foldl max z) := by
  induction l generalizing z with
  | nil => simp [IsGreatest, upperBounds]
  | cons v l ih =>
      obtain ⟨hmem, hub⟩ := ih (max z v)
      constructor
      · rcases List.mem_cons.mp hmem with hfirst | hrest
        · rw [List.foldl_cons, hfirst]
          rcases max_choice z v with hz | hv
          · simp [hz]
          · simp [hv]
        · exact .tail _ (.tail _ hrest)
      · intro u hu
        have hfirst : max z v ≤ l.foldl max (max z v) := hub List.mem_cons_self
        rcases List.mem_cons.mp hu with rfl | hu
        · exact (le_max_left u v).trans hfirst
        rcases List.mem_cons.mp hu with rfl | hu
        · exact (le_max_right z u).trans hfirst
        · exact hub (.tail _ hu)

/-- A cell that takes smaller values, and any value while it holds `z`. -/
def keepMin (z t v : α) : α := if t > v ∨ t = z then v else t

/-- The values of which the cell holds the least: all of them where one lies below `z`, and
otherwise those since the last `z`, or this one if it is the last of all. -/
def keptBy (z : α) (l : List α) : List α :=
  if ∃ v ∈ l, v < z then l
  else if l.rtakeWhile (· ≠ z) = [] then [z]
  else l.rtakeWhile (· ≠ z)

theorem keepMin_of_ne (h : t ≠ z) : keepMin z t v = min t v := by
  by_cases hlt : t > v
  · rw [keepMin, if_pos (.inl hlt), min_eq_right hlt.le]
  · rw [keepMin, if_neg (by simp [hlt, h]), min_eq_left (not_lt.mp hlt)]

@[simp] theorem keepMin_self (z v : α) : keepMin z z v = v := by simp [keepMin]

/-- A value below `z` makes all values count. -/
theorem keptBy_of_exists_lt (h : ∃ v ∈ l, v < z) : keptBy z l = l := if_pos h

theorem keptBy_of_forall_ge (h : ∀ v ∈ l, z ≤ v) : keptBy z l =
    if l.rtakeWhile (· ≠ z) = [] then [z] else l.rtakeWhile (· ≠ z) :=
  if_neg fun ⟨v, hv, hlt⟩ => hlt.not_ge (h v hv)

/-- One more value that is not `z`, where none lies below. -/
theorem keptBy_concat_of_ne (h : ∀ u ∈ l ++ [v], z ≤ u) (hv : v ≠ z) :
    keptBy z (l ++ [v]) = l.rtakeWhile (· ≠ z) ++ [v] := by
  rw [keptBy_of_forall_ge h, List.rtakeWhile_concat_pos _ _ _ (by simpa using hv)]
  simp

theorem keptBy_concat_self (h : ∀ u ∈ l, z ≤ u) : keptBy z (l ++ [z]) = [z] := by
  have hall : ∀ u ∈ l ++ [z], z ≤ u := by
    intro u hu
    rcases List.mem_append.mp hu with hu | hu
    · exact h u hu
    · exact (List.mem_singleton.mp hu).ge
  rw [keptBy_of_forall_ge hall, List.rtakeWhile_concat_neg _ _ _ (by simp), if_pos rfl]

theorem isLeast_concat {s : List α} (h : IsLeast {u | u ∈ s} t) (v : α) :
    IsLeast {u | u ∈ s ++ [v]} (min t v) := by
  constructor
  · rcases min_choice t v with ht | hv
    · exact List.mem_append.mpr (.inl (ht.symm ▸ h.1))
    · simp [hv]
  · intro u hu
    rcases List.mem_append.mp hu with hu | hu
    · exact (min_le_left t v).trans (h.2 hu)
    · exact (min_le_right t v).trans (List.mem_singleton.mp hu).ge

theorem le_of_mem_keptBy (h : ∀ u ∈ l, z ≤ u) (hv : v ∈ keptBy z l) : z ≤ v := by
  rw [keptBy_of_forall_ge h] at hv
  split at hv
  · exact (List.mem_singleton.mp hv).ge
  · exact h v ((List.rtakeWhile_suffix _ l).subset hv)

/-- A cell that has held `z` at first holds the least of the values that count. -/
theorem isLeast_foldl_keepMin (z : α) (l : List α) :
    IsLeast {v | v ∈ keptBy z l} (l.foldl (keepMin z) z) := by
  -- the last value decides what counts, and so the values are taken from the right
  induction l using List.reverseRecOn with
  | nil => simp [keptBy]
  | append_singleton l v ih =>
      rw [List.foldl_concat]
      by_cases hneg : ∃ u ∈ l, u < z
      · -- the cell lies below `z` already
        obtain ⟨u, hu, hlt⟩ := hneg
        rw [keptBy_of_exists_lt ⟨u, hu, hlt⟩] at ih
        have hbelow : l.foldl (keepMin z) z ≠ z := ((ih.2 hu).trans_lt hlt).ne
        rw [keptBy_of_exists_lt ⟨u, List.mem_append_left _ hu, hlt⟩, keepMin_of_ne hbelow]
        exact isLeast_concat ih v
      have hge : ∀ u ∈ l, z ≤ u := by
        intro u hu
        exact not_lt.mp fun hlt => hneg ⟨u, hu, hlt⟩
      have hcell : z ≤ l.foldl (keepMin z) z := le_of_mem_keptBy hge ih.1
      rcases lt_trichotomy v z with hlt | rfl | hgt
      · -- the first value below `z`
        rw [keptBy_of_exists_lt ⟨v, by simp, hlt⟩, keepMin, if_pos (.inl (hlt.trans_le hcell))]
        refine ⟨by simp, ?_⟩
        intro u hu
        rcases List.mem_append.mp hu with hu | hu
        · exact hlt.le.trans (hge u hu)
        · exact (List.mem_singleton.mp hu).ge
      · -- the cell takes `z` and forgets
        rw [keptBy_concat_self hge, keepMin, if_pos (lt_or_eq_of_le hcell |>.imp id Eq.symm)]
        simp
      · have hall : ∀ u ∈ l ++ [v], z ≤ u := by
          intro u hu
          rcases List.mem_append.mp hu with hu | hu
          · exact hge u hu
          · exact (List.mem_singleton.mp hu).symm ▸ hgt.le
        rw [keptBy_concat_of_ne hall hgt.ne']
        rw [keptBy_of_forall_ge hge] at ih
        by_cases hnone : l.rtakeWhile (· ≠ z) = []
        · rw [if_pos hnone] at ih
          rw [hnone, List.mem_singleton.mp ih.1, keepMin_self]
          simp
        · rw [if_neg hnone] at ih
          have hne := List.mem_rtakeWhile_imp ih.1
          rw [keepMin_of_ne (by simpa using hne)]
          exact isLeast_concat ih v

end Spp
