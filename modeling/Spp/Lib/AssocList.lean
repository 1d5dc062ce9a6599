import Mathlib.Data.List.Nodup
import Mathlib.Data.Set.Card
import Mathlib.Logic.Function.Basic

/-!
# Finite maps as association lists

A finite map is kept as a list of keys with their values, in which no key occurs twice
and the order does not matter.

## Main definitions

* `Rep es t` — the list `es` stands for the map `t`.
-/

namespace Spp.AssocList

variable {K V : Type*}

/-- The list stands for the map. -/
structure Rep (es : List (K × V)) (t : K → Option V) : Prop where
  nodup : (es.map Prod.fst).Nodup
  mem : ∀ k v, t k = some v ↔ (k, v) ∈ es

variable {es es' : List (K × V)} {t : K → Option V} {k : K} {v : V}

theorem rep_nil : Rep ([] : List (K × V)) fun _ => none := ⟨List.nodup_nil, by simp⟩

theorem Rep.perm (h : Rep es t) (hperm : es'.Perm es) : Rep es' t :=
  ⟨(hperm.map _).nodup_iff.mpr h.nodup, fun k v => (h.mem k v).trans hperm.mem_iff.symm⟩

/-- A key that is in no entry is not in the map. -/
theorem Rep.eq_none_iff (h : Rep es t) : t k = none ↔ ∀ e ∈ es, e.1 ≠ k := by
  constructor
  · rintro hnone ⟨k', v⟩ hmem rfl
    rw [(h.mem k' v).mpr hmem] at hnone
    exact absurd hnone (by simp)
  · intro habsent
    cases hk : t k with
    | none => rfl
    | some v => exact absurd rfl (habsent _ ((h.mem k v).mp hk))

section
variable [DecidableEq K]

/-- A new key. -/
theorem Rep.cons (h : Rep es t) (habsent : ∀ e ∈ es, e.1 ≠ k) :
    Rep ((k, v) :: es) (Function.update t k (some v)) := by
  refine ⟨?_, fun k' v' => ?_⟩
  · rw [List.map_cons, List.nodup_cons]
    refine ⟨fun hmem => ?_, h.nodup⟩
    obtain ⟨e, he, hk⟩ := List.mem_map.mp hmem
    exact habsent e he hk
  · by_cases hk : k' = k
    · subst hk
      rw [Function.update_self, List.mem_cons]
      constructor
      · intro heq
        exact .inl (Prod.ext rfl (Option.some.inj heq).symm)
      · rintro (heq | hmem)
        · exact congrArg some (Prod.mk.inj heq).2.symm
        · exact absurd rfl (habsent _ hmem)
    · rw [Function.update_of_ne hk, h.mem k' v']
      simp [hk]

/-- The first key, taken out. -/
theorem Rep.uncons (h : Rep ((k, v) :: es) t) :
    t k = some v ∧ Rep es (Function.update t k none) := by
  have hnd := h.nodup
  rw [List.map_cons, List.nodup_cons] at hnd
  have habsent : ∀ v', (k, v') ∉ es := fun v' hmem =>
    hnd.1 (List.mem_map.mpr ⟨(k, v'), hmem, rfl⟩)
  refine ⟨(h.mem k v).mpr List.mem_cons_self, hnd.2, fun k' v' => ?_⟩
  by_cases hk : k' = k
  · subst hk
    rw [Function.update_self]
    simp [habsent v']
  · rw [Function.update_of_ne hk, h.mem k' v']
    simp [hk]

end

/-- The number of keys in the map. -/
theorem Rep.ncard (h : Rep es t) : { k | t k ≠ none }.ncard = es.length := by
  classical
  have hkeys : { k | t k ≠ none } = ((es.map Prod.fst).toFinset : Set K) := by
    ext k
    have hk := not_congr (h.eq_none_iff (k := k))
    simpa using hk
  rw [hkeys, Set.ncard_coe_finset, List.toFinset_card_of_nodup h.nodup, List.length_map]

end Spp.AssocList
