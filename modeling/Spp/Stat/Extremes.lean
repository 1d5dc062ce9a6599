import Spp.Lib.Extremum
import Spp.Stat.Reach

/-!
# The greatest and the least value

`__reset__` sets the values to 0, and `max` and `min` take this for no value.  So `max` does not see
that all values are negative.  `min` compares and sets the first value whatever the index is, and
takes any value when it finds 0 there, even where a step has left it.

## Main definitions

* `valuesAt` — the values stepped at an index.
* `StatPool.Extreme` — an object has the greatest, or the least, value stepped at an index.
* `StatPool.Shown` — the steps are such that it has.
-/

namespace Spp

instance instLinearOrderInt64 : LinearOrder Int64 where
  le_refl := Int64.le_refl
  le_trans _ _ _ := Int64.le_trans
  le_antisymm _ _ := Int64.le_antisymm
  le_total := Int64.le_total
  lt_iff_le_not_ge a b := by
    rw [Int64.not_le]
    exact ⟨fun h => ⟨Int64.le_of_lt h, h⟩, And.right⟩
  toDecidableLE := inferInstance

/-- The values of some steps. -/
def StatStep.vals (steps : List StatStep) : List Int64 := steps.map StatStep.val

/-- The values stepped at an index. -/
def valuesAt (steps : List StatStep) (valIdx : ℕ) : List Int64 :=
  StatStep.vals (steps.filter fun s => s.valIdx = valIdx)

namespace StatPolicy

variable {steps : List StatStep} {n valIdx : ℕ}

/-! ## What the policies make of the steps -/

theorem value_step_max (t : StatTarget) (s : StatStep) (hs : 1 ≤ s.valIdx) (hpos : 1 ≤ valIdx) :
    (max.step t s.val s.valIdx).value (valIdx - 1) =
      if s.valIdx = valIdx then Max.max (t.value (valIdx - 1)) s.val else t.value (valIdx - 1) := by
  have hset : (max.step t s.val s.valIdx).value = if t.value (s.valIdx - 1) < s.val then
      Function.update t.value (s.valIdx - 1) s.val else t.value := by
    rw [step, StatTarget.value_countLast]
    split <;> rfl
  rw [hset]
  by_cases heq : s.valIdx = valIdx
  · subst heq
    rw [if_pos rfl, max_def_lt]
    split
    · exact Function.update_self _ _ _
    · rfl
  · rw [if_neg heq]
    split
    · exact Function.update_of_ne (by omega) _ _
    · rfl

/-- The greatest value that is shown for an index is 0 or one that was stepped there. -/
theorem value_played_max (hsteps : ∀ s ∈ steps, 1 ≤ s.valIdx) (hpos : 1 ≤ valIdx) :
    (max.played n steps).value (valIdx - 1) = (valuesAt steps valIdx).foldl Max.max 0 := by
  induction steps using List.reverseRecOn with
  | nil => rfl
  | append_singleton steps s ih =>
      have hrest := ih fun s' hs' => hsteps s' (List.mem_append_left _ hs')
      rw [StatPool.played_append, value_step_max _ s (hsteps s (by simp)) hpos, hrest]
      by_cases heq : s.valIdx = valIdx
      · simp [valuesAt, StatStep.vals, heq]
      · simp [valuesAt, StatStep.vals, heq]

theorem value_step_min (t : StatTarget) (s : StatStep) :
    (min.step t s.val s.valIdx).value =
      Function.update t.value 0 (keepMin 0 (t.value 0) s.val) := by
  rw [step, keepMin]
  split
  · rfl
  · exact (Function.update_eq_self 0 t.value).symm

/-- The least value that is shown for the first index comes from all steps. -/
theorem value_played_min_zero (steps : List StatStep) (n : ℕ) :
    (min.played n steps).value 0 = (StatStep.vals steps).foldl (keepMin 0) 0 := by
  induction steps using List.reverseRecOn with
  | nil => rfl
  | append_singleton steps s ih =>
      rw [StatPool.played_append, value_step_min, Function.update_self, ih]
      simp [StatStep.vals]

theorem value_played_min_of_ne {i : ℕ} (hi : i ≠ 0) (steps : List StatStep) (n : ℕ) :
    (min.played n steps).value i = 0 := by
  induction steps using List.reverseRecOn with
  | nil => rfl
  | append_singleton steps s ih =>
      rw [StatPool.played_append, value_step_min, Function.update_of_ne hi, ih]

end StatPolicy

namespace StatPool

variable {pool : StatPool} {i valIdx : ℕ} {log : List StatStep} {regs : List StatReg}

/-- The object has the greatest, or the least, of the values stepped at the index. -/
def Extreme (pool : StatPool) (log : List StatStep) (i valIdx : ℕ) : Prop :=
  let vals := valuesAt (log.filter fun s => s.obj = i) valIdx
  (pool.policy i = .max → IsGreatest {v | v ∈ vals} ((pool.target i).value (valIdx - 1))) ∧
  (pool.policy i = .min → IsLeast {v | v ∈ vals} ((pool.target i).value (valIdx - 1)))

/-- For `max`, a value at the index is not negative.  For `min`, the values at the first index and
those that count have the least one in common; at another index the least one is 0. -/
def Shown (pool : StatPool) (log : List StatStep) (i valIdx : ℕ) : Prop :=
  let steps := log.filter fun s => s.obj = i
  (pool.policy i = .max → ∃ v ∈ valuesAt steps valIdx, 0 ≤ v) ∧
  (pool.policy i = .min → if valIdx = 1 then
      ∃ m, IsLeast {v | v ∈ valuesAt steps 1} m ∧ IsLeast {v | v ∈ keptBy 0 (StatStep.vals steps)} m
    else IsLeast {v | v ∈ valuesAt steps valIdx} 0)

/-- What `max` has is the greatest value if and only if one is not negative. -/
theorem isGreatest_foldl_iff {l : List Int64} :
    IsGreatest {v | v ∈ l} (l.foldl Max.max 0) ↔ ∃ v ∈ l, 0 ≤ v := by
  obtain ⟨hmem, hub⟩ := isGreatest_foldl_max l 0
  constructor
  · intro hgreatest
    exact ⟨_, hgreatest.1, hub List.mem_cons_self⟩
  · intro hnonneg
    obtain ⟨v, hv, hle⟩ := hnonneg
    refine ⟨?_, fun u hu => hub (.tail _ hu)⟩
    rcases List.mem_cons.mp hmem with hzero | hrest
    · -- 0 is the greatest, so the value that is not negative is 0
      have hvz : v = 0 := le_antisymm (hzero ▸ hub (.tail _ hv)) hle
      exact hzero.symm ▸ hvz ▸ hv
    · exact hrest

/-- After any calls, for an index that was stepped since the last reset: an object has the extreme
value if and only if the steps do not run into the 0 that stands for no value. -/
theorem extreme_iff (h : Reach pool regs log) (hi : i < pool.statobjsUsed)
    (hstepped : ∃ s ∈ log, s.obj = i ∧ s.valIdx = valIdx) :
    pool.Extreme log i valIdx ↔ pool.Shown log i valIdx := by
  have hrec := h.inv.recorded
  obtain ⟨s, hs, rfl, rfl⟩ := hstepped
  obtain ⟨-, hpos, hle⟩ := hrec.inRange s hs
  have hvalue := (hrec.target s.obj hi).value (s.valIdx - 1)
    (lt_of_lt_of_le (Nat.sub_one_lt (by omega)) hle)
  simp only [Extreme, Shown, hvalue]
  refine and_congr ?_ ?_
  · refine forall_congr' fun hmax => ?_
    have hsteps : ∀ s' ∈ log.filter (fun s' => s'.obj = s.obj), 1 ≤ s'.valIdx :=
      fun s' hs' => (hrec.inRange s' (List.mem_of_mem_filter hs')).2.1
    rw [hmax, StatPolicy.value_played_max hsteps hpos]
    exact isGreatest_foldl_iff
  · refine forall_congr' fun hmin => ?_
    rw [hmin]
    split
    · next hfirst =>
        rw [hfirst, StatPolicy.value_played_min_zero]
        have hkept := isLeast_foldl_keepMin 0
          (StatStep.vals (log.filter fun s' => s'.obj = s.obj))
        constructor
        · intro hleast
          exact ⟨_, hleast, hkept⟩
        · intro hcommon
          obtain ⟨m, hleast, hkept'⟩ := hcommon
          exact hkept'.unique hkept ▸ hleast
    · rw [StatPolicy.value_played_min_of_ne (by omega)]

/-- One request for a maximum, and one step of its only value. -/
theorem exists_reach_max (val : Int64) : ∃ pool, Reach pool [⟨⟨[97], by decide⟩, 4, 1⟩]
    [⟨0, val, 1⟩] ∧ pool.statobjsUsed = 1 ∧ pool.policy 0 = .max := by
  have hfits : newpool.FitsAll 1 (StatPolicy.selected 4).length := .inr (by decide)
  have hreach := reach_one ⟨[97], by decide⟩ 4 hfits
  have hsize : ∀ id ∈ [(⟨[97], by decide⟩ : StatId)],
      ∀ i < (newpool.pushAll [97] none 1 (StatPolicy.selected 4)).statobjsUsed,
      ((newpool.pushAll [97] none 1 (StatPolicy.selected 4)).statobjs i).id = id.1 →
      1 ≤ ((newpool.pushAll [97] none 1 (StatPolicy.selected 4)).statobjs i).valSize := by
    intro id _ i hi _
    exact hreach.inv.ok.size_pos i hi
  exact ⟨_, @Reach.step _ _ _ _ val 1 hreach le_rfl hsize, rfl, rfl⟩

/-- One step of 7. -/
theorem extreme_iff_max : ∃ pool regs log, Reach pool regs log ∧ pool.policy 0 = .max ∧
    pool.Extreme log 0 1 := by
  obtain ⟨pool, hreach, hused, hpolicy⟩ := exists_reach_max 7
  have hiff := extreme_iff hreach (hused ▸ Nat.one_pos) ⟨_, List.mem_cons_self, rfl, rfl⟩
  refine ⟨pool, _, _, hreach, hpolicy, hiff.mpr ⟨fun _ => ⟨7, by decide, by decide⟩, ?_⟩⟩
  intro hmin
  rw [hpolicy] at hmin
  cases hmin

/-- One step of -5, which leaves 0. -/
theorem not_extreme : ¬ ∀ pool regs log, Reach pool regs log → ∀ i < pool.statobjsUsed,
    ∀ valIdx, (∃ s ∈ log, s.obj = i ∧ s.valIdx = valIdx) → pool.Extreme log i valIdx := by
  intro hall
  obtain ⟨pool, hreach, hused, hpolicy⟩ := exists_reach_max (-5)
  have hextreme := hall pool _ _ hreach 0 (hused ▸ Nat.one_pos) 1 ⟨_, List.mem_cons_self, rfl, rfl⟩
  have hmem := (hextreme.1 hpolicy).1
  have hvalue := (hreach.inv.recorded.target 0 (hused ▸ Nat.one_pos)).value 0
    (hreach.inv.ok.size_pos 0 (hused ▸ Nat.one_pos))
  have hshown := @StatPolicy.value_played_max [⟨0, -5, 1⟩] (pool.statobjs 0).valSize 1
    (by simp) le_rfl
  rw [hvalue, hpolicy] at hmem
  exact absurd (hshown ▸ hmem : _ ∈ [(-5 : Int64)]) (by decide)

end StatPool

end Spp
