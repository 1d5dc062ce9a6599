import Spp.Stat.Reach

/-!
# The report of the statistics

`do_result` gives `__result__` a local array of `STAT_MAX_VALSIZE` values.  A policy writes as many
values as the object has, except that the average of no steps writes none.  `init_statobj` accepts
more values than the array takes.

## Main definitions

* `StatPool.Confined` — the results fit into the array.
-/

namespace Spp.StatPool

variable {pool : StatPool} {i : ℕ} {log : List StatStep} {regs : List StatReg}

/-- `result` and `moni_result` stay in the local array of `do_result`. -/
def Confined (pool : StatPool) : Prop :=
  ∀ res ∈ pool.results, res.values.length ≤ statMaxValsize

theorem length_values_result (p : StatPolicy) (t : StatTarget) :
    (p.result t).values.length = if p = .avg ∧ ¬ t.count > 0 then 0 else t.valSize := by
  cases p with
  | avg =>
      by_cases hcount : t.count > 0
      · simp [StatPolicy.result, hcount]
      · simp [StatPolicy.result, hcount]
  | sum | max | min | count | update => simp [StatPolicy.result]

/-- After any calls: a report stays in the array if and only if each object has at most
`STAT_MAX_VALSIZE` values, or is an average whose count is not positive. -/
theorem report_confined_iff (h : Reach pool regs log) : pool.Confined ↔
    ∀ i < pool.statobjsUsed, (pool.statobjs i).valSize ≤ statMaxValsize ∨
      pool.policy i = .avg ∧ ¬ (pool.statobjs i).count > 0 := by
  have hlength : ∀ i, (pool.resultObj i).values.length ≤ statMaxValsize ↔
      (pool.statobjs i).valSize ≤ statMaxValsize ∨
        pool.policy i = .avg ∧ ¬ (pool.statobjs i).count > 0 := by
    intro i
    rw [resultObj, length_values_result]
    split
    · next hempty => exact iff_of_true (Nat.zero_le _) (.inr hempty)
    · next hfull =>
        constructor
        · intro hle
          exact .inl hle
        · intro hcases
          rcases hcases with hle | hempty
          · exact hle
          · exact absurd hempty hfull
  simp only [Confined, results, List.forall_mem_map, h.inv.ok.mem_travel, hlength]

/-- Three values of a sum. -/
theorem report_confined_iff_three : ∃ pool regs log, Reach pool regs log ∧
    pool.statobjsUsed = 1 ∧ pool.Confined := by
  have hfits : newpool.FitsAll 3 (StatPolicy.selected 1).length := .inr (by decide)
  have hreach := reach_one ⟨[97], by decide⟩ 1 hfits
  refine ⟨_, _, _, hreach, rfl, (report_confined_iff hreach).mpr ?_⟩
  intro i hi
  obtain rfl := Nat.lt_one_iff.mp hi
  exact .inl (by decide)

/-- Eleven values of a sum. -/
theorem not_confined_eleven : ¬ ∀ pool regs log, Reach pool regs log → pool.Confined := by
  intro hall
  have hfits : newpool.FitsAll 11 (StatPolicy.selected 1).length := .inr (by decide)
  have hreach := reach_one ⟨[97], by decide⟩ 1 hfits
  have hmem := hreach.inv.ok.mem_travel.mpr (show 0 < 1 by decide)
  have hle := hall _ _ _ hreach _ (List.mem_map_of_mem hmem)
  rw [resultObj, length_values_result] at hle
  exact absurd hle (by decide)

end Spp.StatPool
