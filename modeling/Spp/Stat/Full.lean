import Spp.Stat.Reach

/-!
# A request for a pool without room

`alloc_statobj` asserts that there is an object and that there are values, and `init_statobj` calls
it for each policy.  So a request for which the room does not suffice ends the process, with the
objects for the first policies registered, and `ERR_STAT_FULL` is never returned.  The assertion
also leaves one value unused.

## Main definitions

* `StatPool.Suffices` — there are objects and values for the policies of a request.
* `StatPool.Reports` — a request succeeds or is refused, by whether the room suffices.
* `StatPool.HasRoom` — the request does not come to the assertion, or the assertion holds.
-/

namespace Spp.StatPool

variable {pool : StatPool} {log : List StatStep} {regs : List StatReg}

/-- There are objects and values for `n` policies. -/
def Suffices (pool : StatPool) (valSize : ℤ) (n : ℕ) : Prop :=
  pool.statobjsUsed + n ≤ defaultStatobjNum ∧
    (pool.statvalsUsed : ℤ) + n * valSize ≤ defaultStatvalNum

/-- A request for an id that is there is refused as such; another one succeeds if the room suffices,
and otherwise is refused and leaves the pool as it is. -/
structure Reports (pool : StatPool) (id : StatId) (type : UInt32) (desc : Option StatId)
    (valSize : ℤ) : Prop where
  exist : pool.findStatobj id.1 ≠ none →
    pool.initStatobj id type desc valSize = some (pool, errStatExist)
  succeeds : pool.findStatobj id.1 = none →
    pool.Suffices valSize (StatPolicy.selected type).length →
    ∃ pool', pool.initStatobj id type desc valSize = some (pool', 0)
  full : pool.findStatobj id.1 = none →
    ¬ pool.Suffices valSize (StatPolicy.selected type).length →
    pool.initStatobj id type desc valSize = some (pool, errStatFull)

/-- The id is there, or the type has no policy, or there is room for the policies and one more
value. -/
def HasRoom (pool : StatPool) (id : StatId) (type : UInt32) (valSize : ℤ) : Prop :=
  pool.findStatobj id.1 ≠ none ∨ StatPolicy.selected type = [] ∨
    pool.statobjsUsed + (StatPolicy.selected type).length ≤ defaultStatobjNum ∧
      (pool.statvalsUsed : ℤ) + (StatPolicy.selected type).length * valSize < defaultStatvalNum

theorem hasRoom_iff_fitsAll {id : StatId} {type : UInt32} {valSize : ℤ} (hpos : 1 ≤ valSize)
    (hnone : pool.findStatobj id.1 = none) : pool.HasRoom id type valSize ↔
      pool.FitsAll valSize (StatPolicy.selected type).length := by
  simp [HasRoom, FitsAll, hnone, hpos]

theorem Ok.suffices_zero (h : pool.Ok) (valSize : ℤ) : pool.Suffices valSize 0 := by
  have hvals := h.vals_lt
  refine ⟨h.used_le, ?_⟩
  simp only [Nat.cast_zero, zero_mul, add_zero]
  omega

theorem Ok.suffices_of_fitsAll (h : pool.Ok) {valSize : ℤ} {n : ℕ}
    (hfits : pool.FitsAll valSize n) : pool.Suffices valSize n := by
  rcases hfits with rfl | ⟨-, hobjs, hvals⟩
  · exact h.suffices_zero valSize
  · exact ⟨hobjs, hvals.le⟩

/-- After any calls: a request is reported as it should be if and only if the id is there or there
is room, with a value to spare. -/
theorem reports_iff (h : Reach pool regs log) (id : StatId) (type : UInt32) (desc : Option StatId)
    {valSize : ℤ} (hpos : 1 ≤ valSize) :
    pool.Reports id type desc valSize ↔ pool.HasRoom id type valSize := by
  have hok := h.inv.ok
  by_cases hfound : pool.findStatobj id.1 = none
  · have hinit : pool.initStatobj id type desc valSize =
        initLoop id.1 desc valSize (StatPolicy.selected type) pool := by
      rw [initStatobj, if_neg (not_not.mpr hfound)]
    obtain ⟨hmade, habort⟩ := hok.initLoop id.1 desc valSize (StatPolicy.selected type)
    rw [hasRoom_iff_fitsAll hpos hfound]
    constructor
    · intro hreports
      by_contra hfits
      have hnone := hinit.trans (habort hfits)
      -- the process ends, whether the room suffices or not
      by_cases hroom : pool.Suffices valSize (StatPolicy.selected type).length
      · obtain ⟨pool', hsome⟩ := hreports.succeeds hfound hroom
        rw [hnone] at hsome
        cases hsome
      · have hsome := hreports.full hfound hroom
        rw [hnone] at hsome
        cases hsome
    · intro hfits
      refine ⟨fun hne => absurd hfound hne, fun _ _ => ⟨_, hinit.trans (hmade hfits).1⟩, ?_⟩
      intro _ hroom
      exact absurd (hok.suffices_of_fitsAll hfits) hroom
  · apply iff_of_true
    · refine ⟨fun _ => ?_, fun hnone => absurd hnone hfound, fun hnone => absurd hnone hfound⟩
      rw [initStatobj, if_pos hfound]
    · exact .inl hfound

/-- A request that leaves room. -/
theorem reports_iff_new : newpool.Reports ⟨[97], by decide⟩ 3 none 2 :=
  (reports_iff .new _ _ _ (by decide)).mpr (.inr (.inr (by decide)))

/-- There are values for one more policy, but the process ends. -/
theorem not_reports : ¬ ∀ pool regs log, Reach pool regs log → ∀ id type desc valSize,
    1 ≤ valSize → pool.Reports id type desc valSize := by
  intro hall
  have hreports := hall _ _ _ .new ⟨[97], by decide⟩ 1 none 100 (by decide)
  have hnone : newpool.findStatobj [97] = none := newpool_ok.find_eq_none_iff.mpr nofun
  obtain ⟨pool', hsome⟩ := hreports.succeeds hnone (by
    rw [Suffices]
    decide)
  cases hsome

end Spp.StatPool
