import Spp.Stat.Once

/-!
# Finding a statistic again

An object has room for 63 bytes of an id.  `init_statobj` cuts a longer id off, and links the
object for what is left; `find_statobj` looks for the whole id.  So an id of 64 bytes or more is
never found, and what is left of it is taken for another one.  A request whose type has no policy is
accepted as well, and registers nothing.

## Main definitions

* `StatPool.OwnedBy` — the objects of a request.
* `StatPool.FoundAgain` — the calls find them, and no other id does.
-/

namespace Spp.StatPool

variable {pool : StatPool} {i : ℕ} {log : List StatStep} {regs pre suf : List StatReg}
  {r : StatReg}

/-- The object is one of a request, where `pre` are the requests before. -/
def OwnedBy (pre : List StatReg) (r : StatReg) (i : ℕ) : Prop :=
  (pre.flatMap StatReg.objs).length ≤ i ∧ i < (pre.flatMap StatReg.objs).length + r.objs.length

/-- `query` and `step` find the objects of the request, a second request is refused, and the
objects are found for no other id. -/
structure FoundAgain (pool : StatPool) (pre : List StatReg) (r : StatReg) : Prop where
  query : ∃ i, OwnedBy pre r i ∧ pool.query r.id = (1, some i)
  step : ∀ val valIdx, (pool.step [r.id] val valIdx).2.Nodup ∧
    ∀ i, i ∈ (pool.step [r.id] val valIdx).2 ↔ OwnedBy pre r i
  again : ∀ type desc valSize, pool.initStatobj r.id type desc valSize = some (pool, errStatExist)
  apart : ∀ (id : StatId) i, OwnedBy pre r i → pool.findStatobj id.1 = some i → id = r.id
  stepsApart : ∀ (id : StatId) val valIdx i, OwnedBy pre r i →
    i ∈ (pool.step [id] val valIdx).2 → id = r.id

theorem query_eq_some_iff {id : StatId} :
    pool.query id = (1, some i) ↔ pool.findStatobj id.1 = some i := by
  rw [query]
  cases pool.findStatobj id.1 <;> simp

theorem getElem?_entries (hi : i < pool.statobjsUsed) : pool.entries[i]? =
    some ((pool.statobjs i).id, pool.policy i, (pool.statobjs i).valSize) := by
  simp [entries, hi]

@[simp] theorem length_entries (pool : StatPool) : pool.entries.length = pool.statobjsUsed := by
  simp [entries]

/-- What is stored of an id has at most 63 bytes. -/
theorem Listed.length_id (h : pool.Listed regs) (hi : i < pool.statobjsUsed) :
    (pool.statobjs i).id.length < statIdMaxLen := by
  have hmem := List.mem_of_getElem? (getElem?_entries hi)
  rw [h] at hmem
  obtain ⟨r, -, hobj⟩ := List.mem_flatMap.mp hmem
  obtain ⟨p, -, heq⟩ := List.mem_map.mp hobj
  have hid : r.id.1.take (statIdMaxLen - 1) = (pool.statobjs i).id := congrArg Prod.fst heq
  rw [← hid, List.length_take]
  exact Nat.lt_of_le_of_lt (Nat.min_le_left _ _) (by decide)

/-- A request that is found again has an id that is stored whole, and registers something. -/
theorem FoundAgain.good (h : pool.FoundAgain pre r) (hinv : pool.Inv regs log) :
    r.Short ∧ r.objs ≠ [] := by
  obtain ⟨i, howned, hquery⟩ := h.query
  obtain ⟨hi, hid⟩ := hinv.ok.of_find (query_eq_some_iff.mp hquery)
  constructor
  · rw [StatReg.Short, ← hid]
    exact hinv.listed.length_id hi
  · intro hnil
    rw [OwnedBy, hnil, List.length_nil] at howned
    omega

/-- The objects of a request are those with its id. -/
theorem Single.ownedBy_iff (h : pool.Single regs) (hlisted : pool.Listed regs)
    (hsplit : regs = pre ++ r :: suf) (hshort : r.Short) (hne : r.objs ≠ []) :
    OwnedBy pre r i ↔ i < pool.statobjsUsed ∧ (pool.statobjs i).id = r.id.1 := by
  have hparts : pool.entries = pre.flatMap StatReg.objs ++ (r.objs ++ suf.flatMap StatReg.objs) := by
    rw [hlisted, hsplit]
    simp
  have hown : ∀ e ∈ r.objs, e.1 = r.id.1 := by
    intro e he
    obtain ⟨p, -, rfl⟩ := List.mem_map.mp he
    exact take_of_short hshort
  -- all entries with the id are there, so there is none before and none behind
  have hobjs := h.objs r (hsplit ▸ by simp) hne
  have hself : (r.objs.filter fun e => e.1 = r.id.1) = r.objs := by
    rw [List.filter_eq_self]
    intro e he
    simpa using hown e he
  rw [hparts, List.filter_append, List.filter_append, hself] at hobjs
  have hlengths := congrArg List.length hobjs
  simp only [List.length_append] at hlengths
  have hbefore : (pre.flatMap StatReg.objs).filter (fun e => e.1 = r.id.1) = [] :=
    List.length_eq_zero_iff.mp (by omega)
  have hbehind : (suf.flatMap StatReg.objs).filter (fun e => e.1 = r.id.1) = [] :=
    List.length_eq_zero_iff.mp (by omega)
  rw [List.filter_eq_nil_iff] at hbefore hbehind
  have htotal := congrArg List.length hparts
  simp only [length_entries, List.length_append] at htotal
  constructor
  · rintro ⟨hlow, hhigh⟩
    have hi : i < pool.statobjsUsed := by omega
    refine ⟨hi, ?_⟩
    have hget := getElem?_entries hi
    rw [hparts, List.getElem?_append_right hlow, List.getElem?_append_left (by omega)] at hget
    exact hown _ (List.mem_of_getElem? hget)
  · rintro ⟨hi, hid⟩
    have hget := getElem?_entries hi
    rw [hid, hparts] at hget
    constructor
    · by_contra hlow
      rw [List.getElem?_append_left (by omega)] at hget
      exact hbefore _ (List.mem_of_getElem? hget) (by simp)
    · by_contra hhigh
      rw [List.getElem?_append_right (by omega), List.getElem?_append_right (by omega)] at hget
      exact hbehind _ (List.mem_of_getElem? hget) (by simp)

/-- After any calls: all requests that were accepted are found again if and only if their ids are
stored whole and each of them registers something. -/
theorem found_again_iff (h : Reach pool regs log) :
    (∀ pre r suf, regs = pre ++ r :: suf → pool.FoundAgain pre r) ↔
      ∀ r ∈ regs, r.Short ∧ r.objs ≠ [] := by
  have hinv := h.inv
  constructor
  · intro hall r hr
    obtain ⟨pre, suf, hsplit⟩ := List.append_of_mem hr
    exact (hall pre r suf hsplit).good hinv
  · intro hgood pre r suf hsplit
    have hsingle := h.single fun r hr => (hgood r hr).1
    obtain ⟨hshort, hne⟩ := hgood r (hsplit ▸ by simp)
    have howned : ∀ i, OwnedBy pre r i ↔ i < pool.statobjsUsed ∧ (pool.statobjs i).id = r.id.1 :=
      fun i => hsingle.ownedBy_iff hinv.listed hsplit hshort hne
    have hfound : pool.findStatobj r.id.1 ≠ none := by
      intro hnone
      have hfirst : OwnedBy pre r (pre.flatMap StatReg.objs).length :=
        ⟨le_rfl, Nat.lt_add_of_pos_right (List.length_pos_iff.mpr hne)⟩
      obtain ⟨hi, hid⟩ := (howned _).mp hfirst
      exact hinv.ok.find_eq_none_iff.mp hnone _ hi hid
    refine ⟨?_, ?_, ?_, ?_, ?_⟩
    · obtain ⟨i, hi⟩ := Option.ne_none_iff_exists'.mp hfound
      exact ⟨i, (howned i).mpr (hinv.ok.of_find hi), query_eq_some_iff.mpr hi⟩
    · intro val valIdx
      rw [hinv.ok.step_eq, List.flatMap_singleton]
      refine ⟨pool.nodup_applied _, ?_⟩
      intro i
      rw [hsingle.mem_applied_iff, howned]
    · intro type desc valSize
      rw [initStatobj, if_pos hfound]
    · intro id i hi hid
      exact Subtype.ext ((hinv.ok.of_find hid).2.symm.trans ((howned i).mp hi).2)
    · intro id val valIdx i hi hmem
      rw [hinv.ok.step_eq, List.flatMap_singleton] at hmem
      exact Subtype.ext ((mem_applied hmem).2.symm.trans ((howned i).mp hi).2)

/-- A request for one policy. -/
theorem exists_reach_one (id : StatId) : ∃ pool, Reach pool [⟨id, 1, 1⟩] [] := by
  have hfits : newpool.FitsAll 1 (StatPolicy.selected 1).length := .inr (by decide)
  exact ⟨_, reach_one id 1 hfits⟩

theorem found_again_iff_one : ∃ pool regs log, Reach pool regs log ∧ regs.length = 1 ∧
    ∀ pre r suf, regs = pre ++ r :: suf → pool.FoundAgain pre r := by
  obtain ⟨pool, hreach⟩ := exists_reach_one ⟨[97], by decide⟩
  refine ⟨pool, _, _, hreach, rfl, (found_again_iff hreach).mpr ?_⟩
  intro r hr
  rw [List.mem_singleton.mp hr]
  exact ⟨(by decide : 1 < 64), by decide⟩

/-- An id of 64 bytes is not found. -/
theorem not_found_again : ¬ ∀ pool regs log, Reach pool regs log →
    ∀ pre r suf, regs = pre ++ r :: suf → pool.FoundAgain pre r := by
  intro hall
  obtain ⟨pool, hreach⟩ := exists_reach_one ⟨List.replicate 64 97, by decide⟩
  have hgood := (hall pool _ _ hreach [] _ [] rfl).good hreach.inv
  exact absurd hgood.1 (by rw [StatReg.Short]; decide)

end Spp.StatPool
