import Spp.Stat.Reach

/-!
# A step is applied once for each policy

`step` looks for the first object with the id, and goes on as long as the next one in the chain has
it too.  It comes to all objects with the id because they were registered by one call, one after
another, and lie next to each other in the chain.  This is so for ids that are stored whole.

## Main definitions

* `Contiguous` — elements with the same key lie next to each other.
* `StatPool.Single` — the objects with an id are those of one request.
* `StatPool.AppliedOnce` — what holds of the chains, the values and the steps.
-/

namespace Spp

/-! ## Contiguous lists -/

/-- Between two elements with the same key there are only such elements. -/
def Contiguous {α β : Type*} (key : α → β) (l : List α) : Prop :=
  ∀ a c b, [a, c, b].Sublist l → key a = key b → key c = key a

namespace Contiguous

variable {α β : Type*} {key : α → β} {a : α} {l l' : List α}

theorem sublist (h : Contiguous key l) (hsub : l'.Sublist l) : Contiguous key l' :=
  fun a c b habc => h a c b (habc.trans hsub)

/-- Behind the first element with another key there is none with this one. -/
theorem takeWhile_eq_filter [DecidableEq β] (h : Contiguous key (a :: l)) :
    (l.takeWhile fun b => key b = key a) = l.filter fun b => key b = key a := by
  induction l with
  | nil => rfl
  | cons c l ih =>
      by_cases hc : key c = key a
      · have hrest := ih (h.sublist ((List.sublist_cons_self c l).cons_cons a))
        simp [hc, hrest]
      · have hnone : l.filter (fun b => key b = key a) = [] := by
          rw [List.filter_eq_nil_iff]
          intro b hb
          have hsub : [a, c, b].Sublist (a :: c :: l) :=
            ((List.singleton_sublist.mpr hb).cons_cons c).cons_cons a
          simpa using fun hkey => hc (h a c b hsub (Eq.symm hkey))
        simp [hc, hnone]

/-- The elements with a key are those from the first one on, as long as they have it. -/
theorem takeWhile_dropWhile_eq_filter [DecidableEq β] (h : Contiguous key l) (k : β) :
    ((l.dropWhile fun b => key b ≠ k).takeWhile fun b => key b = k) =
      l.filter fun b => key b = k := by
  induction l with
  | nil => rfl
  | cons a l ih =>
      by_cases hk : key a = k
      · subst hk
        simp [h.takeWhile_eq_filter]
      · simpa [hk] using ih (h.sublist (List.sublist_cons_self a l))

end Contiguous

/-- The id of the request is stored whole. -/
def StatReg.Short (r : StatReg) : Prop := r.id.1.length < statIdMaxLen

theorem take_of_short {id : List UInt8} (h : id.length < statIdMaxLen) :
    id.take (statIdMaxLen - 1) = id := List.take_of_length_le (Nat.le_pred_of_lt h)

namespace StatPool

open Links

variable {pool pool' : StatPool} {id : List UInt8} {i j : ℕ} {log : List StatStep}
  {regs : List StatReg}

/-! ## The objects with an id -/

/-- The objects with an id are those of one request. -/
structure Single (pool : StatPool) (regs : List StatReg) : Prop where
  convex : ∀ i k j, i ≤ k → k ≤ j → j < pool.statobjsUsed →
    (pool.statobjs i).id = (pool.statobjs j).id → (pool.statobjs k).id = (pool.statobjs i).id
  objs : ∀ r ∈ regs, r.objs ≠ [] → (pool.entries.filter fun e => e.1 = r.id.1) = r.objs

theorem statobjsUsed_pushAll (pool : StatPool) (id : List UInt8) (desc : Option StatId)
    (valSize : ℕ) (ps : List StatPolicy) :
    (pool.pushAll id desc valSize ps).statobjsUsed = pool.statobjsUsed + ps.length := by
  induction ps generalizing pool with
  | nil => rfl
  | cons p ps ih =>
      have hrest := ih (pool.pushObj id desc valSize p)
      rw [statobjsUsed_pushObj, Nat.add_right_comm] at hrest
      exact hrest

/-- The new objects have the id that is stored. -/
theorem id_pushAll (pool : StatPool) (id : List UInt8) (desc : Option StatId) (valSize : ℕ)
    (ps : List StatPolicy) (i : ℕ) : ((pool.pushAll id desc valSize ps).statobjs i).id =
      if pool.statobjsUsed ≤ i ∧ i < pool.statobjsUsed + ps.length then id.take (statIdMaxLen - 1)
      else (pool.statobjs i).id := by
  induction ps generalizing pool with
  | nil =>
      rw [if_neg (by simp only [List.length_nil]; omega)]
      rfl
  | cons p ps ih =>
      have hrest := ih (pool.pushObj id desc valSize p)
      rw [statobjsUsed_pushObj] at hrest
      refine hrest.trans ?_
      rw [List.length_cons]
      by_cases hi : i = pool.statobjsUsed
      · rw [if_neg (by omega), if_pos (by omega), hi, statobjs_pushObj_self]
      · rw [statobjs_pushObj_of_ne _ _ _ _ _ hi]
        by_cases hin : pool.statobjsUsed ≤ i ∧ i < pool.statobjsUsed + (ps.length + 1)
        · rw [if_pos hin, if_pos (by omega)]
        · rw [if_neg hin, if_neg (by omega)]

theorem Alike.single (h : pool.Alike pool') (hsingle : pool.Single regs) : pool'.Single regs where
  convex := by
    intro i k j hik hkj hj heq
    rw [h.id_eq, h.id_eq] at heq ⊢
    exact hsingle.convex i k j hik hkj (h.used ▸ hj) heq
  objs := by
    intro r hr hne
    rw [h.entries]
    exact hsingle.objs r hr hne

theorem filter_entries_eq_nil (hnone : ∀ i < pool.statobjsUsed, (pool.statobjs i).id ≠ id) :
    (pool.entries.filter fun e => e.1 = id) = [] := by
  rw [List.filter_eq_nil_iff]
  intro e he
  obtain ⟨i, hi, rfl⟩ := List.mem_map.mp he
  simpa using hnone i (List.mem_range.mp hi)

/-- A request for a new id adds objects of its own. -/
theorem Single.pushAll (h : pool.Single regs) {r : StatReg} (hshort : r.Short)
    (hnone : ∀ i < pool.statobjsUsed, (pool.statobjs i).id ≠ r.id.1) (desc : Option StatId) :
    (pool.pushAll r.id.1 desc r.valSize (StatPolicy.selected r.type)).Single (regs ++ [r]) := by
  have hstored := take_of_short hshort
  constructor
  · intro i k j hik hkj hj
    rw [statobjsUsed_pushAll] at hj
    simp only [id_pushAll, hstored]
    intro heq
    by_cases hjold : j < pool.statobjsUsed
    · rw [if_neg (by omega), if_neg (by omega)] at heq ⊢
      exact h.convex i k j hik hkj hjold heq
    · rw [if_pos (show _ ∧ _ from ⟨Nat.le_of_not_lt hjold, hj⟩)] at heq
      by_cases hiold : i < pool.statobjsUsed
      · rw [if_neg (by omega)] at heq
        exact absurd heq (hnone i hiold)
      · rw [if_pos (by omega), if_pos (by omega)]
  · intro r' hr' hne
    rw [entries_pushAll, hstored, List.filter_append]
    have hnew : (StatPolicy.selected r.type).map (fun p => (r.id.1, p, r.valSize)) = r.objs := by
      rw [StatReg.objs, hstored]
    rw [hnew]
    rcases List.mem_append.mp hr' with hold | hlast
    · -- an older request has another id
      have hobjs := h.objs r' hold hne
      have hother : r.id.1 ≠ r'.id.1 := by
        intro heq
        rw [← heq, filter_entries_eq_nil hnone] at hobjs
        exact hne hobjs.symm
      have hskip : (r.objs.filter fun e => e.1 = r'.id.1) = [] := by
        rw [List.filter_eq_nil_iff, ← hnew]
        intro e he
        obtain ⟨p, -, rfl⟩ := List.mem_map.mp he
        simpa using hother
      rw [hobjs, hskip, List.append_nil]
    · rw [List.mem_singleton.mp hlast, filter_entries_eq_nil hnone, List.nil_append,
        List.filter_eq_self, ← hnew]
      intro e he
      obtain ⟨p, -, rfl⟩ := List.mem_map.mp he
      simp

/-- If all ids are stored whole, the objects with an id are those of one request. -/
theorem Reach.single (h : Reach pool regs log) (hshort : ∀ r ∈ regs, r.Short) :
    pool.Single regs := by
  induction h with
  | new =>
      constructor
      · intro i k j _ _ hj
        exact absurd hj (Nat.not_lt_zero j)
      · intro r hr
        cases hr
  | init h hret ih =>
      rcases h.inv.ok.initStatobj_cases hret with ⟨-, rfl, rfl⟩ | ⟨hnone, -, rfl, rfl, -⟩
      · exact ih hshort
      · rw [if_pos rfl] at hshort ⊢
        have hold := ih fun r hr => hshort r (List.mem_append_left _ hr)
        exact hold.pushAll (hshort _ (List.mem_append_right _ List.mem_cons_self))
          (h.inv.ok.find_eq_none_iff.mp hnone) _
  | step h hpos hidx ih =>
      rw [h.inv.ok.step_eq]
      exact (alike_applyAll _ _ _ _).single (ih hshort)
  | reset h ih => exact (alike_foldl_resetObj _ _).single (ih hshort)

/-! ## The steps -/

theorem Single.contiguous (h : pool.Single regs) (b : ℕ) :
    Contiguous (fun i => (pool.statobjs i).id) (pool.slots b) := by
  have hdesc : (pool.slots b).Pairwise (· > ·) :=
    (List.pairwise_reverse.mpr List.pairwise_lt_range).filter _
  intro i k j hsub heq
  have horder := hdesc.sublist hsub
  simp only [List.pairwise_cons, List.mem_cons, List.not_mem_nil, or_false, forall_eq_or_imp,
    forall_eq] at horder
  have hused := (mem_slots.mp (hsub.subset List.mem_cons_self)).1
  exact (h.convex j k i (by omega) (by omega) hused heq.symm).trans heq.symm

/-- Under contiguity, `step` comes to all objects with the id. -/
theorem Single.applied_eq (h : pool.Single regs) (id : List UInt8) :
    pool.applied id = (pool.slots (hashid id)).filter fun i => (pool.statobjs i).id = id :=
  (h.contiguous (hashid id)).takeWhile_dropWhile_eq_filter id

theorem Single.mem_applied_iff (h : pool.Single regs) :
    i ∈ pool.applied id ↔ i < pool.statobjsUsed ∧ (pool.statobjs i).id = id := by
  rw [h.applied_eq, List.mem_filter, mem_slots]
  constructor
  · rintro ⟨⟨hi, -⟩, hid⟩
    exact ⟨hi, by simpa using hid⟩
  · rintro ⟨hi, hid⟩
    exact ⟨⟨hi, by rw [hid]⟩, by simpa using hid⟩

/-- A step of some objects, each one once, leaves the others as they are. -/
theorem Ok.target_applyAll (h : pool.Ok) {is : List ℕ} (hnodup : is.Nodup) {val : Int64}
    {valIdx : ℕ} (hpos : 1 ≤ valIdx)
    (his : ∀ i ∈ is, i < pool.statobjsUsed ∧ valIdx ≤ (pool.statobjs i).valSize)
    (hj : j < pool.statobjsUsed) :
    ((pool.applyAll is val valIdx).target j).Same
      (if j ∈ is then (pool.policy j).step (pool.target j) val valIdx else pool.target j) := by
  induction is generalizing pool with
  | nil => exact .refl _
  | cons i is ih =>
      have halike := pool.alike_stepObj i val valIdx
      obtain ⟨hi, hle⟩ := his i List.mem_cons_self
      obtain ⟨hnew, hnodup⟩ := List.nodup_cons.mp hnodup
      have hrest := ih (halike.ok h) hnodup (by
        intro k hk
        rw [halike.used, halike.valSize_eq]
        exact his k (.tail _ hk)) (halike.used ▸ hj)
      rw [halike.policy] at hrest
      refine hrest.trans ?_
      by_cases heq : j = i
      · subst heq
        simp only [hnew, if_false, List.mem_cons_self, if_true, target_stepObj_self]
        exact .refl _
      · have hother : ((pool.stepObj i val valIdx).target j).Same (pool.target j) :=
          h.target_stepObj_of_ne hi hj heq hpos hle
        by_cases hmem : j ∈ is
        · have hle' : valIdx ≤ ((pool.stepObj i val valIdx).target j).valSize := by
            rw [hother.valSize]
            exact (his j (.tail _ hmem)).2
          simp only [hmem, if_true, List.mem_cons, or_true]
          exact (pool.policy j).step_same hother val hpos hle'
        · simp only [hmem, if_false, List.mem_cons, heq, or_self]
          exact hother

/-- What holds of the chains, the values and the steps. -/
structure AppliedOnce (pool : StatPool) (regs : List StatReg) : Prop where
  chains : ∀ b, ∃ l, Chain (fun i => (pool.statobjs i).next) (pool.bucket b) l ∧
    Contiguous (fun i => (pool.statobjs i).id) l
  apart : ∀ i j, i < j → j < pool.statobjsUsed →
    (pool.statobjs i).valOffset + (pool.statobjs i).valSize ≤ (pool.statobjs j).valOffset
  inside : ∀ i < pool.statobjsUsed,
    (pool.statobjs i).valOffset + (pool.statobjs i).valSize ≤ defaultStatvalNum
  registered : ∀ r ∈ regs, r.objs ≠ [] → (pool.entries.filter fun e => e.1 = r.id.1) = r.objs
  steps : ∀ (id : StatId) val valIdx, 1 ≤ valIdx →
    (∀ i < pool.statobjsUsed, (pool.statobjs i).id = id.1 → valIdx ≤ (pool.statobjs i).valSize) →
    pool.Alike (pool.step [id] val valIdx).1 ∧ ∀ j < pool.statobjsUsed,
      ((pool.step [id] val valIdx).1.target j).Same
        (if (pool.statobjs j).id = id.1 then (pool.policy j).step (pool.target j) val valIdx
          else pool.target j)

/-- After any requests for ids that are stored whole, any steps and resets: a step is applied once
for each policy. -/
theorem applied_once (h : Reach pool regs log) (hshort : ∀ r ∈ regs, r.Short) :
    pool.AppliedOnce regs := by
  have hok := h.inv.ok
  have hsingle := h.single hshort
  refine ⟨fun b => ⟨_, hok.chain b, hsingle.contiguous b⟩, fun i j hij hj => hok.values_apart hij hj,
    ?_, hsingle.objs, ?_⟩
  · intro i hi
    exact (hok.values_le hi).trans hok.vals_lt.le
  · intro id val valIdx hpos hidx
    have hstep := hok.step_eq [id] val valIdx
    rw [List.flatMap_singleton] at hstep
    rw [hstep]
    refine ⟨pool.alike_applyAll _ val valIdx, ?_⟩
    intro j hj
    have happly : ((pool.applyAll (pool.applied id.1) val valIdx).target j).Same
        (if j ∈ pool.applied id.1 then (pool.policy j).step (pool.target j) val valIdx
          else pool.target j) := by
      apply hok.target_applyAll (pool.nodup_applied id.1) hpos _ hj
      intro i hi
      exact ⟨(mem_applied hi).1, hidx i (mem_applied hi).1 (mem_applied hi).2⟩
    simp only [hsingle.mem_applied_iff, hj, true_and] at happly
    exact happly

/-- One request for a sum and a maximum of two values. -/
theorem applied_once_two : ∃ pool regs log, Reach pool regs log ∧ regs.length = 1 ∧
    pool.statobjsUsed = 2 ∧ pool.AppliedOnce regs := by
  have hfits : newpool.FitsAll 2 (StatPolicy.selected 5).length := .inr (by decide)
  have hreach := reach_one ⟨[97], by decide⟩ 5 hfits
  refine ⟨_, _, _, hreach, rfl, rfl, applied_once hreach ?_⟩
  intro r hr
  rw [List.mem_singleton.mp hr]
  exact (by decide : 1 < 64)

end StatPool

end Spp
