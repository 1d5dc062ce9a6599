import Mathlib.Algebra.BigOperators.Group.List.Basic
import Mathlib.Tactic.Positivity
import Mathlib.Tactic.Ring
import Spp.Lib.Links
import Spp.Stat.Pool

/-!
# How the objects of a pool are linked

No object is ever freed, so the free list hands out the objects in the order of the array, and an
object that is used is in the chain for its id, behind the ones that are newer.  The values are
handed out in the same order.

## Main definitions

* `StatPool.slots` — the used objects with a hash, the newest first.
* `StatPool.Ok` — the links lead through the slots.
* `StatPool.pushObj` — a new object in its chain.
* `StatPool.Alike` — two pools that differ in counts and values only.
-/

namespace Spp.StatPool

open Links

variable {pool pool' : StatPool} {id : List UInt8} {i j b : ℕ}

/-- The used objects with a hash, the newest first. -/
def slots (pool : StatPool) (b : ℕ) : List ℕ :=
  (List.range pool.statobjsUsed).reverse.filter fun i => hashid (pool.statobjs i).id = b

/-- The number of values of the objects before an object. -/
def sizeBelow (pool : StatPool) (i : ℕ) : ℕ :=
  ((List.range i).map fun j => (pool.statobjs j).valSize).sum

/-- The links lead through the slots, and the objects and values are handed out in order. -/
structure Ok (pool : StatPool) : Prop where
  used_le : pool.statobjsUsed ≤ defaultStatobjNum
  freelist : pool.freelist =
    if pool.statobjsUsed < defaultStatobjNum then some pool.statobjsUsed else none
  free : ∀ i, pool.statobjsUsed ≤ i → (pool.statobjs i).next =
    if i + 1 < defaultStatobjNum then some (i + 1) else none
  chain : ∀ b, Chain (fun i => (pool.statobjs i).next) (pool.bucket b) (pool.slots b)
  offset : ∀ i < pool.statobjsUsed, (pool.statobjs i).valOffset = pool.sizeBelow i
  size_pos : ∀ i < pool.statobjsUsed, 1 ≤ (pool.statobjs i).valSize
  vals : pool.statvalsUsed = pool.sizeBelow pool.statobjsUsed
  vals_lt : pool.statvalsUsed < defaultStatvalNum

theorem mem_slots : i ∈ pool.slots b ↔
    i < pool.statobjsUsed ∧ hashid (pool.statobjs i).id = b := by
  simp [slots]

theorem nodup_slots (pool : StatPool) (b : ℕ) : (pool.slots b).Nodup :=
  (List.nodup_reverse.mpr List.nodup_range).filter _

theorem sizeBelow_succ (pool : StatPool) (i : ℕ) :
    pool.sizeBelow (i + 1) = pool.sizeBelow i + (pool.statobjs i).valSize := by
  simp [sizeBelow, List.range_succ]

theorem sizeBelow_mono (pool : StatPool) (h : i ≤ j) : pool.sizeBelow i ≤ pool.sizeBelow j := by
  induction j, h using Nat.le_induction with
  | base => exact le_rfl
  | succ j _ ih =>
      rw [sizeBelow_succ]
      omega

theorem sizeBelow_congr (h : ∀ j < i, (pool'.statobjs j).valSize = (pool.statobjs j).valSize) :
    pool'.sizeBelow i = pool.sizeBelow i := by
  simp only [sizeBelow]
  congr 1
  apply List.map_congr_left
  intro j hj
  exact h j (List.mem_range.mp hj)

theorem Ok.length_slots (h : pool.Ok) (b : ℕ) : (pool.slots b).length ≤ defaultStatobjNum := by
  have hle := List.length_filter_le (fun i => decide (hashid (pool.statobjs i).id = b))
    (List.range pool.statobjsUsed).reverse
  rw [List.length_reverse, List.length_range] at hle
  exact hle.trans h.used_le

theorem newpool_ok : newpool.Ok where
  used_le := Nat.zero_le _
  freelist := rfl
  free := fun i _ => rfl
  chain := fun b => rfl
  offset := by
    intro i hi
    exact absurd hi (Nat.not_lt_zero i)
  size_pos := by
    intro i hi
    exact absurd hi (Nat.not_lt_zero i)
  vals := rfl
  vals_lt := by decide

/-! ## What is found -/

theorem findLoop_eq {fuel : ℕ} {h : Option ℕ} {l : List ℕ}
    (hchain : Chain (fun i => (pool.statobjs i).next) h l) (hfuel : l.length ≤ fuel) :
    pool.findLoop id fuel h = l.find? fun i => (pool.statobjs i).id = id := by
  induction l generalizing fuel h with
  | nil =>
      rw [chain_nil.mp hchain]
      cases fuel <;> rfl
  | cons i l ih =>
      obtain ⟨rfl, hrest⟩ := hchain
      cases fuel with
      | zero => exact absurd hfuel (Nat.not_succ_le_zero _)
      | succ fuel =>
          rw [List.length_cons] at hfuel
          by_cases hid : (pool.statobjs i).id = id
          · simp [findLoop, hid]
          · simp [findLoop, hid, ih hrest (Nat.le_of_succ_le_succ hfuel)]

theorem Ok.findStatobj (h : pool.Ok) (id : List UInt8) :
    pool.findStatobj id =
      (pool.slots (hashid id)).find? fun i => (pool.statobjs i).id = id :=
  findLoop_eq (h.chain _) (h.length_slots _)

theorem Ok.find_eq_none_iff (h : pool.Ok) :
    pool.findStatobj id = none ↔ ∀ i < pool.statobjsUsed, (pool.statobjs i).id ≠ id := by
  rw [h.findStatobj, List.find?_eq_none]
  constructor
  · intro hnone i hi heq
    have hmem : i ∈ pool.slots (hashid id) := mem_slots.mpr ⟨hi, by rw [heq]⟩
    exact hnone i hmem (by simpa using heq)
  · intro hall i hmem
    simpa using hall i (mem_slots.mp hmem).1

theorem Ok.of_find (h : pool.Ok) (hfound : pool.findStatobj id = some i) :
    i < pool.statobjsUsed ∧ (pool.statobjs i).id = id := by
  rw [h.findStatobj] at hfound
  have hid := List.find?_some hfound
  exact ⟨(mem_slots.mp (List.mem_of_find?_eq_some hfound)).1, by simpa using hid⟩

/-! ## A new object -/

/-- The pool with a new object in its chain. -/
def pushObj (pool : StatPool) (id : List UInt8) (desc : Option StatId) (valSize : ℕ)
    (p : StatPolicy) : StatPool :=
  let i := pool.statobjsUsed
  let id := id.take (statIdMaxLen - 1)
  { freelist := (pool.statobjs i).next
    bucket := Function.update pool.bucket (hashid id) (some i)
    statobjsUsed := i + 1
    statobjs := Function.update pool.statobjs i
      { id := id
        desc := (desc.elim [] Subtype.val).take (statIdMaxLen * 2 - 1)
        type := p.no
        valSize := valSize
        count := (pool.statobjs i).count
        valOffset := pool.statvalsUsed
        next := pool.bucket (hashid id) }
    statvalsUsed := pool.statvalsUsed + valSize
    statvals := pool.statvals }

/-- The assertion of `alloc_statobj`. -/
abbrev Fits1 (pool : StatPool) (valSize : ℤ) : Prop :=
  valSize ≥ 1 ∧ pool.statobjsUsed < defaultStatobjNum ∧
    (pool.statvalsUsed : ℤ) < defaultStatvalNum - valSize

/-- What a turn of `init_statobj` does. -/
theorem Ok.initLoop_cons (h : pool.Ok) (id : List UInt8) (desc : Option StatId) (valSize : ℤ)
    (p : StatPolicy) (ps : List StatPolicy) :
    initLoop id desc valSize (p :: ps) pool =
      if pool.Fits1 valSize then
        initLoop id desc valSize ps (pool.pushObj id desc valSize.toNat p)
      else none := by
  by_cases hfits : pool.Fits1 valSize
  · have hfree : pool.freelist = some pool.statobjsUsed := by
      rw [h.freelist, if_pos hfits.2.1]
    rw [if_pos hfits, initLoop, allocStatobj, if_pos hfits, hfree]
    simp [objInit, insertStatobj, pushObj]
  · rw [if_neg hfits, initLoop, allocStatobj, if_neg hfits]

section Push

variable (pool) (id : List UInt8) (desc : Option StatId) (valSize : ℕ) (p : StatPolicy)

@[simp] theorem statobjsUsed_pushObj :
    (pool.pushObj id desc valSize p).statobjsUsed = pool.statobjsUsed + 1 := rfl

@[simp] theorem statvalsUsed_pushObj :
    (pool.pushObj id desc valSize p).statvalsUsed = pool.statvalsUsed + valSize := rfl

@[simp] theorem statvals_pushObj : (pool.pushObj id desc valSize p).statvals = pool.statvals := rfl

theorem statobjs_pushObj_self : (pool.pushObj id desc valSize p).statobjs pool.statobjsUsed =
    { id := id.take (statIdMaxLen - 1)
      desc := (desc.elim [] Subtype.val).take (statIdMaxLen * 2 - 1)
      type := p.no
      valSize := valSize
      count := (pool.statobjs pool.statobjsUsed).count
      valOffset := pool.statvalsUsed
      next := pool.bucket (hashid (id.take (statIdMaxLen - 1))) } :=
  Function.update_self _ _ _

theorem statobjs_pushObj_of_ne (hi : i ≠ pool.statobjsUsed) :
    (pool.pushObj id desc valSize p).statobjs i = pool.statobjs i :=
  Function.update_of_ne hi _ _

theorem next_pushObj : (fun i => ((pool.pushObj id desc valSize p).statobjs i).next) =
    Function.update (fun i => (pool.statobjs i).next) pool.statobjsUsed
      (pool.bucket (hashid (id.take (statIdMaxLen - 1)))) := by
  funext i
  by_cases hi : i = pool.statobjsUsed
  · rw [hi, statobjs_pushObj_self, Function.update_self]
  · rw [statobjs_pushObj_of_ne _ _ _ _ _ hi, Function.update_of_ne hi]

/-- The new object stands in front of its chain. -/
theorem slots_pushObj (b : ℕ) : (pool.pushObj id desc valSize p).slots b =
    if hashid (id.take (statIdMaxLen - 1)) = b then pool.statobjsUsed :: pool.slots b
    else pool.slots b := by
  have hold : ∀ i ∈ (List.range pool.statobjsUsed).reverse,
      decide (hashid ((pool.pushObj id desc valSize p).statobjs i).id = b) =
        decide (hashid (pool.statobjs i).id = b) := by
    intro i hi
    rw [List.mem_reverse, List.mem_range] at hi
    rw [statobjs_pushObj_of_ne _ _ _ _ _ hi.ne]
  simp only [slots, statobjsUsed_pushObj, List.range_succ, List.reverse_append,
    List.reverse_singleton, List.singleton_append, List.filter_cons, statobjs_pushObj_self,
    decide_eq_true_eq, List.filter_congr hold]

end Push

theorem Ok.pushObj (h : pool.Ok) (id : List UInt8) (desc : Option StatId) {valSize : ℤ}
    (p : StatPolicy) (hfits : pool.Fits1 valSize) :
    (pool.pushObj id desc valSize.toNat p).Ok := by
  obtain ⟨hpos, hobjs, hvals⟩ := hfits
  have hbelow : ∀ i ≤ pool.statobjsUsed,
      (pool.pushObj id desc valSize.toNat p).sizeBelow i = pool.sizeBelow i := by
    intro i hi
    apply sizeBelow_congr
    intro j hj
    rw [statobjs_pushObj_of_ne _ _ _ _ _ (by omega)]
  constructor
  · exact hobjs
  · exact h.free _ le_rfl
  · intro i hi
    rw [statobjsUsed_pushObj] at hi
    rw [statobjs_pushObj_of_ne _ _ _ _ _ (by omega)]
    exact h.free i (by omega)
  · intro b
    have hnew : pool.statobjsUsed ∉ pool.slots b := fun hmem =>
      absurd (mem_slots.mp hmem).1 (lt_irrefl _)
    rw [next_pushObj, slots_pushObj]
    by_cases hb : hashid (id.take (statIdMaxLen - 1)) = b
    · have hhead : (pool.pushObj id desc valSize.toNat p).bucket b = some pool.statobjsUsed := by
        rw [← hb]
        exact Function.update_self _ _ _
      rw [if_pos hb, hhead, hb]
      exact (h.chain b).push hnew
    · have hhead : (pool.pushObj id desc valSize.toNat p).bucket b = pool.bucket b :=
        Function.update_of_ne (Ne.symm hb) _ _
      rw [if_neg hb, hhead]
      exact (h.chain b).update hnew
  · intro i hi
    rw [statobjsUsed_pushObj] at hi
    rw [hbelow i (by omega)]
    by_cases hnew : i = pool.statobjsUsed
    · rw [hnew, statobjs_pushObj_self, ← h.vals]
    · rw [statobjs_pushObj_of_ne _ _ _ _ _ hnew]
      exact h.offset i (by omega)
  · intro i hi
    rw [statobjsUsed_pushObj] at hi
    by_cases hnew : i = pool.statobjsUsed
    · rw [hnew, statobjs_pushObj_self]
      dsimp only
      omega
    · rw [statobjs_pushObj_of_ne _ _ _ _ _ hnew]
      exact h.size_pos i (by omega)
  · rw [statobjsUsed_pushObj, sizeBelow_succ, hbelow _ le_rfl, statobjs_pushObj_self,
      statvalsUsed_pushObj, h.vals]
  · rw [statvalsUsed_pushObj]
    omega

/-! ## A call of `init_statobj` -/

/-- There are objects and values for all policies of a request. -/
def FitsAll (pool : StatPool) (valSize : ℤ) (n : ℕ) : Prop :=
  n = 0 ∨ valSize ≥ 1 ∧ pool.statobjsUsed + n ≤ defaultStatobjNum ∧
    (pool.statvalsUsed : ℤ) + n * valSize < defaultStatvalNum

/-- The objects of a request, one for each policy. -/
def pushAll (pool : StatPool) (id : List UInt8) (desc : Option StatId) (valSize : ℕ)
    (ps : List StatPolicy) : StatPool :=
  ps.foldl (fun pool p => pool.pushObj id desc valSize p) pool

theorem fitsAll_succ_iff (id : List UInt8) (desc : Option StatId) (valSize : ℤ) (p : StatPolicy)
    (n : ℕ) : pool.FitsAll valSize (n + 1) ↔
      pool.Fits1 valSize ∧ (pool.pushObj id desc valSize.toNat p).FitsAll valSize n := by
  simp only [FitsAll, Fits1, statobjsUsed_pushObj, statvalsUsed_pushObj]
  by_cases hpos : valSize ≥ 1
  · have hmul : ((n + 1 : ℕ) : ℤ) * valSize = n * valSize + valSize := by
      push_cast
      ring
    rw [hmul]
    rcases Nat.eq_zero_or_pos n with rfl | hn
    · simp only [Nat.zero_add, Nat.cast_zero, zero_mul, true_or, and_true]
      omega
    · have hnonneg : (0 : ℤ) ≤ n * valSize := by positivity
      generalize (n : ℤ) * valSize = m at hnonneg ⊢
      omega
  · simp [hpos]

/-- `init_statobj` makes all objects, or aborts. -/
theorem Ok.initLoop (h : pool.Ok) (id : List UInt8) (desc : Option StatId) (valSize : ℤ)
    (ps : List StatPolicy) :
    (pool.FitsAll valSize ps.length → initLoop id desc valSize ps pool =
        some (pool.pushAll id desc valSize.toNat ps, 0) ∧
      (pool.pushAll id desc valSize.toNat ps).Ok) ∧
    (¬ pool.FitsAll valSize ps.length → initLoop id desc valSize ps pool = none) := by
  induction ps generalizing pool with
  | nil => exact ⟨fun _ => ⟨rfl, h⟩, fun hno => absurd (.inl rfl) hno⟩
  | cons p ps ih =>
      rw [List.length_cons, fitsAll_succ_iff id desc valSize p, h.initLoop_cons]
      by_cases hfits : pool.Fits1 valSize
      · rw [if_pos hfits]
        have hrest := ih (h.pushObj id desc p hfits)
        exact ⟨fun hall => hrest.1 hall.2, fun hno => hrest.2 fun hall => hno ⟨hfits, hall⟩⟩
      · rw [if_neg hfits]
        exact ⟨fun hall => absurd hall.1 hfits, fun _ => rfl⟩

end Spp.StatPool
