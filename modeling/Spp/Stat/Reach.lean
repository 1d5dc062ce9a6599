import Mathlib.Data.List.TakeWhile
import Spp.Stat.Slots

/-!
# What the calls do to a pool

A step or a reset of an object changes only its count and its values, which no other object
shares.  So the count and the values of an object are what its policy makes of the steps that have
been applied to it.

## Main definitions

* `StatPool.Alike` — pools that differ in counts and values only.
* `StatPool.applied` — the objects that `step` comes to.
* `StatReg`, `StatStep` — a successful request, and a step that has been applied.
* `StatPool.Reach` — a pool after some calls, with the requests and the steps since the last reset.
* `StatPool.Recorded`, `StatPool.Listed` — what the pool has of the steps and the requests.
-/

namespace Spp

namespace StatPool

open Links

variable {pool pool' pool'' : StatPool} {id : List UInt8} {i j : ℕ}

/-! ## Pools that differ in counts and values -/

/-- The pools differ in counts and values only. -/
structure Alike (pool pool' : StatPool) : Prop where
  freelist : pool'.freelist = pool.freelist
  bucket : pool'.bucket = pool.bucket
  used : pool'.statobjsUsed = pool.statobjsUsed
  valsUsed : pool'.statvalsUsed = pool.statvalsUsed
  obj : ∀ i, ∃ n, pool'.statobjs i = { pool.statobjs i with count := n }

namespace Alike

theorem refl (pool : StatPool) : pool.Alike pool := ⟨rfl, rfl, rfl, rfl, fun _ => ⟨_, rfl⟩⟩

theorem id_eq (h : pool.Alike pool') (i : ℕ) : (pool'.statobjs i).id = (pool.statobjs i).id := by
  obtain ⟨n, hn⟩ := h.obj i
  rw [hn]

theorem type_eq (h : pool.Alike pool') (i : ℕ) :
    (pool'.statobjs i).type = (pool.statobjs i).type := by
  obtain ⟨n, hn⟩ := h.obj i
  rw [hn]

theorem valSize_eq (h : pool.Alike pool') (i : ℕ) :
    (pool'.statobjs i).valSize = (pool.statobjs i).valSize := by
  obtain ⟨n, hn⟩ := h.obj i
  rw [hn]

theorem valOffset_eq (h : pool.Alike pool') (i : ℕ) :
    (pool'.statobjs i).valOffset = (pool.statobjs i).valOffset := by
  obtain ⟨n, hn⟩ := h.obj i
  rw [hn]

theorem next_eq (h : pool.Alike pool') (i : ℕ) :
    (pool'.statobjs i).next = (pool.statobjs i).next := by
  obtain ⟨n, hn⟩ := h.obj i
  rw [hn]

theorem links (h : pool.Alike pool') :
    (fun i => (pool'.statobjs i).next) = fun i => (pool.statobjs i).next := funext h.next_eq

theorem trans (h : pool.Alike pool') (h' : pool'.Alike pool'') : pool.Alike pool'' := by
  refine ⟨h'.freelist.trans h.freelist, h'.bucket.trans h.bucket, h'.used.trans h.used,
    h'.valsUsed.trans h.valsUsed, ?_⟩
  intro i
  obtain ⟨n, hn⟩ := h.obj i
  obtain ⟨n', hn'⟩ := h'.obj i
  exact ⟨n', by rw [hn', hn]⟩

theorem policy (h : pool.Alike pool') (i : ℕ) : pool'.policy i = pool.policy i :=
  congrArg StatPolicy.ofType (h.type_eq i)

theorem slots (h : pool.Alike pool') (b : ℕ) : pool'.slots b = pool.slots b := by
  simp [StatPool.slots, h.used, h.id_eq]

theorem sizeBelow (h : pool.Alike pool') (i : ℕ) : pool'.sizeBelow i = pool.sizeBelow i :=
  sizeBelow_congr fun j _ => h.valSize_eq j

theorem ok (h : pool.Alike pool') (hok : pool.Ok) : pool'.Ok where
  used_le := h.used ▸ hok.used_le
  freelist := by rw [h.freelist, h.used, hok.freelist]
  free := by
    intro i hi
    rw [h.next_eq]
    exact hok.free i (h.used ▸ hi)
  chain := by
    intro b
    rw [h.bucket, h.slots, h.links]
    exact hok.chain b
  offset := by
    intro i hi
    rw [h.valOffset_eq, h.sizeBelow]
    exact hok.offset i (h.used ▸ hi)
  size_pos := by
    intro i hi
    rw [h.valSize_eq]
    exact hok.size_pos i (h.used ▸ hi)
  vals := by rw [h.valsUsed, h.used, h.sizeBelow, hok.vals]
  vals_lt := h.valsUsed ▸ hok.vals_lt

end Alike

/-! ## One object -/

theorem alike_putTarget (pool : StatPool) (i : ℕ) (t : StatTarget) :
    pool.Alike (pool.putTarget i t) := by
  refine ⟨rfl, rfl, rfl, rfl, ?_⟩
  intro j
  by_cases hj : j = i
  · exact ⟨t.count, by rw [hj]; exact Function.update_self _ _ _⟩
  · exact ⟨(pool.statobjs j).count, Function.update_of_ne hj _ _⟩

theorem alike_stepObj (pool : StatPool) (i : ℕ) (val : Int64) (valIdx : ℕ) :
    pool.Alike (pool.stepObj i val valIdx) := pool.alike_putTarget i _

theorem alike_resetObj (pool : StatPool) (i : ℕ) : pool.Alike (pool.resetObj i) :=
  pool.alike_putTarget i _

/-- The values of a newer object lie behind those of an older one. -/
theorem Ok.values_apart (h : pool.Ok) (hij : i < j) (hj : j < pool.statobjsUsed) :
    (pool.statobjs i).valOffset + (pool.statobjs i).valSize ≤ (pool.statobjs j).valOffset := by
  rw [h.offset i (by omega), h.offset j hj, ← sizeBelow_succ]
  exact pool.sizeBelow_mono hij

theorem Ok.values_le (h : pool.Ok) (hi : i < pool.statobjsUsed) :
    (pool.statobjs i).valOffset + (pool.statobjs i).valSize ≤ pool.statvalsUsed := by
  rw [h.offset i hi, h.vals, ← sizeBelow_succ]
  exact pool.sizeBelow_mono hi

theorem target_putTarget_self {t : StatTarget} (hsize : t.valSize = (pool.statobjs i).valSize) :
    (pool.putTarget i t).target i = t := by
  cases t
  simp_all [putTarget, target]

/-- What is put through the wrapper of an object stays in its values. -/
theorem statvals_putTarget {t : StatTarget} {k : ℕ}
    (ht : ∀ n, (pool.statobjs i).valSize ≤ n → t.value n = (pool.target i).value n)
    (hk : k < (pool.statobjs i).valOffset ∨
      (pool.statobjs i).valOffset + (pool.statobjs i).valSize ≤ k) :
    (pool.putTarget i t).statvals k = pool.statvals k := by
  simp only [putTarget]
  split
  · rw [ht _ (by omega)]
    simp only [target]
    congr 1
    omega
  · rfl

theorem Ok.target_putTarget_of_ne (h : pool.Ok) (hi : i < pool.statobjsUsed)
    (hj : j < pool.statobjsUsed) (hne : j ≠ i) {t : StatTarget}
    (ht : ∀ n, (pool.statobjs i).valSize ≤ n → t.value n = (pool.target i).value n) :
    ((pool.putTarget i t).target j).Same (pool.target j) := by
  have hobj : (pool.putTarget i t).statobjs j = pool.statobjs j := Function.update_of_ne hne _ _
  refine ⟨?_, ?_, ?_⟩
  · simp [target, hobj]
  · simp [target, hobj]
  · intro k hk
    have hk' : k < (pool.statobjs j).valSize := by
      simpa [target, hobj] using hk
    simp only [target, hobj]
    apply statvals_putTarget ht
    rcases Nat.lt_or_gt_of_ne hne with hlt | hlt
    · have hapart := h.values_apart hlt hi
      omega
    · have hapart := h.values_apart hlt hj
      omega

/-- A step of an object, seen through its wrapper. -/
theorem target_stepObj_self (pool : StatPool) (i : ℕ) (val : Int64) (valIdx : ℕ) :
    (pool.stepObj i val valIdx).target i = (pool.policy i).step (pool.target i) val valIdx :=
  target_putTarget_self (StatPolicy.valSize_step _ _ _ _)

section
variable {val : Int64} {valIdx : ℕ}

theorem value_step_target (hpos : 1 ≤ valIdx) (hle : valIdx ≤ (pool.statobjs i).valSize) (n : ℕ)
    (hn : (pool.statobjs i).valSize ≤ n) :
    ((pool.policy i).step (pool.target i) val valIdx).value n = (pool.target i).value n :=
  StatPolicy.value_step_of_ge _ _ _ hpos hle hn

theorem Ok.target_stepObj_of_ne (h : pool.Ok) (hi : i < pool.statobjsUsed)
    (hj : j < pool.statobjsUsed) (hne : j ≠ i) (hpos : 1 ≤ valIdx)
    (hle : valIdx ≤ (pool.statobjs i).valSize) :
    ((pool.stepObj i val valIdx).target j).Same (pool.target j) :=
  h.target_putTarget_of_ne hi hj hne (value_step_target hpos hle)

end

/-! ## A list of objects -/

/-- `__step__` of some objects, one after another. -/
def applyAll (pool : StatPool) (is : List ℕ) (val : Int64) (valIdx : ℕ) : StatPool :=
  is.foldl (fun pool i => pool.stepObj i val valIdx) pool

/-- The objects that `step` comes to: from the first one with the id on, as long as they have it. -/
def applied (pool : StatPool) (id : List UInt8) : List ℕ :=
  ((pool.slots (hashid id)).dropWhile fun i => (pool.statobjs i).id ≠ id).takeWhile fun i =>
    (pool.statobjs i).id = id

theorem applyAll_append (pool : StatPool) (is js : List ℕ) (val : Int64) (valIdx : ℕ) :
    pool.applyAll (is ++ js) val valIdx = (pool.applyAll is val valIdx).applyAll js val valIdx :=
  List.foldl_append

theorem alike_applyAll (pool : StatPool) (is : List ℕ) (val : Int64) (valIdx : ℕ) :
    pool.Alike (pool.applyAll is val valIdx) := by
  induction is generalizing pool with
  | nil => exact .refl pool
  | cons i is ih => exact (pool.alike_stepObj i val valIdx).trans (ih _)

theorem Alike.applied (h : pool.Alike pool') (id : List UInt8) :
    pool'.applied id = pool.applied id := by
  simp [StatPool.applied, h.slots, h.id_eq]

theorem mem_applied (h : i ∈ pool.applied id) :
    i < pool.statobjsUsed ∧ (pool.statobjs i).id = id := by
  have hid := List.mem_takeWhile_imp h
  have hslot := (List.dropWhile_suffix _).subset ((List.takeWhile_prefix _).subset h)
  exact ⟨(mem_slots.mp hslot).1, by simpa using hid⟩

theorem nodup_applied (pool : StatPool) (id : List UInt8) : (pool.applied id).Nodup :=
  ((pool.nodup_slots _).sublist (List.dropWhile_sublist _)).sublist (List.takeWhile_sublist _)

/-- The inner loop of `step` steps the objects with the id that its chain begins with. -/
theorem stepLoop_eq {fuel : ℕ} {h : Option ℕ} {l : List ℕ} (val : Int64) (valIdx : ℕ)
    (hchain : Chain (fun i => (pool.statobjs i).next) h l) (hfuel : l.length ≤ fuel) :
    stepLoop id val valIdx fuel h pool =
      (pool.applyAll (l.takeWhile fun i => (pool.statobjs i).id = id) val valIdx,
        l.takeWhile fun i => (pool.statobjs i).id = id) := by
  induction l generalizing fuel h pool with
  | nil =>
      rw [chain_nil.mp hchain]
      cases fuel <;> rfl
  | cons i l ih =>
      obtain ⟨rfl, hrest⟩ := hchain
      cases fuel with
      | zero => exact absurd hfuel (Nat.not_succ_le_zero _)
      | succ fuel =>
          rw [List.length_cons] at hfuel
          by_cases hid : (pool.statobjs i).id = id
          · -- the step leaves the rest of the chain, and its ids, as they are
            have halike := pool.alike_stepObj i val valIdx
            have hnext : Chain (fun j => ((pool.stepObj i val valIdx).statobjs j).next)
                ((pool.stepObj i val valIdx).statobjs i).next l := by
              rw [halike.links, halike.next_eq]
              exact hrest
            have hrun := @ih (pool.stepObj i val valIdx) fuel _ hnext
              (Nat.le_of_succ_le_succ hfuel)
            simp only [halike.id_eq] at hrun
            simp [stepLoop, hid, hrun, applyAll]
          · simp [stepLoop, hid, applyAll]

/-- From the object that `find?` finds, the links lead through what `dropWhile` leaves. -/
theorem chain_find {h : Option ℕ} {l : List ℕ} {next : ℕ → Option ℕ} (p : ℕ → Bool)
    (hchain : Chain next h l) : Chain next (l.find? p) (l.dropWhile fun i => !p i) := by
  induction l generalizing h with
  | nil => rfl
  | cons i l ih =>
      by_cases hp : p i
      · rw [List.find?_cons_of_pos hp, List.dropWhile_cons_of_neg (by simpa using hp)]
        exact ⟨rfl, hchain.2⟩
      · rw [List.find?_cons_of_neg hp, List.dropWhile_cons_of_pos (by simpa using hp)]
        exact ih hchain.2

theorem Ok.step0_eq (h : pool.Ok) (id : StatId) (val : Int64) (valIdx : ℕ) :
    pool.step0 id val valIdx =
      (pool.applyAll (pool.applied id.1) val valIdx, pool.applied id.1) := by
  have hchain := chain_find (fun i => decide ((pool.statobjs i).id = id.1)) (h.chain (hashid id.1))
  have hfuel : ((pool.slots (hashid id.1)).dropWhile fun i =>
      !decide ((pool.statobjs i).id = id.1)).length ≤ defaultStatobjNum :=
    (List.dropWhile_sublist _).length_le.trans (h.length_slots _)
  rw [step0, h.findStatobj, stepLoop_eq val valIdx hchain hfuel]
  simp [applied]

/-- `step` steps what it comes to for one id after the other. -/
theorem Ok.step_eq (h : pool.Ok) (ids : List StatId) (val : Int64) (valIdx : ℕ) :
    pool.step ids val valIdx =
      (pool.applyAll (ids.flatMap fun id => pool.applied id.1) val valIdx,
        ids.flatMap fun id => pool.applied id.1) := by
  induction ids generalizing pool with
  | nil => rfl
  | cons id ids ih =>
      have halike := pool.alike_applyAll (pool.applied id.1) val valIdx
      have hrest := @ih (pool.applyAll (pool.applied id.1) val valIdx) (halike.ok h)
      simp only [halike.applied] at hrest
      simp only [step, h.step0_eq, hrest, List.flatMap_cons, applyAll_append]

/-! ## All objects -/

theorem travelLoop_eq {fuel : ℕ} {h : Option ℕ} {l : List ℕ}
    (hchain : Chain (fun i => (pool.statobjs i).next) h l) (hfuel : l.length ≤ fuel) :
    pool.travelLoop fuel h = l := by
  induction l generalizing fuel h with
  | nil =>
      rw [chain_nil.mp hchain]
      cases fuel <;> rfl
  | cons i l ih =>
      obtain ⟨rfl, hrest⟩ := hchain
      cases fuel with
      | zero => exact absurd hfuel (Nat.not_succ_le_zero _)
      | succ fuel => rw [travelLoop, ih hrest (Nat.le_of_succ_le_succ hfuel)]

/-- `travel` visits the used objects. -/
theorem Ok.mem_travel (h : pool.Ok) : i ∈ pool.travel ↔ i < pool.statobjsUsed := by
  have hbucket : ∀ b, pool.travelLoop defaultStatobjNum (pool.bucket b) = pool.slots b :=
    fun b => travelLoop_eq (h.chain b) (h.length_slots b)
  simp only [travel, hbucket, List.mem_flatMap, List.mem_range, mem_slots]
  constructor
  · rintro ⟨b, -, hi, -⟩
    exact hi
  · intro hi
    exact ⟨_, Nat.mod_lt _ (by decide), hi, rfl⟩

theorem alike_foldl_resetObj (pool : StatPool) (is : List ℕ) :
    pool.Alike (is.foldl resetObj pool) := by
  induction is generalizing pool with
  | nil => exact .refl pool
  | cons i is ih => exact (pool.alike_resetObj i).trans (ih _)

theorem value_reset_target (n : ℕ) (hn : (pool.statobjs i).valSize ≤ n) :
    (pool.target i).reset.value n = (pool.target i).value n := by
  have hout : ¬ n < (pool.target i).valSize := Nat.not_lt.mpr hn
  simp [StatTarget.reset, hout]

/-- A reset sets an object to zero if it is one of those, and otherwise leaves it as it is. -/
theorem Ok.target_foldl_resetObj (h : pool.Ok) {is : List ℕ}
    (his : ∀ i ∈ is, i < pool.statobjsUsed) (hj : j < pool.statobjsUsed) :
    ((is.foldl resetObj pool).target j).Same
      (if j ∈ is then .zero (pool.statobjs j).valSize else pool.target j) := by
  induction is generalizing pool with
  | nil => exact .refl _
  | cons i is ih =>
      have halike := pool.alike_resetObj i
      have hi : i < pool.statobjsUsed := his i List.mem_cons_self
      have hrest := ih (halike.ok h) (fun k hk => halike.used ▸ his k (.tail _ hk))
        (halike.used ▸ hj)
      rw [halike.valSize_eq] at hrest
      refine hrest.trans ?_
      by_cases hmem : j ∈ is
      · simp [hmem, StatTarget.Same.refl]
      by_cases heq : j = i
      · subst heq
        have hself : (pool.resetObj j).target j = (pool.target j).reset := target_putTarget_self rfl
        simp only [hmem, if_false, List.mem_cons_self, if_true, hself]
        exact .reset_zero _
      · simp only [hmem, if_false, List.mem_cons, heq, or_self]
        exact h.target_putTarget_of_ne hi hj heq value_reset_target

end StatPool

/-! ## Runs -/

/-- A request that `init_statobj` has accepted. -/
structure StatReg where
  id : StatId
  type : UInt32
  valSize : ℕ

/-- What a request registers. -/
def StatReg.objs (r : StatReg) : List (List UInt8 × StatPolicy × ℕ) :=
  (StatPolicy.selected r.type).map fun p => (r.id.1.take (statIdMaxLen - 1), p, r.valSize)

/-- A call of `__step__` for an object. -/
structure StatStep where
  obj : ℕ
  val : Int64
  valIdx : ℕ

/-- What the policy makes of some steps. -/
def StatPolicy.played (p : StatPolicy) (valSize : ℕ) (steps : List StatStep) : StatTarget :=
  steps.foldl (fun t s => p.step t s.val s.valIdx) (.zero valSize)

namespace StatPool

variable {pool pool' : StatPool} {id : List UInt8} {i j : ℕ} {log : List StatStep}
  {regs : List StatReg}

/-- A pool after some calls that have returned, with the requests that were accepted, and the steps
of the objects since the last reset.  An index is one of the values of the objects with the id. -/
inductive Reach : StatPool → List StatReg → List StatStep → Prop
  | new : Reach newpool [] []
  | init {pool pool' : StatPool} {regs : List StatReg} {log : List StatStep} {id : StatId}
      {type : UInt32} {desc : Option StatId} {valSize ret : ℤ} (h : Reach pool regs log)
      (hret : pool.initStatobj id type desc valSize = some (pool', ret)) :
      Reach pool' (if ret = 0 then regs ++ [⟨id, type, valSize.toNat⟩] else regs) log
  | step {pool : StatPool} {regs : List StatReg} {log : List StatStep} {ids : List StatId}
      {val : Int64} {valIdx : ℕ} (h : Reach pool regs log) (hpos : 1 ≤ valIdx)
      (hidx : ∀ id ∈ ids, ∀ i < pool.statobjsUsed, (pool.statobjs i).id = id.1 →
        valIdx ≤ (pool.statobjs i).valSize) :
      Reach (pool.step ids val valIdx).1 regs
        (log ++ (pool.step ids val valIdx).2.map fun i => ⟨i, val, valIdx⟩)
  | reset {pool : StatPool} {regs : List StatReg} {log : List StatStep} (h : Reach pool regs log) :
      Reach pool.reset regs []

/-- The counts and values that are not handed out are zero. -/
structure Blank (pool : StatPool) : Prop where
  counts : ∀ i, pool.statobjsUsed ≤ i → (pool.statobjs i).count = 0
  vals : ∀ k, pool.statvalsUsed ≤ k → pool.statvals k = 0

/-- The counts and values are those of the steps, and nothing else is written. -/
structure Recorded (pool : StatPool) (log : List StatStep) : Prop where
  target : ∀ i < pool.statobjsUsed, (pool.target i).Same
    ((pool.policy i).played (pool.statobjs i).valSize (log.filter fun s => s.obj = i))
  inRange : ∀ s ∈ log, s.obj < pool.statobjsUsed ∧ 1 ≤ s.valIdx ∧
    s.valIdx ≤ (pool.statobjs s.obj).valSize
  blank : pool.Blank

/-- The id, the policy and the size of each object. -/
def entries (pool : StatPool) : List (List UInt8 × StatPolicy × ℕ) :=
  (List.range pool.statobjsUsed).map fun i =>
    ((pool.statobjs i).id, pool.policy i, (pool.statobjs i).valSize)

/-- The objects are those of the requests. -/
def Listed (pool : StatPool) (regs : List StatReg) : Prop := pool.entries = regs.flatMap StatReg.objs

/-- What holds of a pool in every state. -/
structure Inv (pool : StatPool) (regs : List StatReg) (log : List StatStep) : Prop where
  ok : pool.Ok
  recorded : pool.Recorded log
  listed : pool.Listed regs

theorem Alike.entries (h : pool.Alike pool') : pool'.entries = pool.entries := by
  simp [StatPool.entries, h.used, h.id_eq, h.policy, h.valSize_eq]

/-! ### Steps and resets -/

theorem Blank.putTarget (h : pool.Blank) (hok : pool.Ok) (hi : i < pool.statobjsUsed)
    {t : StatTarget}
    (ht : ∀ n, (pool.statobjs i).valSize ≤ n → t.value n = (pool.target i).value n) :
    (pool.putTarget i t).Blank := by
  have halike := pool.alike_putTarget i t
  constructor
  · intro j hj
    rw [halike.used] at hj
    have hobj : (pool.putTarget i t).statobjs j = pool.statobjs j :=
      Function.update_of_ne (by omega) _ _
    rw [hobj]
    exact h.counts j hj
  · intro k hk
    rw [halike.valsUsed] at hk
    have hin := hok.values_le hi
    rw [statvals_putTarget ht (.inr (by omega))]
    exact h.vals k hk

theorem Blank.foldl_resetObj (h : pool.Blank) (hok : pool.Ok) {is : List ℕ}
    (his : ∀ i ∈ is, i < pool.statobjsUsed) : (is.foldl resetObj pool).Blank := by
  induction is generalizing pool with
  | nil => exact h
  | cons i is ih =>
      have halike := pool.alike_resetObj i
      have hfirst := h.putTarget hok (his i List.mem_cons_self) value_reset_target
      exact ih hfirst (halike.ok hok) fun j hj => halike.used ▸ his j (.tail _ hj)

theorem played_append (p : StatPolicy) (n : ℕ) (steps : List StatStep) (s : StatStep) :
    p.played n (steps ++ [s]) = p.step (p.played n steps) s.val s.valIdx :=
  List.foldl_append

/-- A step of one object. -/
theorem Recorded.stepObj (h : pool.Recorded log) (hok : pool.Ok) {val : Int64} {valIdx : ℕ}
    (hi : i < pool.statobjsUsed) (hpos : 1 ≤ valIdx) (hle : valIdx ≤ (pool.statobjs i).valSize) :
    (pool.stepObj i val valIdx).Recorded (log ++ [⟨i, val, valIdx⟩]) := by
  have halike := pool.alike_stepObj i val valIdx
  constructor
  · intro j hj
    rw [halike.used] at hj
    rw [halike.policy, halike.valSize_eq, List.filter_append]
    by_cases hji : j = i
    · subst hji
      have hlast : List.filter (fun s : StatStep => decide (s.obj = j)) [⟨j, val, valIdx⟩] =
          [⟨j, val, valIdx⟩] := by simp
      rw [hlast, played_append, target_stepObj_self]
      exact StatPolicy.step_same _ (h.target j hj) val hpos hle
    · have hlast : List.filter (fun s : StatStep => decide (s.obj = j)) [⟨i, val, valIdx⟩] = [] := by
        simp [Ne.symm hji]
      rw [hlast, List.append_nil]
      exact (hok.target_stepObj_of_ne hi hj hji hpos hle).trans (h.target j hj)
  · intro s hs
    rw [halike.used, halike.valSize_eq]
    rcases List.mem_append.mp hs with hs | hs
    · exact h.inRange s hs
    · rw [List.mem_singleton.mp hs]
      exact ⟨hi, hpos, hle⟩
  · exact h.blank.putTarget hok hi (value_step_target hpos hle)

theorem Recorded.applyAll (h : pool.Recorded log) (hok : pool.Ok) {val : Int64} {valIdx : ℕ}
    {is : List ℕ} (hpos : 1 ≤ valIdx)
    (his : ∀ i ∈ is, i < pool.statobjsUsed ∧ valIdx ≤ (pool.statobjs i).valSize) :
    (pool.applyAll is val valIdx).Recorded (log ++ is.map fun i => ⟨i, val, valIdx⟩) := by
  induction is generalizing pool log with
  | nil => simpa [StatPool.applyAll] using h
  | cons i is ih =>
      have halike := pool.alike_stepObj i val valIdx
      obtain ⟨hi, hle⟩ := his i List.mem_cons_self
      have hrest := ih (h.stepObj hok hi hpos hle) (halike.ok hok) (by
        intro j hj
        rw [halike.used, halike.valSize_eq]
        exact his j (.tail _ hj))
      rw [List.append_assoc] at hrest
      exact hrest

theorem Inv.step (h : pool.Inv regs log) {ids : List StatId} (val : Int64) {valIdx : ℕ}
    (hpos : 1 ≤ valIdx)
    (hidx : ∀ id ∈ ids, ∀ i < pool.statobjsUsed, (pool.statobjs i).id = id.1 →
      valIdx ≤ (pool.statobjs i).valSize) :
    (pool.step ids val valIdx).1.Inv regs
      (log ++ (pool.step ids val valIdx).2.map fun i => ⟨i, val, valIdx⟩) := by
  rw [h.ok.step_eq]
  have halike := pool.alike_applyAll (ids.flatMap fun id => pool.applied id.1) val valIdx
  refine ⟨halike.ok h.ok, ?_, halike.entries.trans h.listed⟩
  apply h.recorded.applyAll h.ok hpos
  intro i hi
  obtain ⟨id, hid, hmem⟩ := List.mem_flatMap.mp hi
  obtain ⟨hused, heq⟩ := mem_applied hmem
  exact ⟨hused, hidx id hid i hused heq⟩

theorem Inv.reset (h : pool.Inv regs log) : pool.reset.Inv regs [] := by
  have halike := pool.alike_foldl_resetObj pool.travel
  have hmem : ∀ i ∈ pool.travel, i < pool.statobjsUsed := fun i hi => h.ok.mem_travel.mp hi
  refine ⟨halike.ok h.ok, ⟨?_, ?_, h.recorded.blank.foldl_resetObj h.ok hmem⟩,
    halike.entries.trans h.listed⟩
  · intro j hj
    rw [StatPool.reset, halike.used] at hj
    have hzero := h.ok.target_foldl_resetObj hmem hj
    rw [if_pos (h.ok.mem_travel.mpr hj)] at hzero
    rw [StatPool.reset, halike.policy, halike.valSize_eq]
    exact hzero
  · intro s hs
    cases hs

/-! ### Requests -/

theorem policy_pushObj_self (pool : StatPool) (id : List UInt8) (desc : Option StatId)
    (valSize : ℕ) (p : StatPolicy) :
    (pool.pushObj id desc valSize p).policy pool.statobjsUsed = p := by
  rw [policy, statobjs_pushObj_self]
  exact StatPolicy.ofType_no p

theorem policy_pushObj_of_ne (hi : i ≠ pool.statobjsUsed) (id : List UInt8)
    (desc : Option StatId) (valSize : ℕ) (p : StatPolicy) :
    (pool.pushObj id desc valSize p).policy i = pool.policy i := by
  rw [policy, statobjs_pushObj_of_ne _ _ _ _ _ hi, policy]

theorem entries_pushObj (pool : StatPool) (id : List UInt8) (desc : Option StatId) (valSize : ℕ)
    (p : StatPolicy) : (pool.pushObj id desc valSize p).entries =
      pool.entries ++ [(id.take (statIdMaxLen - 1), p, valSize)] := by
  have hold : ∀ i ∈ List.range pool.statobjsUsed,
      (((pool.pushObj id desc valSize p).statobjs i).id,
        (pool.pushObj id desc valSize p).policy i,
        ((pool.pushObj id desc valSize p).statobjs i).valSize) =
      ((pool.statobjs i).id, pool.policy i, (pool.statobjs i).valSize) := by
    intro i hi
    have hne : i ≠ pool.statobjsUsed := (List.mem_range.mp hi).ne
    rw [statobjs_pushObj_of_ne _ _ _ _ _ hne, policy_pushObj_of_ne hne]
  simp only [entries, statobjsUsed_pushObj, List.range_succ, List.map_append, List.map_singleton,
    statobjs_pushObj_self, policy_pushObj_self, List.map_congr_left hold]

theorem entries_pushAll (pool : StatPool) (id : List UInt8) (desc : Option StatId) (valSize : ℕ)
    (ps : List StatPolicy) : (pool.pushAll id desc valSize ps).entries =
      pool.entries ++ ps.map fun p => (id.take (statIdMaxLen - 1), p, valSize) := by
  induction ps generalizing pool with
  | nil => simp [pushAll]
  | cons p ps ih =>
      have hrest := ih (pool.pushObj id desc valSize p)
      rw [entries_pushObj, List.append_assoc] at hrest
      exact hrest

/-- A new object has had no step. -/
theorem Recorded.pushObj (h : pool.Recorded log) (id : List UInt8) (desc : Option StatId)
    (valSize : ℕ) (p : StatPolicy) : (pool.pushObj id desc valSize p).Recorded log := by
  constructor
  · intro i hi
    by_cases hnew : i = pool.statobjsUsed
    · subst hnew
      have hnone : log.filter (fun s => s.obj = pool.statobjsUsed) = [] := by
        rw [List.filter_eq_nil_iff]
        intro s hs
        have hlt := (h.inRange s hs).1
        simp only [decide_eq_true_eq]
        omega
      rw [hnone, policy_pushObj_self, StatPool.target, statobjs_pushObj_self]
      refine ⟨rfl, h.blank.counts _ le_rfl, ?_⟩
      intro k _
      exact h.blank.vals _ (Nat.le_add_right _ _)
    · rw [statobjsUsed_pushObj] at hi
      rw [StatPool.target, policy_pushObj_of_ne hnew, statobjs_pushObj_of_ne _ _ _ _ _ hnew]
      exact h.target i (by omega)
  · intro s hs
    obtain ⟨hlt, hrange⟩ := h.inRange s hs
    rw [statobjsUsed_pushObj, statobjs_pushObj_of_ne _ _ _ _ _ hlt.ne]
    exact ⟨Nat.lt_succ_of_lt hlt, hrange⟩
  · constructor
    · intro i hi
      rw [statobjsUsed_pushObj] at hi
      rw [statobjs_pushObj_of_ne _ _ _ _ _ (by omega)]
      exact h.blank.counts i (by omega)
    · intro k hk
      rw [statvalsUsed_pushObj] at hk
      exact h.blank.vals k (by omega)

theorem Recorded.pushAll (h : pool.Recorded log) (id : List UInt8) (desc : Option StatId)
    (valSize : ℕ) (ps : List StatPolicy) : (pool.pushAll id desc valSize ps).Recorded log := by
  induction ps generalizing pool with
  | nil => exact h
  | cons p ps ih => exact ih (h.pushObj id desc valSize p)

/-- A call of `init_statobj` that returns finds the id, or makes all objects. -/
theorem Ok.initStatobj_cases (h : pool.Ok) {id : StatId} {type : UInt32} {desc : Option StatId}
    {valSize ret : ℤ} (hret : pool.initStatobj id type desc valSize = some (pool', ret)) :
    (pool.findStatobj id.1 ≠ none ∧ pool' = pool ∧ ret = errStatExist) ∨
    (pool.findStatobj id.1 = none ∧ pool.FitsAll valSize (StatPolicy.selected type).length ∧
      pool' = pool.pushAll id.1 desc valSize.toNat (StatPolicy.selected type) ∧ ret = 0 ∧
      pool'.Ok) := by
  rw [initStatobj] at hret
  split at hret
  next hfound =>
    cases hret
    exact .inl ⟨hfound, rfl, rfl⟩
  next hnone =>
    obtain ⟨hall, habort⟩ := h.initLoop id.1 desc valSize (StatPolicy.selected type)
    by_cases hfits : pool.FitsAll valSize (StatPolicy.selected type).length
    · obtain ⟨heq, hok⟩ := hall hfits
      rw [heq] at hret
      cases hret
      exact .inr ⟨not_not.mp hnone, hfits, rfl, rfl, hok⟩
    · rw [habort hfits] at hret
      cases hret

theorem Inv.init (h : pool.Inv regs log) {id : StatId} {type : UInt32} {desc : Option StatId}
    {valSize ret : ℤ} (hret : pool.initStatobj id type desc valSize = some (pool', ret)) :
    pool'.Inv (if ret = 0 then regs ++ [⟨id, type, valSize.toNat⟩] else regs) log := by
  rcases h.ok.initStatobj_cases hret with ⟨-, rfl, rfl⟩ | ⟨-, -, rfl, rfl, hok⟩
  · exact h
  · refine ⟨hok, h.recorded.pushAll _ _ _ _, ?_⟩
    have hlisted := h.listed
    rw [Listed] at hlisted
    simp [Listed, entries_pushAll, hlisted, StatReg.objs]

/-- What holds of every pool that is reached. -/
theorem Reach.inv (h : Reach pool regs log) : pool.Inv regs log := by
  induction h with
  | new =>
      refine ⟨newpool_ok, ⟨?_, ?_, fun _ _ => rfl, fun _ _ => rfl⟩, rfl⟩
      · intro i hi
        exact absurd hi (Nat.not_lt_zero i)
      · intro s hs
        cases hs
  | init _ hret ih => exact ih.init hret
  | step _ hpos hidx ih => exact ih.step _ hpos hidx
  | reset _ ih => exact ih.reset

/-- One request for a new pool. -/
theorem reach_one (id : StatId) (type : UInt32) {valSize : ℤ}
    (hfits : newpool.FitsAll valSize (StatPolicy.selected type).length) :
    Reach (newpool.pushAll id.1 none valSize.toNat (StatPolicy.selected type))
      [⟨id, type, valSize.toNat⟩] [] := by
  have hnone : newpool.findStatobj id.1 = none := newpool_ok.find_eq_none_iff.mpr nofun
  have hmade := ((newpool_ok.initLoop id.1 none valSize (StatPolicy.selected type)).1 hfits).1
  have hret : newpool.initStatobj id type none valSize =
      some (newpool.pushAll id.1 none valSize.toNat (StatPolicy.selected type), 0) := by
    rw [initStatobj, if_neg (not_not.mpr hnone)]
    exact hmade
  exact .init .new hret

end StatPool

end Spp
