import Mathlib.Algebra.Group.Nat.Defs
import Mathlib.Data.List.Basic

/-!
# The policies of the statistics

A statistic has a policy, a count and some values.  What `__step__` and `__result__` do depends on
the policy; `__reset__` is the same for all.  A value and a count are words of 64 bits, and an
index of a value counts from 1.

## Main definitions

* `StatPolicy` — the policies, with `no` and `ofType` for `policy_no_` and `policy_type_`.
* `StatTarget` — what a `TStatObjWrapper` gives access to.
* `StatPolicy.step`, `StatPolicy.result`, `StatTarget.reset` — the methods.
-/

namespace Spp

/-- The policies, in the order in which they are registered. -/
inductive StatPolicy
  | sum
  | avg
  | max
  | min
  | count
  | update
  deriving DecidableEq

namespace StatPolicy

/-- `policy_` -/
def all : List StatPolicy := [sum, avg, max, min, count, update]

/-- `policy_no_`, a bit for each policy. -/
def no : StatPolicy → UInt32
  | sum => 1
  | avg => 2
  | max => 4
  | min => 8
  | count => 16
  | update => 32

/-- The policy at `policy_type_[type]`, where zeros lead to the first one. -/
def ofType (type : UInt32) : StatPolicy := (all.find? fun p => p.no = type).getD sum

@[simp] theorem ofType_no (p : StatPolicy) : ofType p.no = p := by
  cases p <;> decide

/-- The policies in a composite type. -/
def selected (type : UInt32) : List StatPolicy := all.filter fun p => type &&& p.no ≠ 0

end StatPolicy

/-- What a `TStatObjWrapper` gives access to; the values are those from `value_` on. -/
structure StatTarget where
  valSize : ℕ
  count : Int64
  value : ℕ → Int64

namespace StatTarget

/-- `STATVAL_SET` of the value with an index. -/
def setValue (t : StatTarget) (valIdx : ℕ) (val : Int64) : StatTarget :=
  { t with value := Function.update t.value (valIdx - 1) val }

/-- `STATVAL_INC` of the count where the index is the last one. -/
def countLast (t : StatTarget) (valIdx : ℕ) : StatTarget :=
  if valIdx = t.valSize then { t with count := t.count + 1 } else t

/-- `__reset__` -/
def reset (t : StatTarget) : StatTarget where
  valSize := t.valSize
  count := 0
  value := fun i => if i < t.valSize then 0 else t.value i

@[simp] theorem valSize_setValue (t : StatTarget) (valIdx : ℕ) (val : Int64) :
    (t.setValue valIdx val).valSize = t.valSize := rfl

@[simp] theorem valSize_countLast (t : StatTarget) (valIdx : ℕ) :
    (t.countLast valIdx).valSize = t.valSize := by
  unfold countLast
  split <;> rfl

@[simp] theorem value_countLast (t : StatTarget) (valIdx : ℕ) :
    (t.countLast valIdx).value = t.value := by
  unfold countLast
  split <;> rfl

/-- Before the first step. -/
def zero (valSize : ℕ) : StatTarget := ⟨valSize, 0, fun _ => 0⟩

/-- The same count and the same values; what lies behind them does not matter. -/
structure Same (t t' : StatTarget) : Prop where
  valSize : t.valSize = t'.valSize
  count : t.count = t'.count
  value : ∀ i < t.valSize, t.value i = t'.value i

end StatTarget

namespace StatPolicy

/-- `__step__` -/
def step (p : StatPolicy) (t : StatTarget) (val : Int64) (valIdx : ℕ) : StatTarget :=
  match p with
  | sum | avg | count => (t.setValue valIdx (t.value (valIdx - 1) + val)).countLast valIdx
  | max =>
      let t := if t.value (valIdx - 1) < val then t.setValue valIdx val else t
      t.countLast valIdx
  | min =>
      -- the first value, whatever the index is
      let t := if t.value 0 > val ∨ t.value 0 = 0 then t.setValue 1 val else t
      { t with count := t.count + 1 }
  | update => t.setValue valIdx val

/-- What `__result__` returns, and what it writes to `val` and to `val_size`. -/
structure StatResult where
  count : Int64
  values : List Int64
  valSize : ℕ

/-- `__result__`; where it leaves `val_size` alone, the caller has put 0 there. -/
def result (p : StatPolicy) (t : StatTarget) : StatResult :=
  match p with
  | avg =>
      if t.count > 0 then ⟨t.count, (List.range t.valSize).map fun i => t.value i / t.count, t.valSize⟩
      else ⟨0, [], 0⟩
  | _ => ⟨t.count, (List.range t.valSize).map t.value, t.valSize⟩

end StatPolicy

namespace StatTarget.Same

variable {t t' t'' : StatTarget}

theorem refl (t : StatTarget) : t.Same t := ⟨rfl, rfl, fun _ _ => rfl⟩

theorem trans (h : t.Same t') (h' : t'.Same t'') : t.Same t'' :=
  ⟨h.valSize.trans h'.valSize, h.count.trans h'.count,
    fun i hi => (h.value i hi).trans (h'.value i (h.valSize ▸ hi))⟩

theorem reset_zero (t : StatTarget) : t.reset.Same (zero t.valSize) := by
  refine ⟨rfl, rfl, ?_⟩
  intro i hi
  simp [StatTarget.reset, zero, show i < t.valSize from hi]

theorem setValue (h : t.Same t') (valIdx : ℕ) (val : Int64) :
    (t.setValue valIdx val).Same (t'.setValue valIdx val) := by
  refine ⟨h.valSize, h.count, ?_⟩
  intro i hi
  by_cases heq : i = valIdx - 1
  · simp [StatTarget.setValue, heq]
  · simp [StatTarget.setValue, Function.update_of_ne heq, h.value i hi]

theorem count_add (h : t.Same t') (n : Int64) :
    ({ t with count := t.count + n } : StatTarget).Same { t' with count := t'.count + n } :=
  ⟨h.valSize, congrArg (· + n) h.count, h.value⟩

theorem countLast (h : t.Same t') (valIdx : ℕ) : (t.countLast valIdx).Same (t'.countLast valIdx) := by
  have hsize := h.valSize
  by_cases hlast : valIdx = t.valSize
  · simp only [StatTarget.countLast, if_pos hlast, if_pos (hlast.trans hsize)]
    exact h.count_add 1
  · simp only [StatTarget.countLast, if_neg hlast, if_neg (hsize ▸ hlast)]
    exact h

end StatTarget.Same

namespace StatPolicy

variable {t t' : StatTarget}

@[simp] theorem valSize_step (p : StatPolicy) (t : StatTarget) (val : Int64) (valIdx : ℕ) :
    (p.step t val valIdx).valSize = t.valSize := by
  cases p with
  | sum | avg | count | update => simp [step]
  | max =>
      simp only [step, StatTarget.valSize_countLast]
      split <;> rfl
  | min =>
      simp only [step]
      split <;> rfl

/-- A step reads and writes only the values with an index. -/
theorem step_same (p : StatPolicy) (h : t.Same t') (val : Int64) {valIdx : ℕ} (hpos : 1 ≤ valIdx)
    (hle : valIdx ≤ t.valSize) : (p.step t val valIdx).Same (p.step t' val valIdx) := by
  have hvalue := h.value (valIdx - 1) (by omega)
  have hfirst := h.value 0 (by omega)
  cases p with
  | sum | avg | count =>
      simp only [step, hvalue]
      exact (h.setValue _ _).countLast _
  | max =>
      simp only [step, hvalue]
      apply StatTarget.Same.countLast
      split
      · exact h.setValue _ _
      · exact h
  | min =>
      simp only [step, hfirst]
      split
      · exact (h.setValue _ _).count_add 1
      · exact h.count_add 1
  | update => exact h.setValue valIdx val

/-- A step leaves what lies behind the values as it is. -/
theorem value_step_of_ge (p : StatPolicy) (t : StatTarget) (val : Int64) {valIdx n : ℕ}
    (hpos : 1 ≤ valIdx) (hle : valIdx ≤ t.valSize) (hn : t.valSize ≤ n) :
    (p.step t val valIdx).value n = t.value n := by
  have hset : ∀ val i, i ≤ t.valSize → 1 ≤ i → (t.setValue i val).value n = t.value n := by
    intro val i hi hi'
    exact Function.update_of_ne (by omega) _ _
  cases p with
  | sum | avg | count =>
      simp only [step, StatTarget.value_countLast]
      exact hset _ _ hle hpos
  | max =>
      simp only [step, StatTarget.value_countLast]
      split
      · exact hset _ _ hle hpos
      · rfl
  | min =>
      simp only [step]
      split
      · exact hset _ 1 (by omega) (Nat.le_refl 1)
      · rfl
  | update => exact hset _ _ hle hpos

end StatPolicy

end Spp
