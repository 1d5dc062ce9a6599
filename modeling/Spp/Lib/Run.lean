import Mathlib.Data.Int.Basic
import Mathlib.Data.List.Basic
import Mathlib.Logic.Function.Iterate

/-!
# Runs of a machine that takes inputs and gives outputs

A machine is a function from a state and an input to a state and an output.  The
rules here are the two inductions every safety result needs: a property that each
step keeps holds after a run, and a simulation that each step keeps carries the
whole trace over to the abstract machine.

## Main definitions

* `final step s is`, `trace step s is` — where a run ends and what it shows.
* `Always step P s is` — every step of the run satisfies `P`.
* `count step P s is` — the number of steps that do.
* `pair step` — two runs on the same inputs, side by side.
* `Allows A t tr t'` — the abstract machine `A` allows the trace.
-/

namespace Spp.Run

variable {σ ι ο τ : Type*} (step : σ → ι → σ × ο)

/-- The state after a list of inputs. -/
def final : σ → List ι → σ
  | s, [] => s
  | s, i :: is => final (step s i).1 is

/-- The inputs of a run with the outputs they gave. -/
def trace : σ → List ι → List (ι × ο)
  | _, [] => []
  | s, i :: is => (i, (step s i).2) :: trace (step s i).1 is

/-- Every step of the run starts in a state and takes an input that satisfy `P`. -/
def Always (P : σ → ι → Prop) : σ → List ι → Prop
  | _, [] => True
  | s, i :: is => P s i ∧ Always P (step s i).1 is

/-- The number of steps of the run that start in a state and take an input that satisfy `P`. -/
def count (P : σ → ι → Prop) [∀ s i, Decidable (P s i)] : σ → List ι → ℕ
  | _, [] => 0
  | s, i :: is => (if P s i then 1 else 0) + count P (step s i).1 is

@[simp] theorem final_nil (s : σ) : final step s [] = s := rfl
@[simp] theorem final_cons (s : σ) (i : ι) (is : List ι) :
    final step s (i :: is) = final step (step s i).1 is := rfl
@[simp] theorem trace_nil (s : σ) : trace step s [] = [] := rfl
@[simp] theorem trace_cons (s : σ) (i : ι) (is : List ι) :
    trace step s (i :: is) = (i, (step s i).2) :: trace step (step s i).1 is := rfl
@[simp] theorem always_nil (P : σ → ι → Prop) (s : σ) : Always step P s [] := trivial
@[simp] theorem always_cons (P : σ → ι → Prop) (s : σ) (i : ι) (is : List ι) :
    Always step P s (i :: is) ↔ P s i ∧ Always step P (step s i).1 is := Iff.rfl

theorem final_append (s : σ) (is js : List ι) :
    final step s (is ++ js) = final step (final step s is) js := by
  induction is generalizing s with
  | nil => rfl
  | cons i is ih => exact ih _

theorem trace_append (s : σ) (is js : List ι) :
    trace step s (is ++ js) = trace step s is ++ trace step (final step s is) js := by
  induction is generalizing s with
  | nil => rfl
  | cons i is ih => simp [ih]

variable {step} {P : σ → ι → Prop} {s : σ} {is js : List ι}

theorem always_append :
    Always step P s (is ++ js) ↔ Always step P s is ∧ Always step P (final step s is) js := by
  induction is generalizing s with
  | nil => simp
  | cons i is ih => simp [ih, and_assoc]

theorem always_true (s : σ) (is : List ι) : Always step (fun _ _ => True) s is := by
  induction is generalizing s with
  | nil => trivial
  | cons i is ih => exact ⟨trivial, ih _⟩

/-- The steps of a prefix are steps of the run. -/
theorem Always.of_prefix (h : Always step P s js) (hpre : is <+: js) : Always step P s is := by
  obtain ⟨rest, rfl⟩ := hpre
  exact (always_append.mp h).1

/-- A run that leaves `P` leaves it at a first step. -/
theorem exists_first_of_not_always (h : ¬ Always step P s js) :
    ∃ pre i, pre ++ [i] <+: js ∧ Always step P s pre ∧ ¬ P (final step s pre) i := by
  induction js generalizing s with
  | nil => exact absurd trivial h
  | cons i js ih =>
      by_cases hi : P s i
      · have hrest : ¬ Always step P (step s i).1 js := fun hrest => h ⟨hi, hrest⟩
        obtain ⟨pre, j, hpre, hall, hj⟩ := ih hrest
        exact ⟨i :: pre, j, List.cons_prefix_cons.mpr ⟨rfl, hpre⟩, ⟨hi, hall⟩, hj⟩
      · exact ⟨[], i, ⟨js, rfl⟩, trivial, hi⟩

/-- A property that every step keeps holds at the end of a run. -/
theorem invariant {Inv : σ → Prop} (hstep : ∀ s i, Inv s → P s i → Inv (step s i).1)
    (hs : Inv s) (hrun : Always step P s is) : Inv (final step s is) := by
  induction is generalizing s with
  | nil => exact hs
  | cons i is ih => exact ih (hstep s i hs hrun.1) hrun.2

/-- What holds of every step from the states of an invariant holds of every step of a run. -/
theorem always_of_invariant {Inv : σ → Prop} {Q : σ → ι → Prop}
    (hstep : ∀ s i, Inv s → P s i → Inv (step s i).1) (hQ : ∀ s i, Inv s → P s i → Q s i)
    (hs : Inv s) (hrun : Always step P s is) : Always step Q s is := by
  induction is generalizing s with
  | nil => trivial
  | cons i is ih => exact ⟨hQ s i hs hrun.1, ih (hstep s i hs hrun.1) hrun.2⟩

/-- What is equivalent for every step from the states of an invariant is equivalent for
runs. -/
theorem always_congr (Inv : σ → Prop) {Q : σ → ι → Prop}
    (hstep : ∀ s i, Inv s → P s i → Inv (step s i).1) (hPQ : ∀ s i, Inv s → (P s i ↔ Q s i))
    (hs : Inv s) : Always step P s is ↔ Always step Q s is := by
  constructor
  · intro hrun
    exact always_of_invariant hstep (fun s i h => (hPQ s i h).mp) hs hrun
  · intro hrun
    exact always_of_invariant (fun s i h hQ => hstep s i h ((hPQ s i h).mpr hQ))
      (fun s i h => (hPQ s i h).mpr) hs hrun

/-- A relation between what a run has shown so far and its state, where each step keeps it. -/
theorem trace_invariant {R : List (ι × ο) → σ → Prop}
    (hstep : ∀ tr s i, R tr s → P s i → R (tr ++ [(i, (step s i).2)]) (step s i).1)
    {tr : List (ι × ο)} (hs : R tr s) (hrun : Always step P s is) :
    R (tr ++ trace step s is) (final step s is) := by
  induction is generalizing tr s with
  | nil => simpa using hs
  | cons i is ih =>
      have hrest := ih (hstep tr s i hs hrun.1) hrun.2
      rwa [List.append_assoc, List.singleton_append] at hrest

/-! ## Counting -/

section
variable [∀ s i, Decidable (P s i)] {Inv : σ → Prop}

end

/-! ## Two runs of one machine -/

variable (step) in
/-- Two runs side by side. -/
def pair (s : σ × σ) (i : ι) : (σ × σ) × (ο × ο) :=
  (((step s.1 i).1, (step s.2 i).1), ((step s.1 i).2, (step s.2 i).2))

/-- Where related states give the same output and stay related, the traces are the same. -/
theorem trace_eq_of_related {Q : σ × σ → ι → Prop} {R : σ → σ → Prop}
    (hstep : ∀ s t i, R s t → Q (s, t) i →
      (step s i).2 = (step t i).2 ∧ R (step s i).1 (step t i).1)
    {t : σ} (hR : R s t) (hrun : Always (pair step) Q (s, t) is) :
    trace step s is = trace step t is := by
  induction is generalizing s t with
  | nil => rfl
  | cons i is ih =>
      obtain ⟨hout, hnext⟩ := hstep s t i hR hrun.1
      rw [trace_cons, trace_cons, hout, ih hnext hrun.2]

/-! ## Abstract machines -/

/-- The abstract machine `A` can take the inputs of a trace and give its outputs. -/
inductive Allows (A : τ → ι → ο → τ → Prop) : τ → List (ι × ο) → τ → Prop
  | nil (t : τ) : Allows A t [] t
  | cons {t t' t'' : τ} {i : ι} {o : ο} {tr : List (ι × ο)} :
      A t i o t' → Allows A t' tr t'' → Allows A t ((i, o) :: tr) t''

variable {A : τ → ι → ο → τ → Prop}

/-- A simulation that every step keeps carries a run over to the abstract machine. -/
theorem simulates {R : σ → τ → Prop}
    (hstep : ∀ s t i, R s t → P s i → ∃ t', A t i (step s i).2 t' ∧ R (step s i).1 t')
    {t : τ} (hR : R s t) (hrun : Always step P s is) :
    ∃ t', Allows A t (trace step s is) t' ∧ R (final step s is) t' := by
  induction is generalizing s t with
  | nil => exact ⟨t, .nil t, hR⟩
  | cons i is ih =>
      obtain ⟨t', hA, hR'⟩ := hstep s t i hR hrun.1
      obtain ⟨t'', hAs, hR''⟩ := ih hR' hrun.2
      exact ⟨t'', .cons hA hAs, hR''⟩

/-- Where each step's target is determined, so is a trace's. -/
theorem Allows.unique (hA : ∀ t i o t' t'', A t i o t' → A t i o t'' → t' = t'')
    {t t' t'' : τ} {tr : List (ι × ο)} (h : Allows A t tr t') (h' : Allows A t tr t'') :
    t' = t'' := by
  induction h with
  | nil => cases h'; rfl
  | cons hstep _ ih =>
      cases h' with
      | cons hstep' hrest =>
          have htarget := hA _ _ _ _ _ hstep hstep'
          subst htarget
          exact ih hrest

theorem Allows.snoc {t t' t'' : τ} {tr : List (ι × ο)} {i : ι} {o : ο}
    (h : Allows A t tr t') (hstep : A t' i o t'') : Allows A t (tr ++ [(i, o)]) t'' := by
  induction h with
  | nil => exact .cons hstep (.nil _)
  | cons hfirst _ ih => exact .cons hfirst (ih hstep)

/-- What each step keeps, a run keeps. -/
theorem Allows.invariant {Inv : τ → Prop} (hstep : ∀ t i o t', Inv t → A t i o t' → Inv t')
    {t t' : τ} {tr : List (ι × ο)} (ht : Inv t) (h : Allows A t tr t') : Inv t' := by
  induction h with
  | nil => exact ht
  | cons hfirst _ ih => exact ih (hstep _ _ _ _ ht hfirst)

/-! ## Two machines that answer alike -/

/-- Machines whose steps answer alike and keep a relation have the same traces, in a run whose
steps all satisfy what each machine asks for. -/
theorem trace_eq_of_always {step' : τ → ι → τ × ο} {R : σ → τ → Prop} {Q : τ → ι → Prop}
    (hstep : ∀ s t i, R s t → P s i → Q t i →
      (step s i).2 = (step' t i).2 ∧ R (step s i).1 (step' t i).1)
    {t : τ} (hR : R s t) (hrun : Always step P s is) (hrun' : Always step' Q t is) :
    trace step s is = trace step' t is := by
  induction is generalizing s t with
  | nil => rfl
  | cons i is ih =>
      obtain ⟨hanswer, hnext⟩ := hstep s t i hR hrun.1 hrun'.1
      rw [trace_cons, trace_cons, hanswer, ih hnext hrun.2 hrun'.2]

theorem trace_eq {step' : τ → ι → τ × ο} {R : σ → τ → Prop}
    (hstep : ∀ s t i, R s t → (step s i).2 = (step' t i).2 ∧ R (step s i).1 (step' t i).1)
    {t : τ} (hR : R s t) (is : List ι) : trace step s is = trace step' t is :=
  trace_eq_of_always (fun s t i hR _ _ => hstep s t i hR) hR (always_true s is) (always_true t is)

/-! ## Machines whose steps may not return -/

section
variable {B : σ → ι → ο → σ → Prop} {tr : List (ι × ο)} {s' : σ}

/-- The steps of `A` that satisfy `P`. -/
def Within (A : τ → ι → ο → τ → Prop) (P : τ → ι → ο → τ → Prop) (t : τ) (i : ι) (o : ο)
    (t' : τ) : Prop :=
  A t i o t' ∧ P t i o t'

/-- Where each step that satisfies `P` keeps the invariant and satisfies `Q`, so does a
run. -/
theorem Allows.within {P Q : τ → ι → ο → τ → Prop} {Inv : τ → Prop}
    (hstep : ∀ t i o t', Inv t → A t i o t' → P t i o t' → Q t i o t' ∧ Inv t')
    {t t' : τ} {tr : List (ι × ο)} (ht : Inv t) (h : Allows (Within A P) t tr t') :
    Allows (Within A Q) t tr t' := by
  induction h with
  | nil => exact .nil _
  | cons hfirst _ ih =>
      obtain ⟨hQ, hinv⟩ := hstep _ _ _ _ ht hfirst.1 hfirst.2
      exact .cons ⟨hfirst.1, hQ⟩ (ih hinv)

/-- A simulation between two relations carries a trace over. -/
theorem Allows.simulates {R : σ → τ → Prop}
    (hstep : ∀ s t i o s', R s t → B s i o s' → ∃ t', A t i o t' ∧ R s' t')
    {t : τ} (hR : R s t) (h : Allows B s tr s') : ∃ t', Allows A t tr t' ∧ R s' t' := by
  induction h generalizing t with
  | nil => exact ⟨t, .nil t, hR⟩
  | cons hfirst _ ih =>
      obtain ⟨t', hA, hR'⟩ := hstep _ _ _ _ _ hR hfirst
      obtain ⟨t'', hAs, hR''⟩ := ih hR'
      exact ⟨t'', .cons hA hAs, hR''⟩

/-- Where every step returns from the states of an invariant, every list of inputs has
a trace. -/
theorem Allows.exists_of_total {Inv : σ → Prop}
    (hstep : ∀ s i, Inv s → ∃ o s', B s i o s' ∧ Inv s') (hs : Inv s) (is : List ι) :
    ∃ tr s', tr.map Prod.fst = is ∧ Allows B s tr s' := by
  induction is generalizing s with
  | nil => exact ⟨[], s, rfl, .nil s⟩
  | cons i is ih =>
      obtain ⟨o, s', hB, hs'⟩ := hstep s i hs
      obtain ⟨tr, s'', htr, hAs⟩ := ih hs'
      exact ⟨(i, o) :: tr, s'', by rw [List.map_cons, htr], .cons hB hAs⟩

end

/-! ## Loops -/

/-- A loop ends where every turn makes some number smaller, within as many turns. -/
theorem exists_done {turn : σ → σ} {Done Inv : σ → Prop} (size : σ → ℕ)
    (hkeep : ∀ s, Inv s → ¬Done s → Inv (turn s))
    (hless : ∀ s, Inv s → ¬Done s → size (turn s) < size s) {s : σ} (hs : Inv s) :
    ∃ n ≤ size s, Done (turn^[n] s) := by
  induction h : size s using Nat.strongRecOn generalizing s with
  | _ k ih =>
      by_cases hdone : Done s
      · exact ⟨0, Nat.zero_le k, hdone⟩
      · have hlt := hless s hs hdone
        obtain ⟨n, hn, hend⟩ := ih (size (turn s)) (h ▸ hlt) (hkeep s hs hdone) rfl
        refine ⟨n + 1, by omega, ?_⟩
        rwa [Function.iterate_succ_apply]

end Spp.Run
