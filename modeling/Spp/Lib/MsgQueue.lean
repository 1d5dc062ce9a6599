import Mathlib.Data.List.Basic

/-!
# Message queues with types

A queue in which every message has a type, as those of System V: who takes from it names a
type and gets the first message of that type, and type zero stands for any.  Messages of one
type stay in their order, whoever puts and takes the others.

## Main definitions

* `ofType t q` — the messages of a type.
* `recv q t` — `msgrcv`: a message that is taken, and what is left.
-/

namespace Spp.MsgQueue

variable {α : Type*} (type : α → ℕ)

/-- The messages of a type, in their order. -/
def ofType (t : ℕ) (q : List α) : List α := q.filter fun m => type m = t

/-- `msgrcv`: the first message of the type, or of any for type zero. -/
def recv : List α → ℕ → Option (α × List α)
  | [], _ => none
  | m :: q, t =>
      if t = 0 ∨ type m = t then some (m, q)
      else (recv q t).map fun taken => (taken.1, m :: taken.2)

variable {type} {t : ℕ} {q q' : List α} {m : α}

@[simp] theorem ofType_append (t : ℕ) (q q' : List α) :
    ofType type t (q ++ q') = ofType type t q ++ ofType type t q' := List.filter_append _ _

@[simp] theorem ofType_nil (t : ℕ) : ofType type t [] = [] := rfl

theorem ofType_cons (t : ℕ) (m : α) (q : List α) :
    ofType type t (m :: q) = ofType type t [m] ++ ofType type t q := by
  rw [← ofType_append, List.singleton_append]

/-- What is taken is of the type, and the first of all those of its own type. -/
theorem recv_spec (h : recv type q t = some (m, q')) :
    (t = 0 ∨ type m = t) ∧ m ∈ q ∧ q' ⊆ q ∧
      ∀ t', ofType type t' q = ofType type t' [m] ++ ofType type t' q' := by
  induction q generalizing q' with
  | nil => cases h
  | cons m' q ih =>
      rw [recv] at h
      split at h
      next hm =>
        cases h
        exact ⟨hm, List.mem_cons_self, List.subset_cons_self _ _, fun t' => ofType_cons t' _ _⟩
      next hm =>
        obtain ⟨⟨m₁, q₁⟩, hrest, htaken⟩ := Option.map_eq_some_iff.mp h
        cases htaken
        obtain ⟨htype, hmem, hsub, hof⟩ := ih hrest
        refine ⟨htype, List.mem_cons_of_mem _ hmem, List.cons_subset_cons _ hsub, fun t' => ?_⟩
        -- the two messages are of different types, so one of them is not of this one
        have hne : type m₁ ≠ type m' := by
          rcases htype with h0 | hm₁
          · exact absurd (.inl h0) hm
          · exact fun heq => hm (.inr (heq ▸ hm₁))
        dsimp only at hof ⊢
        rw [ofType_cons, hof, ofType_cons t' m' q₁]
        by_cases hm' : type m' = t'
        · have hm₁ : type m₁ ≠ t' := hm' ▸ hne
          simp [ofType, hm₁]
        · simp [ofType, hm']

/-- Nothing is taken only where there is nothing of the type. -/
theorem recv_eq_none (h : recv type q t = none) : ofType type t q = [] := by
  induction q with
  | nil => rfl
  | cons m q ih =>
      rw [recv] at h
      split at h
      next => cases h
      next hm =>
        have hrest := ih (Option.map_eq_none_iff.mp h)
        rw [ofType_cons, hrest]
        simp [ofType, (not_or.mp hm).2]

end Spp.MsgQueue
