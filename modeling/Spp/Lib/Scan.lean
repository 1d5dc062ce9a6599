import Mathlib.Data.List.TakeDrop
import Mathlib.Data.List.Infix

/-!
# Positions in a text

A scanner keeps a text and a position in it.  What it sees is what lies from the position on;
the rules say where a loop over elements with a property ends, and where a pattern is found.

## Main definitions

* `Lies s n t` — from position `n` on, the text `s` is `t`.
* `skipWhile p s n` — the first position from `n` on whose element does not satisfy `p`.
* `find pat s` — where a pattern begins first.
* `Closes pat s` — in `s` followed by the pattern, the pattern is not there before.
-/

namespace Spp.Scan

variable {α : Type*} {s t a b : List α} {n : ℕ} {c : α}

/-- From position `n` on, the text is `t`. -/
structure Lies (s : List α) (n : ℕ) (t : List α) : Prop where
  le : n ≤ s.length
  drop : s.drop n = t

theorem Lies.append (h : Lies s n (a ++ b)) : Lies s (n + a.length) b := by
  obtain ⟨hle, hdrop⟩ := h
  have hlen := congrArg List.length hdrop
  rw [List.length_drop, List.length_append] at hlen
  refine ⟨by omega, ?_⟩
  rw [← List.drop_drop, hdrop, List.drop_left]

theorem Lies.cons (h : Lies s n (c :: t)) : Lies s (n + 1) t := h.append (a := [c])

theorem Lies.length (h : Lies s n t) : n + t.length = s.length := by
  have hlen := congrArg List.length h.drop
  rw [List.length_drop] at hlen
  have hle := h.le
  omega

theorem Lies.getD (h : Lies s n (c :: t)) (z : α) : s.getD n z = c := by
  have hget : s[n]? = some c := by
    rw [← List.head?_drop, h.drop, List.head?_cons]
  rw [List.getD_eq_getElem?_getD, hget, Option.getD_some]

theorem Lies.getD_nil (h : Lies s n []) (z : α) : s.getD n z = z := by
  have hlen := h.length
  rw [List.length_nil] at hlen
  rw [List.getD_eq_getElem?_getD, List.getElem?_eq_none (by omega), Option.getD_none]

/-- What lies in front. -/
theorem Lies.take (h : Lies s n (a ++ b)) : (s.drop n).take a.length = a := by
  rw [h.drop, List.take_left]

theorem lies_zero (s : List α) : Lies s 0 s := ⟨Nat.zero_le _, rfl⟩

/-! ## Loops over elements -/

/-- The first position from `n` on whose element does not satisfy `p`, or the end. -/
def skipWhile (p : α → Bool) (s : List α) (n : ℕ) : ℕ := n + ((s.drop n).takeWhile p).length

variable {p : α → Bool}

theorem skipWhile_eq (h : Lies s n (a ++ b)) (ha : ∀ x ∈ a, p x) (hb : ∀ x ∈ b.head?, ¬p x) :
    skipWhile p s n = n + a.length := by
  have hrest : b.takeWhile p = [] := by
    cases b with
    | nil => rfl
    | cons x b => exact List.takeWhile_cons_of_neg (hb x rfl)
  rw [skipWhile, h.drop, List.takeWhile_append_of_pos ha, hrest, List.append_nil]

theorem le_skipWhile (p : α → Bool) (s : List α) (n : ℕ) : n ≤ skipWhile p s n :=
  Nat.le_add_right _ _

theorem skipWhile_le (h : n ≤ s.length) : skipWhile p s n ≤ s.length := by
  have hlen := (List.takeWhile_prefix (l := s.drop n) p).length_le
  rw [List.length_drop] at hlen
  rw [skipWhile]
  omega

/-- Where a loop ends, the element does not satisfy its condition. -/
theorem not_of_skipWhile_lt (z : α) (h : skipWhile p s n < s.length) :
    ¬p (s.getD (skipWhile p s n) z) := by
  have hsplit := List.takeWhile_append_dropWhile (p := p) (l := s.drop n)
  have hlies : Lies s n ((s.drop n).takeWhile p ++ (s.drop n).dropWhile p) := by
    refine ⟨?_, hsplit.symm⟩
    exact (le_skipWhile p s n).trans h.le
  cases hrest : (s.drop n).dropWhile p with
  | nil =>
      rw [hrest, List.append_nil] at hlies
      have hlen := hlies.length
      rw [skipWhile] at h
      omega
  | cons c t =>
      rw [hrest] at hlies
      rw [skipWhile, hlies.append.getD z]
      have hhead := List.head?_dropWhile_not p (s.drop n)
      rw [hrest] at hhead
      simpa using hhead

/-! ## Patterns -/

variable [DecidableEq α] {pat : List α}

/-- Where the pattern begins first. -/
def find (pat : List α) : List α → Option ℕ
  | [] => if pat = [] then some 0 else none
  | a :: s => if pat.isPrefixOf (a :: s) then some 0 else (find pat s).map (· + 1)

/-- Put behind `s`, the pattern is not there before. -/
def Closes (pat s : List α) : Prop := ¬pat <:+: (s ++ pat).dropLast

instance decidableCloses (pat s : List α) : Decidable (Closes pat s) :=
  inferInstanceAs (Decidable ¬pat <:+: (s ++ pat).dropLast)

theorem find_eq (hpat : pat ≠ []) (h : Closes pat s) (t : List α) :
    find pat (s ++ pat ++ t) = some s.length := by
  induction s with
  | nil =>
      cases pat with
      | nil => exact absurd rfl hpat
      | cons a pat => simp [find]
  | cons a s ih =>
      have hfirst : ¬pat <+: a :: (s ++ pat ++ t) := by
        intro hpre
        refine h (List.IsPrefix.isInfix ?_)
        have hlong : (a :: s ++ pat).dropLast <+: a :: (s ++ pat ++ t) :=
          (List.dropLast_prefix _).trans ⟨t, by simp⟩
        refine List.prefix_of_prefix_length_le hpre hlong ?_
        simp
      have hrest : Closes pat s := by
        intro hin
        refine h (hin.trans ?_)
        have hne : s ++ pat ≠ [] := by simp [hpat]
        rw [List.cons_append, List.dropLast_cons_of_ne_nil hne]
        exact List.infix_cons List.infix_rfl
      have hnot : ¬pat.isPrefixOf (a :: (s ++ pat ++ t)) := by
        rwa [List.isPrefixOf_iff_prefix]
      rw [List.cons_append, List.cons_append, find, if_neg hnot, ih hrest]
      rfl

theorem find_le {k : ℕ} (h : find pat s = some k) : k + pat.length ≤ s.length := by
  induction s generalizing k with
  | nil =>
      rw [find] at h
      split at h
      next hpat =>
        obtain rfl := Option.some.inj h
        simp [hpat]
      next => cases h
  | cons a s ih =>
      rw [find] at h
      split at h
      next hpre =>
        obtain rfl := Option.some.inj h
        have hlen := (List.isPrefixOf_iff_prefix.mp hpre).length_le
        omega
      next =>
        obtain ⟨k', hk', rfl⟩ := Option.map_eq_some_iff.mp h
        have hlen := ih hk'
        rw [List.length_cons]
        omega

end Spp.Scan
