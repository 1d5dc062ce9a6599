import Mathlib.Data.List.Induction
import Mathlib.Tactic.Ring

/-!
# Reading a stream in blocks

A machine that takes a stream one element at a time, keeps up to `n` of them in a buffer, and
takes a step of its own each time the buffer is full.  Where the stream is cut does not
matter: the state is the one after the whole blocks of all that came in, and the buffer is
what is behind them.

## Main definitions

* `foldBlocks n f k s xs` — the steps for the first `k` blocks of `xs`.
* `whole n f s xs`, `rest n xs` — the steps for all blocks, and what is behind them.
* `feed n f` — one element comes in.
-/

namespace Spp.Blocks

variable {σ τ α : Type*} (n : ℕ) (f : σ → List α → σ)

/-- The state after the first `k` blocks of `n` elements. -/
def foldBlocks : ℕ → σ → List α → σ
  | 0, s, _ => s
  | k + 1, s, xs => foldBlocks k (f s (xs.take n)) (xs.drop n)

/-- The state after all whole blocks. -/
def whole (s : σ) (xs : List α) : σ := foldBlocks n f (xs.length / n) s xs

/-- What is behind the whole blocks. -/
def rest (xs : List α) : List α := xs.drop (n * (xs.length / n))

/-- One element comes in: a full buffer is a block. -/
def feed (p : σ × List α) (x : α) : σ × List α :=
  if p.2.length + 1 = n then (f p.1 (p.2 ++ [x]), []) else (p.1, p.2 ++ [x])

variable {n f}

theorem foldBlocks_append {k : ℕ} {xs : List α} (hxs : n * k ≤ xs.length) (s : σ)
    (ys : List α) : foldBlocks n f k s (xs ++ ys) = foldBlocks n f k s xs := by
  induction k generalizing s xs with
  | zero => rfl
  | succ k ih =>
      rw [Nat.mul_succ] at hxs
      have hdrop : n * k ≤ (xs.drop n).length := by
        rw [List.length_drop]
        omega
      rw [foldBlocks, foldBlocks, List.take_append_of_le_length (by omega),
        List.drop_append_of_le_length (by omega), ih hdrop]

theorem foldBlocks_add (j k : ℕ) (s : σ) (xs : List α) :
    foldBlocks n f (j + k) s xs = foldBlocks n f k (foldBlocks n f j s xs) (xs.drop (n * j)) := by
  induction j generalizing s xs with
  | zero => simp [foldBlocks]
  | succ j ih =>
      rw [Nat.succ_add, foldBlocks, ih, foldBlocks, List.drop_drop, Nat.mul_succ, Nat.add_comm n]

theorem rest_of_lt {xs : List α} (h : xs.length < n) : rest n xs = xs := by
  rw [rest, Nat.div_eq_of_lt h]
  simp

theorem whole_of_lt {xs : List α} (h : xs.length < n) (s : σ) : whole n f s xs = s := by
  rw [whole, Nat.div_eq_of_lt h]
  rfl

@[simp] theorem length_rest (xs : List α) : (rest n xs).length = xs.length % n := by
  have hdiv := Nat.div_add_mod xs.length n
  rw [rest, List.length_drop]
  omega

/-- The blocks come first, and then the rest. -/
theorem take_append_rest (n : ℕ) (xs : List α) :
    xs.take (n * (xs.length / n)) ++ rest n xs = xs := List.take_append_drop _ _

/-- A first part of whole blocks is stepped through first. -/
theorem whole_append {k : ℕ} (hn : 0 < n) {xs : List α} (hxs : xs.length = n * k) (s : σ)
    (ys : List α) : whole n f s (xs ++ ys) = whole n f (whole n f s xs) ys := by
  have hcount : (xs ++ ys).length / n = k + ys.length / n := by
    rw [List.length_append, hxs, Nat.mul_add_div hn]
  have hfirst : xs.length / n = k := by rw [hxs, Nat.mul_div_cancel_left k hn]
  rw [whole, hcount, foldBlocks_add, foldBlocks_append hxs.ge, whole, whole, hfirst,
    ← hxs, List.drop_left]

theorem rest_append {k : ℕ} (hn : 0 < n) {xs : List α} (hxs : xs.length = n * k)
    (ys : List α) : rest n (xs ++ ys) = rest n ys := by
  have hcount : (xs ++ ys).length / n = k + ys.length / n := by
    rw [List.length_append, hxs, Nat.mul_add_div hn]
  rw [rest, hcount, Nat.mul_add, ← hxs, List.drop_append, rest, List.drop_eq_nil_of_le (by omega),
    List.nil_append, Nat.add_sub_cancel_left]

theorem whole_self {xs : List α} (hn : 0 < n) (hxs : xs.length = n) (s : σ) :
    whole n f s xs = f s xs := by
  rw [whole, hxs, Nat.div_self hn, foldBlocks, foldBlocks, List.take_of_length_le hxs.le]

theorem rest_self {xs : List α} (hn : 0 < n) (hxs : xs.length = n) : rest n xs = [] := by
  rw [rest, hxs, Nat.div_self hn]
  exact List.drop_of_length_le (by omega)

/-- What has been stepped through, and what is in the buffer, is what the whole stream says. -/
theorem foldl_feed (hn : 0 < n) (s : σ) (xs : List α) :
    xs.foldl (feed n f) (s, []) = (whole n f s xs, rest n xs) := by
  induction xs using List.reverseRecOn with
  | nil => rw [whole_of_lt hn, rest_of_lt hn]; rfl
  | append_singleton xs x ih =>
      have hsplit := take_append_rest n xs
      have hlen : (xs.take (n * (xs.length / n))).length = n * (xs.length / n) :=
        List.length_take_of_le (Nat.mul_div_le _ _)
      have hfront : whole n f s xs = whole n f s (xs.take (n * (xs.length / n))) := by
        conv_lhs => rw [← hsplit]
        rw [whole_append hn hlen, whole_of_lt]
        rw [length_rest]
        exact Nat.mod_lt _ hn
      have hmod : (rest n xs).length < n := by
        rw [length_rest]
        exact Nat.mod_lt _ hn
      have hcat : xs ++ [x] = xs.take (n * (xs.length / n)) ++ (rest n xs ++ [x]) := by
        rw [← List.append_assoc, hsplit]
      rw [List.foldl_append, ih, List.foldl_cons, List.foldl_nil, feed, hfront, hcat,
        whole_append hn hlen, rest_append hn hlen]
      split
      · next hfull =>
          have hlast : (rest n xs ++ [x]).length = n := by simpa using hfull
          rw [whole_self hn hlast, rest_self hn hlast]
      · next hnot =>
          have hlast : (rest n xs ++ [x]).length < n := by
            rw [List.length_append, List.length_singleton]
            dsimp only at hnot
            omega
          rw [whole_of_lt hlast, rest_of_lt hlast]

/-- Two machines whose steps keep a relation end in related states. -/
theorem whole_rel {g : τ → List α → τ} {R : σ → τ → Prop}
    (hstep : ∀ s t xs, R s t → R (f s xs) (g t xs)) {s : σ} {t : τ} (h : R s t) (xs : List α) :
    R (whole n f s xs) (whole n g t xs) := by
  rw [whole, whole]
  induction xs.length / n generalizing s t xs with
  | zero => exact h
  | succ k ih => exact ih (hstep s t _ h) _

end Spp.Blocks
