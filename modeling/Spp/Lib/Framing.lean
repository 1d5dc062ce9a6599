import Mathlib.Data.List.Basic
import Mathlib.Tactic.Common

/-!
# Packets in a stream

A framing function looks at the bytes that have come in and says how long the first packet
is, or 0 while the packet is not there as a whole.  What it has said does not change when
more bytes come in.  So the packets of a stream, and the bytes that are left, do not depend
on where the stream is cut.

## Main definitions

* `Framing frame` — the function frames by prefixes.
* `Splits frame bs ps rest` — the bytes are the packets `ps` and an incomplete rest.
-/

namespace Spp

variable {α : Type*} {frame : List α → ℕ} {as bs rest rest' : List α} {ps qs : List (List α)}

/-- A packet is a part of the bytes, and more bytes do not change it. -/
structure Framing (frame : List α → ℕ) : Prop where
  le : ∀ bs, frame bs ≤ bs.length
  stable : ∀ as bs, 0 < frame as → frame (as ++ bs) = frame as

/-- The bytes are the packets one after another, and a rest without a whole packet. -/
inductive Splits (frame : List α → ℕ) : List α → List (List α) → List α → Prop
  | rest {bs : List α} : frame bs = 0 → Splits frame bs [] bs
  | packet {bs rest : List α} {ps : List (List α)} : 0 < frame bs →
      Splits frame (bs.drop (frame bs)) ps rest → Splits frame bs (bs.take (frame bs) :: ps) rest

theorem Framing.nil (h : Framing frame) : frame [] = 0 := by
  simpa using h.le []

theorem Splits.nil (h : Framing frame) : Splits frame [] [] [] := .rest h.nil

/-- The packets and the rest are the bytes. -/
theorem Splits.flatten (h : Splits frame bs ps rest) : ps.flatten ++ rest = bs := by
  induction h with
  | rest _ => rfl
  | packet _ _ ih => rw [List.flatten_cons, List.append_assoc, ih, List.take_append_drop]

theorem Splits.unique (h : Splits frame bs ps rest) (h' : Splits frame bs qs rest') :
    ps = qs ∧ rest = rest' := by
  induction h generalizing qs with
  | rest hzero =>
    cases h' with
    | rest _ => exact ⟨rfl, rfl⟩
    | packet hpos _ => omega
  | packet hpos _ ih =>
    cases h' with
    | rest hzero => omega
    | packet _ hrest =>
      obtain ⟨rfl, rfl⟩ := ih hrest
      exact ⟨rfl, rfl⟩

/-- The bytes that come later are split together with the rest. -/
theorem Splits.append (hframe : Framing frame) (h : Splits frame as ps rest)
    (h' : Splits frame (rest ++ bs) qs rest') : Splits frame (as ++ bs) (ps ++ qs) rest' := by
  induction h with
  | rest _ => exact h'
  | @packet as _ _ hpos _ ih =>
    have hsame : frame (as ++ bs) = frame as := hframe.stable as bs hpos
    have hle := hframe.le as
    have hnext := ih h'
    rw [← List.drop_append_of_le_length hle, ← hsame] at hnext
    have hall := Splits.packet (by omega) hnext
    rw [hsame, List.take_append_of_le_length hle] at hall
    exact hall

end Spp
