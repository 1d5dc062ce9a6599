import Spp.Lib.Mem
import Mathlib.Data.Nat.ModEq
import Mathlib.Order.Interval.Finset.Nat

/-!
# Streams stored on a cyclic block

A byte stream without end is kept in a block of `B` cells: the stream position
`k` lies on the cell `k % B`.  A writer that never lies a whole block ahead of
its reader keeps the `B` last positions readable.  The offset of a position is
`pos B k`, which is `0` for the empty stream and in `(0, B]` afterwards, so that
two offsets at most `B - 1` positions apart are equal exactly when the positions
are.

## Main definitions

* `pos B k` — the offset that stands for the stream position `k`.
* `Window m B k bs` — the cells from position `k` on hold `bs`.
* `Covers B k segs` — consecutive segments lie on the cells from position `k` on.
* `scatter m ws`, `gather m segs` — one store or load per segment.
* `Storing`, `Loading` — such a list of stores or loads under way, while the memory
  may change elsewhere.
-/

namespace Spp.Cyclic

variable {α : Type*} {B k p : ℕ} {m : ℕ → α} {bs cs : List α}

/-! ## Positions -/

/-- The offset that stands for the stream position `k` in a block of `B` cells. -/
def pos (B k : ℕ) : ℕ := if k = 0 then 0 else (k - 1) % B + 1

@[simp] theorem pos_zero (B : ℕ) : pos B 0 = 0 := rfl

theorem pos_le (hB : 0 < B) (k : ℕ) : pos B k ≤ B := by
  have hlt : (k - 1) % B < B := Nat.mod_lt _ hB
  unfold pos
  split <;> omega

theorem pos_mod (B k : ℕ) : pos B k % B = k % B := by
  unfold pos
  split
  · next h => rw [h]
  · next h =>
      rw [Nat.mod_add_mod]
      congr 1
      omega

/-- The offset `n` cells after the offset `p`, for `n` at most one block. -/
def advance (B p n : ℕ) : ℕ := if p + n ≤ B then p + n else p + n - B

/-- Moving on by at most one block wraps at most once. -/
theorem pos_add {n : ℕ} (k : ℕ) (hn : 0 < n) (hnB : n ≤ B) :
    pos B (k + n) = advance B (pos B k) n := by
  unfold advance
  by_cases hk : k = 0
  · subst hk
    have hmod : (0 + n - 1) % B = n - 1 := by
      rw [Nat.mod_eq_of_lt (by omega)]
      omega
    have hpos : pos B (0 + n) = n := by
      unfold pos
      rw [if_neg (by omega), hmod]
      omega
    rw [hpos, pos_zero, if_pos (by omega)]
    omega
  · have hlt : (k - 1) % B < B := Nat.mod_lt _ (by omega)
    have hk' : pos B k = (k - 1) % B + 1 := if_neg hk
    have hkn : pos B (k + n) = ((k - 1) % B + n) % B + 1 := by
      unfold pos
      rw [if_neg (by omega), Nat.mod_add_mod]
      congr 2
      omega
    rw [hk', hkn]
    split
    · rw [Nat.mod_eq_of_lt (by omega)]
      omega
    · rw [Nat.mod_eq_sub_mod (by omega), Nat.mod_eq_of_lt (by omega)]
      omega

/-- Two positions less than a block apart lie on different cells. -/
theorem mod_ne_mod {a b : ℕ} (hab : a < b) (hb : b < a + B) : a % B ≠ b % B := by
  intro h
  have hdvd : B ∣ b - a := (Nat.modEq_iff_dvd' hab.le).mp h
  have hle : B ≤ b - a := Nat.le_of_dvd (by omega) hdvd
  omega

theorem mod_add_eq {i : ℕ} (hp : p % B = k % B) : (k + i) % B = (p + i) % B := by
  rw [Nat.add_mod k, ← hp, ← Nat.add_mod]

/-! ## Segments -/

/-- The segments `(p, n)` lie one after another on the cells from position `k` on. -/
def Covers (B : ℕ) : ℕ → List (ℕ × ℕ) → Prop
  | _, [] => True
  | k, (p, n) :: segs => (∀ i, i < n → p + i = (k + i) % B) ∧ Covers B (k + n) segs

/-- The number of cells in a list of segments. -/
def total (segs : List (ℕ × ℕ)) : ℕ := (segs.map Prod.snd).sum

@[simp] theorem covers_nil (B k : ℕ) : Covers B k [] := trivial

@[simp] theorem covers_cons (B k p n : ℕ) (segs : List (ℕ × ℕ)) :
    Covers B k ((p, n) :: segs) ↔
      (∀ i, i < n → p + i = (k + i) % B) ∧ Covers B (k + n) segs := Iff.rfl

@[simp] theorem total_nil : total [] = 0 := rfl

@[simp] theorem total_cons (p n : ℕ) (segs : List (ℕ × ℕ)) :
    total ((p, n) :: segs) = n + total segs := rfl

/-- A segment `d` cells after the offset `p` of a position, before or after the end of
the block, that does not itself cross the end. -/
theorem segment_eq {k' j d n : ℕ} (hp : p % B = k % B) (hk : k' = k + d)
    (hj : j = p + d ∨ j + B = p + d) (hn : j + n ≤ B) :
    ∀ i, i < n → j + i = (k' + i) % B := by
  intro i hi
  have hcell : (k' + i) % B = (p + d + i) % B := by
    rw [hk, Nat.add_assoc, mod_add_eq hp, Nat.add_assoc]
  rw [hcell]
  rcases hj with hj | hj
  · rw [← hj, Nat.mod_eq_of_lt (by omega)]
  · rw [← hj, Nat.add_right_comm, Nat.add_mod_right, Nat.mod_eq_of_lt (by omega)]

theorem total_append (segs segs' : List (ℕ × ℕ)) :
    total (segs ++ segs') = total segs + total segs' := by
  simp [total]

theorem covers_append {segs segs' : List (ℕ × ℕ)} :
    Covers B k (segs ++ segs') ↔ Covers B k segs ∧ Covers B (k + total segs) segs' := by
  induction segs generalizing k with
  | nil => simp
  | cons s segs ih =>
      obtain ⟨p, n⟩ := s
      simp only [List.cons_append, covers_cons, total_cons, ih, and_assoc, Nat.add_assoc]

/-- The cells of a segment. -/
def cells (seg : ℕ × ℕ) : Finset ℕ := Finset.Ico seg.1 (seg.1 + seg.2)

/-- Each cell of a segment is the cell of one of the positions. -/
theorem Covers.exists_position {segs : List (ℕ × ℕ)} {seg : ℕ × ℕ} {i : ℕ}
    (h : Covers B k segs) (hseg : seg ∈ segs) (hi : i ∈ cells seg) :
    ∃ j, k ≤ j ∧ j < k + total segs ∧ i = j % B := by
  induction segs generalizing k with
  | nil => simp at hseg
  | cons s segs ih =>
      obtain ⟨p, n⟩ := s
      rw [total_cons]
      rcases List.mem_cons.mp hseg with rfl | hseg
      · obtain ⟨hlo, hhi⟩ := Finset.mem_Ico.mp hi
        have hcell := h.1 (i - p) (by simp only at hlo hhi; omega)
        simp only at hlo hhi
        exact ⟨k + (i - p), by omega, by omega, by omega⟩
      · obtain ⟨j, hlo, hhi, hj⟩ := ih h.2 hseg
        exact ⟨j, by omega, by omega, hj⟩

/-- Segments that cover different positions within one block share no cell. -/
theorem Covers.disjoint {segs segs' : List (ℕ × ℕ)} {k' : ℕ} (h : Covers B k segs)
    (h' : Covers B k' segs') (hlo : k + total segs ≤ k') (hhi : k' + total segs' ≤ k + B)
    {seg seg' : ℕ × ℕ} (hseg : seg ∈ segs) (hseg' : seg' ∈ segs') :
    Disjoint (cells seg) (cells seg') := by
  rw [Finset.disjoint_left]
  intro i hi hi'
  obtain ⟨j, hj, hjlt, hcell⟩ := h.exists_position hseg hi
  obtain ⟨j', hj', hjlt', hcell'⟩ := h'.exists_position hseg' hi'
  exact mod_ne_mod (B := B) (a := j) (b := j') (by omega) (by omega) (by omega)

/-! ## Windows -/

/-- The cells from position `k` on hold `bs`. -/
def Window (m : ℕ → α) (B k : ℕ) (bs : List α) : Prop :=
  ∀ i (h : i < bs.length), m ((k + i) % B) = bs[i]

@[simp] theorem window_nil (m : ℕ → α) (B k : ℕ) : Window m B k [] := by
  intro i hi
  simp at hi

theorem Window.left (h : Window m B k (bs ++ cs)) : Window m B k bs := by
  intro i hi
  rw [h i (by simp; omega), List.getElem_append_left hi]

theorem Window.right (h : Window m B k (bs ++ cs)) : Window m B (k + bs.length) cs := by
  intro i hi
  have hlen : bs.length + i < (bs ++ cs).length := by simp; omega
  have hval := h (bs.length + i) hlen
  rw [← Nat.add_assoc] at hval
  rw [hval, List.getElem_append_right (by omega)]
  congr 1
  omega

/-- A store behind a window, and less than a block from its start, leaves it. -/
theorem Window.write_behind (h : Window m B k bs) {j : ℕ}
    (hseg : ∀ i, i < cs.length → p + i = (j + i) % B)
    (hlo : k + bs.length ≤ j) (hhi : j + cs.length ≤ k + B) :
    Window (Mem.write m p cs) B k bs := by
  intro i hi
  rw [← h i hi]
  by_cases hlt : (k + i) % B < p
  · exact Mem.write_of_lt m cs hlt
  by_cases hge : p + cs.length ≤ (k + i) % B
  · exact Mem.write_of_ge m cs hge
  · -- the cell would be one of the segment's, at a position less than a block away
    exfalso
    have hcell := hseg ((k + i) % B - p) (by omega)
    have hne : (k + i) % B ≠ (j + ((k + i) % B - p)) % B := mod_ne_mod (by omega) (by omega)
    omega

/-- A store right behind a window extends it, as long as it fits the block. -/
theorem Window.snoc (h : Window m B k bs)
    (hseg : ∀ i, i < cs.length → p + i = (k + bs.length + i) % B)
    (hfit : bs.length + cs.length ≤ B) :
    Window (Mem.write m p cs) B k (bs ++ cs) := by
  have hold := h.write_behind hseg le_rfl (by omega)
  intro i hi
  by_cases hib : i < bs.length
  · rw [List.getElem_append_left hib]
    exact hold i hib
  · have hic : i - bs.length < cs.length := by
      rw [List.length_append] at hi
      omega
    have hcell := hseg (i - bs.length) hic
    have hpos : k + bs.length + (i - bs.length) = k + i := by omega
    rw [hpos] at hcell
    rw [← hcell, Mem.write_add m cs p hic, List.getElem_append_right (by omega)]

/-- What is stored in the first `n` positions may be given up. -/
theorem Window.drop (h : Window m B k bs) (n : ℕ) : Window m B (k + n) (bs.drop n) := by
  intro i hi
  rw [List.length_drop] at hi
  have hval := h (n + i) (by omega)
  rw [← Nat.add_assoc] at hval
  rw [hval, List.getElem_drop]

/-! ## Several segments -/

/-- One store per segment. -/
def scatter (m : ℕ → α) (ws : List (ℕ × List α)) : ℕ → α :=
  ws.foldl (fun m w => Mem.write m w.1 w.2) m

/-- The segments a list of stores goes to. -/
def spans (ws : List (ℕ × List α)) : List (ℕ × ℕ) := ws.map fun w => (w.1, w.2.length)

/-- What a list of stores carries. -/
def payload (ws : List (ℕ × List α)) : List α := ws.flatMap Prod.snd

/-- One load per segment. -/
def gather (m : ℕ → α) (segs : List (ℕ × ℕ)) : List α :=
  segs.flatMap fun s => Mem.read m s.1 s.2

@[simp] theorem spans_nil : spans ([] : List (ℕ × List α)) = [] := rfl

@[simp] theorem spans_cons (w : ℕ × List α) (ws : List (ℕ × List α)) :
    spans (w :: ws) = (w.1, w.2.length) :: spans ws := rfl

@[simp] theorem payload_nil : payload ([] : List (ℕ × List α)) = [] := rfl

@[simp] theorem payload_cons (w : ℕ × List α) (ws : List (ℕ × List α)) :
    payload (w :: ws) = w.2 ++ payload ws := by
  simp [payload]

@[simp] theorem scatter_nil (m : ℕ → α) : scatter m [] = m := rfl

@[simp] theorem scatter_cons (m : ℕ → α) (w : ℕ × List α) (ws : List (ℕ × List α)) :
    scatter m (w :: ws) = scatter (Mem.write m w.1 w.2) ws := rfl

@[simp] theorem gather_nil (m : ℕ → α) : gather m [] = [] := rfl

@[simp] theorem gather_cons (m : ℕ → α) (s : ℕ × ℕ) (segs : List (ℕ × ℕ)) :
    gather m (s :: segs) = Mem.read m s.1 s.2 ++ gather m segs := by
  simp [gather]

theorem spans_append (ws ws' : List (ℕ × List α)) :
    spans (ws ++ ws') = spans ws ++ spans ws' := List.map_append

theorem payload_append (ws ws' : List (ℕ × List α)) :
    payload (ws ++ ws') = payload ws ++ payload ws' := List.flatMap_append

@[simp] theorem length_payload (ws : List (ℕ × List α)) :
    (payload ws).length = total (spans ws) := by
  induction ws with
  | nil => rfl
  | cons w ws ih => simp [ih]

/-- Stores right behind a window extend it by what they carry. -/
theorem Window.scatter {ws : List (ℕ × List α)} (h : Window m B k bs)
    (hcov : Covers B (k + bs.length) (spans ws))
    (hfit : bs.length + total (spans ws) ≤ B) :
    Window (scatter m ws) B k (bs ++ payload ws) := by
  induction ws generalizing m bs with
  | nil => simpa using h
  | cons w ws ih =>
      simp only [spans_cons, covers_cons, total_cons] at hcov hfit
      have hstep : Window (Mem.write m w.1 w.2) B k (bs ++ w.2) := h.snoc hcov.1 (by omega)
      have hrest := ih hstep
        (by rw [List.length_append, ← Nat.add_assoc]; exact hcov.2)
        (by rw [List.length_append]; omega)
      simpa [List.append_assoc] using hrest

/-- A load of one segment sees the window's cells. -/
theorem Window.read {n : ℕ} (h : Window m B k bs)
    (hseg : ∀ i, i < n → p + i = (k + i) % B) (hn : n ≤ bs.length) :
    Mem.read m p n = bs.take n := by
  refine List.ext_getElem (by simp [hn]) ?_
  intro i hi hi'
  rw [Mem.length_read] at hi
  rw [Mem.getElem_read, hseg i hi, h i (by omega), List.getElem_take]

/-- Loads that cover a window return what it holds. -/
theorem Window.gather {segs : List (ℕ × ℕ)} (h : Window m B k bs)
    (hcov : Covers B k segs) (hlen : total segs = bs.length) : gather m segs = bs := by
  induction segs generalizing k bs with
  | nil => exact (List.length_eq_zero_iff.mp hlen.symm).symm
  | cons s segs ih =>
      obtain ⟨p, n⟩ := s
      simp only [covers_cons, total_cons] at hcov hlen
      rw [gather_cons, h.read hcov.1 (by omega),
        ih (h.drop n) hcov.2 (by rw [List.length_drop]; omega), List.take_append_drop]

/-! ## Stores and loads under way -/

/-- The stores `todo` remain of `ws`; the others lie behind the window. -/
def Storing (m : ℕ → α) (B k : ℕ) (bs : List α) (ws todo : List (ℕ × List α)) : Prop :=
  ∃ done, ws = done ++ todo ∧ Window m B k (bs ++ payload done)

/-- The loads `todo` remain of `segs`; the others returned `acc`, a part of `bs`. -/
def Loading (bs : List α) (segs todo : List (ℕ × ℕ)) (acc : List α) : Prop :=
  ∃ done, segs = done ++ todo ∧ acc = bs.take (total done)

section
variable {ws todo : List (ℕ × List α)} {w : ℕ × List α}

theorem Storing.start (h : Window m B k bs) : Storing m B k bs ws ws :=
  ⟨[], rfl, by simpa using h⟩

theorem Storing.window (h : Storing m B k bs ws todo) : Window m B k bs := by
  obtain ⟨done, -, hwin⟩ := h
  exact hwin.left

theorem Storing.step (h : Storing m B k bs ws (w :: todo))
    (hcov : Covers B (k + bs.length) (spans ws))
    (hfit : bs.length + total (spans ws) ≤ B) :
    Storing (Mem.write m w.1 w.2) B k bs ws todo := by
  obtain ⟨done, hws, hwin⟩ := h
  rw [hws, spans_append, covers_append, spans_cons, covers_cons, ← length_payload] at hcov
  rw [hws, spans_append, total_append, spans_cons, total_cons, ← length_payload] at hfit
  refine ⟨done ++ [w], by simp [hws], ?_⟩
  have hnext : Window (Mem.write m w.1 w.2) B k (bs ++ payload done ++ w.2) := hwin.snoc
    (by rw [List.length_append, ← Nat.add_assoc]; exact hcov.2.1)
    (by rw [List.length_append]; omega)
  simpa [payload_append] using hnext

theorem Storing.finish (h : Storing m B k bs ws []) : Window m B k (bs ++ payload ws) := by
  obtain ⟨done, hws, hwin⟩ := h
  rw [hws, List.append_nil]
  exact hwin

/-- The window may lose its first part during the stores. -/
theorem Storing.release (h : Storing m B k (bs ++ cs) ws todo) :
    Storing m B (k + bs.length) cs ws todo := by
  obtain ⟨done, hws, hwin⟩ := h
  rw [List.append_assoc] at hwin
  exact ⟨done, hws, hwin.right⟩

end

section
variable {segs todo : List (ℕ × ℕ)} {acc : List α}

theorem Loading.start : Loading bs segs segs [] := ⟨[], rfl, by simp⟩

theorem Loading.step {n : ℕ} (h : Loading bs segs ((p, n) :: todo) acc)
    (hwin : Window m B k bs) (hcov : Covers B k segs) (hlen : total segs = bs.length) :
    Loading bs segs todo (acc ++ Mem.read m p n) := by
  obtain ⟨done, hsegs, hacc⟩ := h
  rw [hsegs, covers_append, covers_cons] at hcov
  rw [hsegs, total_append, total_cons] at hlen
  refine ⟨done ++ [(p, n)], by simp [hsegs], ?_⟩
  have hread := (hwin.drop (total done)).read hcov.2.1 (by rw [List.length_drop]; omega)
  rw [total_append, total_cons, total_nil, Nat.add_zero, List.take_add, ← hread, hacc]

theorem Loading.finish (h : Loading bs segs [] acc) (hlen : total segs = bs.length) :
    acc = bs := by
  obtain ⟨done, hsegs, hacc⟩ := h
  rw [List.append_nil] at hsegs
  rw [hacc, ← hsegs, hlen, List.take_length]

end

end Spp.Cyclic
