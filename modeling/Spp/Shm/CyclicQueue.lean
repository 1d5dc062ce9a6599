import Spp.Shm.MQ

/-!
# The queue as a cyclic store

The block is a cycle of cells.  `enqueue` stores a message from the tail on and `dequeue_i` reads
one from the head on, whatever the two offsets are, and both may be zero or the length of the
block, which stand for the same cell.

## Main definitions

* `ShmMQ.OffsetsOk` — offsets from which an empty queue and a full one can be told apart.
* `used`, `free` — the cells from the head to the tail, and the others.
* `Appended` — a message behind the tail, nothing else changed.
* `Written` — a message at the head.
-/

namespace Spp
namespace ShmMQ

open Cyclic

/-- The two offsets lie in the block, and equal ones are the only ones for one cell. -/
structure OffsetsOk (q : ShmMQ) : Prop where
  head_le : q.head ≤ q.blocksize
  tail_le : q.tail ≤ q.blocksize
  apart : q.head = q.tail ∨ q.head % q.blocksize ≠ q.tail % q.blocksize

/-- The number of cells from the head to the tail, around the end of the block. -/
def used (q : ShmMQ) : ℕ := (q.tail + q.blocksize - q.head) % q.blocksize

/-- The number of the other cells. -/
def free (q : ShmMQ) : ℕ := q.blocksize - q.used

/-- The message `m` stands behind the tail of `q`, and the bytes of the queue are as before. -/
structure Appended (q q' : ShmMQ) (m : Msg) : Prop where
  blocksize : q'.blocksize = q.blocksize
  head : q'.head = q.head
  stored : ∀ i (h : i < m.bytes.length), q'.block ((q.tail + i) % q.blocksize) = m.bytes[i]
  kept : ∀ i, i < q.used → q'.block ((q.head + i) % q.blocksize) =
    q.block ((q.head + i) % q.blocksize)
  tail_le : q'.tail ≤ q.blocksize
  tail_mod : q'.tail % q.blocksize = (q.tail + m.size) % q.blocksize
  tail_ne : q'.tail % q.blocksize ≠ q.head % q.blocksize

/-- The message `m` stands at the head, and the tail is not before its end. -/
structure Written (q : ShmMQ) (m : Msg) : Prop where
  head_le : q.head ≤ q.blocksize
  tail_le : q.tail ≤ q.blocksize
  stored : ∀ i (h : i < m.bytes.length), q.block ((q.head + i) % q.blocksize) = m.bytes[i]
  size_le : m.size ≤ usedLen q.blocksize q.head q.tail

variable {q : ShmMQ}

/-! ## The offsets -/

/-- The tail is as many cells behind the head as are used. -/
theorem OffsetsOk.used_cases (h : q.OffsetsOk) : q.tail = q.head + q.used ∨
    q.tail + q.blocksize = q.head + q.used ∧ q.tail < q.head := by
  obtain ⟨hhead, htail, happart⟩ := h
  rcases Nat.lt_or_ge q.tail q.head with hlt | hge
  · right
    rw [used, Nat.mod_eq_of_lt (by omega)]
    omega
  · left
    have hne : q.tail - q.head < q.blocksize ∨ q.tail = q.head := by
      rcases happart with heq | hmod
      · exact .inr heq.symm
      · left
        by_contra hfull
        -- the head at zero and the tail at the end of the block stand for one cell
        have h0 : q.head = 0 := by omega
        have h1 : q.tail = q.blocksize := by omega
        simp [h0, h1] at hmod
    have hsub : q.tail + q.blocksize - q.head = q.tail - q.head + q.blocksize := by omega
    rw [used, hsub, Nat.add_mod_right]
    rcases hne with hlt | heq
    · rw [Nat.mod_eq_of_lt hlt]
      omega
    · simp [heq]

/-- `enqueue` computes the number of cells that are not used. -/
theorem OffsetsOk.freeLen (h : q.OffsetsOk) :
    ShmMQ.freeLen q.blocksize q.head q.tail = q.free := by
  have hB := q.blocksize_lt
  have hhead := h.head_le
  have htail := h.tail_le
  unfold ShmMQ.freeLen free
  rcases h.used_cases with hused | ⟨hused, hlt⟩
  · rw [if_neg (by omega), u32_of_lt (n := q.head + q.blocksize) (by omega),
      u32sub_of_le (by omega) (by omega)]
    omega
  · rw [if_pos hlt, u32sub_of_le (by omega) (by omega)]
    omega

/-- The tail's cell is the one behind those that are used. -/
theorem OffsetsOk.tail_mod (h : q.OffsetsOk) :
    q.tail % q.blocksize = (q.head + q.used) % q.blocksize := by
  rcases h.used_cases with hused | ⟨hused, -⟩
  · rw [hused]
  · rw [← hused, Nat.add_mod_right]

/-- An offset moved on within the block stays in it. -/
theorem advance_le {B p n : ℕ} (hp : p ≤ B) (hn : n ≤ B) : advance B p n ≤ B := by
  unfold advance
  split_ifs <;> omega

theorem advance_mod {B p n : ℕ} : advance B p n % B = (p + n) % B := by
  unfold advance
  split_ifs
  · rfl
  · exact (Nat.mod_eq_sub_mod (by omega)).symm

/-! ## `enqueue` -/

/-- The bytes from the head to the tail. -/
def pending (q : ShmMQ) : List UInt8 :=
  (List.range q.used).map fun i => q.block ((q.head + i) % q.blocksize)

@[simp] theorem length_pending (q : ShmMQ) : q.pending.length = q.used := by
  simp [pending]

theorem window_pending (q : ShmMQ) : Window q.block q.blocksize q.head q.pending := by
  intro i hi
  simp [pending]

/-- A message that is shorter than the free space is stored behind the tail. -/
theorem OffsetsOk.appended (h : q.OffsetsOk) (m : Msg) (hfree : m.size < q.free) :
    Appended q (q.enqueue m).1 m ∧ (q.enqueue m).2 = 0 := by
  have hC : cHeadSize = 27 := rfl
  have hsize := m.size_eq
  have hfit : q.used + m.size < q.blocksize := by
    rw [free] at hfree
    omega
  obtain ⟨hcov, hpay, hnew⟩ := writePlan_spec m q.blocksize_lt h.tail_le h.tail_mod (by omega)
  have htotal : total (spans (writePlan q.blocksize q.tail m).writes) = m.size := by
    rw [← length_payload, hpay, m.length_bytes]
  have hwindow : Window (scatter q.block (writePlan q.blocksize q.tail m).writes) q.blocksize
      q.head (q.pending ++ payload (writePlan q.blocksize q.tail m).writes) :=
    q.window_pending.scatter (by simpa using hcov) (by rw [htotal]; simp; omega)
  rw [hpay] at hwindow
  have henqueue : q.enqueue m = ({ q with
      block := scatter q.block (writePlan q.blocksize q.tail m).writes
      tail := advance q.blocksize q.tail m.size }, 0) := by
    have hroom : ¬ ShmMQ.freeLen q.blocksize q.head q.tail ≤ m.blob.totalLen := by
      rw [h.freeLen]
      exact Nat.not_le.mpr hfree
    rw [enqueue, if_neg hroom]
    simp only [hnew]
  rw [henqueue]
  refine ⟨⟨rfl, rfl, ?_, ?_, advance_le h.tail_le (by omega), advance_mod, ?_⟩, rfl⟩
  · intro i hi
    have hcell := hwindow.right i hi
    rwa [length_pending, mod_add_eq h.tail_mod] at hcell
  · intro i hi
    have hold := hwindow.left i (by simpa using hi)
    rw [← q.window_pending i (by simpa using hi)] at hold
    exact hold
  · have hcell : (q.tail + m.size) % q.blocksize = (q.head + q.used + m.size) % q.blocksize :=
      (mod_add_eq h.tail_mod).symm
    simp only [advance_mod, hcell]
    exact (mod_ne_mod (by omega) (by omega)).symm

/-- `enqueue` is a cyclic store: a message is refused exactly when it is not shorter than the free
space, and is stored behind the tail otherwise. -/
theorem enqueue_cyclic (q : ShmMQ) (m : Msg) (h : q.OffsetsOk) :
    (q.free ≤ m.size → q.enqueue m = (q, commuErrMqFull)) ∧
      (m.size < q.free → Appended q (q.enqueue m).1 m ∧ (q.enqueue m).2 = 0) := by
  constructor
  · intro hfull
    rw [enqueue, h.freeLen]
    exact if_pos hfull
  · exact h.appended m

/-- A message with one byte of data and one of extended data. -/
def shortMsg : Msg := ⟨⟨[5], [6], by decide, by decide⟩, 1, 0, ⟨0, 0⟩⟩

/-- An empty queue of 60 bytes, near the end of its block. -/
def emptyNearEnd : ShmMQ := ⟨60, by decide, 40, 40, fun _ => 0⟩

/-- The head of the message wraps around the end of the block. -/
theorem enqueue_cyclic_nearEnd :
    emptyNearEnd.OffsetsOk ∧ shortMsg.size < emptyNearEnd.free ∧
      Appended emptyNearEnd (emptyNearEnd.enqueue shortMsg).1 shortMsg := by
  have hok : emptyNearEnd.OffsetsOk := ⟨by decide, by decide, .inl rfl⟩
  have hfree : shortMsg.size < emptyNearEnd.free := by decide
  exact ⟨hok, hfree, ((enqueue_cyclic emptyNearEnd shortMsg hok).2 hfree).1⟩

/-! ## `dequeue_i` -/

section
variable {q' : ShmMQ} {m : Msg}

/-- The offsets stay in order. -/
theorem Appended.offsetsOk (ha : Appended q q' m) (h : q.OffsetsOk) : q'.OffsetsOk where
  head_le := by
    rw [ha.head, ha.blocksize]
    exact h.head_le
  tail_le := by
    rw [ha.blocksize]
    exact ha.tail_le
  apart := by
    right
    rw [ha.head, ha.blocksize]
    exact ha.tail_ne.symm

/-- `dequeue_i` computes the number of used cells. -/
theorem OffsetsOk.usedLen (h : q.OffsetsOk) (hne : q.head ≠ q.tail) :
    ShmMQ.usedLen q.blocksize q.head q.tail = q.used := by
  have hB := q.blocksize_lt
  have hhead := h.head_le
  have htail := h.tail_le
  unfold ShmMQ.usedLen
  rcases h.used_cases with hused | ⟨hused, hlt⟩
  · rw [if_pos (by omega), u32sub_of_le (by omega) (by omega)]
    omega
  · rw [if_neg (by omega), u32_of_lt (n := q.tail + q.blocksize) (by omega),
      u32sub_of_le (by omega) (by omega)]
    omega

/-- What `enqueue` stored in an empty queue stands at its head. -/
theorem Appended.written (ha : Appended q q' m) (h : q.OffsetsOk) (hempty : q.head = q.tail)
    (hfree : m.size < q.free) : Written q' m := by
  have hok := ha.offsetsOk h
  have hne : q'.head ≠ q'.tail := by
    intro heq
    apply ha.tail_ne
    rw [← heq, ha.head]
  refine ⟨hok.head_le, hok.tail_le, ?_, ?_⟩
  · intro i hi
    rw [ha.head, ha.blocksize, hempty]
    exact ha.stored i hi
  · -- both are the distance of the new tail from the head
    have hmod := hok.tail_mod
    rw [ha.blocksize, ha.head, ha.tail_mod, ← hempty] at hmod
    have hsame : m.size % q.blocksize = q'.used % q.blocksize := Nat.ModEq.add_left_cancel' _ hmod
    have hused : q'.used < q.blocksize := by
      rw [← ha.blocksize]
      exact Nat.mod_lt _ (by rw [ha.blocksize]; rw [free] at hfree; omega)
    rw [Nat.mod_eq_of_lt (by rw [free] at hfree; omega), Nat.mod_eq_of_lt hused] at hsame
    rw [hok.usedLen hne, hsame]

/-- `dequeue_i` reads back a message that was stored cyclically from the head on: all of it, no byte
of the block is changed, and the head moves behind it. -/
theorem dequeueI_cyclic (q : ShmMQ) (m : Msg) (h : Written q m) (hne : q.head ≠ q.tail)
    (hbody : ¬ m.HeaderOnly) (hdata : m.blob.len ≤ maxBlobDataLen) :
    ∃ head, q.dequeueI = ({ q with head := head }, .ok m.delivery) ∧ head ≤ q.blocksize ∧
      head % q.blocksize = (q.head + m.size) % q.blocksize := by
  have hfit : m.size ≤ q.blocksize := by
    have hB := q.blocksize_lt
    have hhead := h.head_le
    have htail := h.tail_le
    have hle := h.size_le
    unfold ShmMQ.usedLen at hle
    split_ifs at hle
    · rw [u32sub_of_le (by omega) (by omega)] at hle
      omega
    · rw [u32_of_lt (n := q.tail + q.blocksize) (by omega),
        u32sub_of_le (by omega) (by omega)] at hle
      omega
  have hnext : nextHead q.blocksize q.head m.size = advance q.blocksize q.head m.size := by
    have hsize : m.size = cHeadSize + m.blob.len + m.blob.extLen := m.size_eq
    have hmore : m.size ≠ cHeadSize := by
      intro heq
      apply hbody
      constructor <;> omega
    rw [nextHead, if_neg fun hend => hmore hend.2]
  refine ⟨advance q.blocksize q.head m.size, ?_, advance_le h.head_le hfit, advance_mod⟩
  rw [dequeueI_spec h.head_le rfl hfit h.stored hne h.size_le, if_neg (Nat.not_lt.mpr hdata), hnext]

/-- The message that wraps around the end of the block is read back. -/
theorem dequeueI_cyclic_nearEnd :
    let q := (emptyNearEnd.enqueue shortMsg).1
    ∃ head, q.dequeueI = ({ q with head := head }, .ok shortMsg.delivery) ∧ head ≤ q.blocksize ∧
      head % q.blocksize = (q.head + shortMsg.size) % q.blocksize := by
  have hok : emptyNearEnd.OffsetsOk := ⟨by decide, by decide, .inl rfl⟩
  have hfree : shortMsg.size < emptyNearEnd.free := by decide
  have happended := (hok.appended shortMsg hfree).1
  exact dequeueI_cyclic _ shortMsg (happended.written hok rfl hfree) (by decide) (by decide)
    (by decide)

end

end ShmMQ
end Spp
