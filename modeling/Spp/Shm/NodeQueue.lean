import Spp.Lib.Cyclic
import Spp.Lib.Run
import Spp.Lib.Word

/-!
# The shared-memory node queue

`CShmQueue` keeps values in a ring of nodes behind its head in a shared segment.  One node stays
free, so that equal indices mean that nothing is held.  The number of nodes comes from the size
of the segment: a segment that is smaller than the head makes the unsigned difference wrap, and
the ring then extends past the segment.

The calls take the lock, so that the calls of all processes are one sequence.

## Main definitions

* `NodeType`, `nSize`, `Inside` — the layout of the segment.
* `NodeQueue`, `push`, `pop`, `clean`, `size` — the queue.
* `fifoStep` — a queue of bounded length.
* `Holds` — the ring holds a list of values, from any position.
* `KeepsFifo` — what the calls on a new segment return and touch.
-/

namespace Spp

/-- What `node_t` comes to in the layout of `ShmHead`: its size and its alignment. -/
structure NodeType where
  size : ℕ
  align : ℕ
  size_pos : 0 < size
  align_dvd : align ∣ size
  align_pow : ∃ k, align = 2 ^ k

namespace NodeType

/-- The next multiple of `a`. -/
def roundUp (n a : ℕ) : ℕ := (n + a - 1) / a * a

/-- Where `m_Nodes` begins, behind three `unsigned int`. -/
def nodesOff (t : NodeType) : ℕ := roundUp 12 t.align

/-- `sizeof(ShmHead)`, which has one node. -/
def sizeofHead (t : NodeType) : ℕ := roundUp (t.nodesOff + t.size) (max 4 t.align)

/-- `m_nSize` of a new segment: the difference is a `size_t`, the result an `unsigned int`. -/
def nSize (t : NodeType) (shmSize : UInt64) : ℕ :=
  u32 ((shmSize.toNat + 2 ^ 64 - t.sizeofHead) % 2 ^ 64 / t.size + 1)

/-- The node at an index lies in the segment. -/
def Inside (t : NodeType) (shmSize : UInt64) (i : ℕ) : Prop :=
  t.nodesOff + (i + 1) * t.size ≤ shmSize.toNat

instance (t : NodeType) (shmSize : UInt64) (i : ℕ) : Decidable (t.Inside shmSize i) :=
  inferInstanceAs (Decidable (_ ≤ _))

end NodeType

/-- The head of a queue and its nodes. -/
structure NodeQueue (α : Type*) where
  nFront : ℕ
  nRear : ℕ
  nSize : ℕ
  nodes : ℕ → α

namespace NodeQueue

variable {α : Type*}

/-- `Init` on a segment that is new, with whatever the nodes contain. -/
def init (t : NodeType) (shmSize : UInt64) (nodes : ℕ → α) : NodeQueue α :=
  ⟨0, 0, t.nSize shmSize, nodes⟩

def IsFull (q : NodeQueue α) : Prop := q.nFront = u32 (q.nRear + 1) % q.nSize

def IsEmpty (q : NodeQueue α) : Prop := q.nFront = q.nRear

instance (q : NodeQueue α) : Decidable q.IsFull := inferInstanceAs (Decidable (_ = _))

instance (q : NodeQueue α) : Decidable q.IsEmpty := inferInstanceAs (Decidable (_ = _))

/-- `Size`. -/
def size (q : NodeQueue α) : ℕ := u32sub (u32 (q.nRear + q.nSize)) q.nFront % q.nSize

/-- `Push`. -/
def push (q : NodeQueue α) (v : α) : NodeQueue α × ℤ :=
  if q.IsFull then (q, -1)
  else ({ q with
    nodes := Mem.write q.nodes q.nRear [v]
    nRear := u32 (q.nRear + 1) % q.nSize }, 0)

/-- `Pop`: `none` stands for the code -1, and a value for the code 0. -/
def pop (q : NodeQueue α) : NodeQueue α × Option α :=
  if q.IsEmpty then (q, none)
  else ({ q with nFront := u32 (q.nFront + 1) % q.nSize }, some (q.nodes q.nFront))

/-- `Clean`. -/
def clean (q : NodeQueue α) : NodeQueue α := { q with nFront := 0, nRear := 0 }

/-- A call. -/
inductive Op (α : Type*)
  | push (v : α)
  | pop
  | clean
  | size
  | length
  | full
  | empty

/-- What a call returns. -/
inductive Out (α : Type*)
  | code (ret : ℤ)
  | value (v : Option α)
  | cleaned
  | count (n : ℕ)
  | flag (b : Bool)
  deriving DecidableEq

/-- One call, under the lock. -/
def step (q : NodeQueue α) : Op α → NodeQueue α × Out α
  | .push v => ((q.push v).1, .code (q.push v).2)
  | .pop => (q.pop.1, .value q.pop.2)
  | .clean => (q.clean, .cleaned)
  | .size => (q, .count q.size)
  | .length => (q, .count q.nSize)
  | .full => (q, .flag (decide q.IsFull))
  | .empty => (q, .flag (decide q.IsEmpty))

/-- The index of the node that a call reads or writes. -/
def touched (q : NodeQueue α) : Op α → Option ℕ
  | .push _ => if q.IsFull then none else some q.nRear
  | .pop => if q.IsEmpty then none else some q.nFront
  | _ => none

/-- The same call on a queue that holds at most `c` values. -/
def fifoStep (c : ℕ) (held : List α) : Op α → List α × Out α
  | .push v => if held.length = c then (held, .code (-1)) else (held ++ [v], .code 0)
  | .pop => (held.tail, .value held.head?)
  | .clean => ([], .cleaned)
  | .size => (held, .count held.length)
  | .length => (held, .count (c + 1))
  | .full => (held, .flag (decide (held.length = c)))
  | .empty => (held, .flag (decide (held = [])))

/-- A call that fails. -/
def Out.Fails : Out α → Prop
  | .code ret => ret ≠ 0
  | .value v => v = none
  | _ => False

/-- Whatever is called on a new segment: the calls return what a queue of `m_nSize - 1` values
returns, one that fails changes nothing, and every node that is touched lies in the segment. -/
structure KeepsFifo (t : NodeType) (shmSize : UInt64) (nodes : ℕ → α) (ops : List (Op α)) :
    Prop where
  fifo : Run.trace step (init t shmSize nodes) ops =
    Run.trace (fifoStep (t.nSize shmSize - 1)) [] ops
  unchanged : Run.Always step (fun q op => (q.step op).2.Fails → (q.step op).1 = q)
    (init t shmSize nodes) ops
  inside : Run.Always step (fun q op => ∀ i ∈ q.touched op, t.Inside shmSize i)
    (init t shmSize nodes) ops

/-! ## The ring -/

open Cyclic

/-- The values `l` lie in the ring from the position `k` on. -/
structure Holds (q : NodeQueue α) (l : List α) (k : ℕ) : Prop where
  front : q.nFront = k % q.nSize
  rear : q.nRear = (k + l.length) % q.nSize
  room : l.length < q.nSize
  bound : q.nSize < 2 ^ 31
  window : Window q.nodes q.nSize k l

section
variable {q : NodeQueue α} {l : List α} {k : ℕ}

/-- The index behind one in the ring is that of the next position. -/
theorem next_index {i n j : ℕ} (hn : 0 < n) (hbound : n < 2 ^ 31) (hi : i = j % n) :
    u32 (i + 1) % n = (j + 1) % n := by
  have hlt : i < n := by
    rw [hi]
    exact Nat.mod_lt _ hn
  rw [u32_of_lt (by omega), hi, Nat.mod_add_mod]

theorem Holds.pos (h : q.Holds l k) : 0 < q.nSize := by
  have hroom := h.room
  omega

theorem Holds.front_lt (h : q.Holds l k) : q.nFront < q.nSize := by
  rw [h.front]
  exact Nat.mod_lt _ h.pos

theorem Holds.rear_lt (h : q.Holds l k) : q.nRear < q.nSize := by
  rw [h.rear]
  exact Nat.mod_lt _ h.pos

theorem Holds.isFull_iff (h : q.Holds l k) : q.IsFull ↔ l.length = q.nSize - 1 := by
  have hroom := h.room
  have hnext : u32 (q.nRear + 1) % q.nSize = (k + l.length + 1) % q.nSize :=
    next_index h.pos h.bound h.rear
  rw [IsFull, hnext, h.front]
  constructor
  · intro heq
    by_contra hshort
    exact mod_ne_mod (by omega) (by omega) heq
  · intro hfull
    have hround : k + l.length + 1 = k + q.nSize := by omega
    rw [hround, Nat.add_mod_right]

theorem Holds.isEmpty_iff (h : q.Holds l k) : q.IsEmpty ↔ l = [] := by
  have hroom := h.room
  rw [IsEmpty, h.front, h.rear, ← List.length_eq_zero_iff]
  constructor
  · intro heq
    by_contra hne
    exact mod_ne_mod (by omega) (by omega) heq
  · intro hzero
    rw [hzero, Nat.add_zero]

/-- `Size` is the number of values that are held. -/
theorem Holds.size_eq (h : q.Holds l k) : q.size = l.length := by
  have hbound := h.bound
  have hfront := h.front_lt
  have hrear := h.rear_lt
  have hsum : u32sub (u32 (q.nRear + q.nSize)) q.nFront = q.nRear + q.nSize - q.nFront := by
    rw [u32_of_lt (by omega), u32sub_of_le (by omega) (by omega)]
  -- the front and the length are together the rear, up to rounds of the ring
  have hmod : (q.nFront + l.length) % q.nSize = q.nRear := by
    rw [h.front, h.rear, Nat.mod_add_mod]
  rw [size, hsum]
  rcases Nat.lt_or_ge (q.nFront + l.length) q.nSize with hlt | hge
  · rw [Nat.mod_eq_of_lt hlt] at hmod
    have hlen : q.nRear + q.nSize - q.nFront = l.length + q.nSize := by omega
    rw [hlen, Nat.add_mod_right, Nat.mod_eq_of_lt h.room]
  · have hroom := h.room
    rw [Nat.mod_eq_sub_mod hge, Nat.mod_eq_of_lt (by omega)] at hmod
    have hlen : q.nRear + q.nSize - q.nFront = l.length := by omega
    rw [hlen, Nat.mod_eq_of_lt h.room]

/-! ## The calls -/

/-- `Push` with room stores behind the values that are held. -/
theorem Holds.push (h : q.Holds l k) (v : α) (hroom : l.length ≠ q.nSize - 1) :
    (q.push v).1.Holds (l ++ [v]) k ∧ (q.push v).2 = 0 := by
  have hlt := h.room
  have hfull : ¬ q.IsFull := fun hfull => hroom (h.isFull_iff.mp hfull)
  rw [NodeQueue.push, if_neg hfull]
  refine ⟨⟨h.front, ?_, ?_, h.bound, ?_⟩, rfl⟩
  · rw [List.length_append]
    exact next_index h.pos h.bound h.rear
  · rw [List.length_append]
    simp only [List.length_singleton]
    omega
  · refine h.window.snoc ?_ ?_
    · intro i hi
      obtain rfl : i = 0 := by simpa using hi
      exact h.rear
    · simp only [List.length_singleton]
      omega

/-- `Push` on a full queue. -/
theorem Holds.push_full (h : q.Holds l k) (v : α) (hfull : l.length = q.nSize - 1) :
    q.push v = (q, -1) := by
  rw [NodeQueue.push, if_pos (h.isFull_iff.mpr hfull)]

/-- `Pop` takes the oldest value. -/
theorem Holds.pop {v : α} (h : q.Holds (v :: l) k) :
    q.pop.1.Holds l (k + 1) ∧ q.pop.2 = some v := by
  have hroom := h.room
  rw [List.length_cons] at hroom
  have hempty : ¬ q.IsEmpty := fun hempty => by simpa using h.isEmpty_iff.mp hempty
  have hvalue : q.nodes q.nFront = v := by
    rw [h.front]
    exact h.window 0 (by simp)
  rw [NodeQueue.pop, if_neg hempty]
  refine ⟨⟨next_index h.pos h.bound h.front, ?_, ?_, h.bound, ?_⟩, congrArg some hvalue⟩
  · have hrear := h.rear
    rw [List.length_cons, Nat.add_comm l.length, ← Nat.add_assoc] at hrear
    exact hrear
  · change l.length < q.nSize
    omega
  · exact h.window.drop 1

/-- `Pop` on an empty queue. -/
theorem Holds.pop_empty (h : q.Holds [] k) : q.pop = (q, none) := by
  rw [NodeQueue.pop, if_pos (h.isEmpty_iff.mpr rfl)]

theorem Holds.clean (h : q.Holds l k) : q.clean.Holds [] 0 :=
  ⟨(Nat.zero_mod _).symm, (Nat.zero_mod _).symm, h.pos, h.bound, window_nil _ _ _⟩

@[simp] theorem nSize_step (q : NodeQueue α) (op : Op α) : (q.step op).1.nSize = q.nSize := by
  cases op with
  | push v =>
      change (q.push v).1.nSize = _
      rw [NodeQueue.push]
      split <;> rfl
  | pop =>
      change q.pop.1.nSize = _
      rw [NodeQueue.pop]
      split <;> rfl
  | _ => rfl

/-- A call does to the ring what it does to the queue of values, and returns the same. -/
theorem Holds.step (h : q.Holds l k) (op : Op α) :
    (∃ k', (q.step op).1.Holds (fifoStep (q.nSize - 1) l op).1 k') ∧
      (q.step op).2 = (fifoStep (q.nSize - 1) l op).2 := by
  have hpos := h.pos
  cases op with
  | push v =>
      by_cases hfull : l.length = q.nSize - 1
      · simp only [NodeQueue.step, fifoStep, if_pos hfull, h.push_full v hfull]
        exact ⟨⟨k, h⟩, trivial⟩
      · obtain ⟨hnext, hret⟩ := h.push v hfull
        simp only [NodeQueue.step, fifoStep, if_neg hfull, hret]
        exact ⟨⟨k, hnext⟩, trivial⟩
  | pop =>
      cases l with
      | nil =>
          simp only [NodeQueue.step, fifoStep, h.pop_empty]
          exact ⟨⟨k, h⟩, rfl⟩
      | cons v l =>
          obtain ⟨hnext, hret⟩ := h.pop
          simp only [NodeQueue.step, fifoStep, hret]
          exact ⟨⟨k + 1, hnext⟩, rfl⟩
  | clean => exact ⟨⟨0, h.clean⟩, rfl⟩
  | size => exact ⟨⟨k, h⟩, congrArg Out.count h.size_eq⟩
  | length => exact ⟨⟨k, h⟩, congrArg Out.count (Nat.sub_add_cancel hpos).symm⟩
  | full => exact ⟨⟨k, h⟩, congrArg Out.flag (decide_eq_decide.mpr h.isFull_iff)⟩
  | empty => exact ⟨⟨k, h⟩, congrArg Out.flag (by simp [h.isEmpty_iff])⟩

/-- A call touches a node of the ring, and none at all in a ring of one node. -/
theorem Holds.touched_lt (h : q.Holds l k) (op : Op α) :
    ∀ i ∈ q.touched op, i < q.nSize ∧ q.nSize ≠ 1 := by
  intro i hi
  have hroom := h.room
  cases op with
  | push v =>
      simp only [touched, Option.mem_def] at hi
      split at hi
      · exact absurd hi (by simp)
      · next hfull =>
        rw [h.isFull_iff] at hfull
        obtain rfl := Option.some.inj hi
        exact ⟨h.rear_lt, by omega⟩
  | pop =>
      simp only [touched, Option.mem_def] at hi
      split at hi
      · exact absurd hi (by simp)
      · next hempty =>
        rw [h.isEmpty_iff, ← List.length_eq_zero_iff] at hempty
        obtain rfl := Option.some.inj hi
        exact ⟨h.front_lt, by omega⟩
  | _ => simp [touched] at hi

/-- A call that fails changes nothing. -/
theorem step_fails (q : NodeQueue α) (op : Op α) (h : (q.step op).2.Fails) :
    (q.step op).1 = q := by
  cases op with
  | push v =>
      simp only [NodeQueue.step, Out.Fails, NodeQueue.push] at h ⊢
      split at h
      · next hfull => rw [if_pos hfull]
      · exact absurd rfl h
  | pop =>
      simp only [NodeQueue.step, Out.Fails, NodeQueue.pop] at h ⊢
      split at h
      · next hempty => rw [if_pos hempty]
      · exact absurd h (by simp)
  | _ => exact absurd h (by simp [NodeQueue.step, Out.Fails])

/-- From any position of the ring, calls return what a queue of the values that are held
returns. -/
theorem Holds.trace (h : q.Holds l k) (ops : List (Op α)) :
    Run.trace NodeQueue.step q ops = Run.trace (fifoStep (q.nSize - 1)) l ops := by
  induction ops generalizing q l k with
  | nil => rfl
  | cons op ops ih =>
      obtain ⟨⟨k', hnext⟩, hout⟩ := h.step op
      rw [Run.trace_cons, Run.trace_cons, hout, ih hnext, nSize_step]

/-- With two nodes or more, the second one is touched sooner or later. -/
theorem Holds.second_touched (h : q.Holds [] 0) (htwo : 2 ≤ q.nSize) (v : α) {P : ℕ → Prop}
    (hrun : Run.Always NodeQueue.step (fun q op => ∀ i ∈ q.touched op, P i) q
      [.push v, .pop, .push v]) : P 1 := by
  obtain ⟨hpush, -⟩ := h.push v (by rw [List.length_nil]; omega)
  obtain ⟨hpop, -⟩ := Holds.pop hpush
  obtain ⟨-, -, hthird, -⟩ := hrun
  have hn : (q.push v).1.pop.1.nSize = q.nSize :=
    (nSize_step _ .pop).trans (nSize_step _ (.push v))
  have hmod : (0 + 1) % q.nSize = 1 := Nat.mod_eq_of_lt (by omega)
  have hfull : ¬ (q.push v).1.pop.1.IsFull := by
    rw [hpop.isFull_iff, hn, List.length_nil]
    omega
  have htouched : (q.push v).1.pop.1.touched (.push v) = some 1 := by
    rw [touched, if_neg hfull, hpop.rear, hn, List.length_nil, Nat.add_zero, hmod]
  exact hthird 1 htouched

end

/-! ## The segment -/

/-- A ring of nodes that lie in the segment, with some values in it. -/
def InSegment (t : NodeType) (shmSize : UInt64) (q : NodeQueue α) : Prop :=
  q.nSize = t.nSize shmSize ∧ ∃ l k, q.Holds l k

section
variable {t : NodeType} {shmSize : UInt64}

theorem holds_init (nodes : ℕ → α) (hpos : 1 ≤ t.nSize shmSize)
    (hbound : t.nSize shmSize < 2 ^ 31) : (init t shmSize nodes).Holds [] 0 :=
  ⟨(Nat.zero_mod _).symm, (Nat.zero_mod _).symm, hpos, hbound, window_nil _ _ _⟩

theorem InSegment.step {q : NodeQueue α} (h : q.InSegment t shmSize) (op : Op α) :
    (q.step op).1.InSegment t shmSize := by
  obtain ⟨hsize, l, k, hholds⟩ := h
  exact ⟨(nSize_step q op).trans hsize, _, (hholds.step op).1⟩

/-- What the calls on a new segment do where no node of the ring lies outside. -/
theorem keepsFifo_of_inside (nodes : ℕ → α) (ops : List (Op α)) (hpos : 1 ≤ t.nSize shmSize)
    (hbound : t.nSize shmSize < 2 ^ 31)
    (hinside : ∀ i < t.nSize shmSize, t.nSize shmSize ≠ 1 → t.Inside shmSize i) :
    KeepsFifo t shmSize nodes ops := by
  have hinit := holds_init nodes hpos hbound
  have hstep : ∀ (q : NodeQueue α) op, q.InSegment t shmSize → True →
      (q.step op).1.InSegment t shmSize := fun q op h _ => h.step op
  have hstart : (init t shmSize nodes).InSegment t shmSize := ⟨rfl, [], 0, hinit⟩
  refine ⟨hinit.trace ops, ?_, ?_⟩
  · exact Run.always_of_invariant hstep (fun q op _ _ => step_fails q op) hstart
      (Run.always_true _ _)
  · refine Run.always_of_invariant hstep ?_ hstart (Run.always_true _ _)
    rintro q op ⟨hsize, l, k, hholds⟩ - i hi
    obtain ⟨hlt, hne⟩ := hholds.touched_lt op i hi
    exact hinside i (hsize ▸ hlt) (hsize ▸ hne)

end

end NodeQueue

namespace NodeType

variable {n a : ℕ}

theorem le_roundUp (n : ℕ) (ha : 0 < a) : n ≤ roundUp n a := by
  have hdiv := Nat.div_add_mod (n + a - 1) a
  have hlt := Nat.mod_lt (n + a - 1) ha
  rw [Nat.mul_comm] at hdiv
  rw [roundUp]
  omega

theorem roundUp_lt (n : ℕ) (ha : 0 < a) : roundUp n a < n + a := by
  have hle := Nat.div_mul_le_self (n + a - 1) a
  rw [roundUp]
  omega

/-- A multiple is not rounded. -/
theorem roundUp_of_dvd (ha : 0 < a) (h : a ∣ n) : roundUp n a = n := by
  obtain ⟨m, rfl⟩ := h
  have hsum : a * m + a - 1 = a - 1 + a * m := by omega
  rw [roundUp, hsum, Nat.add_mul_div_left _ _ ha, Nat.div_eq_of_lt (by omega), Nat.zero_add,
    Nat.mul_comm]

theorem dvd_roundUp (n a : ℕ) : a ∣ roundUp n a := Dvd.intro_left _ rfl

variable (t : NodeType) {shmSize : UInt64}

theorem align_pos : 0 < t.align := by
  obtain ⟨k, hk⟩ := t.align_pow
  rw [hk]
  exact Nat.two_pow_pos k

theorem nodesOff_add_size_le : t.nodesOff + t.size ≤ t.sizeofHead :=
  le_roundUp _ (by omega)

/-- At most three bytes pad the head. -/
theorem sizeofHead_le : t.sizeofHead ≤ t.nodesOff + t.size + 3 := by
  rcases Nat.lt_or_ge 4 t.align with hlarge | hsmall
  · -- the nodes begin and end at a multiple of the alignment
    have hdvd : t.align ∣ t.nodesOff + t.size := Nat.dvd_add (dvd_roundUp 12 _) t.align_dvd
    rw [sizeofHead, max_eq_right hlarge.le, roundUp_of_dvd t.align_pos hdvd]
    omega
  · have hlt := roundUp_lt (t.nodesOff + t.size) (a := 4) (by omega)
    rw [sizeofHead, max_eq_left hsmall]
    omega

/-- In a segment that is not smaller than the head, every node of the ring lies inside. -/
theorem inside_of_lt (h : t.sizeofHead ≤ shmSize.toNat) {i : ℕ} (hi : i < t.nSize shmSize) :
    t.Inside shmSize i := by
  have hoff := t.nodesOff_add_size_le
  have hsize := shmSize.toNat_lt
  have hdiff : (shmSize.toNat + 2 ^ 64 - t.sizeofHead) % 2 ^ 64 =
      shmSize.toNat - t.sizeofHead := by omega
  have hcount : t.nSize shmSize ≤ (shmSize.toNat - t.sizeofHead) / t.size + 1 := by
    rw [nSize, hdiff]
    exact Nat.mod_le _ _
  have hbytes : i * t.size ≤ shmSize.toNat - t.sizeofHead :=
    (Nat.mul_le_mul_right _ (by omega)).trans (Nat.div_mul_le_self _ t.size)
  rw [Inside, Nat.add_mul, Nat.one_mul]
  omega

/-- In a smaller one, of the rings of two nodes or more no second node does. -/
theorem not_inside_of_lt (h : shmSize.toNat < t.sizeofHead) (htwo : 2 ≤ t.nSize shmSize)
    (hbound : t.nSize shmSize < 2 ^ 31) : ¬ t.Inside shmSize 1 := by
  have hpad := t.sizeofHead_le
  have hpos := t.size_pos
  rw [Inside]
  rcases Nat.lt_or_ge t.size 3 with hsmall | hlarge
  · -- a node of one or two bytes gives 0 or almost 2 ^ 32 of them
    exfalso
    have halign : t.align ≤ 2 := (Nat.le_of_dvd hpos t.align_dvd).trans (by omega)
    have hoff : t.nodesOff ≤ 13 := by
      have hlt := roundUp_lt 12 t.align_pos
      rw [nodesOff]
      omega
    rw [nSize, u32] at htwo hbound
    obtain hone | hboth : t.size = 1 ∨ t.size = 2 := by omega
    · rw [hone, Nat.div_one] at htwo hbound
      omega
    · rw [hboth] at htwo hbound
      omega
  · omega

end NodeType

namespace NodeQueue

variable {α : Type*} [Inhabited α]

/-- The queue is what it is meant to be on every segment that is not smaller than its head, and
besides only where the ring has one node, which no call touches. -/
theorem keepsFifo_iff (t : NodeType) (shmSize : UInt64) (hpos : 1 ≤ t.nSize shmSize)
    (hbound : t.nSize shmSize < 2 ^ 31) :
    (∀ (nodes : ℕ → α) (ops : List (Op α)), KeepsFifo t shmSize nodes ops) ↔
      t.sizeofHead ≤ shmSize.toNat ∨ t.nSize shmSize = 1 := by
  constructor
  · intro h
    by_contra hneither
    obtain ⟨hsmall, hone⟩ := not_or.mp hneither
    have hinit : (init t shmSize fun _ => (default : α)).Holds [] 0 := holds_init _ hpos hbound
    have htwo : 2 ≤ t.nSize shmSize := by omega
    have hrun := (h (fun _ => default) [.push default, .pop, .push default]).inside
    have hsecond := hinit.second_touched htwo default hrun
    exact t.not_inside_of_lt (not_le.mp hsmall) htwo hbound hsecond
  · rintro (hsegment | hone) nodes ops
    · exact keepsFifo_of_inside nodes ops hpos hbound fun i hi _ => t.inside_of_lt hsegment hi
    · exact keepsFifo_of_inside nodes ops hpos hbound fun i _ hne => absurd hone hne

/-- Nodes of 5000 bytes. -/
def largeNode : NodeType := ⟨5000, 4, by decide, by decide, 2, rfl⟩

/-- A segment of five pages has four nodes: a fourth `Push` fails. -/
theorem keepsFifo_four :
    largeNode.nSize 20480 = 4 ∧
      KeepsFifo largeNode 20480 (fun _ => (0 : ℕ)) [.push 1, .push 2, .push 3, .push 4, .pop] :=
  ⟨by decide,
    (keepsFifo_iff largeNode 20480 (by decide) (by decide)).mpr (.inl (by decide)) _ _⟩

/-- A segment of one page is smaller than the head: the ring has 1972248983 nodes, and the first
`Push` stores past the end of the segment. -/
theorem not_keepsFifo_small :
    largeNode.nSize 4096 = 1972248983 ∧
      ¬ KeepsFifo largeNode 4096 (fun _ => (0 : ℕ)) [.push 1] := by
  refine ⟨by decide, ?_⟩
  intro h
  have hfirst := h.inside.1 0 (by decide)
  exact absurd hfirst (by decide)

end NodeQueue
end Spp
