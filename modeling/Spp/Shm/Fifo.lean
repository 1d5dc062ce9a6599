import Spp.Shm.MQ
import Spp.Lib.Run

/-!
# The message queue as a FIFO

`enqueue` and `dequeue_i`, run one after another on a fresh segment, are compared
with a queue of pending messages.  They agree until a message that is a head only
ends exactly with the block and is taken while nothing else is pending: `dequeue_i`
then moves the head to zero while the tail stays at the end of the block, and the
empty queue reads as a full one.

## Main definitions

* `Op`, `Out`, `step` — the calls and what they return.
* `FifoStep` — the queue of pending messages.
* `ExactFifo` — a run whose results and used length are the queue's.
* `AtBlockEnd` — the state in which `dequeue_i` goes wrong.
* `Keeps`, `Holds` — the invariant, of any messages and of those that fit the receiver's buffer.
-/

namespace Spp
namespace ShmMQ

open Cyclic

/-- A call.  Messages carry a payload that the receiver's buffer takes. -/
inductive Op
  | enqueue (m : { m : Msg // m.blob.len ≤ maxBlobDataLen })
  | dequeue

/-- What a call returns. -/
inductive Out
  | enqueued (ret : ℤ)
  | dequeued (r : Dequeued)
  deriving DecidableEq

/-- One call on the segment. -/
def step (q : ShmMQ) : Op → ShmMQ × Out
  | .enqueue m => ((q.enqueue m.1).1, .enqueued (q.enqueue m.1).2)
  | .dequeue => (q.dequeueI.1, .dequeued q.dequeueI.2)

/-- The queue of pending messages: `enqueue` may accept or reject, `dequeue_i` has
to return the oldest message, or `MQEMPTY` when there is none. -/
inductive FifoStep : List Msg → Op → Out → List Msg → Prop
  | accept (ps : List Msg) (m) : FifoStep ps (.enqueue m) (.enqueued 0) (ps ++ [m.1])
  | reject (ps : List Msg) (m) : FifoStep ps (.enqueue m) (.enqueued commuErrMqFull) ps
  | deliver (m : Msg) (ps : List Msg) :
      FifoStep (m :: ps) .dequeue (.dequeued (.ok m.delivery)) ps
  | empty : FifoStep [] .dequeue (.dequeued .empty) []

/-- The results of a run are those of the queue, and `getstat` reports the total
length of what is pending at its end. -/
def ExactFifo (q : ShmMQ) (ops : List Op) : Prop :=
  ∃ pending, Run.Allows FifoStep [] (Run.trace step q ops) pending ∧
    (Run.final step q ops).getstat.usedlen = (pending.map Msg.size).sum

/-- The only bytes in the queue are one head that ends with the block. -/
def AtBlockEnd (q : ShmMQ) : Prop := q.head + cHeadSize = q.blocksize ∧ q.tail = q.blocksize

instance (q : ShmMQ) : Decidable q.AtBlockEnd := inferInstanceAs (Decidable (_ ∧ _))

/-- A `dequeue_i` call is not made at the end of the block. -/
def NotAtBlockEnd (q : ShmMQ) : Op → Prop
  | .enqueue _ => True
  | .dequeue => ¬ q.AtBlockEnd

theorem FifoStep.unique (ps : List Msg) (op : Op) (o : Out) (ps' ps'' : List Msg)
    (h : FifoStep ps op o ps') (h' : FifoStep ps op o ps'') : ps' = ps'' := by
  cases h <;> cases h' <;> rfl

/-! ## The invariant -/

/-- The messages `ps` are stored from the stream position `R` up to `W`. -/
structure Keeps (q : ShmMQ) (ps : List Msg) (R W : ℕ) : Prop where
  ahead : W = R + (ps.map Msg.size).sum
  tail : q.tail = pos q.blocksize W
  head : q.head = pos q.blocksize R ∨
    q.head = 0 ∧ pos q.blocksize R = q.blocksize ∧ R < W
  room : W = R ∨ W - R < q.blocksize
  start : W = 0 ∨ 0 < q.blocksize
  window : Window q.block q.blocksize R (ps.flatMap Msg.bytes)

/-- They fit the receiver's buffer. -/
structure Holds (q : ShmMQ) (ps : List Msg) (R W : ℕ) : Prop extends Keeps q ps R W where
  small : ∀ m ∈ ps, m.blob.len ≤ maxBlobDataLen

variable {q : ShmMQ} {ps : List Msg} {m : Msg} {R W : ℕ}

theorem length_flatMap_bytes (ps : List Msg) :
    (ps.flatMap Msg.bytes).length = (ps.map Msg.size).sum := by
  induction ps with
  | nil => rfl
  | cons m ps ih => simp [ih, m.length_bytes]

theorem cHeadSize_le_size (m : Msg) : cHeadSize ≤ m.size := by
  rw [m.size_eq]
  omega

/-- The offsets differ by the stored bytes. -/
theorem Keeps.apart (h : Keeps q ps R W) :
    Apart q.blocksize q.head q.tail (W - R) ∧ q.head % q.blocksize = R % q.blocksize := by
  have hle : R ≤ W := by
    rw [h.ahead]
    omega
  have hpos := apart_pos hle h.room h.start
  rw [← h.tail] at hpos
  rcases h.head with hhead | ⟨hhead, hend, hlt⟩
  · rw [hhead]
    exact ⟨hpos, pos_mod _ _⟩
  · -- zero stands for the end of the block
    obtain ⟨-, htail, hoff⟩ := hpos
    have hroom := h.room
    refine ⟨⟨by omega, htail, ?_⟩, ?_⟩
    · left
      omega
    · rw [← pos_mod q.blocksize R, hend, hhead, Nat.zero_mod, Nat.mod_self]

/-- The used length is the length of what is stored. -/
theorem Keeps.usedlen (h : Keeps q ps R W) :
    q.getstat.usedlen = (ps.map Msg.size).sum := by
  rw [h.apart.1.usedlen, h.ahead]
  omega

/-- A fresh segment stores nothing. -/
theorem keeps_init (shmsize : ShmSize) (block : ℕ → UInt8) :
    Keeps (init shmsize block) [] 0 0 where
  ahead := rfl
  tail := rfl
  head := .inl rfl
  room := .inl rfl
  start := .inl rfl
  window := window_nil _ _ _

theorem holds_init (shmsize : ShmSize) (block : ℕ → UInt8) :
    Holds (init shmsize block) [] 0 0 :=
  ⟨keeps_init shmsize block, by simp⟩

/-! ## One call -/

/-- `enqueue` stores the message behind the others, or refuses it. -/
theorem Keeps.enqueue (h : Keeps q ps R W) (m : Msg) :
    q.enqueue m = (q, commuErrMqFull) ∨
      ((q.enqueue m).2 = 0 ∧ Keeps (q.enqueue m).1 (ps ++ [m]) R (W + m.size)) := by
  unfold ShmMQ.enqueue
  by_cases hfree : ShmMQ.freeLen q.blocksize q.head q.tail ≤ m.blob.totalLen
  · exact .inl (if_pos hfree)
  right
  rw [if_neg hfree]
  rw [h.apart.1.freeLen q.blocksize_lt] at hfree
  change ¬ q.blocksize - (W - R) ≤ m.size at hfree
  have hahead := h.ahead
  have hsize := cHeadSize_le_size m
  have hC : cHeadSize = 27 := rfl
  have hW : q.tail ≤ q.blocksize := h.apart.1.2.1
  have hmod : q.tail % q.blocksize = W % q.blocksize := by rw [h.tail, pos_mod]
  obtain ⟨hcov, hpay, hnew⟩ := writePlan_spec m q.blocksize_lt hW hmod (by omega)
  have hlen := length_flatMap_bytes ps
  have htotal : total (spans (writePlan q.blocksize q.tail m).writes) = m.size := by
    rw [← length_payload, hpay, m.length_bytes]
  refine ⟨rfl, ?_, ?_, ?_, ?_, ?_, ?_⟩
  · rw [List.map_append, List.sum_append, hahead]
    simp [Nat.add_assoc]
  · change (writePlan q.blocksize q.tail m).newTail = pos q.blocksize (W + m.size)
    rw [hnew, h.tail, pos_add W (by omega) (by omega)]
  · rcases h.head with hhead | ⟨hhead, hend, hlt⟩
    · exact .inl hhead
    · exact .inr ⟨hhead, hend, by omega⟩
  · exact .inr (by simp only; omega)
  · exact .inr (by simp only; omega)
  · have hstart : R + (ps.flatMap Msg.bytes).length = W := by rw [hlen, hahead]
    have hwin : Window (scatter q.block (writePlan q.blocksize q.tail m).writes) _ _ _ :=
      h.window.scatter (by rw [hstart]; exact hcov) (by rw [htotal, hlen]; omega)
    rw [hpay] at hwin
    simpa using hwin

theorem Keeps.enqueue_of_ret (h : Keeps q ps R W) (hret : (q.enqueue m).2 = 0) :
    Keeps (q.enqueue m).1 (ps ++ [m]) R (W + m.size) := by
  rcases h.enqueue m with hfull | ⟨-, hnew⟩
  · simp [hfull, commuErrMqFull] at hret
  · exact hnew

theorem Holds.enqueue (h : Holds q ps R W) (hm : m.blob.len ≤ maxBlobDataLen) :
    q.enqueue m = (q, commuErrMqFull) ∨
      ((q.enqueue m).2 = 0 ∧ Holds (q.enqueue m).1 (ps ++ [m]) R (W + m.size)) := by
  rcases h.toKeeps.enqueue m with hfull | ⟨hret, hkeeps⟩
  · exact .inl hfull
  · refine .inr ⟨hret, hkeeps, ?_⟩
    intro m' hm'
    rcases List.mem_append.mp hm' with hm' | hm'
    · exact h.small m' hm'
    · rw [List.mem_singleton.mp hm']
      exact hm

/-- `dequeue_i` on an empty queue finds the offsets equal. -/
theorem Keeps.dequeueI_nil (h : Keeps q [] R W) : q.dequeueI = (q, .empty) := by
  have hahead : W = R := h.ahead
  obtain ⟨⟨hhead, -, hoff⟩, -⟩ := h.apart
  unfold dequeueI
  rw [if_pos (by omega)]

/-- `dequeue_i` returns the oldest message and moves the head behind it, unless the message does
not fit the receiver's buffer. -/
theorem Keeps.dequeueI_cons (h : Keeps q (m :: ps) R W) :
    q.dequeueI = if m.blob.len > maxBlobDataLen then (q, .otfbuff (Head.parse m.sHead))
      else ({ q with head := nextHead q.blocksize q.head m.size }, .ok m.delivery) := by
  obtain ⟨⟨hhead, htail, hoff⟩, hmod⟩ := h.apart
  have hahead : W = R + (m.size + (ps.map Msg.size).sum) := h.ahead
  have hsize := cHeadSize_le_size m
  have hC : cHeadSize = 27 := rfl
  have hroom := h.room
  have hne : q.head ≠ q.tail := by omega
  have hused := h.apart.1.usedLen q.blocksize_lt hne
  have hwin : Window q.block q.blocksize R (m.bytes ++ ps.flatMap Msg.bytes) := h.window
  exact dequeueI_spec hhead hmod (by omega) hwin.left hne (by omega)

theorem Holds.dequeueI_cons (h : Holds q (m :: ps) R W) :
    q.dequeueI = ({ q with head := nextHead q.blocksize q.head m.size }, .ok m.delivery) := by
  rw [h.toKeeps.dequeueI_cons, if_neg]
  exact Nat.not_lt.mpr (h.small m List.mem_cons_self)

/-- Unless the message is the last one and ends with the block, the rest of the queue
is stored from the new head on. -/
theorem Keeps.tail_of_cons (h : Keeps q (m :: ps) R W) (hend : ¬ q.AtBlockEnd) :
    Keeps { q with head := nextHead q.blocksize q.head m.size } ps (R + m.size) W := by
  obtain ⟨⟨hhead, htail, hoff⟩, hmod⟩ := h.apart
  have hahead : W = R + (m.size + (ps.map Msg.size).sum) := h.ahead
  have hsize := cHeadSize_le_size m
  have hC : cHeadSize = 27 := rfl
  have hroom := h.room
  have hwin : Window q.block q.blocksize R (m.bytes ++ ps.flatMap Msg.bytes) := h.window
  have hadd := pos_add (B := q.blocksize) (n := m.size) R (by omega) (by omega)
  refine ⟨by omega, h.tail, ?_, ?_, h.start, ?_⟩
  · change nextHead q.blocksize q.head m.size = pos q.blocksize (R + m.size) ∨
      nextHead q.blocksize q.head m.size = 0 ∧
        pos q.blocksize (R + m.size) = q.blocksize ∧ R + m.size < W
    unfold AtBlockEnd at hend
    unfold nextHead
    rcases h.head with hpos | ⟨hpos, hB, -⟩
    · by_cases hlast : q.head + cHeadSize = q.blocksize ∧ m.size = cHeadSize
      · -- a head that ends with the block, with another message behind it
        have hadv : advance q.blocksize q.head m.size = q.head + m.size := if_pos (by omega)
        right
        rw [if_pos hlast, hadd, ← hpos, hadv]
        refine ⟨rfl, by omega, ?_⟩
        by_contra hlt
        exact hend ⟨hlast.1, by omega⟩
      · left
        rw [if_neg hlast, hadd, hpos]
    · have hlast : ¬ (q.head + cHeadSize = q.blocksize ∧ m.size = cHeadSize) := by omega
      have hzero : advance q.blocksize 0 m.size = 0 + m.size := if_pos (by omega)
      have hwrap : advance q.blocksize q.blocksize m.size =
          q.blocksize + m.size - q.blocksize := if_neg (by omega)
      left
      rw [if_neg hlast, hadd, hB, hpos, hzero, hwrap]
      omega
  · simp only
    omega
  · rw [← m.length_bytes]
    exact hwin.right

theorem Holds.tail_of_cons (h : Holds q (m :: ps) R W) (hend : ¬ q.AtBlockEnd) :
    Holds { q with head := nextHead q.blocksize q.head m.size } ps (R + m.size) W :=
  ⟨h.toKeeps.tail_of_cons hend, fun m' hm' => h.small m' (.tail _ hm')⟩

/-- At the end of the block the queue holds one message, and `dequeue_i` leaves the
whole block marked as used. -/
theorem Keeps.dequeueI_atBlockEnd (h : Keeps q ps R W) (hend : q.AtBlockEnd) :
    ∃ m, ps = [m] ∧ q.dequeueI.2 = .ok m.delivery ∧
      q.dequeueI.1.getstat.usedlen = q.blocksize ∧ 0 < q.blocksize := by
  obtain ⟨⟨hhead, htail, hoff⟩, -⟩ := h.apart
  obtain ⟨hend, hend'⟩ := hend
  have hC : cHeadSize = 27 := rfl
  have hB := q.blocksize_lt
  have hahead := h.ahead
  have hused : W - R = 27 := by omega
  match ps, h, hahead with
  | [], h, hahead =>
      have hnil : W = R := hahead
      omega
  | [m], h, hahead =>
      have hsize : W = R + m.size := hahead
      have hlen := m.size_eq
      have hzero : m.blob.len = 0 := by
        change m.blob.data.length = 0
        omega
      have hdeq := h.dequeueI_cons
      rw [hzero, if_neg (Nat.not_lt_zero _)] at hdeq
      refine ⟨m, rfl, by rw [hdeq], ?_, by omega⟩
      rw [hdeq, nextHead, if_pos ⟨hend, by omega⟩]
      unfold getstat
      rw [if_pos (Nat.zero_le _), hend']
      exact u32sub_of_le (Nat.zero_le _) (by omega)
  | m :: m' :: ps, h, hahead =>
      have hsize := cHeadSize_le_size m
      have hsize' := cHeadSize_le_size m'
      simp only [List.map_cons, List.sum_cons] at hahead
      omega

/-- The segment stores the messages `ps`. -/
def Stores (q : ShmMQ) (ps : List Msg) : Prop := ∃ R W, Holds q ps R W

/-- Each call that is not made at the end of the block is a step of the queue of
pending messages. -/
theorem step_refines (q : ShmMQ) (ps : List Msg) (op : Op) (h : Stores q ps)
    (hop : NotAtBlockEnd q op) :
    ∃ ps', FifoStep ps op (step q op).2 ps' ∧ Stores (step q op).1 ps' := by
  obtain ⟨R, W, h⟩ := h
  cases op with
  | enqueue m =>
      rcases h.enqueue m.2 with hfull | ⟨hret, hnew⟩
      · refine ⟨ps, ?_, R, W, ?_⟩
        · simpa only [step, hfull] using FifoStep.reject ps m
        · simpa only [step, hfull] using h
      · refine ⟨ps ++ [m.1], ?_, R, W + m.1.size, hnew⟩
        simpa only [step, hret] using FifoStep.accept ps m
  | dequeue =>
      match ps, h with
      | [], h =>
          refine ⟨[], ?_, R, W, ?_⟩
          · simpa only [step, h.dequeueI_nil] using FifoStep.empty
          · simpa only [step, h.dequeueI_nil] using h
      | m :: ps, h =>
          refine ⟨ps, ?_, R + m.size, W, ?_⟩
          · simpa only [step, h.dequeueI_cons] using FifoStep.deliver m ps
          · simpa only [step, h.dequeueI_cons] using h.tail_of_cons hop

/-! ## Runs -/

/-- A run with no call at the end of the block stores what the queue has pending. -/
theorem run_refines {shmsize : ShmSize} {block : ℕ → UInt8} {ops : List Op}
    (hrun : Run.Always step NotAtBlockEnd (init shmsize block) ops) :
    ∃ ps, Run.Allows FifoStep [] (Run.trace step (init shmsize block) ops) ps ∧
      Stores (Run.final step (init shmsize block) ops) ps :=
  Run.simulates step_refines ⟨0, 0, holds_init shmsize block⟩ hrun

/-- The segment is an exact queue, at every moment of a run, exactly as long as no
`dequeue_i` is called at the end of the block. -/
theorem exactFifo_iff (shmsize : ShmSize) (block : ℕ → UInt8) (ops : List Op) :
    (∀ pre, pre <+: ops → ExactFifo (init shmsize block) pre) ↔
      Run.Always step NotAtBlockEnd (init shmsize block) ops := by
  constructor
  · intro hexact
    by_contra hnot
    obtain ⟨pre, op, hpre, hrun, hop⟩ := Run.exists_first_of_not_always hnot
    obtain ⟨ps, hps, R, W, h⟩ := run_refines hrun
    -- the call that breaks the condition is a `dequeue_i` at the end of the block
    cases op with
    | enqueue m => exact hop trivial
    | dequeue =>
        obtain ⟨m, rfl, hret, hused, hB⟩ := h.dequeueI_atBlockEnd (not_not.mp hop)
        obtain ⟨pending, hpending, hsum⟩ := hexact _ hpre
        rw [Run.final_append] at hsum
        rw [Run.trace_append] at hpending
        have hlast : FifoStep [m] .dequeue
            (step (Run.final step (init shmsize block) pre) .dequeue).2 [] := by
          simpa only [step, hret] using FifoStep.deliver m []
        have hall := hps.snoc hlast
        have hnil : pending = [] := Run.Allows.unique FifoStep.unique hpending hall
        rw [hnil] at hsum
        have hzero : (Run.final step (init shmsize block) pre).blocksize = 0 := by
          rw [← hused]
          exact hsum
        omega
  · intro hrun pre hpre
    obtain ⟨ps, hps, R, W, h⟩ := run_refines (hrun.of_prefix hpre)
    exact ⟨ps, hps, h.usedlen⟩

/-- A message with no data and no extended data. -/
def headMsg : Msg := ⟨⟨[], [], by decide, by decide⟩, 1, 0, ⟨0, 0⟩⟩

/-- In a block of 54 bytes the second of two head-only messages ends with the block.
After it has been taken, `getstat` reports 54 used bytes. -/
theorem not_exactFifo_two_heads :
    ¬ ExactFifo (init ⟨62, by decide⟩ fun _ => 0)
      [.enqueue ⟨headMsg, by decide⟩, .dequeue, .enqueue ⟨headMsg, by decide⟩, .dequeue] := by
  rintro ⟨pending, hrun, hsum⟩
  have hall : Run.Allows FifoStep [] (Run.trace step (init ⟨62, by decide⟩ fun _ => 0)
      [.enqueue ⟨headMsg, by decide⟩, .dequeue, .enqueue ⟨headMsg, by decide⟩, .dequeue]) [] :=
    .cons (.accept [] _) (.cons (.deliver headMsg []) (.cons (.accept [] _)
      (.cons (.deliver headMsg []) (.nil []))))
  have hnil : pending = [] := Run.Allows.unique FifoStep.unique hrun hall
  rw [hnil] at hsum
  exact absurd hsum (by decide)

end ShmMQ
end Spp
