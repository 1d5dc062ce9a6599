import Spp.Shm.Fifo

/-!
# A queue that cannot get stuck

Each `dequeue_i` on a queue with messages should take the oldest one away, so that as many calls
as there are messages empty the queue.  `enqueue` looks at the free space only, while `dequeue_i`
refuses a message whose data does not fit its caller's buffer and leaves it where it is: such a
message stays for good.  The head that ends with the block is the other case in which the queue
is not emptied.

## Main definitions

* `Call`, `Tracked`, `track` — the calls, on the segment and on what is pending.
* `Moves` — a `dequeue_i` takes the oldest message away.
* `Clear` — the oldest message can be taken.
-/

namespace Spp
namespace ShmMQ

/-- A call, with any message. -/
inductive Call
  | enqueue (m : Msg)
  | dequeue

/-- The segment, and the messages that were accepted and not taken since. -/
structure Tracked where
  q : ShmMQ
  pending : List Msg

/-- A fresh segment. -/
def Tracked.init (shmsize : ShmSize) (block : ℕ → UInt8) : Tracked := ⟨.init shmsize block, []⟩

/-- One call; a `dequeue_i` has to take the oldest message. -/
def track (s : Tracked) : Call → Tracked × Out
  | .enqueue m =>
      (⟨(s.q.enqueue m).1, if (s.q.enqueue m).2 = 0 then s.pending ++ [m] else s.pending⟩,
        .enqueued (s.q.enqueue m).2)
  | .dequeue => (⟨s.q.dequeueI.1, s.pending.tail⟩, .dequeued s.q.dequeueI.2)

/-- The message `m` was delivered or dropped with an error, and the head is behind it: `rest` is
what is used. -/
structure PassedBy (q : ShmMQ) (m : Msg) (rest : List Msg) : Prop where
  outcome : q.dequeueI.2 = .ok m.delivery ∨ ∃ h, q.dequeueI.2 = .otfbuff h
  head : q.dequeueI.1.head % q.blocksize = (q.head + m.size) % q.blocksize
  usedlen : q.dequeueI.1.getstat.usedlen = (rest.map Msg.size).sum

/-- A `dequeue_i` on a queue with messages takes the oldest one away. -/
def Moves (s : Tracked) : Call → Prop
  | .enqueue _ => True
  | .dequeue => ∀ m ps, s.pending = m :: ps → PassedBy s.q m ps

/-- The oldest message fits the receiver's buffer, and is not a single head at the end of the
block. -/
def Clear (s : Tracked) : Call → Prop
  | .enqueue _ => True
  | .dequeue => ∀ m ps, s.pending = m :: ps → m.blob.len ≤ maxBlobDataLen ∧ ¬ s.q.AtBlockEnd

/-- The segment keeps what is pending. -/
def Tracked.Kept (s : Tracked) : Prop := ∃ R W, Keeps s.q s.pending R W

variable {q : ShmMQ} {m : Msg} {ps : List Msg} {R W : ℕ}

/-! ## One call -/

/-- The head is behind the oldest message exactly when that could be taken. -/
theorem Keeps.passedBy_iff (h : Keeps q (m :: ps) R W) :
    PassedBy q m ps ↔ m.blob.len ≤ maxBlobDataLen ∧ ¬ q.AtBlockEnd := by
  have hdeq := h.dequeueI_cons
  have hsize := cHeadSize_le_size m
  have hC : cHeadSize = 27 := rfl
  constructor
  · intro hpassed
    have hsmall : m.blob.len ≤ maxBlobDataLen := by
      by_contra hbig
      -- the message is still there
      have hused := hpassed.usedlen
      rw [hdeq, if_pos (Nat.lt_of_not_le hbig), h.usedlen] at hused
      simp only [List.map_cons, List.sum_cons] at hused
      omega
    refine ⟨hsmall, ?_⟩
    intro hend
    obtain ⟨m', hps, -, hused, hB⟩ := h.dequeueI_atBlockEnd hend
    have hnil : ps = [] := (List.cons.inj hps).2
    have hzero := hpassed.usedlen
    rw [hused, hnil] at hzero
    simp only [List.map_nil, List.sum_nil] at hzero
    omega
  · intro ⟨hsmall, hend⟩
    have hrest := h.tail_of_cons hend
    rw [if_neg (Nat.not_lt.mpr hsmall)] at hdeq
    refine ⟨?_, ?_, ?_⟩
    · rw [hdeq]
      exact .inl rfl
    · have hold := h.apart.2
      have hnew := hrest.apart.2
      rw [hdeq]
      simp only at hnew ⊢
      rw [hnew]
      exact Cyclic.mod_add_eq hold
    · rw [hdeq]
      exact hrest.usedlen

/-- A call that is clear keeps what is then pending. -/
theorem Tracked.Kept.step {s : Tracked} (h : s.Kept) {c : Call} (hc : Clear s c) :
    (track s c).1.Kept := by
  obtain ⟨q, pending⟩ := s
  obtain ⟨R, W, h⟩ := h
  cases c with
  | enqueue m =>
      rcases h.enqueue m with hfull | ⟨hret, hnew⟩
      · refine ⟨R, W, ?_⟩
        simpa [track, hfull, commuErrMqFull] using h
      · refine ⟨R, W + m.size, ?_⟩
        simpa [track, hret] using hnew
  | dequeue =>
      cases pending with
      | nil =>
          refine ⟨R, W, ?_⟩
          simpa [track, h.dequeueI_nil] using h
      | cons m ps =>
          obtain ⟨hsmall, hend⟩ := hc m ps rfl
          refine ⟨R + m.size, W, ?_⟩
          simpa [track, h.dequeueI_cons, Nat.not_lt.mpr hsmall] using h.tail_of_cons hend

/-- A call moves on exactly when it is clear. -/
theorem Tracked.Kept.moves_iff {s : Tracked} (h : s.Kept) (c : Call) : Clear s c ↔ Moves s c := by
  obtain ⟨q, pending⟩ := s
  obtain ⟨R, W, h⟩ := h
  cases c with
  | enqueue m => exact Iff.rfl
  | dequeue =>
      constructor
      · intro hclear m ps hpending
        cases hpending
        exact h.passedBy_iff.mpr (hclear m ps rfl)
      · intro hmoves m ps hpending
        cases hpending
        exact h.passedBy_iff.mp (hmoves m ps rfl)

/-! ## Runs -/

/-- With nothing pending the offsets are equal. -/
theorem Tracked.Kept.empty {s : Tracked} (h : s.Kept) (hnil : s.pending = []) :
    s.q.head = s.q.tail := by
  obtain ⟨R, W, h⟩ := h
  rw [hnil] at h
  have hahead : W = R := h.ahead
  obtain ⟨⟨hhead, -, hoff⟩, -⟩ := h.apart
  omega

/-- As many clear `dequeue_i` calls as there are messages empty the queue. -/
theorem Tracked.Kept.drained {s : Tracked} (h : s.Kept)
    (hrun : Run.Always track Clear s (List.replicate s.pending.length .dequeue)) :
    (Run.final track s (List.replicate s.pending.length .dequeue)).q.head =
      (Run.final track s (List.replicate s.pending.length .dequeue)).q.tail := by
  generalize hk : s.pending.length = k at hrun
  induction k generalizing s with
  | zero => exact h.empty (List.length_eq_zero_iff.mp hk)
  | succ k ih =>
      rw [List.replicate_succ, Run.always_cons] at hrun
      rw [List.replicate_succ, Run.final_cons]
      have hlen : (track s .dequeue).1.pending.length = k := by
        simp [track, hk]
      exact ih (h.step hrun.1) hlen hrun.2

/-- In every run, each `dequeue_i` takes the oldest message away exactly as long as each can; and
then as many calls as there are messages empty the queue. -/
theorem moves_run (shmsize : ShmSize) (block : ℕ → UInt8) (calls : List Call) :
    let start := Tracked.init shmsize block
    let drain := List.replicate (Run.final track start calls).pending.length Call.dequeue
    (Run.Always track Moves start calls ↔ Run.Always track Clear start calls) ∧
      (Run.Always track Clear start (calls ++ drain) →
        (Run.final track start (calls ++ drain)).q.head =
          (Run.final track start (calls ++ drain)).q.tail) := by
  intro start drain
  have hstart : start.Kept := ⟨0, 0, keeps_init shmsize block⟩
  have hstep : ∀ s c, Tracked.Kept s → Clear s c → (track s c).1.Kept := fun s c hs hc => hs.step hc
  constructor
  · exact (Run.always_congr Tracked.Kept hstep (fun s c hs => hs.moves_iff c) hstart).symm
  · intro hrun
    obtain ⟨hcalls, hdrain⟩ := Run.always_append.mp hrun
    rw [Run.final_append]
    exact (Run.invariant hstep hstart hcalls).drained hdrain

/-- A message that is too long for the receiver's buffer is not taken. -/
theorem Keeps.not_moves (h : Keeps q (m :: ps) R W) (hlen : maxBlobDataLen < m.blob.len) :
    ¬ Moves ⟨q, m :: ps⟩ .dequeue := by
  intro hmoves
  have hsmall := (h.passedBy_iff.mp (hmoves m ps rfl)).1
  exact absurd hsmall (not_le.mpr hlen)

/-- A message that is too long for the receiver's buffer, and fits the block, stays there. -/
theorem not_moves_of_len (shmsize : ShmSize) (block : ℕ → UInt8) (m : Msg)
    (hlen : maxBlobDataLen < m.blob.len) (hsize : m.size < u32sub shmsize.1 8) :
    ¬ Run.Always track Moves (.init shmsize block) [.enqueue m, .dequeue] := by
  have hkeeps := keeps_init shmsize block
  have hret : ((init shmsize block).enqueue m).2 = 0 := by
    have hfree := hkeeps.apart.1.freeLen (init shmsize block).blocksize_lt
    have hroom : ¬ (init shmsize block).blocksize - (0 - 0) ≤ m.blob.totalLen := by
      rw [show (init shmsize block).blocksize = u32sub shmsize.1 8 from rfl, Nat.sub_zero, not_le]
      exact hsize
    rw [enqueue, hfree, if_neg hroom]
  have hstate : (track (.init shmsize block) (.enqueue m)).1 =
      ⟨((init shmsize block).enqueue m).1, [m]⟩ := by
    simp [track, Tracked.init, hret]
  have hnew := hkeeps.enqueue_of_ret hret
  intro hrun
  rw [Run.always_cons, Run.always_cons, hstate] at hrun
  exact hnew.not_moves hlen hrun.2.1

/-- A message with one byte more than the receiver's buffer takes. -/
def bigMsg : Msg where
  blob :=
    { data := List.replicate (maxBlobDataLen + 1) 0
      extdata := []
      data_lt := by
        rw [List.length_replicate, maxBlobDataLen]
        omega
      extdata_lt := Blob.nil_lt }
  flow := 1
  msgtype := 0
  tval := ⟨0, 0⟩

/-- In a segment of `2 ^ 24 + 100` bytes the message is accepted, and never taken. -/
theorem not_moves_big :
    ¬ Run.Always track Moves (.init ⟨2 ^ 24 + 100, by omega⟩ fun _ => 0)
      [.enqueue bigMsg, .dequeue] := by
  have hlen : bigMsg.blob.data.length = maxBlobDataLen + 1 := List.length_replicate ..
  apply not_moves_of_len
  · rw [Blob.len, hlen]
    exact Nat.lt_succ_self _
  · rw [bigMsg.size_eq, hlen, show bigMsg.blob.extdata.length = 0 from rfl]
    decide

end ShmMQ
end Spp
