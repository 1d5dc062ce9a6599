import Spp.Shm.CyclicQueue
import Spp.Shm.Fifo

/-!
# Messages that waited too long

With a `msg_timeout_`, `dequeue` throws away what `getdelay` says is too old and returns the first
message that is not.  The delay is computed in unsigned words from the seconds and the
microseconds, each cut to milliseconds: it wraps where the clock stands before the stamp, and it
is one too large where the microseconds are borrowed from.

The clock is a stream of readings, one for each call of `getdelay`.

## Main definitions

* `getdelay`, `dequeue` — the delay, and the loop, with what it threw away.
* `age`, `firstFresh` — the whole milliseconds since the stamp, and what a queue should do.
* `DropsStale` — `dequeue` does that.
* `Timely`, `Judged` — `getdelay` is on the right side of the timeout, for each message that is
  looked at.
-/

namespace Spp

/-! ## The delay -/

namespace Timeval

/-- `tv_sec`, a `long`. -/
def tvSec (t : Timeval) : ℤ := t.sec.toInt64.toInt

/-- `tv_usec`, a `long`. -/
def tvUsec (t : Timeval) : ℤ := t.usec.toInt64.toInt

end Timeval

/-- `CMisc::getdelay` at the time `now`. -/
def getdelay (now begin : Timeval) : ℕ :=
  let delay := toUnsigned (now.tvSec - begin.tvSec)
  let delay := if delay > 0 then u32 (delay * 1000) else delay
  if now.tvUsec > begin.tvUsec then toUnsigned (delay + (now.tvUsec - begin.tvUsec).tdiv 1000)
  else toUnsigned (delay - (begin.tvUsec - now.tvUsec).tdiv 1000)

/-- The difference of the two times in milliseconds, each part cut for itself. -/
def millis (now stamp : Timeval) : ℤ :=
  1000 * (now.tvSec - stamp.tvSec) + (now.tvUsec - stamp.tvUsec).tdiv 1000

/-- The whole milliseconds from the stamp to now, zero for a stamp in the future. -/
def age (now stamp : Timeval) : ℤ :=
  max 0 ((1000000 * (now.tvSec - stamp.tvSec) + (now.tvUsec - stamp.tvUsec)) / 1000)

/-- `getdelay` is the difference in milliseconds, in an unsigned word. -/
theorem getdelay_eq (now stamp : Timeval) :
    (getdelay now stamp : ℤ) = millis now stamp % 2 ^ 32 := by
  have hunsigned : ∀ z : ℤ, (toUnsigned z : ℤ) = z % 2 ^ 32 := by
    intro z
    exact Int.toNat_of_nonneg (Int.emod_nonneg _ (by norm_num))
  have hdelay : ∀ d : ℕ,
      ((if d > 0 then u32 (d * 1000) else d : ℕ) : ℤ) = (1000 * d : ℤ) % 2 ^ 32 := by
    intro d
    unfold u32
    split_ifs <;> omega
  have hneg : (stamp.tvUsec - now.tvUsec).tdiv 1000 = -(now.tvUsec - stamp.tvUsec).tdiv 1000 := by
    rw [← Int.neg_tdiv, Int.neg_sub]
  unfold getdelay millis
  split_ifs with h <;> simp only [hunsigned, hdelay, hneg] <;> omega

/-- `getdelay` is on the right side of the timeout: it does not wrap to a long delay for a stamp in
the future, or to a short one for an old stamp, and is not beyond the timeout by a borrowed millisecond
alone. -/
structure Timely (timeout : Int32) (now stamp : Timeval) : Prop where
  future : millis now stamp < 0 → millis now stamp % 2 ^ 32 ≤ timeout.toInt
  old : age now stamp > timeout.toInt → millis now stamp % 2 ^ 32 > timeout.toInt
  borrow : millis now stamp = timeout.toInt + 1 → age now stamp = timeout.toInt + 1

/-- The difference in milliseconds is the age of a stamp in the past, or one more. -/
theorem millis_cases (now stamp : Timeval) :
    (age now stamp = max 0 (millis now stamp) ∨ age now stamp = max 0 (millis now stamp - 1)) := by
  unfold age millis
  rcases Int.le_total 0 (now.tvUsec - stamp.tvUsec) with hge | hle
  · rw [Int.tdiv_eq_ediv_of_nonneg hge]
    omega
  · have hneg : (now.tvUsec - stamp.tvUsec).tdiv 1000 = -((stamp.tvUsec - now.tvUsec) / 1000) := by
      rw [← Int.tdiv_eq_ediv_of_nonneg (by omega), ← Int.neg_tdiv, Int.neg_sub]
    rw [hneg]
    omega

/-- The delay is found to be too long exactly when the age is. -/
theorem timely_iff {timeout : Int32} (hpos : 0 < timeout) (now stamp : Timeval) :
    Timely timeout now stamp ↔
      (millis now stamp % 2 ^ 32 > timeout.toInt ↔ age now stamp > timeout.toInt) := by
  have hlt : 0 < timeout.toInt := by simpa [Int32.lt_iff_toInt_lt] using hpos
  have hle : timeout.toInt < 2 ^ 31 := timeout.toInt_lt
  have hcases := millis_cases now stamp
  constructor
  · intro ⟨hfuture, hold, hborrow⟩
    refine ⟨?_, hold⟩
    intro hlate
    by_contra hage
    have hnonneg : 0 ≤ millis now stamp := by
      by_contra hneg
      have hshort := hfuture (Int.not_le.mp hneg)
      omega
    have hone : millis now stamp = timeout.toInt + 1 := by omega
    have hequal := hborrow hone
    omega
  · intro hverdict
    refine ⟨?_, hverdict.mpr, ?_⟩
    · intro hneg
      by_contra hlate
      have hage := hverdict.mp (Int.not_le.mp hlate)
      omega
    · intro hone
      have hage := hverdict.mp (by omega)
      omega

namespace ShmMQ

/-! ## `dequeue` -/

/-- `dequeue`, `fuel` passes of it at most, with what the passes threw away. -/
def dequeue (timeout : Int32) : ℕ → (ℕ → Timeval) → ShmMQ →
    ShmMQ × List Delivery × Option Dequeued
  | 0, _, q => (q, [], none)
  | fuel + 1, clock, q =>
      match q.dequeueI with
      | (q', .ok d) =>
          if timeout ≠ 0 ∧ getdelay (clock 0) d.timeStamp > timeout.toUInt32.toNat then
            let (q'', dropped, r) := dequeue timeout fuel (fun i => clock (i + 1)) q'
            (q'', d :: dropped, r)
          else (q', [], some (.ok d))
      | (q', r) => (q', [], some r)

/-- What should be thrown away of the pending messages, and the one that should be returned. -/
def firstFresh (timeout : Int32) : (ℕ → Timeval) → List Msg → List Msg × Option Msg
  | _, [] => ([], none)
  | clock, m :: ps =>
      if age (clock 0) m.tval > timeout.toInt then
        let (stale, fresh) := firstFresh timeout (fun i => clock (i + 1)) ps
        (m :: stale, fresh)
      else ([], some m)

/-- A `dequeue` of the messages `ps` throws away the leading stale ones, returns the first fresh
one, or `MQEMPTY`, and leaves the head behind these. -/
structure DropsStale (timeout : Int32) (fuel : ℕ) (clock : ℕ → Timeval) (q : ShmMQ)
    (ps : List Msg) : Prop where
  dropped : (q.dequeue timeout fuel clock).2.1 = (firstFresh timeout clock ps).1.map Msg.delivery
  result : (q.dequeue timeout fuel clock).2.2 =
    some (((firstFresh timeout clock ps).2.map fun m => Dequeued.ok m.delivery).getD .empty)
  head : (q.dequeue timeout fuel clock).1.head % q.blocksize =
    (q.head + (((firstFresh timeout clock ps).1 ++ (firstFresh timeout clock ps).2.toList).map
      Msg.size).sum) % q.blocksize

/-- Each message that is looked at fits the receiver's buffer, has a delay on the right side of the
timeout, and is not thrown away as the last one where its head ends with the block. -/
def Judged (timeout : Int32) (B tail : ℕ) : (ℕ → Timeval) → List Msg → Prop
  | _, [] => True
  | clock, m :: ps =>
      m.blob.len ≤ maxBlobDataLen ∧ Timely timeout (clock 0) m.tval ∧
      (age (clock 0) m.tval > timeout.toInt →
        ¬ (ps = [] ∧ m.HeaderOnly ∧ tail = B) ∧ Judged timeout B tail (fun i => clock (i + 1)) ps)

variable {q : ShmMQ} {m : Msg} {ps : List Msg} {R W fuel : ℕ} {timeout : Int32}
  {clock : ℕ → Timeval}

/-! ## One pass -/

/-- The test that `dequeue` makes. -/
theorem tooOld_iff (hpos : 0 < timeout) (now stamp : Timeval) :
    (timeout ≠ 0 ∧ getdelay now stamp > timeout.toUInt32.toNat) ↔
      millis now stamp % 2 ^ 32 > timeout.toInt := by
  have hnonneg : (0 : Int32) ≤ timeout := Int32.le_of_lt hpos
  have hlt : 0 < timeout.toInt := by simpa [Int32.lt_iff_toInt_lt] using hpos
  have hword : (timeout.toUInt32.toNat : ℤ) = timeout.toInt := by
    rw [Int32.toNat_toUInt32_of_le hnonneg, Int32.toNatClampNeg, Int.toNat_of_nonneg hlt.le]
  have hne : timeout ≠ 0 := by
    intro hzero
    simp [hzero] at hlt
  rw [← getdelay_eq, ← hword]
  simp [hne]

/-- The pass on a message that does not fit the receiver's buffer. -/
theorem Keeps.dequeue_big (h : Keeps q (m :: ps) R W) (hbig : maxBlobDataLen < m.blob.len) :
    q.dequeue timeout (fuel + 1) clock = (q, [], some (.otfbuff (Head.parse m.sHead))) := by
  rw [dequeue, h.dequeueI_cons, if_pos hbig]

/-- The pass on a message that is thrown away. -/
theorem Keeps.dequeue_old (h : Keeps q (m :: ps) R W) (fuel : ℕ) (hpos : 0 < timeout)
    (hsmall : m.blob.len ≤ maxBlobDataLen)
    (hold : millis (clock 0) m.tval % 2 ^ 32 > timeout.toInt) :
    q.dequeue timeout (fuel + 1) clock =
      let next := dequeue timeout fuel (fun i => clock (i + 1))
        { q with head := nextHead q.blocksize q.head m.size }
      (next.1, m.delivery :: next.2.1, next.2.2) := by
  have htest := (tooOld_iff hpos (clock 0) m.tval).mpr hold
  rw [dequeue, h.dequeueI_cons, if_neg (Nat.not_lt.mpr hsmall)]
  exact if_pos htest

/-- The pass on a message that is returned. -/
theorem Keeps.dequeue_new (h : Keeps q (m :: ps) R W) (fuel : ℕ) (hpos : 0 < timeout)
    (hsmall : m.blob.len ≤ maxBlobDataLen)
    (hnew : ¬ millis (clock 0) m.tval % 2 ^ 32 > timeout.toInt) :
    q.dequeue timeout (fuel + 1) clock =
      ({ q with head := nextHead q.blocksize q.head m.size }, [], some (.ok m.delivery)) := by
  have htest := mt (tooOld_iff hpos (clock 0) m.tval).mp hnew
  rw [dequeue, h.dequeueI_cons, if_neg (Nat.not_lt.mpr hsmall)]
  exact if_neg htest

/-- The head is behind the message that was taken. -/
theorem nextHead_mod {B p n : ℕ} : nextHead B p n % B = (p + n) % B := by
  unfold nextHead
  split_ifs with hend
  · rw [hend.2, hend.1, Nat.zero_mod, Nat.mod_self]
  · exact advance_mod

/-- The single head at the end of the block is the last message. -/
theorem Keeps.atBlockEnd_iff (h : Keeps q (m :: ps) R W) :
    q.AtBlockEnd ↔ ps = [] ∧ m.HeaderOnly ∧ q.tail = q.blocksize := by
  obtain ⟨⟨hhead, htail, hoff⟩, -⟩ := h.apart
  have hahead : W = R + (m.size + (ps.map Msg.size).sum) := h.ahead
  have hsize : m.size = cHeadSize + m.blob.len + m.blob.extLen := m.size_eq
  have hC : cHeadSize = 27 := rfl
  constructor
  · intro ⟨hend, hend'⟩
    cases ps with
    | nil =>
        simp only [List.map_nil, List.sum_nil] at hahead
        exact ⟨rfl, ⟨by omega, by omega⟩, hend'⟩
    | cons m' ps =>
        have hsize' := cHeadSize_le_size m'
        simp only [List.map_cons, List.sum_cons] at hahead
        omega
  · intro ⟨hnil, ⟨hlen, hext⟩, hend⟩
    subst hnil
    simp only [List.map_nil, List.sum_nil] at hahead
    exact ⟨by omega, hend⟩

/-- A message that is old, and thrown away, is the first of those that should be. -/
theorem Keeps.dropsStale_cons_iff (h : Keeps q (m :: ps) R W) (hpos : 0 < timeout)
    (hsmall : m.blob.len ≤ maxBlobDataLen)
    (hold : millis (clock 0) m.tval % 2 ^ 32 > timeout.toInt)
    (hage : age (clock 0) m.tval > timeout.toInt) :
    DropsStale timeout (fuel + 1) clock q (m :: ps) ↔
      DropsStale timeout fuel (fun i => clock (i + 1))
        { q with head := nextHead q.blocksize q.head m.size } ps := by
  have hcode := h.dequeue_old fuel hpos hsmall hold
  have hspec : firstFresh timeout clock (m :: ps) =
      (m :: (firstFresh timeout (fun i => clock (i + 1)) ps).1,
        (firstFresh timeout (fun i => clock (i + 1)) ps).2) := by
    rw [firstFresh, if_pos hage]
  have hhead : ∀ n, (q.head + (m.size + n)) % q.blocksize =
      (nextHead q.blocksize q.head m.size + n) % q.blocksize := by
    intro n
    rw [Cyclic.mod_add_eq (nextHead_mod (n := m.size)).symm, Nat.add_assoc]
  constructor
  · intro ⟨hdropped, hresult, hcells⟩
    rw [hcode, hspec] at hdropped hresult hcells
    refine ⟨(List.cons.inj hdropped).2, hresult, ?_⟩
    rw [List.cons_append, List.map_cons, List.sum_cons, hhead] at hcells
    exact hcells
  · intro ⟨hdropped, hresult, hcells⟩
    refine ⟨?_, ?_, ?_⟩
    · rw [hcode, hspec, List.map_cons, ← hdropped]
    · rw [hcode, hspec]
      exact hresult
    · rw [hcode, hspec, List.cons_append, List.map_cons, List.sum_cons, hhead]
      exact hcells

/-! ## The whole call -/

/-- Where every message is judged by its age, the stale ones are thrown away and no other. -/
theorem Keeps.dropsStale (h : Keeps q ps R W) (hpos : 0 < timeout)
    (hjudged : Judged timeout q.blocksize q.tail clock ps) (hfuel : ps.length < fuel) :
    DropsStale timeout fuel clock q ps := by
  induction ps generalizing q R fuel clock with
  | nil =>
      cases fuel with
      | zero => simp at hfuel
      | succ fuel =>
          have hcode : q.dequeue timeout (fuel + 1) clock = (q, [], some .empty) := by
            rw [dequeue, h.dequeueI_nil]
          refine ⟨?_, ?_, ?_⟩ <;> simp [hcode, firstFresh]
  | cons m ps ih =>
      obtain ⟨hsmall, htimely, hrest⟩ := hjudged
      have hverdict := (timely_iff hpos (clock 0) m.tval).mp htimely
      cases fuel with
      | zero => simp at hfuel
      | succ fuel =>
          by_cases hage : age (clock 0) m.tval > timeout.toInt
          · obtain ⟨hend, hrest⟩ := hrest hage
            rw [h.dropsStale_cons_iff hpos hsmall (hverdict.mpr hage) hage]
            rw [← h.atBlockEnd_iff] at hend
            exact ih (h.tail_of_cons hend) hrest (by simpa using hfuel)
          · have hcode := h.dequeue_new fuel hpos hsmall (mt hverdict.mp hage)
            refine ⟨?_, ?_, ?_⟩ <;> simp [hcode, firstFresh, hage, nextHead_mod]

/-- A pass that finds the queue empty finds the offsets equal. -/
theorem head_eq_tail_of_dequeue (h : (q.dequeue timeout 1 clock).2.2 = some .empty) :
    q.head = q.tail := by
  by_contra hne
  have hdeq : q.dequeueI.2 ≠ .empty := by
    rw [dequeueI, if_neg hne]
    simp only
    split_ifs <;> simp
  rw [dequeue] at h
  split at h
  · split_ifs at h <;> simp [dequeue] at h
  · next q' r _ hr =>
      rw [hr] at hdeq
      simp at h
      exact hdeq h

/-- Where the stale messages are thrown away and no other, every message is judged by its age. -/
theorem Keeps.judged (h : Keeps q ps R W) (hpos : 0 < timeout)
    (hdrops : DropsStale timeout (ps.length + 1) clock q ps) :
    Judged timeout q.blocksize q.tail clock ps := by
  induction ps generalizing q R clock with
  | nil => trivial
  | cons m ps ih =>
      have hsmall : m.blob.len ≤ maxBlobDataLen := by
        by_contra hbig
        have hresult := hdrops.result
        rw [h.dequeue_big (Nat.lt_of_not_le hbig)] at hresult
        cases hfresh : (firstFresh timeout clock (m :: ps)).2 <;> simp [hfresh] at hresult
      have hverdict : millis (clock 0) m.tval % 2 ^ 32 > timeout.toInt ↔
          age (clock 0) m.tval > timeout.toInt := by
        have hdropped := hdrops.dropped
        constructor
        · intro hold
          by_contra hage
          rw [List.length_cons, h.dequeue_old _ hpos hsmall hold, firstFresh,
            if_neg hage] at hdropped
          simp at hdropped
        · intro hage
          by_contra hnew
          rw [List.length_cons, h.dequeue_new _ hpos hsmall hnew, firstFresh,
            if_pos hage] at hdropped
          simp at hdropped
      refine ⟨hsmall, (timely_iff hpos (clock 0) m.tval).mpr hverdict, ?_⟩
      intro hage
      have hnext := (h.dropsStale_cons_iff hpos hsmall (hverdict.mpr hage) hage).mp hdrops
      have hend : ¬ q.AtBlockEnd := by
        -- the head is then at zero and the tail at the end, so that the queue is not empty
        intro hend
        obtain ⟨hnil, ⟨hlen, hext⟩, -⟩ := h.atBlockEnd_iff.mp hend
        subst hnil
        have hempty := head_eq_tail_of_dequeue hnext.result
        have hsize : m.size = cHeadSize + m.blob.len + m.blob.extLen := m.size_eq
        rw [hlen, hext] at hsize
        rw [nextHead, if_pos ⟨hend.1, hsize⟩] at hempty
        have htail := hend.2
        have hC : cHeadSize = 27 := rfl
        have hstart := hend.1
        simp only at hempty
        omega
      have hrest := ih (h.tail_of_cons hend) hnext
      exact ⟨by rwa [← h.atBlockEnd_iff], hrest⟩

/-- `dequeue` throws away the leading stale messages, returns the first fresh one, and takes no
other, exactly as long as each message it looks at is judged by its age. -/
theorem dropsStale_iff (q : ShmMQ) (ps : List Msg) (R W : ℕ) (h : Keeps q ps R W) (timeout : Int32)
    (hpos : 0 < timeout) (clock : ℕ → Timeval) :
    (∀ fuel, ps.length < fuel → DropsStale timeout fuel clock q ps) ↔
      Judged timeout q.blocksize q.tail clock ps := by
  constructor
  · intro hdrops
    exact h.judged hpos (hdrops _ (Nat.lt_succ_self _))
  · intro hjudged fuel hfuel
    exact h.dropsStale hpos hjudged hfuel

/-- A message stamped at the time `stamp`. -/
def stamped (stamp : Timeval) : Msg := ⟨⟨[5], [6], shortMsg.blob.data_lt, shortMsg.blob.extdata_lt⟩, 1, 0, stamp⟩

/-- A queue with two messages, stamped at 100 s and at 104.5 s. -/
def twoStamped : ShmMQ :=
  (((init ⟨200, by decide⟩ fun _ => 0).enqueue (stamped ⟨100, 0⟩)).1.enqueue
    (stamped ⟨104, 500000⟩)).1

/-- At 105 s the first one is more than a second old, the second is not. -/
theorem dropsStale_two :
    DropsStale 1000 3 (fun _ => ⟨105, 0⟩) twoStamped
      [stamped ⟨100, 0⟩, stamped ⟨104, 500000⟩] := by
  have hfirst := (keeps_init ⟨200, by decide⟩ fun _ => 0).enqueue_of_ret
    (m := stamped ⟨100, 0⟩) (by decide)
  have hkeeps := hfirst.enqueue_of_ret (m := stamped ⟨104, 500000⟩) (by decide)
  refine (dropsStale_iff twoStamped _ _ _ hkeeps 1000 (by decide) _).mpr ?_ 3 (by decide)
  have hpos : (0 : Int32) < 1000 := by decide
  refine ⟨by decide, (timely_iff hpos _ _).mpr (by decide), fun _ => ⟨by decide, by decide,
    (timely_iff hpos _ _).mpr (by decide), ?_⟩⟩
  intro hage
  exact absurd hage (by decide)

/-- A queue with one message, stamped at 100.005 s. -/
def oneStamped : ShmMQ :=
  ((init ⟨200, by decide⟩ fun _ => 0).enqueue (stamped ⟨100, 5000⟩)).1

/-- The clock is set back by three milliseconds, and the message is thrown away as too old. -/
theorem not_dropsStale_setBack :
    ¬ ∀ fuel, 1 < fuel →
      DropsStale 1000 fuel (fun _ => ⟨100, 2000⟩) oneStamped [stamped ⟨100, 5000⟩] := by
  intro hdrops
  have hdropped := (hdrops 2 (by decide)).dropped
  revert hdropped
  decide +kernel

end ShmMQ
end Spp
