import Spp.Shm.MQ

/-!
# One producer and one consumer on the same queue

Without a lock, one process runs `enqueue` while another runs `dequeue_i` on the same
segment.  Each access to the shared segment is a step of its own: a read of one
offset, one `memcpy`, or the store that publishes an offset.  The two processes are
interleaved in any order, under sequential consistency.

## Main definitions

* `Producer`, `Consumer` — how far a process is in its current call.
* `Spsc` — the segment, the two processes, and what they published and delivered.
* `Spsc.produce`, `Spsc.consume`, `Spsc.step` — the next step of a process.
* `Spsc.Inv` — the invariant.
-/

namespace Spp

open Cyclic ShmMQ

/-- A message with data or extended data. -/
abbrev BodyMsg := { m : Msg // ¬ m.HeaderOnly }

/-- A message that was enqueued, with the segments of the block it was stored in. -/
structure Published where
  msg : BodyMsg
  segs : List (ℕ × ℕ)

/-- The progress of an `enqueue` call. -/
inductive Producer
  | idle
  /-- `*head_` has been read. -/
  | gotHead (m : BodyMsg) (head : ℕ)
  /-- There was room; the copies `todo` remain. -/
  | copying (m : BodyMsg) (plan : WritePlan) (todo : List (ℕ × List UInt8))

/-- The progress of a `dequeue_i` call. -/
inductive Consumer
  | idle
  /-- `*head_` has been read. -/
  | gotHead (head : ℕ)
  /-- The message head is copied out. -/
  | headCopy (used dataPos : ℕ) (todo : List (ℕ × ℕ)) (sHead : List UInt8)
  /-- The data is copied out. -/
  | dataCopy (h : Head) (plan : ReadPlan) (todo : List (ℕ × ℕ)) (data : List UInt8)
  /-- The extended data is copied out. -/
  | extCopy (h : Head) (plan : ReadPlan) (data : List UInt8) (todo : List (ℕ × ℕ))
      (ext : List UInt8)
  /-- The assertion on the lengths failed. -/
  | aborted

/-- The shared segment with its two processes.  `published` and `delivered` record
the calls that returned 0. -/
structure Spsc where
  mq : ShmMQ
  producer : Producer
  consumer : Consumer
  published : List Published
  delivered : List Delivery

namespace Spsc

/-- Both processes are about to call on a fresh segment. -/
def start (shmsize : ShmSize) (block : ℕ → UInt8) : Spsc :=
  ⟨init shmsize block, .idle, .idle, [], []⟩

/-- The producer's next step; `m` is its next message when it is between calls. -/
def produce (s : Spsc) (m : BodyMsg) : Spsc :=
  match s.producer with
  | .idle => { s with producer := .gotHead m s.mq.head }
  | .gotHead m head =>
      if freeLen s.mq.blocksize head s.mq.tail ≤ m.1.blob.totalLen then
        { s with producer := .idle }
      else
        let plan := writePlan s.mq.blocksize s.mq.tail m.1
        { s with producer := .copying m plan plan.writes }
  | .copying m plan (w :: todo) =>
      { s with
        mq := { s.mq with block := Mem.write s.mq.block w.1 w.2 }
        producer := .copying m plan todo }
  | .copying m plan [] =>
      -- only the producer stores `*tail_`: adding to it and storing the sum agree
      { s with
        mq := { s.mq with tail := plan.newTail }
        producer := .idle
        published := s.published ++ [⟨m, spans plan.writes⟩] }

/-- The consumer's next step. -/
def consume (s : Spsc) : Spsc :=
  match s.consumer with
  | .idle => { s with consumer := .gotHead s.mq.head }
  | .gotHead head =>
      if head = s.mq.tail then { s with consumer := .idle }
      else
        let used := usedLen s.mq.blocksize head s.mq.tail
        let (reads, dataPos) := headReads s.mq.blocksize head
        { s with consumer := .headCopy used dataPos reads [] }
  | .headCopy used dataPos ((p, n) :: todo) sHead =>
      { s with consumer := .headCopy used dataPos todo (sHead ++ Mem.read s.mq.block p n) }
  | .headCopy used dataPos [] sHead =>
      let h := Head.parse sHead
      if ¬ lengthsOk used h then { s with consumer := .aborted }
      else if blobLen h > maxBlobDataLen then { s with consumer := .idle }
      else
        let plan := bodyPlan s.mq.blocksize dataPos h
        { s with consumer := .dataCopy h plan plan.dataReads [] }
  | .dataCopy h plan ((p, n) :: todo) data =>
      { s with consumer := .dataCopy h plan todo (data ++ Mem.read s.mq.block p n) }
  | .dataCopy h plan [] data => { s with consumer := .extCopy h plan data plan.extReads [] }
  | .extCopy h plan data ((p, n) :: todo) ext =>
      { s with consumer := .extCopy h plan data todo (ext ++ Mem.read s.mq.block p n) }
  | .extCopy h plan data [] ext =>
      { s with
        mq := { s.mq with head := plan.newHead }
        consumer := .idle
        delivered := s.delivered ++ [deliver h data ext] }
  | .aborted => s

/-- Whose step is next. -/
inductive Turn
  | producer (m : BodyMsg)
  | consumer

def step (s : Spsc) : Turn → Spsc
  | .producer m => s.produce m
  | .consumer => s.consume

/-- The segments that the current `enqueue` call writes. -/
def writing (s : Spsc) : List (ℕ × ℕ) :=
  match s.producer with
  | .copying _ plan _ => spans plan.writes
  | _ => []

/-- The published messages that the consumer has not released yet. -/
def unreleased (s : Spsc) : List Published := s.published.drop s.delivered.length

/-! ## The invariant -/

/-- The length and the bytes of a list of published messages. -/
def sizes (pend : List Published) : ℕ := (pend.map fun e => e.msg.1.size).sum
def stored (pend : List Published) : List UInt8 := pend.flatMap fun e => e.msg.1.bytes
def segments (pend : List Published) : List (ℕ × ℕ) := pend.flatMap Published.segs

theorem length_stored (pend : List Published) : (stored pend).length = sizes pend := by
  induction pend with
  | nil => rfl
  | cons e pend ih =>
      simp only [stored, sizes, List.flatMap_cons, List.length_append, List.map_cons,
        List.sum_cons, Msg.length_bytes] at ih ⊢
      omega

/-- The messages `pend` are published and not released; they lie between the stream
positions `R` and `W`. -/
structure Shared (s : Spsc) (pend : List Published) (R W : ℕ) : Prop where
  delivered : ∃ released, s.published = released ++ pend ∧
    s.delivered = released.map fun e => e.msg.1.delivery
  ahead : W = R + sizes pend
  head : s.mq.head = pos s.mq.blocksize R
  tail : s.mq.tail = pos s.mq.blocksize W
  room : W = R ∨ W - R < s.mq.blocksize
  start : W = 0 ∨ 0 < s.mq.blocksize
  window : Window s.mq.block s.mq.blocksize R (stored pend)
  covers : Covers s.mq.blocksize R (segments pend)
  sized : ∀ e ∈ pend, total e.segs = e.msg.1.size

/-- The producer may hold an old head, but no more than a block behind its tail.  Its
copies end less than a block after the current head. -/
def ProducerOk (q : ShmMQ) (pend : List Published) (R W : ℕ) : Producer → Prop
  | .idle => True
  | .gotHead _ head => ∃ R₀, R₀ ≤ R ∧ head = pos q.blocksize R₀ ∧
      (W = R₀ ∨ W - R₀ < q.blocksize)
  | .copying m plan todo => plan = writePlan q.blocksize q.tail m.1 ∧
      W - R + m.1.size < q.blocksize ∧
      Storing q.block q.blocksize R (stored pend) plan.writes todo

/-- The consumer copies the oldest message, and has seen a tail behind it. -/
def ConsumerOk (q : ShmMQ) (pend : List Published) : Consumer → Prop
  | .idle => True
  | .gotHead head => head = q.head
  | .headCopy used dataPos todo sHead => ∃ e rest, pend = e :: rest ∧
      e.msg.1.size ≤ used ∧ dataPos = (headReads q.blocksize q.head).2 ∧
      Loading e.msg.1.sHead (headReads q.blocksize q.head).1 todo sHead
  | .dataCopy h plan todo data => ∃ e rest, pend = e :: rest ∧
      h = Head.parse e.msg.1.sHead ∧
      plan = bodyPlan q.blocksize (headReads q.blocksize q.head).2 h ∧
      Loading e.msg.1.blob.data plan.dataReads todo data
  | .extCopy h plan data todo ext => ∃ e rest, pend = e :: rest ∧
      h = Head.parse e.msg.1.sHead ∧
      plan = bodyPlan q.blocksize (headReads q.blocksize q.head).2 h ∧
      data = e.msg.1.blob.data ∧ Loading e.msg.1.blob.extdata plan.extReads todo ext
  | .aborted => False

/-- The invariant, for the unreleased messages and the two stream positions. -/
structure Holds (s : Spsc) (pend : List Published) (R W : ℕ) : Prop where
  shared : Shared s pend R W
  producer : ProducerOk s.mq pend R W s.producer
  consumer : ConsumerOk s.mq pend s.consumer

def Inv (s : Spsc) : Prop := ∃ pend R W, Holds s pend R W

variable {s : Spsc} {pend : List Published} {R W : ℕ}

theorem inv_start (shmsize : ShmSize) (block : ℕ → UInt8) : Inv (start shmsize block) :=
  ⟨[], 0, 0, ⟨⟨[], rfl, rfl⟩, rfl, rfl, rfl, .inl rfl, .inl rfl, window_nil _ _ _, trivial,
    by simp⟩, trivial, trivial⟩

theorem total_segments (h : ∀ e ∈ pend, total e.segs = e.msg.1.size) :
    total (segments pend) = sizes pend := by
  induction pend with
  | nil => rfl
  | cons e pend ih =>
      have he := h e List.mem_cons_self
      have hrest := ih fun e' he' => h e' (.tail _ he')
      simp only [segments, sizes, List.flatMap_cons, total_append, List.map_cons,
        List.sum_cons] at hrest ⊢
      rw [he, hrest]

theorem Shared.apart (h : Shared s pend R W) :
    Apart s.mq.blocksize s.mq.head s.mq.tail (W - R) := by
  have hahead := h.ahead
  rw [h.head, h.tail]
  exact apart_pos (by omega) h.room h.start

/-! ## The producer -/

/-- What the producer's copies do, given the room it has found. -/
theorem Shared.writePlan (h : Shared s pend R W) (m : Msg)
    (hfit : W - R + m.size < s.mq.blocksize) :
    let plan := writePlan s.mq.blocksize s.mq.tail m
    Covers s.mq.blocksize W (spans plan.writes) ∧ Cyclic.total (spans plan.writes) = m.size ∧
      payload plan.writes = m.bytes ∧ plan.newTail = pos s.mq.blocksize (W + m.size) := by
  have hsize := m.size_eq
  have hC : cHeadSize = 27 := rfl
  have hmod : s.mq.tail % s.mq.blocksize = W % s.mq.blocksize := by rw [h.tail, pos_mod]
  obtain ⟨hcov, hpay, hnew⟩ :=
    writePlan_spec m s.mq.blocksize_lt h.apart.2.1 hmod (by omega)
  refine ⟨hcov, ?_, hpay, ?_⟩
  · rw [← length_payload, hpay, m.length_bytes]
  · rw [hnew, h.tail, pos_add W (by omega) (by omega)]

/-- The free length is computed from an old head, so it is at most the room there is. -/
theorem freeLen_le {m : BodyMsg} {head : ℕ} (h : Shared s pend R W)
    (hp : ProducerOk s.mq pend R W (.gotHead m head)) :
    freeLen s.mq.blocksize head s.mq.tail ≤ s.mq.blocksize - (W - R) := by
  obtain ⟨R₀, hR₀, hhead, hroom⟩ := hp
  have hahead := h.ahead
  have hapart := apart_pos (R := R₀) (W := W) (by omega) hroom h.start
  rw [← hhead, ← h.tail] at hapart
  rw [hapart.freeLen s.mq.blocksize_lt]
  omega

/-- Storing a segment of the current message changes no published byte. -/
theorem Holds.write {m : BodyMsg} {plan : WritePlan} {w : ℕ × List UInt8}
    {todo : List (ℕ × List UInt8)} (h : Holds s pend R W)
    (hpc : s.producer = .copying m plan (w :: todo)) :
    Holds { s with
      mq := { s.mq with block := Mem.write s.mq.block w.1 w.2 }
      producer := .copying m plan todo } pend R W := by
  have hp := h.producer
  rw [hpc] at hp
  obtain ⟨rfl, hfit, hstore⟩ := hp
  have hahead := h.shared.ahead
  obtain ⟨hcov, htotal, -, -⟩ := h.shared.writePlan m.1 hfit
  have hlen := length_stored pend
  have hnext := hstore.step
    (by rw [hlen, ← hahead]; exact hcov) (by rw [hlen, htotal]; omega)
  exact ⟨⟨h.shared.delivered, hahead, h.shared.head, h.shared.tail, h.shared.room, h.shared.start,
    hnext.window, h.shared.covers, h.shared.sized⟩, ⟨rfl, hfit, hnext⟩, h.consumer⟩

/-- What the consumer knows of the oldest message holds with a newer one behind it. -/
theorem ConsumerOk.snoc {q q' : ShmMQ} {c : Consumer} (e : Published) (h : ConsumerOk q pend c)
    (hB : q'.blocksize = q.blocksize) (hhead : q'.head = q.head) :
    ConsumerOk q' (pend ++ [e]) c := by
  cases c with
  | idle => trivial
  | gotHead head => exact h.trans hhead.symm
  | headCopy used dataPos todo sHead =>
      obtain ⟨e', rest, rfl, hrest⟩ := h
      exact ⟨e', rest ++ [e], rfl, by rw [hB, hhead]; exact hrest⟩
  | dataCopy hd plan todo data =>
      obtain ⟨e', rest, rfl, hrest⟩ := h
      exact ⟨e', rest ++ [e], rfl, by rw [hB, hhead]; exact hrest⟩
  | extCopy hd plan data todo ext =>
      obtain ⟨e', rest, rfl, hrest⟩ := h
      exact ⟨e', rest ++ [e], rfl, by rw [hB, hhead]; exact hrest⟩
  | aborted => exact h

/-- Publishing the tail adds the message behind the others. -/
theorem Holds.publish {m : BodyMsg} {plan : WritePlan} (h : Holds s pend R W)
    (hpc : s.producer = .copying m plan []) :
    Holds { s with
      mq := { s.mq with tail := plan.newTail }
      producer := .idle
      published := s.published ++ [⟨m, spans plan.writes⟩] }
      (pend ++ [⟨m, spans plan.writes⟩]) R (W + m.1.size) := by
  have hp := h.producer
  rw [hpc] at hp
  obtain ⟨rfl, hfit, hstore⟩ := hp
  obtain ⟨hdel, hahead, hhead, -, -, -, -, hcovers, hsized⟩ := h.shared
  obtain ⟨released, hpub, hdel⟩ := hdel
  obtain ⟨hcov, htotal, hpay, hnew⟩ := h.shared.writePlan m.1 hfit
  have hwin := hstore.finish
  rw [hpay] at hwin
  refine ⟨⟨⟨released, by simp [hpub], hdel⟩, ?_, hhead, hnew, .inr ?_, .inr ?_, ?_, ?_, ?_⟩,
    trivial, h.consumer.snoc _ rfl rfl⟩
  · simp [sizes] at hahead ⊢
    omega
  · simp only
    omega
  · simp only
    omega
  · simpa [stored] using hwin
  · simp only [segments, List.flatMap_append, List.flatMap_cons, List.flatMap_nil,
      List.append_nil]
    refine covers_append.mpr ⟨hcovers, ?_⟩
    change Covers _ (R + Cyclic.total (segments pend)) _
    rw [total_segments hsized, ← hahead]
    exact hcov
  · intro e he
    rcases List.mem_append.mp he with he | he
    · exact hsized e he
    · rw [List.mem_singleton.mp he]
      exact htotal

theorem inv_produce (m : BodyMsg) (h : Inv s) : Inv (s.produce m) := by
  obtain ⟨pend, R, W, h⟩ := h
  unfold produce
  split
  · -- read `*head_`
    exact ⟨pend, R, W, ⟨h.shared.delivered, h.shared.ahead, h.shared.head, h.shared.tail,
      h.shared.room, h.shared.start, h.shared.window, h.shared.covers, h.shared.sized⟩,
      ⟨R, le_rfl, h.shared.head, h.shared.room⟩, h.consumer⟩
  · -- read `*tail_`
    rename_i m head hpc
    have hp := h.producer
    rw [hpc] at hp
    have hfree := freeLen_le h.shared hp
    have hshared : ∀ p, Shared { s with producer := p } pend R W := fun p =>
      ⟨h.shared.delivered, h.shared.ahead, h.shared.head, h.shared.tail,
        h.shared.room, h.shared.start, h.shared.window, h.shared.covers, h.shared.sized⟩
    split
    · exact ⟨pend, R, W, hshared _, trivial, h.consumer⟩
    · next hlt =>
        have hfit : W - R + m.1.size < s.mq.blocksize := by
          change ¬ freeLen s.mq.blocksize head s.mq.tail ≤ m.1.size at hlt
          omega
        exact ⟨pend, R, W, hshared _, ⟨rfl, hfit, .start h.shared.window⟩, h.consumer⟩
  · next hpc => exact ⟨pend, R, W, h.write hpc⟩
  · next hpc => exact ⟨_, R, _, h.publish hpc⟩

/-! ## The consumer -/

/-- What the consumer's copies read and where they end. -/
theorem Shared.oldest {e : Published} {rest : List Published}
    (h : Shared s (e :: rest) R W) :
    Window s.mq.block s.mq.blocksize R e.msg.1.bytes ∧
      R + e.msg.1.size ≤ W ∧ e.msg.1.size < s.mq.blocksize ∧
      s.mq.head % s.mq.blocksize = R % s.mq.blocksize := by
  have hahead : W = R + (e.msg.1.size + sizes rest) := h.ahead
  have hsize := e.msg.1.size_eq
  have hC : cHeadSize = 27 := rfl
  have hroom := h.room
  have hwin : Window s.mq.block s.mq.blocksize R (e.msg.1.bytes ++ stored rest) := h.window
  exact ⟨hwin.left, by omega, by omega, by rw [h.head, pos_mod]⟩

/-- A message with a body moves the head like any other offset. -/
theorem nextHead_eq {m : BodyMsg} (hsize : m.1.size ≤ s.mq.blocksize)
    (hhead : s.mq.head = pos s.mq.blocksize R) :
    nextHead s.mq.blocksize s.mq.head m.1.size = pos s.mq.blocksize (R + m.1.size) := by
  have heq : m.1.size = cHeadSize + m.1.blob.len + m.1.blob.extLen := m.1.size_eq
  have hC : cHeadSize = 27 := rfl
  have hbody : ¬ m.1.size = cHeadSize := by
    intro h
    exact m.2 ⟨by omega, by omega⟩
  rw [nextHead, if_neg (fun h => hbody h.2), pos_add R (by omega) hsize, hhead]

/-- Publishing the head releases the oldest message. -/
theorem Holds.release {e : Published} {rest : List Published} {c : Consumer} {newHead : ℕ}
    (h : Holds s (e :: rest) R W)
    (hnew : newHead = nextHead s.mq.blocksize s.mq.head e.msg.1.size)
    (hc : ConsumerOk { s.mq with head := newHead } rest c) :
    Holds { s with
      mq := { s.mq with head := newHead }
      consumer := c
      delivered := s.delivered ++ [e.msg.1.delivery] } rest (R + e.msg.1.size) W := by
  obtain ⟨hdel, hahead, hhead, htail, hroom, hstart, hwin, hcov, hsized⟩ := h.shared
  obtain ⟨released, hpub, hdel⟩ := hdel
  have hahead' : W = R + (e.msg.1.size + sizes rest) := hahead
  obtain ⟨-, hle, hlt, -⟩ := h.shared.oldest
  have hlen := e.msg.1.length_bytes
  have hwin' : Window s.mq.block s.mq.blocksize R (e.msg.1.bytes ++ stored rest) := hwin
  have hcov' : Covers s.mq.blocksize R (e.segs ++ segments rest) := hcov
  refine ⟨⟨⟨released ++ [e], by simp [hpub], by simp [hdel]⟩, by omega, ?_, htail, ?_, hstart, ?_,
    ?_, fun e' he' => hsized e' (.tail _ he')⟩, ?_, hc⟩
  · exact hnew.trans (nextHead_eq hlt.le hhead)
  · simp only
    omega
  · rw [← hlen]
    exact hwin'.right
  · rw [← hsized e List.mem_cons_self]
    exact (covers_append.mp hcov').2
  · -- the producer sees more room than before
    have hp := h.producer
    simp only
    cases hpc : s.producer with
    | idle => trivial
    | gotHead m head =>
        rw [hpc] at hp
        obtain ⟨R₀, hR₀, hrest⟩ := hp
        exact ⟨R₀, by omega, hrest⟩
    | copying m plan todo =>
        rw [hpc] at hp
        obtain ⟨hplan, hfit, hstore⟩ := hp
        have hstore' : Storing s.mq.block s.mq.blocksize R (e.msg.1.bytes ++ stored rest)
          plan.writes todo := hstore
        refine ⟨hplan, by simp only; omega, ?_⟩
        rw [← hlen]
        exact hstore'.release

/-- A step of the consumer that stores nothing. -/
theorem Holds.consumer_moves {c : Consumer} (h : Holds s pend R W) (hc : ConsumerOk s.mq pend c) :
    Holds { s with consumer := c } pend R W :=
  ⟨⟨h.shared.delivered, h.shared.ahead, h.shared.head, h.shared.tail, h.shared.room,
    h.shared.start, h.shared.window, h.shared.covers, h.shared.sized⟩, h.producer, hc⟩

/-- Behind the head that it reads, the consumer finds the oldest message. -/
theorem Holds.sees_oldest (h : Holds s pend R W) (hne : s.mq.head ≠ s.mq.tail) :
    ∃ e rest, pend = e :: rest ∧
      e.msg.1.size ≤ usedLen s.mq.blocksize s.mq.head s.mq.tail := by
  have hahead := h.shared.ahead
  rw [h.shared.apart.usedLen s.mq.blocksize_lt hne]
  cases pend with
  | nil =>
      exfalso
      have hzero : W = R := hahead
      rw [h.shared.head, h.shared.tail, hzero] at hne
      exact hne rfl
  | cons e rest => exact ⟨e, rest, rfl, by simp [sizes] at hahead; omega⟩

theorem inv_consume (h : Inv s) : Inv s.consume := by
  obtain ⟨pend, R, W, h⟩ := h
  have hc := h.consumer
  have hB := s.mq.blocksize_lt
  unfold consume
  split
  · -- read `*head_`
    exact ⟨pend, R, W, h.consumer_moves rfl⟩
  · -- read `*tail_`
    rename_i head hpc
    rw [hpc] at hc
    have hhead : head = s.mq.head := hc
    subst hhead
    split
    · exact ⟨pend, R, W, h.consumer_moves trivial⟩
    · next hne =>
        obtain ⟨e, rest, hpend, hused⟩ := h.sees_oldest hne
        exact ⟨pend, R, W, h.consumer_moves ⟨e, rest, hpend, hused, rfl, .start⟩⟩
  · -- one copy of the head
    rename_i used dataPos p n todo sHead hpc
    rw [hpc] at hc
    obtain ⟨e, rest, rfl, hused, hpos, hload⟩ := hc
    obtain ⟨hwin, hle, hlt, hmod⟩ := h.shared.oldest
    obtain ⟨hcov, htotal, -⟩ := headReads_spec (k := R) hB h.shared.apart.1 hmod
      (by rw [e.msg.1.size_eq] at hlt; omega)
    have hnext := hload.step hwin.left hcov (by rw [htotal, e.msg.1.length_sHead])
    exact ⟨_, R, W, h.consumer_moves ⟨e, rest, rfl, hused, hpos, hnext⟩⟩
  · -- the head is complete
    rename_i used dataPos sHead hpc
    rw [hpc] at hc
    obtain ⟨e, rest, rfl, hused, rfl, hload⟩ := hc
    obtain ⟨hwin, hle, hlt, hmod⟩ := h.shared.oldest
    obtain ⟨hcov, htotal, -⟩ := headReads_spec (k := R) hB h.shared.apart.1 hmod
      (by rw [e.msg.1.size_eq] at hlt; omega)
    have hhead := hload.finish (by rw [htotal, e.msg.1.length_sHead])
    subst hhead
    have hok := lengthsOk_parse (by omega) hused
    simp only [hok, not_true_eq_false, if_false]
    split
    · exact ⟨_, R, W, h.consumer_moves trivial⟩
    · exact ⟨_, R, W, h.consumer_moves ⟨e, rest, rfl, rfl, rfl, .start⟩⟩
  · -- one copy of the data
    rename_i hd plan p n todo data hpc
    rw [hpc] at hc
    obtain ⟨e, rest, rfl, rfl, hplan, hload⟩ := hc
    obtain ⟨hwin, hle, hlt, hmod⟩ := h.shared.oldest
    obtain ⟨hcov, htotal, -⟩ := bodyPlan_parse e.msg.1 hB h.shared.apart.1 hmod hlt.le
    rw [← hplan] at hcov htotal
    have hnext := hload.step (window_data hwin).1 hcov htotal
    exact ⟨_, R, W, h.consumer_moves ⟨e, rest, rfl, rfl, hplan, hnext⟩⟩
  · -- the data is complete
    rename_i hd plan data hpc
    rw [hpc] at hc
    obtain ⟨e, rest, rfl, rfl, rfl, hload⟩ := hc
    obtain ⟨hwin, hle, hlt, hmod⟩ := h.shared.oldest
    obtain ⟨-, htotal, -⟩ := bodyPlan_parse e.msg.1 hB h.shared.apart.1 hmod hlt.le
    have hdata := hload.finish htotal
    exact ⟨_, R, W, h.consumer_moves ⟨e, rest, rfl, rfl, rfl, hdata, .start⟩⟩
  · -- one copy of the extended data
    rename_i hd plan data p n todo ext hpc
    rw [hpc] at hc
    obtain ⟨e, rest, rfl, rfl, hplan, hdata, hload⟩ := hc
    obtain ⟨hwin, hle, hlt, hmod⟩ := h.shared.oldest
    obtain ⟨-, -, hcov, htotal, -⟩ := bodyPlan_parse e.msg.1 hB h.shared.apart.1 hmod hlt.le
    rw [← hplan] at hcov htotal
    have hnext := hload.step (window_data hwin).2 hcov htotal
    exact ⟨_, R, W, h.consumer_moves ⟨e, rest, rfl, rfl, hplan, hdata, hnext⟩⟩
  · -- publish the head
    rename_i hd plan data ext hpc
    rw [hpc] at hc
    obtain ⟨e, rest, rfl, rfl, rfl, rfl, hload⟩ := hc
    obtain ⟨hwin, hle, hlt, hmod⟩ := h.shared.oldest
    obtain ⟨-, -, -, htotal, hnew⟩ := bodyPlan_parse e.msg.1 hB h.shared.apart.1 hmod hlt.le
    have hext := hload.finish htotal
    have hdel : deliver (Head.parse e.msg.1.sHead) e.msg.1.blob.data ext =
        e.msg.1.delivery := by
      rw [deliver, e.msg.1.parse_sHead, hext, Msg.delivery]
    rw [hdel]
    exact ⟨rest, _, W, h.release hnew trivial⟩
  · next hpc =>
      rw [hpc] at hc
      exact hc.elim

/-! ## Runs -/

theorem inv_step (t : Turn) (h : Inv s) : Inv (s.step t) := by
  cases t with
  | producer m => exact inv_produce m h
  | consumer => exact inv_consume h

theorem inv_run (shmsize : ShmSize) (block : ℕ → UInt8) (turns : List Turn) :
    Inv (turns.foldl step (start shmsize block)) :=
  List.foldlRecOn turns step (inv_start shmsize block) fun _ h t _ => inv_step t h

/-- The messages delivered so far are the first ones published. -/
theorem Inv.delivered_isPrefix (h : Inv s) :
    s.delivered <+: s.published.map fun e => e.msg.1.delivery := by
  obtain ⟨pend, R, W, h⟩ := h
  obtain ⟨released, hpub, hdel⟩ := h.shared.delivered
  rw [hpub, hdel, List.map_append]
  exact List.prefix_append _ _

/-- The producer writes to no cell of an unreleased message. -/
theorem Inv.writing_disjoint (h : Inv s) {seg seg' : ℕ × ℕ} {e : Published}
    (hseg : seg ∈ s.writing) (he : e ∈ s.unreleased) (hseg' : seg' ∈ e.segs) :
    Disjoint (cells seg) (cells seg') := by
  obtain ⟨pend, R, W, h⟩ := h
  obtain ⟨released, hpub, hdel⟩ := h.shared.delivered
  have hun : s.unreleased = pend := by
    rw [unreleased, hdel, List.length_map, hpub, List.drop_left]
  rw [hun] at he
  have hp := h.producer
  unfold writing at hseg
  split at hseg
  · next m plan todo hpc =>
      rw [hpc] at hp
      obtain ⟨rfl, hfit, -⟩ := hp
      have hahead := h.shared.ahead
      have htotals := total_segments h.shared.sized
      obtain ⟨hcov, htotal, -, -⟩ := h.shared.writePlan m.1 hfit
      have hmem : seg' ∈ segments pend := List.mem_flatMap.mpr ⟨e, he, hseg'⟩
      exact (h.shared.covers.disjoint hcov (by omega) (by omega) hmem hseg).symm
  · simp at hseg

/-- In every interleaving the consumer delivers a prefix of what the producer published,
and the producer writes to no cell of a message that is published and not released. -/
theorem spsc_safe (shmsize : ShmSize) (block : ℕ → UInt8) (turns : List Turn) :
    let s := turns.foldl step (start shmsize block)
    s.delivered <+: s.published.map (fun e => e.msg.1.delivery) ∧
      ∀ seg ∈ s.writing, ∀ e ∈ s.unreleased, ∀ seg' ∈ e.segs,
        Disjoint (cells seg) (cells seg') :=
  ⟨(inv_run shmsize block turns).delivered_isPrefix,
    fun _ hseg _ he _ hseg' => (inv_run shmsize block turns).writing_disjoint hseg he hseg'⟩

end Spsc
end Spp
