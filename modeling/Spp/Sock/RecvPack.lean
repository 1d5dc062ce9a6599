import Spp.Lib.Mem
import Spp.Lib.Word

/-!
# Receiving a packet

`RecvPack` receives a header, asks a callback for the length of the packet, and receives the
rest.  The rest is a difference of unsigned numbers: a length below that of the header makes
it almost `2 ^ 32`, and then the peer decides how much is written behind the header.

## Main definitions

* `Turn` — what the system answers in one turn of a receive loop.
* `Conn` — the caller's buffer and what the peer still sends.
* `Conn.recvLoop`, `Conn.readLoop`, `Conn.recvN`, `Conn.recvPack`.
* `Conn.Progress` — what has been received is in the buffer, and nothing else is written.
* `KeepsBuffer` — the claim on a call: the writes, and what a positive result means.
-/

namespace Spp

/-- What `recv` does: it gives at most `k` bytes, or it fails. -/
inductive Got
  | bytes (k : ℕ)
  | eintr
  | error

/-- One turn of a loop: what `select` returns, what `recv` does, and the milliseconds since
the start of the loop. -/
structure Turn where
  iNum : ℤ
  got : Got
  elapsed : ℤ

/-- A connection while a packet is received.  `mem` is the memory from `pBuffer` on, `stream`
what the peer sends from now on, and `written` has the place and the length of every write. -/
structure Conn where
  mem : ℕ → UInt8
  stream : List UInt8
  written : List (ℕ × ℕ)

/-- The callback of the update client: the big-endian number behind the first 3 bytes. -/
def handleInput (buf : List UInt8) : Int32 :=
  if buf.length < 7 then 0 else Int32.ofNat (ofBe ((buf.drop 3).take 4))

/-- A value returned, or `none` while the caller waits; the bytes received; the turns that are
left. -/
structure RecvResult where
  ret : Option ℤ
  nread : ℕ
  conn : Conn
  turns : List Turn

/-- `WaitRead` on a socket that is open. -/
def Turn.waitRead (t : Turn) : ℤ := if t.iNum = 1 then 0 else if t.iNum = 0 then -2 else -1

namespace Conn

/-- `n` bytes are received at `ptr`. -/
def deliver (c : Conn) (ptr n : ℕ) : Conn where
  mem := Mem.write c.mem ptr (c.stream.take n)
  stream := c.stream.drop n
  written := c.written ++ [(ptr, n)]

/-- How many bytes `recv` gives when it may give `left`. -/
def ready (c : Conn) (k left : ℕ) : ℕ := min (min k left) c.stream.length

/-- The loop of `RecvN`. -/
def recvLoop (nBytes : ℕ) : List Turn → ℤ → ℕ → ℕ → ℕ → Conn → RecvResult
  | [], _, _, _, nread, c => ⟨none, nread, c, []⟩
  | t :: ts, timeout, left, ptr, nread, c =>
      if t.waitRead < 0 then ⟨some t.waitRead, nread, c, ts⟩
      else match t.got with
        | .eintr => recvLoop nBytes ts timeout left ptr nread c
        | .error => ⟨some (-1), nread, c, ts⟩
        | .bytes k =>
            let n := c.ready k left
            if n = 0 then ⟨some 0, nread, c, ts⟩
            else
              let c := c.deliver ptr n
              let left := left - n
              let ptr := ptr + n
              let nread := nread + n
              if left = 0 then
                if nread = nBytes then ⟨some (s32 nread), nread, c, ts⟩
                else ⟨some (-2), nread, c, ts⟩
              else
                let timeout := timeout - t.elapsed
                if timeout ≤ 0 then ⟨some (-2), nread, c, ts⟩
                else recvLoop nBytes ts timeout left ptr nread c

/-- The loop of `ReadN`, which does not look at the clock. -/
def readLoop : List Turn → ℕ → ℕ → ℕ → Conn → RecvResult
  | ts, 0, _, nread, c => ⟨some (s32 nread), nread, c, ts⟩
  | [], _ + 1, _, nread, c => ⟨none, nread, c, []⟩
  | t :: ts, nleft + 1, ptr, nread, c =>
      match t.got with
      | .eintr => readLoop ts (nleft + 1) ptr nread c
      | .error => ⟨some (-1), nread, c, ts⟩
      | .bytes k =>
          let n := c.ready k (nleft + 1)
          if n = 0 then ⟨some 0, nread, c, ts⟩
          else readLoop ts (nleft + 1 - n) (ptr + n) (nread + n) (c.deliver ptr n)

/-- `RecvN` with `nread` set to 0; `fd` is `m_iSocket`. -/
def recvN (c : Conn) (fd : ℤ) (ts : List Turn) (ptr nBytes : ℕ) (timeout : ℤ) : RecvResult :=
  if fd < 0 then ⟨some (-1), 0, c, ts⟩
  else if timeout < 0 then readLoop ts nBytes ptr 0 c
  else recvLoop nBytes ts timeout nBytes ptr 0 c

/-- `RecvPack`.  The callback is asked about the header, and `elapsed` is the time that the
header took. -/
def recvPack (c : Conn) (fd : ℤ) (ts : List Turn) (elapsed : ℤ) (pf : List UInt8 → Int32)
    (hlen nBytes : UInt32) (timeout : ℤ) : RecvResult :=
  let head := c.recvN fd ts 0 hlen.toNat timeout
  if head.ret = none ∨ head.nread ≠ hlen.toNat then head
  else
    let timeout' := if timeout > 0 then timeout - elapsed else timeout
    if timeout > 0 ∧ timeout' < 0 then { head with ret := some (-2) }
    else
      let packLen := (pf (Mem.read head.conn.mem 0 hlen.toNat)).toInt
      if packLen ≤ 0 then { head with ret := some (-3) }
      else if packLen.toNat = hlen.toNat then { head with ret := some packLen }
      else if packLen.toNat > nBytes.toNat then { head with ret := some (-4) }
      else
        let body := head.conn.recvN fd head.turns hlen.toNat
          (u32sub packLen.toNat hlen.toNat) timeout'
        let nread := u32 (head.nread + body.nread)
        if body.ret ≠ none ∧ nread = packLen.toNat then
          { body with ret := some (s32 nread), nread := nread }
        else { body with nread := nread }

/-! ## The loops -/

/-- `nread` of the bytes that `c₀` had to come are at `dst`, and nothing else is written. -/
structure Progress (dst : ℕ) (c₀ : Conn) (nread : ℕ) (c : Conn) : Prop where
  le_stream : nread ≤ c₀.stream.length
  stream : c.stream = c₀.stream.drop nread
  mem : c.mem = Mem.write c₀.mem dst (c₀.stream.take nread)
  written : ∀ r ∈ c.written, r ∈ c₀.written ∨ dst ≤ r.1 ∧ r.1 + r.2 ≤ dst + nread

/-- What a receive loop comes to: at most `nBytes` bytes, and all of them where the result is
positive. -/
structure Fills (dst nBytes : ℕ) (c₀ : Conn) (out : RecvResult) : Prop where
  le : out.nread ≤ nBytes
  progress : Progress dst c₀ out.nread out.conn
  all : ∀ r, out.ret = some r → 0 < r → out.nread = nBytes

variable {c c₀ : Conn} {dst nBytes left nread n k : ℕ} {ts : List Turn} {timeout : ℤ}

theorem Progress.start (dst : ℕ) (c : Conn) : Progress dst c 0 c :=
  ⟨Nat.zero_le _, by simp, by simp, fun r hr => .inl hr⟩

theorem Progress.deliver (h : Progress dst c₀ nread c) (hn : n ≤ c.stream.length) :
    Progress dst c₀ (nread + n) (c.deliver (dst + nread) n) := by
  have hle := h.le_stream
  have hlen : (c₀.stream.take nread).length = nread := by simp [hle]
  rw [h.stream, List.length_drop] at hn
  refine ⟨by omega, ?_, ?_, ?_⟩
  · simp [Conn.deliver, h.stream]
  · simp only [Conn.deliver, h.mem, h.stream]
    rw [List.take_add, Mem.write_append, hlen]
  · intro r hr
    simp only [Conn.deliver, List.mem_append, List.mem_singleton] at hr
    rcases hr with hr | rfl
    · rcases h.written r hr with hold | hnew
      · exact .inl hold
      · exact .inr ⟨hnew.1, by omega⟩
    · exact .inr ⟨by simp, by simp; omega⟩

theorem ready_le (c : Conn) (k left : ℕ) :
    c.ready k left ≤ left ∧ c.ready k left ≤ c.stream.length := by
  rw [ready]
  omega

theorem recvLoop_fills (hsum : left + nread = nBytes) (h : Progress dst c₀ nread c) :
    Fills dst nBytes c₀ (recvLoop nBytes ts timeout left (dst + nread) nread c) := by
  induction ts generalizing timeout left nread c with
  | nil => exact ⟨by simp only [recvLoop]; omega, h, by simp [recvLoop]⟩
  | cons t ts ih =>
      rw [recvLoop]
      split
      next hwait =>
        refine ⟨by dsimp only; omega, h, ?_⟩
        simp only [Option.some.injEq]
        omega
      next =>
        cases t.got with
        | eintr => exact ih hsum h
        | error => exact ⟨by dsimp only; omega, h, by simp⟩
        | bytes k =>
            have hready := ready_le c k left
            have hnext := h.deliver hready.2
            dsimp only
            split
            next => exact ⟨by dsimp only; omega, h, by simp⟩
            next =>
              split
              next hdone =>
                split
                next hall => exact ⟨by dsimp only; omega, hnext, fun _ _ _ => hall⟩
                next => exact ⟨by dsimp only; omega, hnext, by simp⟩
              next =>
                split
                next => exact ⟨by dsimp only; omega, hnext, by simp⟩
                next =>
                  rw [Nat.add_assoc]
                  exact ih (by omega) hnext

theorem readLoop_fills (hsum : left + nread = nBytes) (h : Progress dst c₀ nread c) :
    Fills dst nBytes c₀ (readLoop ts left (dst + nread) nread c) := by
  induction ts generalizing left nread c with
  | nil =>
      cases left with
      | zero => exact ⟨by simp only [readLoop]; omega, by simpa [readLoop] using h, by
          simp only [readLoop]; omega⟩
      | succ left => exact ⟨by simp only [readLoop]; omega, h, by simp [readLoop]⟩
  | cons t ts ih =>
      cases left with
      | zero => exact ⟨by simp only [readLoop]; omega, by simpa [readLoop] using h, by
          simp only [readLoop]; omega⟩
      | succ left =>
          rw [readLoop]
          cases t.got with
          | eintr => exact ih hsum h
          | error => exact ⟨by dsimp only; omega, h, by simp⟩
          | bytes k =>
              have hready := ready_le c k (left + 1)
              have hnext := h.deliver hready.2
              dsimp only
              split
              next => exact ⟨by dsimp only; omega, h, by simp⟩
              next =>
                rw [Nat.add_assoc]
                exact ih (by omega) hnext

/-- `RecvN` receives as the loops do. -/
theorem recvN_fills (c : Conn) (fd : ℤ) (ts : List Turn) (dst nBytes : ℕ) (timeout : ℤ) :
    Fills dst nBytes c (c.recvN fd ts dst nBytes timeout) := by
  rw [recvN]
  split
  next => exact ⟨Nat.zero_le _, .start dst c, by simp⟩
  next =>
    split
    next => exact readLoop_fills (Nat.add_zero nBytes) (.start dst c)
    next => exact recvLoop_fills (Nat.add_zero nBytes) (.start dst c)

/-! ## The packet -/

/-- Nothing is written behind the buffer of `nBytes` bytes, and a positive result is the length
that the callback announced, with that many bytes of the stream in the buffer. -/
structure KeepsBuffer (c : Conn) (pf : List UInt8 → Int32) (hlen nBytes : UInt32)
    (out : RecvResult) : Prop where
  inside : ∀ r ∈ out.conn.written, r ∈ c.written ∨ r.1 + r.2 ≤ nBytes.toNat
  announced : ∀ n, out.ret = some n → 0 < n →
    n = (pf (c.stream.take hlen.toNat)).toInt ∧
      Mem.read out.conn.mem 0 n.toNat = c.stream.take n.toNat

variable {m : ℕ}

/-- What is received behind what was received. -/
theorem Progress.trans {c₁ c₂ : Conn} (h₁ : Progress 0 c₀ m c₁) (h₂ : Progress m c₁ n c₂) :
    Progress 0 c₀ (m + n) c₂ := by
  have hle := h₁.le_stream
  have hle' := h₂.le_stream
  have hlen : (c₀.stream.take m).length = m := by simp [hle]
  rw [h₁.stream, List.length_drop] at hle'
  refine ⟨by omega, ?_, ?_, ?_⟩
  · rw [h₂.stream, h₁.stream, List.drop_drop]
  · rw [h₂.mem, h₁.mem, h₁.stream, List.take_add, Mem.write_append, hlen, Nat.zero_add]
  · intro r hr
    rcases h₂.written r hr with hold | hnew
    · rcases h₁.written r hold with hold | hnew
      · exact .inl hold
      · exact .inr ⟨hnew.1, by omega⟩
    · exact .inr ⟨by omega, by omega⟩

theorem Progress.read (h : Progress 0 c₀ n c) : Mem.read c.mem 0 n = c₀.stream.take n := by
  have hlen : (c₀.stream.take n).length = n := by simp [h.le_stream]
  have hread := Mem.read_write_self c₀.mem 0 (c₀.stream.take n)
  rw [hlen] at hread
  rw [h.mem, hread]

/-- `m` bytes are received, which fit in a buffer of `nBytes`, and a positive result is the
length that the callback announced, which is `m`. -/
structure ReceivesAll (c : Conn) (pf : List UInt8 → Int32) (hlen nBytes : UInt32) (m : ℕ)
    (out : RecvResult) : Prop where
  progress : Progress 0 c m out.conn
  le : m ≤ nBytes.toNat
  announced : ∀ r, out.ret = some r → 0 < r →
    r = (pf (c.stream.take hlen.toNat)).toInt ∧ r.toNat = m

/-- A length that is not between 1 and that of the header does no harm, and neither does a
stream that fits in the buffer. -/
theorem recvPack_receivesAll (c : Conn) (fd : ℤ) (ts : List Turn) (elapsed : ℤ)
    (pf : List UInt8 → Int32) {hlen nBytes : UInt32} (hle : hlen ≤ nBytes) (timeout : ℤ)
    (hcond : c.stream.length < hlen.toNat ∨ (pf (c.stream.take hlen.toNat)).toInt ≤ 0 ∨
      (hlen.toNat : ℤ) ≤ (pf (c.stream.take hlen.toNat)).toInt ∨
      c.stream.length ≤ nBytes.toNat) :
    ∃ m, ReceivesAll c pf hlen nBytes m (c.recvPack fd ts elapsed pf hlen nBytes timeout) := by
  have hle' : hlen.toNat ≤ nBytes.toNat := hle
  have hlt := nBytes.toNat_lt
  have hhead := recvN_fills c fd ts 0 hlen.toNat timeout
  rw [recvPack]
  generalize c.recvN fd ts 0 hlen.toNat timeout = head at hhead ⊢
  have hstream := hhead.progress.le_stream
  have hnread := hhead.le
  dsimp only
  generalize (if timeout > 0 then timeout - elapsed else timeout) = timeout'
  split
  next hshort =>
    refine ⟨_, hhead.progress, by omega, ?_⟩
    intro r hret hr
    have hall := hhead.all r hret hr
    rcases hshort with hnone | hne
    · rw [hret] at hnone
      cases hnone
    · exact absurd hall hne
  next hfull =>
    obtain ⟨-, hfull⟩ : head.ret ≠ none ∧ head.nread = hlen.toNat := by simpa using hfull
    have hread : Mem.read head.conn.mem 0 hlen.toNat = c.stream.take hlen.toNat := by
      rw [← hfull]
      exact hhead.progress.read
    rw [hread]
    have hpack := (pf (c.stream.take hlen.toNat)).toInt_lt
    generalize hp : (pf (c.stream.take hlen.toNat)).toInt = packLen at hcond hpack ⊢
    split
    next => exact ⟨_, hhead.progress, by omega, by simp⟩
    next =>
      split
      next => exact ⟨_, hhead.progress, by omega, by simp⟩
      next hpos =>
        split
        next hempty =>
          refine ⟨_, hhead.progress, by omega, ?_⟩
          simp only [Option.some.injEq]
          rintro r rfl -
          exact ⟨hp.symm, by omega⟩
        next hne =>
          split
          next => exact ⟨_, hhead.progress, by omega, by simp⟩
          next hroom =>
            have hbody := recvN_fills head.conn fd head.turns hlen.toNat
              (u32sub packLen.toNat hlen.toNat) timeout'
            generalize head.conn.recvN fd head.turns hlen.toNat
              (u32sub packLen.toNat hlen.toNat) timeout' = body at hbody ⊢
            have hprogress := hhead.progress.trans (hfull ▸ hbody.progress)
            have hstream' := hprogress.le_stream
            have hmore := hbody.le
            have hsum : head.nread + body.nread ≤ nBytes.toNat := by
              rcases hcond with hcond | hcond | hcond | hcond
              · omega
              · omega
              · rw [u32sub_of_le (by omega) (by omega)] at hmore
                omega
              · omega
            have hwrap : u32 (head.nread + body.nread) = head.nread + body.nread :=
              u32_of_lt (by omega)
            rw [hwrap]
            split
            next hdone =>
              refine ⟨_, hprogress, hsum, ?_⟩
              simp only [Option.some.injEq]
              rintro r rfl -
              rw [hdone.2, s32_of_bounds (by omega) (by omega)]
              exact ⟨by omega, by omega⟩
            next hrest =>
              refine ⟨_, hprogress, hsum, ?_⟩
              intro r hret hr
              have hret' : body.ret = some r := hret
              have hall := hbody.all r hret' hr
              refine absurd ⟨by simp [hret'], ?_⟩ hrest
              by_cases hbelow : hlen.toNat ≤ packLen.toNat
              · rw [u32sub_of_le hbelow (by omega)] at hall
                omega
              · rw [u32sub, Nat.mod_eq_of_lt (by omega)] at hall
                omega

theorem keepsBuffer_of_le (c : Conn) (fd : ℤ) (ts : List Turn) (elapsed : ℤ)
    (pf : List UInt8 → Int32) {hlen nBytes : UInt32} (hle : hlen ≤ nBytes) (timeout : ℤ)
    (hcond : c.stream.length < hlen.toNat ∨ (pf (c.stream.take hlen.toNat)).toInt ≤ 0 ∨
      (hlen.toNat : ℤ) ≤ (pf (c.stream.take hlen.toNat)).toInt ∨
      c.stream.length ≤ nBytes.toNat) :
    KeepsBuffer c pf hlen nBytes (c.recvPack fd ts elapsed pf hlen nBytes timeout) := by
  obtain ⟨m, hprogress, hm, hannounced⟩ :=
    recvPack_receivesAll c fd ts elapsed pf hle timeout hcond
  constructor
  · intro r hr
    rcases hprogress.written r hr with hold | hnew
    · exact .inl hold
    · exact .inr (by omega)
  · intro r hret hr
    obtain ⟨hann, hrm⟩ := hannounced r hret hr
    exact ⟨hann, by rw [hrm]; exact hprogress.read⟩

/-! ## What the peer can do -/

/-- All that is asked for arrives at once. -/
theorem recvN_all (hpos : 0 < n) (hn : n ≤ c.stream.length) (ptr : ℕ) :
    c.recvN 0 (⟨1, .bytes n, 0⟩ :: ts) ptr n timeout =
      ⟨some (s32 n), n, c.deliver ptr n, ts⟩ := by
  have hready : c.ready n n = n := by
    rw [ready]
    omega
  rw [recvN, if_neg (by omega)]
  split
  next =>
    cases n with
    | zero => omega
    | succ n => simp [readLoop, hready]
  next => simp [recvLoop, Turn.waitRead, hready, hpos.ne']

/-- Less than what is asked for arrives. -/
theorem recvN_part (hpos : 0 < n) (hn : n ≤ c.stream.length) (hlt : n < nBytes) (ptr : ℕ) :
    (c.recvN 0 [⟨1, .bytes n, 0⟩] ptr nBytes timeout).conn = c.deliver ptr n := by
  have hready : c.ready n nBytes = n := by
    rw [ready]
    omega
  rw [recvN, if_neg (by omega)]
  split
  next =>
    cases nBytes with
    | zero => omega
    | succ left =>
        have hleft : ∃ k, left + 1 - n = k + 1 := ⟨left - n, by omega⟩
        obtain ⟨k, hk⟩ := hleft
        simp [readLoop, hready, hpos.ne', hk]
  next =>
    have hleft : nBytes - n ≠ 0 := by omega
    simp only [recvLoop, Turn.waitRead, hready, hpos.ne', if_true, lt_irrefl, if_false, hleft]
    split <;> rfl

/-- After a length below that of the header, one byte more than the buffer has room for is
received. -/
theorem recvPack_outside (pf : List UInt8 → Int32) {hlen nBytes : UInt32} (hle : hlen ≤ nBytes)
    (timeout : ℤ) (hlong : nBytes.toNat < c.stream.length)
    (hpos : 0 < (pf (c.stream.take hlen.toNat)).toInt)
    (hshort : (pf (c.stream.take hlen.toNat)).toInt < hlen.toNat) :
    (hlen.toNat, nBytes.toNat - hlen.toNat + 1) ∈
      (c.recvPack 0 [⟨1, .bytes hlen.toNat, 0⟩, ⟨1, .bytes (nBytes.toNat - hlen.toNat + 1), 0⟩] 0
        pf hlen nBytes timeout).conn.written := by
  have hle' : hlen.toNat ≤ nBytes.toNat := hle
  have hlt := nBytes.toNat_lt
  have hhead := ((Progress.start 0 c).deliver (n := hlen.toNat) (by omega)).read
  simp only [Nat.zero_add] at hhead
  have hin : (c.deliver 0 hlen.toNat).stream.length = c.stream.length - hlen.toNat := by
    simp [Conn.deliver]
  have htime : ¬(timeout > 0 ∧ timeout < 0) := by omega
  rw [recvPack, recvN_all (by omega) (by omega)]
  simp only [hhead, sub_zero, ite_self, htime, if_false]
  generalize (pf (c.stream.take hlen.toNat)).toInt = packLen at hpos hshort ⊢
  have hmore : (recvN (c.deliver 0 hlen.toNat) 0
      [⟨1, .bytes (nBytes.toNat - hlen.toNat + 1), 0⟩] hlen.toNat
      (u32sub packLen.toNat hlen.toNat) timeout).conn =
        (c.deliver 0 hlen.toNat).deliver hlen.toNat (nBytes.toNat - hlen.toNat + 1) := by
    apply recvN_part
    · omega
    · omega
    · rw [u32sub, Nat.mod_eq_of_lt (by omega)]
      omega
  rw [if_neg (by simp), if_neg (by omega), if_neg (by omega), if_neg (by omega)]
  split
  all_goals
    rw [hmore]
    simp [Conn.deliver]

/-- **`RecvPack` stays inside the buffer exactly where the stream gives it no length between 1
and that of the header.**  A stream that is no longer than the buffer cannot leave it either. -/
theorem recvPack_keeps_iff (pf : List UInt8 → Int32) {hlen nBytes : UInt32} (hle : hlen ≤ nBytes)
    (timeout : ℤ) (stream : List UInt8) :
    (∀ mem fd ts elapsed, KeepsBuffer ⟨mem, stream, []⟩ pf hlen nBytes
        (recvPack ⟨mem, stream, []⟩ fd ts elapsed pf hlen nBytes timeout)) ↔
      stream.length < hlen.toNat ∨ (pf (stream.take hlen.toNat)).toInt ≤ 0 ∨
        (hlen.toNat : ℤ) ≤ (pf (stream.take hlen.toNat)).toInt ∨
          stream.length ≤ nBytes.toNat := by
  constructor
  · intro hkeeps
    by_contra hcond
    simp only [not_or, not_lt, not_le] at hcond
    obtain ⟨hhead, hpos, hshort, hlong⟩ := hcond
    have hle' : hlen.toNat ≤ nBytes.toNat := hle
    -- the header arrives, and then one byte more than the buffer has room for
    have hin := (hkeeps (fun _ => 0) 0 _ 0).inside _
      (recvPack_outside pf hle timeout hlong hpos hshort)
    simp only [List.not_mem_nil, false_or] at hin
    omega
  · intro hcond mem fd ts elapsed
    exact keepsBuffer_of_le _ fd ts elapsed pf hle timeout hcond

/-- A packet of 12 bytes with more behind it, for a buffer of 16. -/
theorem recvPack_keeps_body :
    let stream := [0, 0, 0, 0, 0, 0, 12, 1, 2, 3, 4, 5] ++ List.replicate 20 9
    (∀ mem fd ts elapsed, KeepsBuffer ⟨mem, stream, []⟩ handleInput 7 16
        (recvPack ⟨mem, stream, []⟩ fd ts elapsed handleInput 7 16 (-1))) ∧
      (recvPack ⟨fun _ => 0, stream, []⟩ 0 [⟨1, .bytes 7, 0⟩, ⟨1, .bytes 5, 0⟩] 0 handleInput 7 16
        (-1)).ret = some 12 := by
  intro stream
  constructor
  · exact (recvPack_keeps_iff handleInput (by decide) (-1) stream).mpr
      (.inr (.inr (.inl (by decide))))
  · decide

/-- A header of 7 bytes that announces a packet of 3, and 32 bytes after it, for a buffer
of 16. -/
theorem not_recvPack_keeps :
    ¬∀ (pf : List UInt8 → Int32) (hlen nBytes : UInt32), hlen ≤ nBytes →
      ∀ (timeout : ℤ) (stream : List UInt8) mem fd ts elapsed,
        KeepsBuffer ⟨mem, stream, []⟩ pf hlen nBytes
          (recvPack ⟨mem, stream, []⟩ fd ts elapsed pf hlen nBytes timeout) := by
  intro hkeeps
  have hin := (hkeeps handleInput 7 16 (by decide) (-1)
    ([0, 0, 0, 0, 0, 0, 3] ++ List.replicate 32 0) (fun _ => 0) 0
    [⟨1, .bytes 7, 0⟩, ⟨1, .bytes 32, 0⟩] 0).inside (7, 32) (by decide)
  simp at hin

end Conn

end Spp
