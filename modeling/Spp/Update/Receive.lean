import Spp.Lib.Run
import Spp.Sock.RecvPack

/-!
# The receive loop of the update client

`realrun` calls `RecvPack` with a timeout of 100 ms, again and again.  A packet is handed to
`OnProcess`, a timeout keeps the connection, and every other result gives it up.  A call
that times out forgets what it has received, so a timeout inside a packet loses bytes.

## Main definitions

* `RecvCall`, `RecvState`, `receive` — a turn of the loop.
* `Packet` — the bytes of a packet, whose header says how many there are.
* `InTime`, `Idle`, `Undivided` — no timeout falls inside a packet.
* `Framed` — what was taken from the connection are the packets that were handed on.
-/

namespace Spp

/-! ## The loop -/

/-- `MAX_BUFFER_LEN`. -/
def maxBufferLen : UInt32 := 16777216

/-- A turn of the loop of `realrun`: what `SBUFFER` holds before it, since `OnProcess` and
`DoCheckVersion` write requests there, the turns of `RecvPack`, and the time that the header
takes. -/
structure RecvCall where
  buffer : ℕ → UInt8
  turns : List Turn
  elapsed : ℤ

/-- What the server still has to send on the connection, and what `OnProcess` was given. -/
structure RecvState where
  stream : List UInt8
  handed : List (List UInt8)

/-- What a turn comes to; `waiting` is a call that has not returned yet. -/
inductive RecvOutcome
  | waiting
  | packet (blob : List UInt8)
  | timeout
  | reconnect
  deriving DecidableEq

/-- The call of `RecvPack` in `realrun`. -/
def recvCall (fd : ℤ) (stream : List UInt8) (r : RecvCall) : RecvResult :=
  Conn.recvPack ⟨r.buffer, stream, []⟩ fd r.turns r.elapsed handleInput 29 maxBufferLen 100

/-- The part of a turn of `realrun` that receives. -/
def receive (fd : ℤ) (s : RecvState) (r : RecvCall) : RecvState × RecvOutcome :=
  let out := recvCall fd s.stream r
  let s := { s with stream := out.conn.stream }
  match out.ret with
  | none => (s, .waiting)
  | some nRecvByte =>
      if nRecvByte > 0 then
        let blob := Mem.read out.conn.mem 0 nRecvByte.toNat
        ({ s with handed := s.handed ++ [blob] }, .packet blob)
      else if nRecvByte ≠ -2 then (s, .reconnect)
      else (s, .timeout)

/-- The call returns and the connection is kept. -/
def ConnKept (fd : ℤ) (s : RecvState) (r : RecvCall) : Prop :=
  (receive fd s r).2 ≠ .waiting ∧ (receive fd s r).2 ≠ .reconnect

/-! ## Packets -/

/-- A packet: its header announces its length, and there is something behind the header. -/
structure Packet where
  bytes : List UInt8
  long : 29 < bytes.length
  announced : ofBe ((bytes.drop 3).take 4) = bytes.length

/-- The bytes that are sent. -/
def sent (ps : List Packet) : List UInt8 := ps.flatMap Packet.bytes

/-- What was taken from the connection are the first packets, and these were handed on. -/
def Framed (ps : List Packet) (s : RecvState) : Prop :=
  ∃ done coming, ps = done ++ coming ∧ s.handed = done.map Packet.bytes ∧ s.stream = sent coming

/-! ## Timeouts -/

/-- `need` bytes arrive without a timeout, and `next` holds of the turns behind them. -/
def InTime (next : List Turn → Prop) : ℕ → ℤ → List Turn → Prop
  | _, _, [] => True
  | need, budget, t :: ts =>
      t.iNum ≠ 0 ∧ (t.iNum = 1 →
        match t.got with
        | .eintr => InTime next need budget ts
        | .error => True
        | .bytes k => k ≠ 0 →
            if need ≤ k then next ts
            else 0 < budget - t.elapsed ∧ InTime next (need - k) (budget - t.elapsed) ts)

/-- A timeout comes before the first byte. -/
def Idle : List Turn → Prop
  | [] => True
  | t :: ts => t.iNum = 0 ∨ t.iNum = 1 ∧ t.got = .eintr ∧ Idle ts

/-- No timeout falls inside the packet that comes next: it comes before the first byte, or
the header is there within 100 ms and the rest within the time that is left. -/
def Undivided (stream : List UInt8) (r : RecvCall) : Prop :=
  let packLen := ofBe ((stream.drop 3).take 4)
  Idle r.turns ∨
    InTime (fun ts => r.elapsed ≤ 100 ∧ (packLen ≤ maxBufferLen.toNat →
      InTime (fun _ => True) (packLen - 29) (100 - r.elapsed) ts)) 29 100 r.turns

namespace Conn

variable {c : Conn} {nBytes left ptr nread : ℕ} {t : Turn} {ts : List Turn} {timeout : ℤ}
  {next : List Turn → Prop} {out : RecvResult}

/-! ### One turn of `RecvN` -/

/-- What `recvLoop` comes to, by the way its first turn goes. -/
inductive AfterTurn (nBytes : ℕ) (t : Turn) (ts : List Turn) (timeout : ℤ)
    (left ptr nread : ℕ) (c : Conn) : RecvResult → Prop
  | timeout (hzero : t.iNum = 0) :
      AfterTurn nBytes t ts timeout left ptr nread c ⟨some (-2), nread, c, ts⟩
  | failed (hzero : t.iNum ≠ 0) (hone : t.iNum ≠ 1) :
      AfterTurn nBytes t ts timeout left ptr nread c ⟨some (-1), nread, c, ts⟩
  | eintr (hone : t.iNum = 1) (hgot : t.got = .eintr) :
      AfterTurn nBytes t ts timeout left ptr nread c
        (recvLoop nBytes ts timeout left ptr nread c)
  | error (hone : t.iNum = 1) (hgot : t.got = .error) :
      AfterTurn nBytes t ts timeout left ptr nread c ⟨some (-1), nread, c, ts⟩
  | closed (k : ℕ) (hone : t.iNum = 1) (hgot : t.got = .bytes k) (hready : c.ready k left = 0) :
      AfterTurn nBytes t ts timeout left ptr nread c ⟨some 0, nread, c, ts⟩
  | done (k : ℕ) (hone : t.iNum = 1) (hgot : t.got = .bytes k) (hready : c.ready k left = left) :
      AfterTurn nBytes t ts timeout left ptr nread c
        ⟨some (s32 nBytes), nBytes, c.deliver ptr left, ts⟩
  | late (k : ℕ) (hone : t.iNum = 1) (hgot : t.got = .bytes k) (hpos : 0 < c.ready k left)
      (hlt : c.ready k left < left) (htime : timeout ≤ t.elapsed) :
      AfterTurn nBytes t ts timeout left ptr nread c
        ⟨some (-2), nread + c.ready k left, c.deliver ptr (c.ready k left), ts⟩
  | more (k : ℕ) (hone : t.iNum = 1) (hgot : t.got = .bytes k) (hpos : 0 < c.ready k left)
      (hlt : c.ready k left < left) (htime : t.elapsed < timeout) :
      AfterTurn nBytes t ts timeout left ptr nread c
        (recvLoop nBytes ts (timeout - t.elapsed) (left - c.ready k left)
          (ptr + c.ready k left) (nread + c.ready k left) (c.deliver ptr (c.ready k left)))

theorem recvLoop_afterTurn (t : Turn) (ts : List Turn) (timeout : ℤ) (ptr : ℕ) (c : Conn)
    (hsum : left + nread = nBytes) :
    AfterTurn nBytes t ts timeout left ptr nread c
      (recvLoop nBytes (t :: ts) timeout left ptr nread c) := by
  rw [recvLoop]
  by_cases hone : t.iNum = 1
  · rw [if_neg (by simp [Turn.waitRead, hone])]
    cases hgot : t.got with
    | eintr => exact .eintr hone hgot
    | error => exact .error hone hgot
    | bytes k =>
      have hle := (ready_le c k left).1
      dsimp only
      by_cases hzero : c.ready k left = 0
      · rw [if_pos hzero]
        exact .closed k hone hgot hzero
      · rw [if_neg hzero]
        by_cases hall : c.ready k left = left
        · rw [hall, if_pos (Nat.sub_self left), if_pos (by omega), Nat.add_comm, hsum]
          exact .done k hone hgot hall
        · rw [if_neg (by omega)]
          by_cases htime : timeout ≤ t.elapsed
          · rw [if_pos (by omega)]
            exact .late k hone hgot (by omega) (by omega) htime
          · rw [if_neg (by omega)]
            exact .more k hone hgot (by omega) (by omega) (by omega)
  · by_cases hzero : t.iNum = 0
    · simp only [Turn.waitRead, hzero, zero_ne_one, if_false, if_true]
      exact .timeout hzero
    · simp only [Turn.waitRead, hone, hzero, if_false]
      exact .failed hzero hone

/-! ### All turns of `RecvN` -/

theorem le_nread_recvLoop (ts : List Turn) (timeout : ℤ) (ptr : ℕ) (c : Conn)
    (hsum : left + nread = nBytes) :
    nread ≤ (recvLoop nBytes ts timeout left ptr nread c).nread := by
  induction ts generalizing timeout left ptr nread c with
  | nil => exact le_rfl
  | cons t ts ih =>
    have hturn := recvLoop_afterTurn t ts timeout ptr c hsum
    generalize recvLoop nBytes (t :: ts) timeout left ptr nread c = out at hturn ⊢
    cases hturn with
    | timeout | failed | error | closed => exact le_rfl
    | eintr => exact ih _ _ _ hsum
    | done => exact Nat.le.intro (by rw [Nat.add_comm]; exact hsum)
    | late => exact Nat.le_add_right ..
    | more k hone hgot hpos hlt =>
      exact (Nat.le_add_right ..).trans (ih _ _ _ (by omega))

/-- Nothing is received before an early timeout. -/
theorem nread_of_idle (h : Idle ts) (hsum : left + nread = nBytes) :
    (recvLoop nBytes ts timeout left ptr nread c).nread = nread := by
  induction ts generalizing timeout left ptr nread c with
  | nil => rfl
  | cons t ts ih =>
    have hturn := recvLoop_afterTurn t ts timeout ptr c hsum
    generalize recvLoop nBytes (t :: ts) timeout left ptr nread c = out at hturn ⊢
    cases hturn with
    | timeout | failed | error | closed => rfl
    | eintr hone hgot =>
      rcases h with hzero | ⟨-, -, hrest⟩
      · omega
      · exact ih hrest hsum
    | done k hone hgot | late k hone hgot | more k hone hgot =>
      rcases h with hzero | ⟨-, heintr, -⟩
      · omega
      · rw [hgot] at heintr
        cases heintr

/-- A timeout before which nothing is received is an early one. -/
theorem idle_of_timeout (hleft : 0 < left) (hsum : left + nread = nBytes)
    (hret : (recvLoop nBytes ts timeout left ptr nread c).ret = some (-2))
    (hnread : (recvLoop nBytes ts timeout left ptr nread c).nread = nread) : Idle ts := by
  induction ts generalizing timeout left ptr nread c with
  | nil => trivial
  | cons t ts ih =>
    have hturn := recvLoop_afterTurn t ts timeout ptr c hsum
    generalize recvLoop nBytes (t :: ts) timeout left ptr nread c = out at hturn hret hnread
    cases hturn with
    | timeout hzero => exact .inl hzero
    | eintr hone hgot => exact .inr ⟨hone, hgot, ih hleft hsum hret hnread⟩
    | failed | error | closed => simp at hret
    | done => simp only at hnread; omega
    | late k hone hgot hpos => simp only at hnread; omega
    | more k hone hgot hpos hlt =>
      have hle := le_nread_recvLoop ts (timeout - t.elapsed) (ptr + c.ready k left)
        (c.deliver ptr (c.ready k left))
        (by omega : left - c.ready k left + (nread + c.ready k left) = nBytes)
      omega

/-- All bytes are received only where the loop returns their number. -/
theorem ret_of_nread_eq (hleft : 0 < left) (hsum : left + nread = nBytes)
    (hall : (recvLoop nBytes ts timeout left ptr nread c).nread = nBytes) :
    (recvLoop nBytes ts timeout left ptr nread c).ret = some (s32 nBytes) := by
  induction ts generalizing timeout left ptr nread c with
  | nil =>
    simp only [recvLoop] at hall
    omega
  | cons t ts ih =>
    have hturn := recvLoop_afterTurn t ts timeout ptr c hsum
    generalize recvLoop nBytes (t :: ts) timeout left ptr nread c = out at hturn hall ⊢
    cases hturn with
    | timeout | failed | error | closed =>
      simp only at hall
      omega
    | eintr => exact ih hleft hsum hall
    | done => rfl
    | late =>
      simp only at hall
      omega
    | more => exact ih (by omega) (by omega) hall

/-- The bytes that `RecvN` waits for come in time if and only if it does not return a
timeout. -/
theorem inTime_iff (ts : List Turn) (timeout : ℤ) (left ptr nread : ℕ) (c : Conn)
    (hleft : 0 < left) (hstream : left ≤ c.stream.length)
    (hsum : left + nread = nBytes) (hlt : nBytes < 2 ^ 31) :
    InTime next left timeout ts ↔
      (recvLoop nBytes ts timeout left ptr nread c).ret ≠ some (-2) ∧
        ((recvLoop nBytes ts timeout left ptr nread c).nread = nBytes →
          next (recvLoop nBytes ts timeout left ptr nread c).turns) := by
  induction ts generalizing timeout left ptr nread c with
  | nil =>
    simp only [InTime, recvLoop, true_iff]
    exact ⟨by simp, by omega⟩
  | cons t ts ih =>
    have hturn := recvLoop_afterTurn t ts timeout ptr c hsum
    have hshort : nread ≠ nBytes := by omega
    generalize recvLoop nBytes (t :: ts) timeout left ptr nread c = out at hturn ⊢
    rw [InTime]
    cases hturn with
    | timeout hzero => simp [hzero]
    | failed hzero hone => simp [hzero, hone, hshort]
    | eintr hone hgot => simpa [hone, hgot] using ih timeout left ptr nread c hleft hstream hsum
    | error hone hgot => simp [hone, hgot, hshort]
    | closed k hone hgot hready =>
      have hk : k = 0 := by
        rw [ready] at hready
        omega
      simp [hone, hgot, hk, hshort]
    | done k hone hgot hready =>
      have hk : left ≤ k := by
        rw [ready] at hready
        omega
      have hpos : s32 (nBytes : ℤ) ≠ -2 := by
        rw [s32_of_bounds (by omega) (by omega)]
        omega
      have hk0 : k ≠ 0 := by omega
      simp [hone, hgot, hk, hk0, hpos]
    | late k hone hgot hpos hlt' htime =>
      have hk : c.ready k left = k ∧ ¬ left ≤ k := by
        rw [ready] at hlt' ⊢
        omega
      have hk0 : k ≠ 0 := by omega
      simp [hone, hgot, hk.2, hk0, htime]
    | more k hone hgot hpos hlt' htime =>
      have hk : c.ready k left = k ∧ ¬ left ≤ k := by
        rw [ready] at hlt' ⊢
        omega
      have hk0 : k ≠ 0 := by omega
      rw [hk.1]
      have hrest := ih (timeout - t.elapsed) (left - k) (ptr + k) (nread + k)
        (c.deliver ptr k) (by omega) (by simp [deliver]; omega) (by omega)
      simpa [hone, hgot, hk.2, hk0, htime] using hrest

/-! ### The packet -/

theorem recvN_of_timeout {fd : ℤ} (hfd : ¬ fd < 0) (htime : ¬ timeout < 0) :
    c.recvN fd ts ptr nBytes timeout = recvLoop nBytes ts timeout nBytes ptr 0 c := by
  rw [recvN, if_neg hfd, if_neg htime]

/-- The callback of a header that has come in full. -/
theorem handleInput_take (stream : List UInt8) (hlong : 29 ≤ stream.length) :
    handleInput (stream.take 29) = Int32.ofNat (ofBe ((stream.drop 3).take 4)) := by
  have hlen : (stream.take 29).length = 29 := by simp [hlong]
  rw [handleInput, if_neg (by omega), List.drop_take, List.take_take]
  rfl

/-- A length from the header, as an `int`. -/
theorem toInt_ofNat_cases {n : ℕ} (hn : n < 2 ^ 32) :
    n < 2 ^ 31 ∧ (Int32.ofNat n).toInt = n ∨ 2 ^ 31 ≤ n ∧ (Int32.ofNat n).toInt < 0 := by
  by_cases hlt : n < 2 ^ 31
  · exact .inl ⟨hlt, Int32.toInt_ofNat_of_lt hlt⟩
  · refine .inr ⟨by omega, ?_⟩
    rw [Int32.toInt_ofNat', Int.bmod_def]
    have hmod : (n : ℤ) % (Int32.size : ℤ) = n := Int.emod_eq_of_lt (by omega) (by simp; omega)
    rw [hmod]
    simp only [Int32.size]
    omega

theorem stream_eq_iff {c₀ : Conn} {n : ℕ} (h : Progress ptr c₀ n c) :
    c.stream = c₀.stream ↔ n = 0 := by
  have hle := h.le_stream
  rw [h.stream]
  constructor
  · intro heq
    have hlen := congrArg List.length heq
    rw [List.length_drop] at hlen
    omega
  · rintro rfl
    rfl

/-- The header of a call on an open socket. -/
def headerPart (stream : List UInt8) (r : RecvCall) : RecvResult :=
  recvLoop 29 r.turns 100 29 0 0 ⟨r.buffer, stream, []⟩

/-- The rest of a packet of `n` bytes. -/
def restPart (n : ℕ) (r : RecvCall) (head : RecvResult) : RecvResult :=
  recvLoop (n - 29) head.turns (100 - r.elapsed) (n - 29) 29 0 head.conn

section
variable {stream : List UInt8} {r : RecvCall} {head : RecvResult} {n : ℕ}

theorem headerPart_fills (stream : List UInt8) (r : RecvCall) :
    Fills 0 29 ⟨r.buffer, stream, []⟩ (headerPart stream r) :=
  recvLoop_fills rfl (.start 0 _)

theorem restPart_fills (n : ℕ) (r : RecvCall) (head : RecvResult) :
    Fills 29 (n - 29) head.conn (restPart n r head) :=
  recvLoop_fills rfl (.start 29 _)

theorem ret_headerPart (stream : List UInt8) (r : RecvCall) (h : (headerPart stream r).nread = 29) :
    (headerPart stream r).ret = some (s32 29) :=
  ret_of_nread_eq (by decide) rfl h

theorem idle_of_headerPart (stream : List UInt8) (r : RecvCall)
    (hret : (headerPart stream r).ret = some (-2))
    (hnone : (headerPart stream r).nread = 0) : Idle r.turns :=
  idle_of_timeout (c := ⟨r.buffer, stream, []⟩) (by decide : 0 < 29) (rfl : 29 + 0 = 29) hret
    hnone

theorem ret_restPart (hlong : 29 < n) (h : (restPart n r head).nread = n - 29) :
    (restPart n r head).ret = some (s32 (n - 29 : ℕ)) :=
  ret_of_nread_eq (by omega) rfl h

theorem inTime_headerPart_iff (next : List Turn → Prop) (r : RecvCall)
    (h : 29 ≤ stream.length) :
    InTime next 29 100 r.turns ↔ (headerPart stream r).ret ≠ some (-2) ∧
      ((headerPart stream r).nread = 29 → next (headerPart stream r).turns) :=
  inTime_iff _ _ _ _ _ _ (by decide) h rfl (by decide)

theorem inTime_restPart_iff (r : RecvCall) (head : RecvResult) (hlong : 29 < n)
    (h : n - 29 ≤ head.conn.stream.length) (hroom : n ≤ maxBufferLen.toNat) :
    InTime (fun _ => True) (n - 29) (100 - r.elapsed) head.turns ↔
      (restPart n r head).ret ≠ some (-2) := by
  have hmax : maxBufferLen.toNat = 16777216 := rfl
  have hlt : n - 29 < 2 ^ 31 := by omega
  have hin : InTime (fun _ => True) (n - 29) (100 - r.elapsed) head.turns ↔
      (restPart n r head).ret ≠ some (-2) ∧ ((restPart n r head).nread = n - 29 → True) :=
    inTime_iff _ _ _ _ _ _ (by omega) h rfl hlt
  simpa using hin

end

/-- What a call comes to, when the next packet has `n` bytes. -/
inductive AfterHeader (n : ℕ) (r : RecvCall) (head : RecvResult) : RecvResult → Prop
  | short (hshort : head.nread ≠ 29) : AfterHeader n r head head
  | late (hfull : head.nread = 29) (htime : ¬ r.elapsed ≤ 100) :
      AfterHeader n r head { head with ret := some (-2) }
  | refused (ret : ℤ) (hfull : head.nread = 29) (htime : r.elapsed ≤ 100)
      (hbig : ¬ n ≤ maxBufferLen.toNat) (hret : ret ≠ -2) :
      AfterHeader n r head { head with ret := some ret }
  | whole (nread : ℕ) (hfull : head.nread = 29) (htime : r.elapsed ≤ 100)
      (hroom : n ≤ maxBufferLen.toNat) (hall : (restPart n r head).nread = n - 29) :
      AfterHeader n r head { restPart n r head with ret := some n, nread := nread }
  | part (nread : ℕ) (hfull : head.nread = 29) (htime : r.elapsed ≤ 100)
      (hroom : n ≤ maxBufferLen.toNat) (hpart : (restPart n r head).nread ≠ n - 29) :
      AfterHeader n r head { restPart n r head with nread := nread }

theorem recvCall_afterHeader {fd : ℤ} (hfd : ¬ fd < 0) {stream : List UInt8} (r : RecvCall)
    {n : ℕ} (hn : n < 2 ^ 32) (hlong : 29 < n)
    (hcallback : handleInput (stream.take 29) = Int32.ofNat n) :
    AfterHeader n r (headerPart stream r) (recvCall fd stream r) := by
  have hfills := headerPart_fills stream r
  have hfull := ret_headerPart stream r
  have hhead : Conn.recvN ⟨r.buffer, stream, []⟩ fd r.turns 0 (29 : UInt32).toNat 100 =
      headerPart stream r := recvN_of_timeout hfd (by decide)
  unfold recvCall recvPack
  rw [hhead]
  generalize headerPart stream r = head at hfills hfull ⊢
  dsimp only
  by_cases hnread : head.nread = 29
  · have hread : Mem.read head.conn.mem 0 (29 : UInt32).toNat = stream.take 29 := by
      have hread := hfills.progress.read
      rw [hnread] at hread
      exact hread
    have hret : ¬ (head.ret = none ∨ head.nread ≠ (29 : UInt32).toNat) := by
      rw [hfull hnread, hnread]
      simp
    rw [if_neg hret, hread, hcallback, if_pos (by decide : (100 : ℤ) > 0)]
    by_cases htime : r.elapsed ≤ 100
    · rw [if_neg (by omega)]
      rcases toInt_ofNat_cases hn with ⟨hlt, hint⟩ | ⟨hbig, hneg⟩
      · rw [hint, if_neg (by omega), Int.toNat_natCast, if_neg (by simp; omega)]
        by_cases hroom : n ≤ maxBufferLen.toNat
        · have hsub : u32sub n (29 : UInt32).toNat = n - 29 :=
            u32sub_of_le (Nat.le_of_lt hlong) hn
          have hrest : head.conn.recvN fd head.turns (29 : UInt32).toNat (n - 29)
              (100 - r.elapsed) = restPart n r head := recvN_of_timeout hfd (by omega)
          rw [if_neg (by omega), hsub, hrest, hnread]
          have hbody := (restPart_fills n r head).le
          rw [u32_of_lt (by omega)]
          by_cases hall : (restPart n r head).nread = n - 29
          · rw [if_pos ⟨by rw [ret_restPart hlong hall]; simp, by omega⟩,
              s32_of_bounds (by omega) (by omega)]
            have hsum : 29 + (restPart n r head).nread = n := by omega
            rw [hsum]
            exact .whole n hnread htime hroom hall
          · rw [if_neg (by omega)]
            exact .part _ hnread htime hroom hall
        · rw [if_pos (by omega)]
          exact .refused (-4) hnread htime hroom (by decide)
      · rw [if_pos (by omega)]
        refine .refused (-3) hnread htime ?_ (by decide)
        have hmax : maxBufferLen.toNat = 16777216 := rfl
        omega
    · rw [if_pos (by omega)]
      exact .late hnread htime
  · rw [if_pos (.inr hnread)]
    exact .short hnread

/-- A call on a connection whose next packet is there in full, or on the way, loses no
bytes to a timeout if and only if no timeout falls inside the packet. -/
theorem keeps_stream_iff {fd : ℤ} (hfd : ¬ fd < 0) {stream : List UInt8} {r : RecvCall}
    (hlong : 29 < ofBe ((stream.drop 3).take 4))
    (hle : ofBe ((stream.drop 3).take 4) ≤ stream.length) :
    ((recvCall fd stream r).ret = some (-2) → (recvCall fd stream r).conn.stream = stream) ↔
      Undivided stream r := by
  have hn : ofBe ((stream.drop 3).take 4) < 2 ^ 32 := by
    have hlt := ofBe_lt ((stream.drop 3).take 4)
    have hlen : ((stream.drop 3).take 4).length = 4 := by simp; omega
    rw [hlen] at hlt
    omega
  have hcall := recvCall_afterHeader hfd r hn hlong (handleInput_take stream (by omega))
  simp only [Undivided]
  generalize ofBe ((stream.drop 3).take 4) = n at hlong hle hcall ⊢
  have hfills := headerPart_fills stream r
  have hkeeps := stream_eq_iff hfills.progress
  have hin := inTime_headerPart_iff (fun ts => r.elapsed ≤ 100 ∧
    (n ≤ maxBufferLen.toNat → InTime (fun _ => True) (n - 29) (100 - r.elapsed) ts)) r
    (by omega : 29 ≤ stream.length)
  have hidle : Idle r.turns → (headerPart stream r).nread = 0 := fun h => nread_of_idle h rfl
  have hidle' := idle_of_headerPart stream r
  have hret := ret_headerPart stream r
  have hrest := inTime_restPart_iff r (headerPart stream r) hlong
  rw [hin]
  have hs32 : s32 29 = 29 := by decide
  rw [hs32] at hret
  generalize headerPart stream r = head at hcall hfills hkeeps hidle hidle' hret hrest ⊢
  generalize recvCall fd stream r = out at hcall ⊢
  have htaken : (⟨r.buffer, stream, []⟩ : Conn).stream = stream := rfl
  rw [htaken] at hkeeps
  have hlen : head.conn.stream.length = stream.length - head.nread := by
    rw [hfills.progress.stream, List.length_drop]
  have hroomFor (hroom : n ≤ maxBufferLen.toNat) (hfull : head.nread = 29) :=
    hrest (by omega) hroom
  -- with the header there, only the rest of the packet can be late
  have hafter (hfull : head.nread = 29) (after : Prop) :
      (Idle r.turns ∨ head.ret ≠ some (-2) ∧ (head.nread = 29 → after)) ↔ after := by
    constructor
    · rintro (h | h)
      · have hnone := hidle h
        omega
      · exact h.2 hfull
    · intro h
      exact .inr ⟨by rw [hret hfull]; decide, fun _ => h⟩
  cases hcall with
  | short hshort =>
    constructor
    · intro hstream
      by_cases htimeout : head.ret = some (-2)
      · exact .inl (hidle' htimeout (hkeeps.mp (hstream htimeout)))
      · exact .inr ⟨htimeout, fun hfull => absurd hfull hshort⟩
    · rintro (h | h) htimeout
      · exact hkeeps.mpr (hidle h)
      · exact absurd htimeout h.1
  | late hfull htime =>
    rw [hafter hfull]
    constructor
    · intro hstream
      have hnone := hkeeps.mp (hstream rfl)
      omega
    · intro h
      exact absurd h.1 htime
  | refused ret hfull htime hbig hret' =>
    rw [hafter hfull]
    constructor
    · intro _
      exact ⟨htime, fun hroom => absurd hroom hbig⟩
    · intro _ htimeout
      exact absurd (Option.some.inj htimeout) hret'
  | whole nread hfull htime hroom hall =>
    rw [hafter hfull]
    constructor
    · intro _
      have hmax : maxBufferLen.toNat = 16777216 := rfl
      refine ⟨htime, fun _ => (hroomFor hroom hfull).mpr ?_⟩
      rw [ret_restPart hlong hall, s32_of_bounds (by omega) (by omega), ne_eq,
        Option.some.injEq]
      omega
    · intro _ htimeout
      simp only [Option.some.injEq] at htimeout
      omega
  | part nread hfull htime hroom hpart =>
    rw [hafter hfull]
    have hrestStream := (restPart_fills n r head).progress.stream
    constructor
    · intro hstream
      refine ⟨htime, fun _ => (hroomFor hroom hfull).mpr fun htimeout => ?_⟩
      have heq : (restPart n r head).conn.stream = stream := hstream htimeout
      have hshorter := congrArg List.length (hrestStream.symm.trans heq)
      rw [List.length_drop] at hshorter
      omega
    · intro h htimeout
      exact absurd htimeout ((hroomFor hroom hfull).mp (h.2 hroom))

end Conn

/-! ## Packets that are handed on -/

section
variable {fd : ℤ} {s : RecvState} {r : RecvCall} {ps : List Packet}

/-- A call that keeps the connection hands on a packet or times out. -/
theorem receive_of_connKept (h : ConnKept fd s r) :
    (∃ ret : ℤ, (recvCall fd s.stream r).ret = some ret ∧ 0 < ret ∧
      (receive fd s r).1 = ⟨(recvCall fd s.stream r).conn.stream,
        s.handed ++ [Mem.read (recvCall fd s.stream r).conn.mem 0 ret.toNat]⟩) ∨
    (recvCall fd s.stream r).ret = some (-2) ∧
      (receive fd s r).1 = ⟨(recvCall fd s.stream r).conn.stream, s.handed⟩ := by
  unfold ConnKept receive at h
  unfold receive
  generalize recvCall fd s.stream r = out at h ⊢
  cases hret : out.ret with
  | none => simp [hret] at h
  | some ret =>
    by_cases hpos : 0 < ret
    · refine .inl ⟨ret, rfl, hpos, ?_⟩
      simp [hret, hpos]
    · by_cases htimeout : ret = -2
      · subst htimeout
        exact .inr ⟨rfl, by simp [hret]⟩
      · simp [hret, hpos, htimeout] at h

theorem fd_of_connKept (h : ConnKept fd s r) : ¬ fd < 0 := by
  intro hfd
  have hret : (recvCall fd s.stream r).ret = some (-1) := by
    simp [recvCall, Conn.recvPack, Conn.recvN, hfd]
  rcases receive_of_connKept h with ⟨ret, hret', hpos, -⟩ | ⟨htimeout, -⟩
  · rw [hret, Option.some.injEq] at hret'
    omega
  · rw [hret, Option.some.injEq] at htimeout
    omega

/-- Where nothing more is sent, a timeout comes before the first byte. -/
theorem undivided_of_empty (hfd : ¬ fd < 0) (hret : (recvCall fd [] r).ret = some (-2)) :
    Undivided [] r := by
  have hhead : Conn.recvN ⟨r.buffer, [], []⟩ fd r.turns 0 (29 : UInt32).toNat 100 =
      Conn.headerPart [] r := Conn.recvN_of_timeout hfd (by decide)
  have hnone : (Conn.headerPart [] r).nread = 0 :=
    Nat.le_zero.mp (Conn.headerPart_fills [] r).progress.le_stream
  unfold recvCall Conn.recvPack at hret
  rw [hhead] at hret
  dsimp only at hret
  rw [if_pos (.inr (by rw [hnone]; decide))] at hret
  exact .inl (Conn.idle_of_headerPart [] r hret hnone)

/-- What the header of the next packet says. -/
theorem announced_sent (p : Packet) (rest : List Packet) :
    ofBe (((sent (p :: rest)).drop 3).take 4) = p.bytes.length := by
  have hlong := p.long
  rw [sent, List.flatMap_cons, List.drop_append_of_le_length (by omega),
    List.take_append_of_le_length (by rw [List.length_drop]; omega), p.announced]

theorem length_sent (p : Packet) (rest : List Packet) :
    (sent (p :: rest)).length = p.bytes.length + (sent rest).length := by
  rw [sent, List.flatMap_cons, List.length_append]
  rfl

theorem length_lt (p : Packet) : p.bytes.length < 2 ^ 32 := by
  have hlt := ofBe_lt ((p.bytes.drop 3).take 4)
  have hlong := p.long
  have hlen : ((p.bytes.drop 3).take 4).length = 4 := by simp; omega
  rw [hlen, p.announced] at hlt
  omega

/-- What the callback says of the header of the next packet. -/
theorem handleInput_sent (p : Packet) (rest : List Packet) :
    handleInput ((sent (p :: rest)).take 29) = Int32.ofNat p.bytes.length := by
  have hlen := length_sent p rest
  have hlong := p.long
  rw [Conn.handleInput_take _ (by omega), announced_sent]

/-- What a call receives, with the packets `ps` still to come. -/
theorem recvCall_receivesAll (fd : ℤ) (ps : List Packet) (r : RecvCall) :
    ∃ m, Conn.ReceivesAll ⟨r.buffer, sent ps, []⟩ handleInput 29 maxBufferLen m
      (recvCall fd (sent ps) r) := by
  refine Conn.recvPack_receivesAll _ fd r.turns r.elapsed handleInput (by decide) 100 ?_
  cases ps with
  | nil =>
    have hlt : 0 < (29 : UInt32).toNat := by decide
    exact .inl hlt
  | cons p rest =>
    have hlong := p.long
    have h29 : (29 : UInt32).toNat = 29 := rfl
    rw [h29, handleInput_sent]
    rcases Conn.toInt_ofNat_cases (length_lt p) with ⟨-, hint⟩ | ⟨-, hneg⟩
    · rw [hint]
      omega
    · omega

theorem ne_nil_of_packet {coming : List Packet} {ret : ℤ}
    (hret : (recvCall fd (sent coming) r).ret = some ret) (hpos : 0 < ret) : coming ≠ [] := by
  rintro rfl
  obtain ⟨m, hprogress, -, hannounced⟩ := recvCall_receivesAll fd [] r
  have hle := hprogress.le_stream
  have hm := (hannounced ret hret hpos).2
  simp only [sent, List.flatMap_nil, List.length_nil] at hle
  omega

/-- A call loses no bytes to a timeout if and only if no timeout falls inside a packet. -/
theorem keeps_sent_iff (hfd : ¬ fd < 0) {coming : List Packet}
    (h : coming ≠ [] ∨ (recvCall fd (sent coming) r).ret = some (-2)) :
    ((recvCall fd (sent coming) r).ret = some (-2) →
      (recvCall fd (sent coming) r).conn.stream = sent coming) ↔
      Undivided (sent coming) r := by
  cases coming with
  | nil =>
    have hret : (recvCall fd (sent []) r).ret = some (-2) := by simpa using h
    obtain ⟨m, hprogress, -, -⟩ := recvCall_receivesAll fd [] r
    constructor
    · intro _
      exact undivided_of_empty hfd hret
    · intro _ _
      rw [hprogress.stream]
      exact List.drop_nil
  | cons p rest =>
    have hlen := length_sent p rest
    have hlong := p.long
    apply Conn.keeps_stream_iff hfd
    · rw [announced_sent]
      exact hlong
    · rw [announced_sent]
      omega

/-- A packet that is handed on is the next one. -/
theorem framed_of_packet (hs : Framed ps s) {ret : ℤ}
    (hret : (recvCall fd s.stream r).ret = some ret) (hpos : 0 < ret) :
    Framed ps ⟨(recvCall fd s.stream r).conn.stream,
      s.handed ++ [Mem.read (recvCall fd s.stream r).conn.mem 0 ret.toNat]⟩ := by
  obtain ⟨done, coming, hps, hhanded, hstream⟩ := hs
  rw [hstream] at hret ⊢
  obtain ⟨m, hprogress, -, hannounced⟩ := recvCall_receivesAll fd coming r
  obtain ⟨hann, rfl⟩ := hannounced ret hret hpos
  have hread := hprogress.read
  have hrest := hprogress.stream
  cases coming with
  | nil => exact absurd rfl (ne_nil_of_packet hret hpos)
  | cons p rest =>
    have h29 : (29 : UInt32).toNat = 29 := rfl
    rw [h29, handleInput_sent] at hann
    have hlen : ret.toNat = p.bytes.length := by
      rcases Conn.toInt_ofNat_cases (length_lt p) with ⟨-, hint⟩ | ⟨-, hneg⟩
      · omega
      · omega
    have hsent : sent (p :: rest) = p.bytes ++ sent rest := List.flatMap_cons ..
    refine ⟨done ++ [p], rest, by simp [hps], ?_, ?_⟩
    · rw [hread, hhanded, hlen, hsent]
      simp
    · rw [hrest, hlen, hsent]
      simp

/-- After a timeout the packets are whole where nothing was received. -/
theorem framed_of_timeout_iff (hs : Framed ps s) {stream : List UInt8} :
    Framed ps ⟨stream, s.handed⟩ ↔ stream = s.stream := by
  obtain ⟨done, coming, hps, hhanded, hstream⟩ := hs
  constructor
  · rintro ⟨done', coming', hps', hhanded', hstream'⟩
    have hlen : done.length = done'.length := by
      have hmap := congrArg List.length (hhanded.symm.trans hhanded')
      simpa using hmap
    have hcoming := (List.append_inj (hps.symm.trans hps') hlen).2
    exact hstream'.trans (by rw [hstream, hcoming])
  · rintro rfl
    exact ⟨done, coming, hps, hhanded, hstream⟩

/-- A call that keeps the connection takes whole packets from it if and only if no timeout
falls inside one. -/
theorem framed_receive_iff (hs : Framed ps s) (hkept : ConnKept fd s r) :
    Framed ps (receive fd s r).1 ↔ Undivided s.stream r := by
  have hfd := fd_of_connKept hkept
  have hstream : ∃ coming, s.stream = sent coming := by
    obtain ⟨-, coming, -, -, hstream⟩ := hs
    exact ⟨coming, hstream⟩
  obtain ⟨coming, hstream⟩ := hstream
  rcases receive_of_connKept hkept with ⟨ret, hret, hpos, hafter⟩ | ⟨hret, hafter⟩
  · have hframed := framed_of_packet hs hret hpos
    rw [hstream] at hret ⊢
    rw [hafter, ← keeps_sent_iff hfd (.inl (ne_nil_of_packet hret hpos)), hret]
    constructor
    · intro _ htimeout
      rw [Option.some.injEq] at htimeout
      omega
    · intro _
      exact hframed
  · rw [hafter, framed_of_timeout_iff hs]
    rw [hstream] at hret ⊢
    rw [← keeps_sent_iff hfd (.inr hret)]
    exact ⟨fun h _ => h, fun h => h hret⟩

/-- In every run on a connection that is kept, the packets handed on are exactly those that
were taken from the stream, in order, after every call if and only if no timeout falls
inside a packet. -/
theorem receive_run (fd : ℤ) (ps : List Packet) (calls : List RecvCall)
    (hkept : Run.Always (receive fd) (ConnKept fd) ⟨sent ps, []⟩ calls) :
    Run.Always (receive fd) (fun s r => Framed ps (receive fd s r).1) ⟨sent ps, []⟩ calls ↔
      Run.Always (receive fd) (fun s r => Undivided s.stream r) ⟨sent ps, []⟩ calls := by
  have hstart : Framed ps ⟨sent ps, []⟩ := ⟨[], ps, rfl, rfl, rfl⟩
  generalize (⟨sent ps, []⟩ : RecvState) = s at hkept hstart
  induction calls generalizing s with
  | nil => exact Iff.rfl
  | cons r calls ih =>
    rw [Run.always_cons] at hkept
    rw [Run.always_cons, Run.always_cons, framed_receive_iff hstart hkept.1]
    refine and_congr_right fun hundivided => ?_
    exact ih _ hkept.2 ((framed_receive_iff hstart hkept.1).mpr hundivided)

/-- The bytes of a packet of 30 bytes. -/
def smallBytes : List UInt8 := [74, 1, 0, 0, 0, 0, 30] ++ List.replicate 22 0 ++ [87]

/-- A packet of 59 bytes, with a packet of 30 bytes in its body. -/
def nested : Packet where
  bytes := [74, 1, 0, 0, 0, 0, 59] ++ List.replicate 22 0 ++ smallBytes
  long := by decide
  announced := by decide

/-- A timeout before the first byte, and then the packet in two parts. -/
def idleCalls : List RecvCall :=
  [⟨fun _ => 0, [⟨0, .error, 100⟩], 0⟩,
    ⟨fun _ => 0, [⟨1, .bytes 29, 0⟩, ⟨1, .bytes 30, 0⟩], 10⟩]

theorem receive_run_idle :
    Run.Always (receive 3) (fun s r => Framed [nested] (receive 3 s r).1) ⟨sent [nested], []⟩
      idleCalls := by
  have hkept : Run.Always (receive 3) (ConnKept 3) ⟨sent [nested], []⟩ idleCalls :=
    ⟨⟨by decide +kernel, by decide +kernel⟩, ⟨by decide +kernel, by decide +kernel⟩, trivial⟩
  refine (receive_run 3 [nested] idleCalls hkept).mpr ⟨.inl (.inl rfl), .inr ?_, trivial⟩
  refine ⟨by decide, fun _ _ => ?_⟩
  dsimp only
  rw [if_pos (by decide)]
  refine ⟨by decide, fun _ => ⟨by decide, fun _ _ => ?_⟩⟩
  dsimp only
  rw [if_pos (by decide +kernel)]
  trivial

/-- The header arrives, the rest only after the timeout; then the body is taken for a
packet. -/
def dividedCalls : List RecvCall :=
  [⟨fun _ => 0, [⟨1, .bytes 29, 0⟩, ⟨0, .error, 100⟩], 0⟩,
    ⟨fun _ => 0, [⟨1, .bytes 29, 0⟩, ⟨1, .bytes 1, 0⟩], 0⟩]

/-- The body of a packet is handed on in its place. -/
theorem not_receive_framed :
    ¬ ∀ (fd : ℤ) (ps : List Packet) (calls : List RecvCall),
      Run.Always (receive fd) (ConnKept fd) ⟨sent ps, []⟩ calls →
        Run.Always (receive fd) (fun s r => Framed ps (receive fd s r).1) ⟨sent ps, []⟩ calls := by
  intro hall
  have hkept : Run.Always (receive 3) (ConnKept 3) ⟨sent [nested], []⟩ dividedCalls :=
    ⟨⟨by decide +kernel, by decide +kernel⟩, ⟨by decide +kernel, by decide +kernel⟩, trivial⟩
  obtain ⟨-, ⟨done, coming, hps, hhanded, -⟩, -⟩ := hall 3 [nested] dividedCalls hkept
  have hbody : [smallBytes] = done.map Packet.bytes := by
    rw [← hhanded]
    decide +kernel
  cases done with
  | nil => cases hbody
  | cons p done =>
    rw [List.map_cons, List.cons.injEq] at hbody
    rw [List.cons_append, List.cons.injEq] at hps
    rw [← hps.1] at hbody
    exact absurd hbody.1 (by decide)

/-- When everything that was sent has been taken, every packet has been handed on. -/
theorem handed_all (hs : Framed ps s) (hall : s.stream = []) :
    s.handed = ps.map Packet.bytes := by
  obtain ⟨done, coming, hps, hhanded, hstream⟩ := hs
  cases coming with
  | nil => rw [hhanded, hps, List.append_nil]
  | cons p rest =>
    have hlen := length_sent p rest
    have hlong := p.long
    rw [← hstream, hall, List.length_nil] at hlen
    omega

end
end Spp
