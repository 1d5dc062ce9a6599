import Spp.Lib.Run
import Spp.Lib.Word

/-!
# The deadline of `RecvN` and `SendN`

Both wait for the socket, move what it takes, and look at the clock when something is still
missing.  They take the time since the start of the call from `timeout` at each incomplete
piece, so what has passed before the first piece is taken off again at the second.

What the socket does is a list of arrivals, and then nothing more comes.  Times are in
microseconds.

## Main definitions

* `diffMillSec` — `DiffMillSec`.
* `Arrival`, `Arrival.answer` — what arrives, and what the system answers to a turn.
* `Timed`, `Timed.turn`, `recvN`, `sendN` — the loops, a turn at a time.
* `Timed.Ends` — a turn that ends the call has a reason for it.
* `Timed.InTime` — while the deadline is not over, the arrivals come as early as the time that
  was added up at the pieces before asks for.
-/

namespace Spp

/-! ## The clock -/

/-- `struct timeval`. -/
structure ClockTime where
  sec : ℤ
  usec : ℤ

/-- `gettimeofday` at a time in microseconds. -/
def ClockTime.ofMicros (t : ℕ) : ClockTime := ⟨t / 1000000, t % 1000000⟩

/-- `DiffMillSec`. -/
def diffMillSec (t1 t2 : ClockTime) : ℤ :=
  s32 ((t1.sec * 1000 - t2.sec * 1000) + (t1.usec.tdiv 1000 - t2.usec.tdiv 1000))

/-- The milliseconds that a clock without microseconds shows. -/
def millisSince (start now : ℕ) : ℤ := (now / 1000 : ℕ) - (start / 1000 : ℕ)

theorem diffMillSec_ofMicros (start now : ℕ) :
    diffMillSec (.ofMicros now) (.ofMicros start) = s32 (millisSince start now) := by
  have hms : ∀ t : ℕ, (ClockTime.ofMicros t).sec * 1000 + (ClockTime.ofMicros t).usec.tdiv 1000 =
      (t / 1000 : ℕ) := by
    intro t
    have hpos : (0 : ℤ) ≤ t % 1000000 := by omega
    rw [ClockTime.ofMicros]
    dsimp only
    rw [Int.tdiv_eq_ediv_of_nonneg hpos]
    omega
  rw [diffMillSec, millisSince, ← hms, ← hms]
  congr 1
  omega

/-! ## The loops -/

/-- What `WaitRead` and `WaitWrite` find. -/
inductive Waited
  | ready
  | expired
  | failed

/-- The value that they return. -/
def Waited.code : Waited → ℤ
  | .ready => 0
  | .expired => -2
  | .failed => -1

/-- What `recv` and `send` return: a number of bytes, 0, or -1 with `errno` at `EINTR` or not. -/
inductive Moved
  | bytes (n : ℕ)
  | closed
  | intr
  | failed

/-- What the system answers in one turn, and the time when the turn is over. -/
structure TimedAnswer where
  wait : Waited
  got : Moved
  now : ℕ

/-- The state of a call: `count` is `nread` or `nwrite`, and `ret` is what was returned. -/
structure Timed where
  start : ℕ
  nBytes : ℕ
  timeout : ℤ
  left : ℕ
  count : ℕ
  now : ℕ
  ret : Option ℤ

namespace Timed

/-- The state before the loop. -/
def enter (start nBytes : ℕ) (timeout : ℤ) : Timed :=
  ⟨start, nBytes, timeout, nBytes, 0, start, none⟩

/-- One turn of `while(1)`; `finish` is what comes behind the loop. -/
def turn (finish : ℕ → ℕ → ℤ) (t : Timed) (a : TimedAnswer) : Timed :=
  if t.ret.isSome then t
  else if a.wait.code < 0 then { t with now := a.now, ret := some a.wait.code }
  else
    match a.got with
    | .intr => { t with now := a.now }
    | .failed => { t with now := a.now, ret := some (-1) }
    | .closed => { t with now := a.now, ret := some 0 }
    | .bytes n =>
        let t := { t with now := a.now, left := t.left - n, count := t.count + n }
        if t.left = 0 then { t with ret := some (finish t.nBytes t.count) }
        else
          let timeout := s32 (t.timeout - diffMillSec (.ofMicros a.now) (.ofMicros t.start))
          if timeout ≤ 0 then { t with timeout, ret := some (-2) } else { t with timeout }

end Timed

/-- The end of `RecvN`. -/
def recvEnd (nBytes nread : ℕ) : ℤ := if nread = nBytes then s32 nread else -2

/-- The end of `SendN`. -/
def sendEnd (_nBytes nwrite : ℕ) : ℤ := s32 nwrite

/-! ## What arrives -/

/-- At most as many bytes as are asked for. -/
def Moved.upTo (left : ℕ) : Moved → Moved
  | .bytes n => .bytes (min n left)
  | m => m

/-- What the socket does next: the time when it is ready, if ever, whether `select` fails then,
and what `recv` or `send` finds.  The turn is over `lag` later; a wait that expires is `overrun`
too long. -/
structure Arrival where
  comes : Option ℕ
  fails : Bool
  got : Moved
  lag : ℕ
  overrun : ℕ
  pos : got ≠ .bytes 0

namespace Arrival

/-- Nothing comes any more. -/
def silence (overrun : ℕ) : Arrival := ⟨none, false, .closed, 0, overrun, nofun⟩

/-- It comes while a wait that begins at `now` lasts. -/
def InWait (e : Arrival) (now : ℕ) (timeout : ℤ) : Prop :=
  match e.comes with
  | some time => (time : ℤ) ≤ now + 1000 * timeout + e.overrun
  | none => False

instance (e : Arrival) (now : ℕ) (timeout : ℤ) : Decidable (e.InWait now timeout) := by
  cases e with
  | mk comes =>
    cases comes with
    | some time => exact inferInstanceAs (Decidable (_ ≤ _))
    | none => exact inferInstanceAs (Decidable False)

/-- When it has been taken. -/
def taken (e : Arrival) (now : ℕ) : ℕ := max now (e.comes.getD 0) + e.lag

/-- What is left of `left` bytes, where the call goes on. -/
def leaves (e : Arrival) (left : ℕ) : Option ℕ :=
  if e.fails ∨ e.comes = none then none
  else
    match e.got with
    | .bytes n => if n < left then some (left - n) else none
    | .intr => some left
    | .closed => none
    | .failed => none

/-- It has all the bytes that are left. -/
def completes (e : Arrival) (left : ℕ) : Bool :=
  !e.fails && e.comes.isSome &&
    match e.got with
    | .bytes n => left ≤ n
    | _ => false

/-- The milliseconds since the start, where it is a piece. -/
def spends (e : Arrival) (start now : ℕ) : ℤ :=
  match e.got with
  | .bytes _ => millisSince start (e.taken now)
  | _ => 0

/-- What the system answers in a turn. -/
def answer (e : Arrival) (t : Timed) : TimedAnswer :=
  if e.InWait t.now t.timeout then
    ⟨if e.fails then .failed else .ready, e.got.upTo t.left, e.taken t.now⟩
  else ⟨.expired, .closed, (t.now + 1000 * t.timeout + e.overrun).toNat⟩

end Arrival

/-- A turn of `RecvN` for a socket that is open and a timeout that is not negative. -/
def recvN (t : Timed) (e : Arrival) : Timed × Unit := (t.turn recvEnd (e.answer t), ())

/-- A turn of `SendN`, likewise. -/
def sendN (t : Timed) (e : Arrival) : Timed × Unit := (t.turn sendEnd (e.answer t), ())

namespace Timed

/-! ## The deadline -/

/-- At least `timeout` milliseconds have passed. -/
def Late (timeout : ℤ) (start now : ℕ) : Prop := start + 1000 * timeout ≤ now

instance (timeout : ℤ) (start now : ℕ) : Decidable (Late timeout start now) :=
  inferInstanceAs (Decidable (_ ≤ _))

/-- Where the turn ends the call, the timeout code is returned late, and another code because
all is transferred, the peer has closed, or there was an error. -/
def Ends (finish : ℕ → ℕ → ℤ) (timeout : ℤ) (t : Timed) (e : Arrival) : Prop :=
  let a := e.answer t
  t.ret = none → ∀ r, (t.turn finish a).ret = some r →
    if r = -2 then Late timeout t.start a.now
    else (t.turn finish a).count = t.nBytes ∨ a.wait = .failed ∨
      a.wait = .ready ∧ (a.got = .closed ∨ a.got = .failed)

/-- The time when the arrivals of a list have been taken. -/
def takenAt : ℕ → List Arrival → ℕ
  | now, [] => now
  | now, e :: es => takenAt (e.taken now) es

/-- What the arrivals of a list leave of `left` bytes, where the call goes on. -/
def leftAfter : ℕ → List Arrival → Option ℕ
  | left, [] => some left
  | left, e :: es => (e.leaves left).bind fun left => leftAfter left es

/-- The milliseconds since the start, added up over the pieces of a list. -/
def spent (start : ℕ) : ℕ → List Arrival → ℤ
  | _, [] => 0
  | now, e :: es => e.spends start now + spent start (e.taken now) es

/-- What is asked of an arrival when those before it have been taken at `now`, leave `left`
bytes, and have `spent` milliseconds between them: unless the deadline is over, there is time
left, it comes while the wait lasts or the wait lasts until the deadline, and it does not
complete a number of bytes that is the timeout code. -/
def OnTime (timeout : ℤ) (start nBytes now left : ℕ) (spent : ℤ) (e : Arrival) : Prop :=
  Late timeout start now ∨
    spent < timeout ∧
      (e.InWait now (timeout - spent) ∨
        start + 1000 * timeout ≤ now + 1000 * (timeout - spent) + e.overrun) ∧
      (e.completes left → Late timeout start (e.taken now) ∨ s32 nBytes ≠ -2)

instance (timeout : ℤ) (start nBytes now left : ℕ) (spent : ℤ) (e : Arrival) :
    Decidable (OnTime timeout start nBytes now left spent e) :=
  inferInstanceAs (Decidable (_ ∨ _))

/-- The arrivals are on time when those before have been taken at `now`, leave `left` bytes and
have spent `before`. -/
def InTimeFrom (timeout : ℤ) (start nBytes now left : ℕ) (before : ℤ) (es : List Arrival) :
    Prop :=
  ∀ i (_ : i < es.length), ∀ rest ∈ leftAfter left (es.take i),
    OnTime timeout start nBytes (takenAt now (es.take i)) rest
      (before + spent start now (es.take i)) es[i]

/-- Every arrival is on time while the call goes on. -/
def InTime (timeout : ℤ) (start nBytes : ℕ) (es : List Arrival) : Prop :=
  InTimeFrom timeout start nBytes start nBytes 0 es

instance (timeout : ℤ) (start nBytes : ℕ) (es : List Arrival) :
    Decidable (InTime timeout start nBytes es) :=
  inferInstanceAs (Decidable (∀ i (_ : i < es.length), _))

variable {finish : ℕ → ℕ → ℤ} {timeout : ℤ} {t : Timed} {e : Arrival}
  {start nBytes now left n : ℕ} {before : ℤ} {es : List Arrival}

theorem Late.mono {now' : ℕ} (h : Late timeout start now) (hle : now ≤ now') :
    Late timeout start now' := by
  rw [Late] at h ⊢
  omega

theorem le_taken (e : Arrival) (now : ℕ) : now ≤ e.taken now := by
  rw [Arrival.taken]
  omega

theorem le_takenAt (now : ℕ) (es : List Arrival) : now ≤ takenAt now es := by
  induction es generalizing now with
  | nil => exact le_rfl
  | cons e es ih => exact (le_taken e now).trans (ih (e.taken now))

/-- After the deadline nothing is asked any more. -/
theorem inTimeFrom_of_late (h : Late timeout start now) :
    InTimeFrom timeout start nBytes now left before es :=
  fun _ _ _ _ => .inl (h.mono (le_takenAt now _))

theorem inTimeFrom_cons :
    InTimeFrom timeout start nBytes now left before (e :: es) ↔
      OnTime timeout start nBytes now left before e ∧
        ∀ rest ∈ e.leaves left, InTimeFrom timeout start nBytes (e.taken now) rest
          (before + e.spends start now) es := by
  constructor
  · intro h
    constructor
    · have hhead : OnTime timeout start nBytes now left (before + 0) e :=
        h 0 (Nat.zero_lt_succ _) left rfl
      rwa [add_zero] at hhead
    · intro rest hrest i hi rest' hrest'
      have htail := h (i + 1) (by simpa using hi) rest' (by
        rw [List.take_succ_cons, leftAfter, Option.mem_def.mp hrest]
        exact hrest')
      simpa [takenAt, spent, add_assoc] using htail
  · intro h i hi rest hrest
    cases i with
    | zero =>
        have hrest' : left = rest := by simpa [leftAfter] using hrest
        subst hrest'
        simpa [takenAt, spent] using h.1
    | succ i =>
        rw [List.take_succ_cons, leftAfter, Option.mem_def, Option.bind_eq_some_iff] at hrest
        obtain ⟨mid, hmid, hrest⟩ := hrest
        have htail := h.2 mid hmid i (by simpa using hi) rest hrest
        simpa [takenAt, spent, add_assoc] using htail

/-- Before the deadline there must be time left when the next arrival is waited for. -/
theorem not_inTimeFrom (hearly : ¬Late timeout start now) (hover : timeout ≤ before)
    (hne : es ≠ []) : ¬InTimeFrom timeout start nBytes now left before es := by
  cases es with
  | nil => exact absurd rfl hne
  | cons e es =>
      intro hin
      have hleft := ((inTimeFrom_cons.mp hin).1.resolve_left hearly).1
      omega

theorem not_inWait_silence {overrun : ℕ} {timeout : ℤ} :
    ¬(Arrival.silence overrun).InWait now timeout := by
  rw [Arrival.InWait, Arrival.silence]
  exact id

/-! ## One turn -/

/-- A call that goes on. -/
structure Inv (t : Timed) : Prop where
  start_le : t.start ≤ t.now
  timeout_pos : 0 < t.timeout
  count : t.count + t.left = t.nBytes

theorem Inv.enter (start nBytes : ℕ) (hpos : 0 < timeout) :
    (Timed.enter start nBytes timeout).Inv where
  start_le := le_rfl
  timeout_pos := hpos
  count := Nat.zero_add nBytes

theorem turn_of_expired (finish : ℕ → ℕ → ℤ) (hnone : t.ret = none)
    (hwait : ¬e.InWait t.now t.timeout) :
    t.turn finish (e.answer t) =
      { t with now := (t.now + 1000 * t.timeout + e.overrun).toNat, ret := some (-2) } := by
  simp [turn, hnone, Arrival.answer, hwait, Waited.code]

theorem answer_of_fails (hwait : e.InWait t.now t.timeout) (hfails : e.fails) :
    e.answer t = ⟨.failed, e.got.upTo t.left, e.taken t.now⟩ := by
  rw [Arrival.answer, if_pos hwait, if_pos hfails]

theorem answer_of_ready (hwait : e.InWait t.now t.timeout) (hfails : ¬e.fails) :
    e.answer t = ⟨.ready, e.got.upTo t.left, e.taken t.now⟩ := by
  rw [Arrival.answer, if_pos hwait, if_neg hfails]

/-- The last piece. -/
theorem turn_of_last (finish : ℕ → ℕ → ℤ) (hnone : t.ret = none) (hwait : e.InWait t.now t.timeout)
    (hfails : ¬e.fails) (hgot : e.got = .bytes n) (hlast : t.left ≤ n) :
    t.turn finish (e.answer t) = { t with
      now := e.taken t.now, left := 0, count := t.count + t.left
      ret := some (finish t.nBytes (t.count + t.left)) } := by
  simp [turn, hnone, answer_of_ready hwait hfails, hgot, Moved.upTo, hlast, Waited.code]

/-- A piece that is not the last. -/
theorem turn_of_piece (finish : ℕ → ℕ → ℤ) (hnone : t.ret = none) (hwait : e.InWait t.now t.timeout)
    (hfails : ¬e.fails) (hgot : e.got = .bytes n) (hlt : n < t.left) {rest : ℤ}
    (hrest : s32 (t.timeout - diffMillSec (.ofMicros (e.taken t.now)) (.ofMicros t.start)) =
      rest) :
    t.turn finish (e.answer t) = { t with
      now := e.taken t.now, left := t.left - n, count := t.count + n, timeout := rest
      ret := if rest ≤ 0 then some (-2) else none } := by
  have hsub : t.left - n ≠ 0 := by omega
  have hmin : min n t.left = n := by omega
  by_cases hend : rest ≤ 0
  · simp [turn, hnone, answer_of_ready hwait hfails, hgot, Moved.upTo, hmin, hsub, hrest, hend,
      Waited.code]
  · simp [turn, hnone, answer_of_ready hwait hfails, hgot, Moved.upTo, hmin, hsub, hrest, hend,
      Waited.code]

theorem turn_of_intr (finish : ℕ → ℕ → ℤ) (hnone : t.ret = none) (hwait : e.InWait t.now t.timeout)
    (hfails : ¬e.fails) (hgot : e.got = .intr) :
    t.turn finish (e.answer t) = { t with now := e.taken t.now } := by
  simp [turn, hnone, answer_of_ready hwait hfails, hgot, Moved.upTo, Waited.code]

/-- What ends the call with another code than that for a timeout. -/
theorem ret_of_cause (finish : ℕ → ℕ → ℤ) (hnone : t.ret = none) (hwait : e.InWait t.now t.timeout)
    (hcause : e.fails ∨ e.got = .closed ∨ e.got = .failed) :
    ∃ r, (t.turn finish (e.answer t)).ret = some r ∧ r ≠ -2 ∧
      ((e.answer t).wait = .failed ∨ (e.answer t).wait = .ready ∧
        ((e.answer t).got = .closed ∨ (e.answer t).got = .failed)) := by
  by_cases hfails : e.fails
  · rw [answer_of_fails hwait hfails]
    exact ⟨-1, by simp [turn, hnone, Waited.code], by decide, .inl rfl⟩
  · rw [answer_of_ready hwait hfails]
    rcases hcause.resolve_left hfails with hgot | hgot
    · exact ⟨0, by simp [turn, hnone, hgot, Moved.upTo, Waited.code], by decide,
        .inr ⟨rfl, .inl (by simp [hgot, Moved.upTo])⟩⟩
    · exact ⟨-1, by simp [turn, hnone, hgot, Moved.upTo, Waited.code], by decide,
        .inr ⟨rfl, .inr (by simp [hgot, Moved.upTo])⟩⟩

/-- What a turn of a call that goes on can come to. -/
inductive Outcome (t : Timed) (e : Arrival) : Prop
  | expired (hwait : ¬e.InWait t.now t.timeout)
  | stopped (hwait : e.InWait t.now t.timeout)
      (hcause : e.fails ∨ e.got = .closed ∨ e.got = .failed)
  | intr (hwait : e.InWait t.now t.timeout) (hfails : ¬e.fails) (hgot : e.got = .intr)
  | last (n : ℕ) (hwait : e.InWait t.now t.timeout) (hfails : ¬e.fails)
      (hgot : e.got = .bytes n) (hle : t.left ≤ n)
  | piece (n : ℕ) (hwait : e.InWait t.now t.timeout) (hfails : ¬e.fails)
      (hgot : e.got = .bytes n) (hlt : n < t.left)

theorem outcome (t : Timed) (e : Arrival) : Outcome t e := by
  by_cases hwait : e.InWait t.now t.timeout
  · by_cases hfails : e.fails
    · exact .stopped hwait (.inl hfails)
    · cases hgot : e.got with
      | closed => exact .stopped hwait (.inr (.inl hgot))
      | failed => exact .stopped hwait (.inr (.inr hgot))
      | intr => exact .intr hwait hfails hgot
      | bytes n =>
          by_cases hle : t.left ≤ n
          · exact .last n hwait hfails hgot hle
          · exact .piece n hwait hfails hgot (not_le.mp hle)
  · exact .expired hwait

theorem turn_of_isSome {r : ℤ} {a : TimedAnswer} (h : t.ret = some r) : t.turn finish a = t := by
  simp [turn, h]

section
variable {step : Timed → Arrival → Timed × Unit} {r : ℤ}

theorem always_of_isSome (hstep : ∀ t e, step t e = (t.turn finish (e.answer t), ()))
    (h : t.ret = some r) (es : List Arrival) : Run.Always step (Ends finish timeout) t es := by
  induction es with
  | nil => trivial
  | cons e es ih =>
      rw [Run.always_cons, hstep, turn_of_isSome h]
      refine ⟨?_, ih⟩
      intro hnone
      rw [h] at hnone
      cases hnone

end

/-- The clock goes on. -/
theorem Inv.le_answer_now (h : t.Inv) (e : Arrival) : t.now ≤ (e.answer t).now := by
  have hpos := h.timeout_pos
  rw [Arrival.answer]
  split
  next => exact le_taken e t.now
  next =>
    dsimp only
    omega

/-- A turn ends the call, or the call goes on. -/
theorem Inv.turn (finish : ℕ → ℕ → ℤ) (h : t.Inv) (hnone : t.ret = none) (e : Arrival)
    (hgo : (t.turn finish (e.answer t)).ret = none) : (t.turn finish (e.answer t)).Inv := by
  have hstart := h.start_le.trans (le_taken e t.now)
  have hcount := h.count
  cases outcome t e with
  | expired hwait =>
      rw [turn_of_expired _ hnone hwait] at hgo
      cases hgo
  | stopped hwait hcause =>
      obtain ⟨r, hr, -⟩ := ret_of_cause finish hnone hwait hcause
      rw [hr] at hgo
      cases hgo
  | intr hwait hfails hgot =>
      rw [turn_of_intr _ hnone hwait hfails hgot]
      exact ⟨hstart, h.timeout_pos, hcount⟩
  | last n hwait hfails hgot hle =>
      rw [turn_of_last _ hnone hwait hfails hgot hle] at hgo
      cases hgo
  | piece n hwait hfails hgot hlt =>
      have hturn := turn_of_piece finish hnone hwait hfails hgot hlt rfl
      generalize s32 (t.timeout - diffMillSec (.ofMicros (e.taken t.now)) (.ofMicros t.start)) =
        rest at hturn
      rw [hturn] at hgo ⊢
      have hpos : 0 < rest := by
        by_contra hend
        simp [not_lt.mp hend] at hgo
      exact ⟨hstart, hpos, by dsimp only; omega⟩

/-- A turn that ends the call with another code than that for a timeout has a reason for it. -/
theorem Inv.ends (h : t.Inv) (e : Arrival)
    (hcode : (t.turn finish (e.answer t)).ret = some (-2) → Late timeout t.start (e.answer t).now) :
    t.Ends finish timeout e := by
  intro hnone r hr
  have hcount := h.count
  split
  next hr2 => exact hcode (hr2 ▸ hr)
  next hne =>
    cases outcome t e with
    | expired hwait =>
        rw [turn_of_expired _ hnone hwait] at hr
        exact absurd (Option.some.inj hr).symm hne
    | stopped hwait hcause =>
        obtain ⟨r', -, -, hreason⟩ := ret_of_cause finish hnone hwait hcause
        exact .inr hreason
    | intr hwait hfails hgot =>
        rw [turn_of_intr _ hnone hwait hfails hgot, hnone] at hr
        cases hr
    | last n hwait hfails hgot hle =>
        rw [turn_of_last _ hnone hwait hfails hgot hle]
        exact .inl hcount
    | piece n hwait hfails hgot hlt =>
        rw [turn_of_piece _ hnone hwait hfails hgot hlt rfl] at hr
        dsimp only at hr
        split at hr
        · exact absurd (Option.some.inj hr).symm hne
        · cases hr

/-- Exactly the timeout code asks for more. -/
theorem Inv.ends_iff (h : t.Inv) (hnone : t.ret = none) (e : Arrival) :
    t.Ends finish timeout e ↔
      ((t.turn finish (e.answer t)).ret = some (-2) → Late timeout t.start (e.answer t).now) := by
  constructor
  · intro hends hret
    have hlate := hends hnone (-2) hret
    rwa [if_pos rfl] at hlate
  · exact h.ends e

@[simp] theorem turn_start (t : Timed) (a : TimedAnswer) : (t.turn finish a).start = t.start := by
  rw [Timed.turn]
  grind

theorem turn_now (hnone : t.ret = none) (a : TimedAnswer) : (t.turn finish a).now = a.now := by
  rw [Timed.turn]
  grind

/-- What is left of `timeout` after an incomplete piece in time. -/
theorem Inv.timeout_eq (h : t.Inv) (hmax : timeout < 2 ^ 31) (hpos : 0 ≤ before)
    (htimeout : t.timeout = timeout - before)
    (hearly : ¬Late timeout t.start (e.taken t.now)) :
    s32 (t.timeout - diffMillSec (.ofMicros (e.taken t.now)) (.ofMicros t.start)) =
      timeout - (before + millisSince t.start (e.taken t.now)) := by
  have hleft := h.timeout_pos
  have hstart := h.start_le.trans (le_taken e t.now)
  rw [Late] at hearly
  have hms : 0 ≤ millisSince t.start (e.taken t.now) ∧
      millisSince t.start (e.taken t.now) ≤ timeout := by
    rw [millisSince]
    omega
  have hdiff : s32 (millisSince t.start (e.taken t.now)) =
      millisSince t.start (e.taken t.now) := s32_of_bounds (by omega) (by omega)
  rw [diffMillSec_ofMicros, hdiff, s32_of_bounds (by omega) (by omega), htimeout]
  ring

/-! ## Runs -/

section
variable {step : Timed → Arrival → Timed × Unit}
  (hstep : ∀ t e, step t e = (t.turn finish (e.answer t), ()))

include hstep

/-- After the deadline a call ends as it should, whatever comes. -/
theorem Inv.always_of_late (h : t.ret = none → t.Inv)
    (hlate : t.ret = none → Late timeout t.start t.now) (es : List Arrival) :
    Run.Always step (Ends finish timeout) t es := by
  induction es generalizing t with
  | nil => trivial
  | cons e es ih =>
      cases hret : t.ret with
      | some r => exact always_of_isSome hstep hret _
      | none =>
          have hinv := h hret
          have hlate := (hlate hret).mono (hinv.le_answer_now e)
          rw [Run.always_cons, hstep]
          refine ⟨hinv.ends e fun _ => hlate, ih (hinv.turn _ hret e) ?_⟩
          intro _
          rw [turn_start, turn_now hret]
          exact hlate

/-- A wait that expires reaches the deadline, or it does not. -/
theorem Inv.expired_iff (h : t.Inv) (hnone : t.ret = none)
    (htimeout : t.timeout = timeout - before) (hearly : ¬Late timeout t.start t.now)
    (hwait : ¬e.InWait t.now t.timeout) (es : List Arrival) :
    Run.Always step (Ends finish timeout) t (e :: es) ↔
      InTimeFrom timeout t.start t.nBytes t.now t.left before (e :: es) := by
  have hleft := h.timeout_pos
  have hturn := turn_of_expired finish hnone hwait
  have hret : (t.turn finish (e.answer t)).ret = some (-2) := by rw [hturn]
  have hnow : (e.answer t).now = (t.now + 1000 * t.timeout + e.overrun).toNat := by
    rw [Arrival.answer, if_neg hwait]
  rw [Run.always_cons, h.ends_iff hnone, hstep, hnow,
    and_iff_left (always_of_isSome hstep hret es), inTimeFrom_cons, OnTime, or_iff_right hearly,
    ← htimeout, or_iff_right hwait]
  simp only [hret, forall_const]
  have hreach : Late timeout t.start (t.now + 1000 * t.timeout + e.overrun).toNat ↔
      t.start + 1000 * timeout ≤ t.now + 1000 * t.timeout + e.overrun := by
    rw [Late]
    omega
  rw [hreach]
  constructor
  · intro hwaits
    -- what comes after the wait comes after the deadline
    have hlate : e.comes ≠ none → Late timeout t.start (e.taken t.now) := by
      intro hcomes
      cases hsome : e.comes with
      | none => exact absurd hsome hcomes
      | some time =>
          rw [Arrival.InWait, hsome] at hwait
          rw [Late, Arrival.taken, hsome, Option.getD_some]
          dsimp only at hwait
          omega
    refine ⟨⟨by omega, hwaits, ?_⟩, ?_⟩
    · intro hcompletes
      refine .inl (hlate ?_)
      intro hcomes
      simp [Arrival.completes, hcomes] at hcompletes
    · intro rest hrest
      refine inTimeFrom_of_late (hlate ?_)
      intro hcomes
      simp [Arrival.leaves, hcomes] at hrest
  · exact fun hin => hin.1.2.1

omit hstep in
/-- What comes while the wait lasts is on time, but for the last piece. -/
theorem onTime_of_inWait (h : t.Inv) (htimeout : t.timeout = timeout - before)
    (hwait : e.InWait t.now t.timeout)
    (hlast : e.completes t.left → Late timeout t.start (e.taken t.now) ∨ s32 t.nBytes ≠ -2) :
    OnTime timeout t.start t.nBytes t.now t.left before e := by
  have hleft := h.timeout_pos
  exact .inr ⟨by omega, .inl (htimeout ▸ hwait), hlast⟩

omit hstep in
theorem comes_of_inWait (hwait : e.InWait now timeout) : e.comes ≠ none := by
  intro hcomes
  rw [Arrival.InWait, hcomes] at hwait
  exact hwait

/-- The peer closes or there is an error. -/
theorem Inv.stopped_iff (h : t.Inv) (hnone : t.ret = none) (htimeout : t.timeout = timeout - before)
    (hwait : e.InWait t.now t.timeout) (hcause : e.fails ∨ e.got = .closed ∨ e.got = .failed)
    (es : List Arrival) :
    Run.Always step (Ends finish timeout) t (e :: es) ↔
      InTimeFrom timeout t.start t.nBytes t.now t.left before (e :: es) := by
  obtain ⟨r, hr, hne, -⟩ := ret_of_cause finish hnone hwait hcause
  have hcompletes : ¬e.completes t.left := by
    rcases hcause with hfails | hgot | hgot
    · simp [Arrival.completes, hfails]
    · simp [Arrival.completes, hgot]
    · simp [Arrival.completes, hgot]
  have hleaves : e.leaves t.left = none := by
    rcases hcause with hfails | hgot | hgot
    · simp [Arrival.leaves, hfails]
    · simp [Arrival.leaves, hgot]
    · simp [Arrival.leaves, hgot]
  rw [Run.always_cons, hstep, h.ends_iff hnone, inTimeFrom_cons, hleaves]
  refine iff_of_true ⟨?_, always_of_isSome hstep hr _⟩ ⟨?_, by simp⟩
  · intro hret
    rw [hr] at hret
    exact absurd (Option.some.inj hret) hne
  · exact onTime_of_inWait h htimeout hwait fun hc => absurd hc hcompletes

/-- All the bytes that are left come at once. -/
theorem Inv.last_iff (hfinish : ∀ n, finish n n = s32 n) (h : t.Inv) (hnone : t.ret = none)
    (htimeout : t.timeout = timeout - before) (hearly : ¬Late timeout t.start t.now)
    (hwait : e.InWait t.now t.timeout) (hfails : ¬e.fails) (hgot : e.got = .bytes n)
    (hle : t.left ≤ n) (es : List Arrival) :
    Run.Always step (Ends finish timeout) t (e :: es) ↔
      InTimeFrom timeout t.start t.nBytes t.now t.left before (e :: es) := by
  have hturn := turn_of_last finish hnone hwait hfails hgot hle
  rw [h.count, hfinish] at hturn
  have hret : (t.turn finish (e.answer t)).ret = some (s32 t.nBytes) := by rw [hturn]
  have hcompletes : e.completes t.left := by
    simp [Arrival.completes, hfails, hgot, hle, Option.isSome_iff_ne_none, comes_of_inWait hwait]
  have hleaves : e.leaves t.left = none := by
    simp [Arrival.leaves, hgot, not_lt.mpr hle]
  have hnow : (e.answer t).now = e.taken t.now := by rw [answer_of_ready hwait hfails]
  rw [Run.always_cons, hstep, h.ends_iff hnone, inTimeFrom_cons, hleaves, hret, hnow,
    and_iff_left (always_of_isSome hstep hret _), and_iff_left (by simp)]
  constructor
  · intro hcode
    apply onTime_of_inWait h htimeout hwait
    intro _
    by_cases heq : s32 t.nBytes = -2
    · exact .inl (hcode (by rw [heq]))
    · exact .inr heq
  · intro hon hcode
    have hlast := (hon.resolve_left hearly).2.2 hcompletes
    exact hlast.resolve_right fun hne => hne (Option.some.inj hcode)

/-- **A run of a call ends as it should exactly if every arrival is on time.** -/
theorem Inv.always_iff (hfinish : ∀ n, finish n n = s32 n) (hmax : timeout < 2 ^ 31)
    (h : t.Inv) (hnone : t.ret = none) (hpos : 0 ≤ before)
    (htimeout : t.timeout = timeout - before) (hearly : ¬Late timeout t.start t.now)
    (es : List Arrival) (overrun : ℕ) :
    Run.Always step (Ends finish timeout) t (es ++ [.silence overrun]) ↔
      InTimeFrom timeout t.start t.nBytes t.now t.left before (es ++ [.silence overrun]) := by
  induction es generalizing t before with
  | nil => exact h.expired_iff hstep hnone htimeout hearly not_inWait_silence []
  | cons e es ih =>
      rw [List.cons_append]
      cases outcome t e with
      | expired hwait => exact h.expired_iff hstep hnone htimeout hearly hwait _
      | stopped hwait hcause => exact h.stopped_iff hstep hnone htimeout hwait hcause _
      | last n hwait hfails hgot hle =>
          exact h.last_iff hstep hfinish hnone htimeout hearly hwait hfails hgot hle _
      | intr hwait hfails hgot =>
          have hturn := turn_of_intr finish hnone hwait hfails hgot
          have hinv := h.turn finish hnone e (by rw [hturn]; exact hnone)
          have hleaves : e.leaves t.left = some t.left := by
            simp [Arrival.leaves, hfails, hgot, comes_of_inWait hwait]
          have hspends : e.spends t.start t.now = 0 := by rw [Arrival.spends, hgot]
          have hends : t.Ends finish timeout e := by
            apply h.ends
            rw [hturn, hnone]
            nofun
          have hon := onTime_of_inWait h htimeout hwait (by
            simp [Arrival.completes, hgot])
          rw [Run.always_cons, hstep, inTimeFrom_cons, hleaves, hspends, add_zero,
            and_iff_right hends, and_iff_right hon]
          simp only [Option.mem_def, Option.some.injEq, forall_eq']
          rw [hturn] at hinv ⊢
          by_cases hlate : Late timeout t.start (e.taken t.now)
          · exact iff_of_true (Inv.always_of_late hstep (fun _ => hinv) (fun _ => hlate) _)
              (inTimeFrom_of_late hlate)
          · exact ih hinv hnone hpos htimeout hlate
      | piece n hwait hfails hgot hlt =>
          have hleaves : e.leaves t.left = some (t.left - n) := by
            simp [Arrival.leaves, hfails, hgot, comes_of_inWait hwait, hlt]
          have hspends : e.spends t.start t.now = millisSince t.start (e.taken t.now) := by
            rw [Arrival.spends, hgot]
          have hon := onTime_of_inWait h htimeout hwait (by
            simp [Arrival.completes, hgot, hlt])
          have hnow : (e.answer t).now = e.taken t.now := by rw [answer_of_ready hwait hfails]
          rw [Run.always_cons, hstep, inTimeFrom_cons, hleaves, hspends, and_iff_right hon]
          simp only [Option.mem_def, Option.some.injEq, forall_eq']
          by_cases hlate : Late timeout t.start (e.taken t.now)
          · refine iff_of_true ⟨h.ends e fun _ => hnow ▸ hlate, ?_⟩ (inTimeFrom_of_late hlate)
            refine Inv.always_of_late hstep (h.turn finish hnone e) ?_ _
            intro _
            rw [turn_start, turn_now hnone, hnow]
            exact hlate
          · have hturn := turn_of_piece finish hnone hwait hfails hgot hlt
              (h.timeout_eq hmax hpos htimeout hlate)
            have hms : 0 ≤ millisSince t.start (e.taken t.now) := by
              have hstart := h.start_le.trans (le_taken e t.now)
              rw [millisSince]
              omega
            generalize millisSince t.start (e.taken t.now) = ms at *
            by_cases hend : timeout - (before + ms) ≤ 0
            · -- the call gives up, and the next arrival finds no time left
              rw [h.ends_iff hnone, hturn, hnow, if_pos hend]
              exact iff_of_false (fun hand => hlate (hand.1 rfl))
                (not_inTimeFrom hlate (by omega) (by simp))
            · rw [if_neg hend] at hturn
              have hends : t.Ends finish timeout e := by
                apply h.ends
                rw [hturn]
                nofun
              have hinv := h.turn finish hnone e (by rw [hturn])
              rw [and_iff_right hends]
              rw [hturn] at hinv ⊢
              exact ih hinv rfl (by omega) rfl hlate

/-- When nothing comes any more, the call returns. -/
theorem Inv.returns (h : t.Inv) (es : List Arrival) (overrun : ℕ) :
    ∃ r, (Run.final step t (es ++ [.silence overrun])).ret = some r := by
  have hrun : ∀ es, (Run.final step t es).ret = none → (Run.final step t es).Inv := by
    intro es
    have hkeep : ∀ t e, (t.ret = none → t.Inv) → True →
        (step t e).1.ret = none → (step t e).1.Inv := by
      intro t e hinv _ hgo
      rw [hstep] at hgo ⊢
      cases hret : t.ret with
      | some r =>
          rw [turn_of_isSome hret, hret] at hgo
          cases hgo
      | none => exact (hinv hret).turn _ hret e hgo
    exact Run.invariant hkeep (fun _ => h) (Run.always_true t es)
  rw [Run.final_append, Run.final_cons, Run.final_nil, hstep]
  generalize Run.final step t es = t at hrun ⊢
  cases hret : t.ret with
  | some r => exact ⟨r, by rw [turn_of_isSome hret, hret]⟩
  | none => exact ⟨-2, by rw [turn_of_expired _ hret not_inWait_silence]⟩

end

/-- The call returns, and it ends as it should. -/
def Keeps (step : Timed → Arrival → Timed × Unit) (finish : ℕ → ℕ → ℤ) (timeout : ℤ) (t : Timed)
    (es : List Arrival) : Prop :=
  (∃ r, (Run.final step t es).ret = some r) ∧ Run.Always step (Ends finish timeout) t es

theorem keeps_iff {step : Timed → Arrival → Timed × Unit}
    (hstep : ∀ t e, step t e = (t.turn finish (e.answer t), ()))
    (hfinish : ∀ n, finish n n = s32 n) (start nBytes : ℕ) (hpos : 0 < timeout)
    (hmax : timeout < 2 ^ 31) (es : List Arrival) (overrun : ℕ) :
    Keeps step finish timeout (enter start nBytes timeout) (es ++ [.silence overrun]) ↔
      InTime timeout start nBytes (es ++ [.silence overrun]) := by
  have henter : (enter start nBytes timeout).Inv := .enter start nBytes hpos
  have hearly : ¬Late timeout start start := by
    rw [Late]
    omega
  rw [Keeps, and_iff_right (henter.returns hstep es overrun)]
  exact henter.always_iff hstep hfinish hmax rfl le_rfl (sub_zero timeout).symm hearly es overrun

/-- **`RecvN` and `SendN` keep their deadline exactly if the arrivals before the deadline come
in the time that is left when, at each incomplete piece, all the time since the start is taken
off.** -/
theorem keeps_deadline_iff (start nBytes : ℕ) (hpos : 0 < timeout) (hmax : timeout < 2 ^ 31)
    (es : List Arrival) (overrun : ℕ) :
    (Keeps recvN recvEnd timeout (enter start nBytes timeout) (es ++ [.silence overrun]) ↔
        InTime timeout start nBytes (es ++ [.silence overrun])) ∧
      (Keeps sendN sendEnd timeout (enter start nBytes timeout) (es ++ [.silence overrun]) ↔
        InTime timeout start nBytes (es ++ [.silence overrun])) := by
  have hrecv : ∀ t e, recvN t e = (t.turn recvEnd (e.answer t), ()) := fun _ _ => rfl
  have hsend : ∀ t e, sendN t e = (t.turn sendEnd (e.answer t), ()) := fun _ _ => rfl
  have hrecvEnd : ∀ n, recvEnd n n = s32 n := fun _ => if_pos rfl
  have hsendEnd : ∀ n, sendEnd n n = s32 n := fun _ => rfl
  exact ⟨keeps_iff hrecv hrecvEnd start nBytes hpos hmax es overrun,
    keeps_iff hsend hsendEnd start nBytes hpos hmax es overrun⟩

/-- One byte at a time in microseconds. -/
def byteAt (time : ℕ) : Arrival := ⟨some time, false, .bytes 1, 0, 0, nofun⟩

/-- Three bytes with a timeout of 100 ms, at 40 ms, at 45 ms and at 50 ms. -/
theorem keeps_deadline_iff_three :
    Keeps recvN recvEnd 100 (enter 0 3 100)
        ([byteAt 40000, byteAt 45000, byteAt 50000] ++ [.silence 0]) ∧
      Keeps sendN sendEnd 100 (enter 0 3 100)
        ([byteAt 40000, byteAt 45000, byteAt 50000] ++ [.silence 0]) := by
  have h := keeps_deadline_iff 0 3 (by decide : (0 : ℤ) < 100) (by decide)
    [byteAt 40000, byteAt 45000, byteAt 50000] 0
  exact ⟨h.1.mpr (by decide), h.2.mpr (by decide)⟩

/-- Three bytes with a timeout of 100 ms, at 40 ms, at 80 ms and never: the calls give up at
80 ms. -/
theorem not_keeps_deadline :
    ¬∀ (start nBytes : ℕ) (timeout : ℤ), 0 < timeout → timeout < 2 ^ 31 →
      ∀ (es : List Arrival) (overrun : ℕ),
        Keeps recvN recvEnd timeout (enter start nBytes timeout) (es ++ [.silence overrun]) ∧
          Keeps sendN sendEnd timeout (enter start nBytes timeout) (es ++ [.silence overrun]) := by
  intro hall
  have hrecv := (hall 0 3 100 (by decide) (by decide) [byteAt 40000, byteAt 80000] 0).1
  have hends := hrecv.2.2.1 (by decide) (-2) (by decide)
  rw [if_pos rfl] at hends
  exact absurd hends (by decide)

end Timed

end Spp
