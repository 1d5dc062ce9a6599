import Mathlib.Algebra.Group.Nat.Defs
import Mathlib.Data.Int.Basic
import Mathlib.Data.List.Basic
import Spp.Lib.Run

/-!
# The shared clock

`spp_timer` publishes the time in a mapped file: it advances a flag, and then stores the
seconds and the microseconds.  `get_timeofday` reads the flag, both words and the flag again, until
the flag stays the same.  The flag is not advanced behind the stores, so it does not show
that an attempt has begun between them.

## Main definitions

* `TimeVal`, `TimerPc`, `ReaderPc`, `Clock` — the shared words and the two processes.
* `Clock.step` — the next access of one of them.
* `Clock.Whole` — a step that returns only what was published.
* `Clock.Clean` — a step that does not return from an attempt that a publication divides.
-/

namespace Spp

/-- `struct timeval`. -/
structure TimeVal where
  sec : ℤ
  usec : ℤ
  deriving DecidableEq

/-- Where the timer stands: it has advanced the flag, and then stored the seconds of `now`. -/
inductive TimerPc
  | idle
  | advanced
  | storedSec (now : TimeVal)
  deriving DecidableEq

/-- Where the reader stands in its loop, with what it has read. -/
inductive ReaderPc
  | start
  | gotFlag (flag : UInt32)
  | gotSec (flag : UInt32) (sec : ℤ)
  | gotUsec (flag : UInt32) (val : TimeVal)

/-- The words `tval_fag` and `tval` of `struct time_mgr`, and the two processes.  The rest is a
record of the run: what was published, how often the flag was advanced, and of the reader's
attempt, how often it was when the attempt began, if the timer was idle then, and if it had
stored each word when the reader read it. -/
structure Clock where
  tvalFag : UInt32
  tval : TimeVal
  timer : TimerPc
  reader : ReaderPc
  published : List TimeVal
  advances : ℕ
  begun : ℕ
  atRest : Bool
  secThere : Bool
  usecThere : Bool

/-- An access of the timer, in which `gettimeofday` gives `now`, or of the reader. -/
inductive ClockTurn
  | timer (now : TimeVal)
  | reader

namespace Clock

/-- A clock that shows a published time. -/
def init (fag : UInt32) (t : TimeVal) : Clock where
  tvalFag := fag
  tval := t
  timer := .idle
  reader := .start
  published := [t]
  advances := fag.toNat
  begun := fag.toNat
  atRest := true
  secThere := true
  usecThere := true

/-- The next access of the timer's loop. -/
def publish (c : Clock) (now : TimeVal) : Clock :=
  match c.timer with
  | .idle => { c with tvalFag := c.tvalFag + 1, timer := .advanced, advances := c.advances + 1 }
  | .advanced => { c with tval := ⟨now.sec, c.tval.usec⟩, timer := .storedSec now }
  | .storedSec now =>
      { c with
        tval := ⟨c.tval.sec, now.usec⟩
        timer := .idle
        published := c.published ++ [now] }

/-- The next access of `get_timeofday`, with the pair where it returns. -/
def getTimeofday (c : Clock) : Clock × Option TimeVal :=
  match c.reader with
  | .start =>
      ({ c with
          reader := .gotFlag c.tvalFag
          begun := c.advances
          atRest := c.timer = .idle }, none)
  | .gotFlag flag =>
      ({ c with
          reader := .gotSec flag c.tval.sec
          secThere := c.timer ≠ .advanced }, none)
  | .gotSec flag sec =>
      ({ c with
          reader := .gotUsec flag ⟨sec, c.tval.usec⟩
          usecThere := c.timer = .idle }, none)
  | .gotUsec flag val =>
      if c.tvalFag ≠ flag then ({ c with reader := .start }, none)
      else ({ c with reader := .start }, some val)

def step (c : Clock) : ClockTurn → Clock × Option TimeVal
  | .timer now => (c.publish now, none)
  | .reader => c.getTimeofday

/-- The step returns only what was published together. -/
def Whole (c : Clock) (t : ClockTurn) : Prop := ∀ val, (c.step t).2 = some val → val ∈ c.published

/-- Where the step returns, fewer than `2 ^ 32` advances fall in the attempt, and it began
between two publications, or the reader has read either both words before the timer stored
them or both after. -/
def Clean (c : Clock) (t : ClockTurn) : Prop :=
  (c.step t).2 ≠ none → c.advances - c.begun < 2 ^ 32 ∧ (c.atRest ∨ c.secThere = c.usecThere)

/-! ## What the words hold -/

/-- What the memory holds, by where the timer stands; `last` was published last. -/
def Stored (c : Clock) (last : TimeVal) : Prop :=
  match c.timer with
  | .idle | .advanced => c.tval = last
  | .storedSec now => c.tval = ⟨now.sec, last.usec⟩

/-- What the reader has, while the flag has not been advanced since its attempt began. -/
def Seen (c : Clock) (last : TimeVal) : Prop :=
  match c.reader with
  | .start => True
  | .gotFlag _ => c.atRest → c.timer = .idle
  | .gotSec _ sec =>
      (c.atRest → c.timer = .idle ∧ c.secThere) ∧
      match c.timer with
      | .idle => c.secThere → sec = last.sec
      | .advanced => c.secThere = false ∧ sec = last.sec
      | .storedSec now => sec = if c.secThere then now.sec else last.sec
  | .gotUsec _ val =>
      (c.atRest → c.secThere = c.usecThere) ∧ (c.secThere = c.usecThere → val ∈ c.published)

/-- The flag of the attempt. -/
def FlagOk (c : Clock) : Prop :=
  match c.reader with
  | .start => True
  | .gotFlag flag | .gotSec flag _ | .gotUsec flag _ => flag = .ofNat c.begun

/-- The invariant. -/
structure Inv (c : Clock) : Prop where
  fag : c.tvalFag = .ofNat c.advances
  begun : c.begun ≤ c.advances
  flag : c.FlagOk
  words : ∃ earlier last, c.published = earlier ++ [last] ∧ c.Stored last ∧
    (c.begun = c.advances → c.Seen last)

theorem inv_init (fag : UInt32) (t : TimeVal) : Inv (init fag t) where
  fag := by simp [init]
  begun := le_rfl
  flag := trivial
  words := ⟨[], t, rfl, rfl, fun _ => trivial⟩

theorem inv_publish {c : Clock} (h : Inv c) (now : TimeVal) : Inv (c.publish now) := by
  obtain ⟨hfag, hbegun, hflag, earlier, last, hpub, hstored, hseen⟩ := h
  cases htimer : c.timer with
  | idle =>
    simp only [publish, htimer]
    refine ⟨?_, Nat.le_succ_of_le hbegun, hflag, earlier, last, hpub, ?_, ?_⟩
    · simp [hfag]
    · simpa [Stored, htimer] using hstored
    · intro hlive
      simp only at hlive
      omega
  | advanced =>
    simp only [publish, htimer]
    refine ⟨hfag, hbegun, hflag, earlier, last, hpub, ?_, ?_⟩
    · simp only [Stored, htimer] at hstored
      simp [Stored, hstored]
    · intro hlive
      have hold := hseen hlive
      cases hreader : c.reader with
      | start => simp [Seen]
      | gotFlag flag =>
        have hrest : ¬ c.atRest = true := by simpa [Seen, hreader, htimer] using hold
        simp [Seen, hrest]
      | gotSec flag sec =>
        obtain ⟨hrest, hthere, hsec⟩ : c.atRest = false ∧ c.secThere = false ∧
            sec = last.sec := by
          simpa [Seen, hreader, htimer] using hold
        simp [Seen, hrest, hthere, hsec]
      | gotUsec flag val => simpa [Seen, hreader] using hold
  | storedSec now' =>
    simp only [publish, htimer]
    refine ⟨hfag, hbegun, hflag, c.published, now', rfl, ?_, ?_⟩
    · simp only [Stored, htimer] at hstored
      simp [Stored, hstored]
    · intro hlive
      have hold := hseen hlive
      cases hreader : c.reader with
      | start => simp [Seen]
      | gotFlag flag => simp [Seen]
      | gotSec flag sec =>
        obtain ⟨hrest, hsec⟩ : c.atRest = false ∧
            sec = if c.secThere then now'.sec else last.sec := by
          simpa [Seen, hreader, htimer] using hold
        simp only [Seen, hrest]
        refine ⟨by simp, ?_⟩
        intro hthere
        rw [hsec, if_pos hthere]
      | gotUsec flag val =>
        simp only [Seen, hreader] at hold ⊢
        exact ⟨hold.1, fun hsame => List.mem_append_left _ (hold.2 hsame)⟩

theorem inv_getTimeofday {c : Clock} (h : Inv c) : Inv c.getTimeofday.1 := by
  obtain ⟨hfag, hbegun, hflag, earlier, last, hpub, hstored, hseen⟩ := h
  cases hreader : c.reader with
  | start =>
    simp only [getTimeofday, hreader]
    refine ⟨hfag, le_rfl, hfag, earlier, last, hpub, hstored, fun _ => ?_⟩
    simp [Seen]
  | gotFlag flag =>
    simp only [getTimeofday, hreader]
    simp only [FlagOk, hreader] at hflag
    refine ⟨hfag, hbegun, hflag, earlier, last, hpub, hstored, fun hlive => ?_⟩
    have hold := hseen hlive
    simp only [Seen, hreader] at hold
    cases htimer : c.timer with
    | idle =>
      have hword : c.tval = last := by simpa [Stored, htimer] using hstored
      simp [Seen, hword]
    | advanced =>
      have hword : c.tval = last := by simpa [Stored, htimer] using hstored
      have hrest : ¬ c.atRest = true := by simpa [htimer] using hold
      simp [Seen, hword, hrest]
    | storedSec now =>
      have hword : c.tval = ⟨now.sec, last.usec⟩ := by simpa [Stored, htimer] using hstored
      have hrest : ¬ c.atRest = true := by simpa [htimer] using hold
      simp [Seen, hword, hrest]
  | gotSec flag sec =>
    simp only [getTimeofday, hreader]
    simp only [FlagOk, hreader] at hflag
    refine ⟨hfag, hbegun, hflag, earlier, last, hpub, hstored, fun hlive => ?_⟩
    have hold := hseen hlive
    have hmem : last ∈ c.published := by simp [hpub]
    cases htimer : c.timer with
    | idle =>
      have hword : c.tval = last := by simpa [Stored, htimer] using hstored
      obtain ⟨hrest, hsec⟩ : (c.atRest = true → c.secThere = true) ∧
          (c.secThere = true → sec = last.sec) := by
        simpa [Seen, hreader, htimer] using hold
      simp only [Seen, decide_true, hword]
      refine ⟨hrest, fun hthere => ?_⟩
      rw [hsec hthere]
      exact hmem
    | advanced =>
      have hword : c.tval = last := by simpa [Stored, htimer] using hstored
      obtain ⟨hrest, hthere, hsec⟩ : c.atRest = false ∧ c.secThere = false ∧ sec = last.sec := by
        simpa [Seen, hreader, htimer] using hold
      simp only [Seen, hrest, hword, hsec]
      exact ⟨by simp, fun _ => hmem⟩
    | storedSec now =>
      have hword : c.tval = ⟨now.sec, last.usec⟩ := by simpa [Stored, htimer] using hstored
      obtain ⟨hrest, hsec⟩ : c.atRest = false ∧
          sec = if c.secThere then now.sec else last.sec := by
        simpa [Seen, hreader, htimer] using hold
      simp only [Seen, hrest, hword]
      refine ⟨by simp, fun hthere => ?_⟩
      have hthere' : c.secThere = false := by simpa using hthere
      rw [hsec, hthere']
      exact hmem
  | gotUsec flag val =>
    have hnext : c.getTimeofday.1 = { c with reader := .start } := by
      simp only [getTimeofday, hreader]
      split <;> rfl
    rw [hnext]
    exact ⟨hfag, hbegun, trivial, earlier, last, hpub, hstored, fun _ => trivial⟩

theorem inv_step (c : Clock) (t : ClockTurn) (h : Inv c) : Inv (c.step t).1 := by
  cases t with
  | timer now => exact inv_publish h now
  | reader => exact inv_getTimeofday h

/-- Two flags that agree are the same when fewer than `2 ^ 32` advances lie between them. -/
theorem advances_eq {m n : ℕ} (hle : m ≤ n) (hlt : n - m < 2 ^ 32)
    (heq : UInt32.ofNat n = UInt32.ofNat m) : m = n := by
  have hmod := congrArg UInt32.toNat heq
  simp only [UInt32.toNat_ofNat'] at hmod
  omega

/-- A clean step returns only what was published. -/
theorem whole_of_clean {c : Clock} {t : ClockTurn} (h : Inv c) (hclean : c.Clean t) :
    c.Whole t := by
  intro val hval
  obtain ⟨hspan, hside⟩ := hclean (by rw [hval]; simp)
  cases t with
  | timer now => simp [step] at hval
  | reader =>
    obtain ⟨hfag, hbegun, hflag, earlier, last, -, -, hseen⟩ := h
    cases hreader : c.reader with
    | start => simp [step, getTimeofday, hreader] at hval
    | gotFlag flag => simp [step, getTimeofday, hreader] at hval
    | gotSec flag sec => simp [step, getTimeofday, hreader] at hval
    | gotUsec flag read =>
      simp only [step, getTimeofday, hreader] at hval
      simp only [FlagOk, hreader] at hflag
      by_cases hsame : c.tvalFag = flag
      · rw [if_neg (by simp [hsame])] at hval
        have hread : read = val := by simpa using hval
        have hlive := advances_eq hbegun hspan (by rw [← hfag, hsame, hflag])
        have hold := hseen hlive
        simp only [Seen, hreader] at hold
        rw [← hread]
        rcases hside with hrest | hthere
        · exact hold.2 (hold.1 hrest)
        · exact hold.2 hthere
      · rw [if_pos hsame] at hval
        simp at hval

/-- In every run of clean steps, every pair that is returned was published together. -/
theorem clock_run (fag : UInt32) (t : TimeVal) (turns : List ClockTurn)
    (hclean : Run.Always step Clean (init fag t) turns) :
    Run.Always step Whole (init fag t) turns :=
  Run.always_of_invariant (fun c turn h _ => inv_step c turn h)
    (fun _ _ h hturn => whole_of_clean h hturn) (inv_init fag t) hclean

/-- A publication falls in an attempt, which is made again. -/
theorem clock_run_retried :
    Run.Always step Whole (init 0 ⟨0, 999999⟩)
      [.reader, .timer ⟨1, 4⟩, .reader, .timer ⟨1, 4⟩, .timer ⟨1, 4⟩, .reader, .reader,
        .reader, .reader, .reader, .reader] := by
  apply clock_run 0 ⟨0, 999999⟩
  have hgoes {c : Clock} {t : ClockTurn} (h : (c.step t).2 = none) : c.Clean t :=
    fun hne => absurd h hne
  exact ⟨hgoes rfl, hgoes rfl, hgoes rfl, hgoes rfl, hgoes rfl, hgoes rfl, hgoes rfl, hgoes rfl,
    hgoes rfl, hgoes rfl, fun _ => ⟨by decide, .inl rfl⟩, trivial⟩

/-- The attempt begins after the flag was advanced, and reads the new seconds with the old
microseconds. -/
theorem not_clock_whole :
    ¬ ∀ (fag : UInt32) (t : TimeVal) (turns : List ClockTurn),
      Run.Always step Whole (init fag t) turns := by
  intro hall
  obtain ⟨-, -, -, -, -, hwhole, -⟩ := hall 0 ⟨0, 999999⟩
    [.timer ⟨1, 4⟩, .reader, .timer ⟨1, 4⟩, .reader, .reader, .reader]
  have hmem : (⟨1, 999999⟩ : TimeVal) ∈ [⟨0, 999999⟩] := hwhole ⟨1, 999999⟩ rfl
  exact absurd hmem (by decide)

end Clock
end Spp
