import Spp.Lib.Run
import Mathlib.Logic.Function.Basic
import Mathlib.Tactic.Linarith

/-!
# The semaphore lock of a queue

Every process that uses a queue under a lock attaches to one System V semaphore and
then takes and gives it back with `SEM_UNDO`.  A step is one system call of one
process, or the start of a call; the processes are interleaved in any order and may
exit at any time.  `CSemLock`, `CShmProducerL` and the lock of the log differ only in
the values they return on an error.

`sem_init` stores 1 in the semaphore whether or not it is new, so the lock excludes as
long as no process runs that store while another one holds the lock, and no longer.

## Main definitions

* `SemCodes` — the values returned when a system call fails.
* `Stage`, `SemLock` — a process's progress; the semaphore and its processes.
* `SemLock.step` — one step.
* `SemLock.Excludes` — at most one process holds the lock.
* `SemLock.Quiet` — the step is no store of `sem_init` while the lock is held.
-/

namespace Spp

/-- What `sem_init`, `sem_lock` and `sem_unlock` return when their system call fails. -/
structure SemCodes where
  semGet : ℤ
  semLock : ℤ
  semUnlock : ℤ

/-- The error values of `CSemLock`. -/
def CSemLock.codes : SemCodes := ⟨-1, -1, -1⟩

/-- The error values of `CShmProducerL`: `COMMU_ERR_SEMGET`, `COMMU_ERR_SEMLOCK` and
`COMMU_ERR_SEMUNLOCK`. -/
def CShmProducerL.codes : SemCodes := ⟨-104, -105, -106⟩

/-- The progress of a process. -/
inductive Stage
  | detached
  /-- In `sem_init`, between `semget` and `semctl`. -/
  | created
  | idle
  /-- In `sem_lock`. -/
  | locking
  /-- `sem_lock` has returned 0. -/
  | holding
  /-- In `sem_unlock`. -/
  | unlocking
  | exited
  deriving DecidableEq

/-- How a `semop` call ends. -/
inductive SemResult
  | done
  | eintr
  /-- Any other error. -/
  | failed

/-- One step of the process `p`. -/
inductive SemAct (P : Type*)
  | semget (p : P) (ok : Bool)
  | setval (p : P) (ok : Bool)
  | lock (p : P)
  | down (p : P) (r : SemResult)
  | unlock (p : P)
  | up (p : P) (r : SemResult)
  | exit (p : P)

/-- The semaphore of one key and the processes.  `semval` is `none` before the first
`semget`; `semadj p` is what the kernel adds when `p` exits. -/
structure SemLock (P : Type*) where
  semval : Option ℕ
  semadj : P → ℤ
  stage : P → Stage

namespace SemLock

variable {P : Type*} [DecidableEq P]

/-- The semaphore does not exist yet. -/
def start : SemLock P := ⟨none, fun _ => 0, fun _ => .detached⟩

/-- The process `p` goes on to `st`. -/
def setStage (s : SemLock P) (p : P) (st : Stage) : SemLock P :=
  { s with stage := Function.update s.stage p st }

/-- `semop` adds `d` to the semaphore and notes the opposite in `semadj`. -/
def semop (s : SemLock P) (p : P) (val : ℕ) (d : ℤ) : SemLock P :=
  { s with semval := some val, semadj := Function.update s.semadj p (s.semadj p - d) }

/-- `semget` with `IPC_CREAT`: a new semaphore has the value 0. -/
def semget (s : SemLock P) : SemLock P := { s with semval := some (s.semval.getD 0) }

/-- `semctl` with `SETVAL` and 1, which clears every process's `semadj`. -/
def setval (s : SemLock P) : SemLock P := { s with semval := some 1, semadj := fun _ => 0 }

/-- The kernel applies the `semadj` of a process that exits, within `0` and `SEMVMX`. -/
def undo (s : SemLock P) (p : P) : SemLock P :=
  { s with
    semval := s.semval.map fun v : ℕ => min 32767 (v + s.semadj p).toNat
    semadj := Function.update s.semadj p 0 }

/-- One step, with the value that a call returns if it ends here.  A step that the
process cannot take, such as a `semop` that blocks, changes nothing. -/
def step (c : SemCodes) (s : SemLock P) : SemAct P → SemLock P × Option ℤ
  | .semget p ok =>
      if s.stage p = .detached ∨ s.stage p = .idle then
        if ok then (s.semget.setStage p .created, none)
        else (s.setStage p .detached, some c.semGet)
      else (s, none)
  | .setval p ok =>
      -- the result of `semctl` is not looked at
      if s.stage p = .created then
        if ok then (s.setval.setStage p .idle, some 0) else (s.setStage p .idle, some 0)
      else (s, none)
  | .lock p => if s.stage p = .idle then (s.setStage p .locking, none) else (s, none)
  | .down p r =>
      if s.stage p = .locking then
        match r, s.semval with
        | .done, some (v + 1) => ((s.semop p v (-1)).setStage p .holding, some 0)
        | .done, _ => (s, none)
        | _, _ => (s.setStage p .idle, some c.semLock)
      else (s, none)
  | .unlock p => if s.stage p = .holding then (s.setStage p .unlocking, none) else (s, none)
  | .up p r =>
      if s.stage p = .unlocking then
        match r, s.semval with
        | .done, some v => ((s.semop p (v + 1) 1).setStage p .idle, some 0)
        | .eintr, _ => (s, none)
        | _, _ => (s.setStage p .idle, some c.semUnlock)
      else (s, none)
  | .exit p => ((s.undo p).setStage p .exited, none)

/-- The process is between a successful `sem_lock` and the end of its `sem_unlock`. -/
def Holds (s : SemLock P) (p : P) : Prop := s.stage p = .holding ∨ s.stage p = .unlocking

instance (s : SemLock P) (p : P) : Decidable (s.Holds p) := inferInstanceAs (Decidable (_ ∨ _))

/-- At most one process holds the lock. -/
def Excludes (s : SemLock P) : Prop := ∀ p q, s.Holds p → s.Holds q → p = q

/-- The step is no successful `SETVAL` of `sem_init` while a process holds the lock. -/
def Quiet (s : SemLock P) (a : SemAct P) : Prop :=
  ∀ p, a = .setval p true → s.stage p = .created → ∀ q, ¬ s.Holds q

/-! ## The invariant -/

/-- The semaphore is 1 or the process whose `semadj` is 1 has taken it. -/
structure Inv (s : SemLock P) : Prop where
  semval_le : ∀ v, s.semval = some v → v ≤ 1
  semadj : ∀ p, s.semadj p = 0 ∨ s.semadj p = 1 ∧ s.semval = some 0
  unique : ∀ p q, s.semadj p = 1 → s.semadj q = 1 → p = q
  holder : ∀ p, s.Holds p → s.semadj p = 1

omit [DecidableEq P] in
theorem Inv.excludes {s : SemLock P} (h : s.Inv) : s.Excludes := by
  intro p q hp hq
  exact h.unique p q (h.holder p hp) (h.holder q hq)

omit [DecidableEq P] in
theorem inv_start : (start : SemLock P).Inv where
  semval_le := by simp [start]
  semadj := by simp [start]
  unique := by simp [start]
  holder := by simp [start, Holds]

variable {s : SemLock P} {p q : P} {st : Stage}

theorem holds_setStage : (s.setStage p st).Holds q ↔
    if q = p then st = .holding ∨ st = .unlocking else s.Holds q := by
  by_cases hq : q = p
  · simp [Holds, setStage, hq]
  · simp [Holds, setStage, hq]

/-- A process that does not get hold of the lock may go on to any stage. -/
theorem Inv.setStage (h : s.Inv) (hst : st = .holding ∨ st = .unlocking → s.semadj p = 1) :
    (s.setStage p st).Inv where
  semval_le := h.semval_le
  semadj := h.semadj
  unique := h.unique
  holder := by
    intro q hq
    rw [holds_setStage] at hq
    split at hq
    next heq =>
      subst heq
      exact hst hq
    next => exact h.holder q hq

omit [DecidableEq P] in
theorem Inv.semget (h : s.Inv) : s.semget.Inv where
  semval_le := by
    intro v hv
    cases hs : s.semval with
    | none =>
        have hv0 : 0 = v := by simpa [SemLock.semget, hs] using hv
        omega
    | some w =>
        have hwv : w = v := by simpa [SemLock.semget, hs] using hv
        have := h.semval_le w hs
        omega
  semadj := by
    intro p
    apply (h.semadj p).imp id
    intro hp
    simp [SemLock.semget, hp.1, hp.2]
  unique := h.unique
  holder := h.holder

omit [DecidableEq P] in
theorem Inv.setval (h : ∀ q, ¬ s.Holds q) : s.setval.Inv where
  semval_le := by simp [SemLock.setval]
  semadj := by simp [SemLock.setval]
  unique := by simp [SemLock.setval]
  holder := fun q hq => absurd hq (h q)

/-- Taking the semaphore: it was free, so no other process has a `semadj`. -/
theorem Inv.take {v : ℕ} (h : s.Inv) (hval : s.semval = some (v + 1)) :
    (s.semop p v (-1)).Inv ∧ (s.semop p v (-1)).semadj p = 1 := by
  have hv : v = 0 := by
    have := h.semval_le _ hval
    omega
  have hadj : ∀ q, s.semadj q = 0 := by
    intro q
    rcases h.semadj q with hq | ⟨-, hzero⟩
    · exact hq
    · simp [hval] at hzero
  have hupd : ∀ q, (s.semop p v (-1)).semadj q = if q = p then 1 else 0 := by
    intro q
    by_cases hq : q = p <;> simp [semop, hadj, hq]
  refine ⟨⟨?_, ?_, ?_, ?_⟩, by simp [hupd]⟩
  · simp [semop, hv]
  · intro q
    rw [hupd q]
    by_cases hq : q = p
    · simp [hq, semop, hv]
    · simp [hq]
  · intro q r hq hr
    simp only [hupd] at hq hr
    split at hq <;> split at hr <;> simp_all
  · intro q hq
    have := h.holder q hq
    simp [hadj] at this

/-- Giving the semaphore back: the process whose `semadj` is 1 clears it. -/
theorem Inv.give (h : s.Inv) (hp : s.semadj p = 1) (hst : st ≠ .holding ∧ st ≠ .unlocking) :
    (({ s with semval := some 1, semadj := Function.update s.semadj p 0 } :
      SemLock P).setStage p st).Inv := by
  have hadj : ∀ q, Function.update s.semadj p 0 q = 0 := by
    intro q
    by_cases hq : q = p
    · simp [hq]
    · rcases h.semadj q with h0 | ⟨h1, -⟩
      · simp [hq, h0]
      · exact absurd (h.unique q p h1 hp) hq
  refine ⟨by simp [SemLock.setStage], fun q => .inl (hadj q), ?_, ?_⟩
  · intro q r hq
    simp [SemLock.setStage, hadj] at hq
  · intro q hq
    rw [holds_setStage] at hq
    split at hq
    next => exact absurd hq (by simp [hst])
    next hne =>
      have hq' : s.semadj q = 1 := h.holder q hq
      exact absurd (h.unique q p hq' hp) hne

theorem Inv.exit (h : s.Inv) : ((s.undo p).setStage p .exited).Inv := by
  rcases h.semadj p with hp | ⟨hp, hval⟩
  · have hval : (s.semval.map fun v : ℕ => min 32767 (v + s.semadj p).toNat) = s.semval := by
      cases hs : s.semval with
      | none => rfl
      | some v =>
          have := h.semval_le v hs
          have hmin : min 32767 ((v : ℤ) + 0).toNat = v := by omega
          simp only [Option.map_some, hp, hmin]
    have hadj : Function.update s.semadj p 0 = s.semadj := by
      rw [← hp, Function.update_eq_self]
    have hundo : s.undo p = s := by
      simp only [undo, hval, hadj]
    rw [hundo]
    exact h.setStage (by simp)
  · have hundo : s.undo p =
        { s with semval := some 1, semadj := Function.update s.semadj p 0 } := by
      simp [undo, hp, hval]
    rw [hundo]
    exact h.give hp (by simp)

/-- What one step keeps. -/
theorem Inv.step (c : SemCodes) (a : SemAct P) (h : s.Inv) (hq : s.Quiet a) :
    (s.step c a).1.Inv := by
  cases a with
  | semget p ok =>
      simp only [SemLock.step]
      split
      · cases ok with
        | true => exact h.semget.setStage (by simp)
        | false => exact h.setStage (by simp)
      · exact h
  | setval p ok =>
      simp only [SemLock.step]
      split
      next hst =>
        cases ok with
        | true => exact (Inv.setval (hq p rfl hst)).setStage (by simp)
        | false => exact h.setStage (by simp)
      next => exact h
  | lock p =>
      simp only [SemLock.step]
      split
      · exact h.setStage (by simp)
      · exact h
  | down p r =>
      simp only [SemLock.step]
      split
      · split
        next v _ hval =>
          have htake := h.take hval (p := p)
          exact htake.1.setStage fun _ => htake.2
        next => exact h
        next => exact h.setStage (by simp)
      · exact h
  | unlock p =>
      simp only [SemLock.step]
      split
      next hst => exact h.setStage fun _ => h.holder p (.inl hst)
      next => exact h
  | up p r =>
      simp only [SemLock.step]
      split
      next hst =>
        have hp : s.semadj p = 1 := h.holder p (.inr hst)
        split
        next _ v hval =>
          rcases h.semadj p with h0 | ⟨-, h0⟩
          · simp [hp] at h0
          · have hv : v = 0 := by simpa [hval] using h0
            have hop : s.semop p (v + 1) 1 =
                { s with semval := some 1, semadj := Function.update s.semadj p 0 } := by
              simp [semop, hp, hv]
            simp only [hop]
            exact h.give hp (by simp)
        next => exact h
        next => exact h.setStage (by simp)
      next => exact h
  | exit p => exact h.exit

/-- As long as no `SETVAL` of `sem_init` meets a held lock, at most one process is
between its `sem_lock` and its `sem_unlock`.  After any run in which one process holds
the lock and another is about to store, that store gives the other the lock too. -/
theorem attach_excludes (c : SemCodes) :
    (∀ acts, Run.Always (step c) Quiet (start : SemLock P) acts →
      (Run.final (step c) start acts).Excludes) ∧
    ∀ acts p q, (Run.final (step c) (start : SemLock P) acts).Holds p →
      (Run.final (step c) start acts).stage q = .created →
      ¬ (Run.final (step c) start
        (acts ++ [.setval q true, .lock q, .down q .done])).Excludes := by
  constructor
  · intro acts hrun
    have hinv := Run.invariant (fun s a h hq => Inv.step c a h hq) inv_start hrun
    exact hinv.excludes
  · intro acts p q hp hq hexcl
    have hne : p ≠ q := by
      rintro rfl
      rcases hp with hp | hp <;> simp [hq] at hp
    rw [Run.final_append] at hexcl
    generalize Run.final (step c) start acts = s at hp hq hexcl
    have hboth : Run.final (step c) s [.setval q true, .lock q, .down q .done] =
        ((((s.setval.setStage q .idle).setStage q .locking).semop q 0 (-1)).setStage q
          .holding) := by
      simp [step, hq, setStage, setval]
    rw [hboth] at hexcl
    apply hne
    apply hexcl p q
    · rw [holds_setStage, if_neg hne]
      simpa [Holds, semop, setStage, setval, hne] using hp
    · simp [holds_setStage]

/-- Two processes that attach and lock one after the other. -/
theorem attach_excludes_two :
    (Run.final (step CSemLock.codes) (start : SemLock (Fin 2))
      [.semget 0 true, .setval 0 true, .semget 1 true, .lock 0, .down 0 .done, .unlock 0,
        .up 0 .done, .setval 1 true, .lock 1, .down 1 .done]).Excludes ∧
    ¬ (Run.final (step CSemLock.codes) (start : SemLock (Fin 2))
      ([.semget 0 true, .setval 0 true, .semget 1 true, .lock 0, .down 0 .done] ++
        [.setval 1 true, .lock 1, .down 1 .done])).Excludes := by
  constructor
  · apply (attach_excludes CSemLock.codes).1
    simp [Run.Always, Quiet]
    decide
  · apply (attach_excludes CSemLock.codes).2 _ 0 1
    · decide
    · decide

/-- A process that attaches while another holds the lock can take it too. -/
theorem not_excludes_late : ¬ ∀ acts,
    (Run.final (step CSemLock.codes) (start : SemLock (Fin 2)) acts).Excludes := by
  intro h
  have hexcl := h [.semget 0 true, .setval 0 true, .lock 0, .down 0 .done,
    .semget 1 true, .setval 1 true, .lock 1, .down 1 .done]
  have heq : (0 : Fin 2) = 1 := hexcl 0 1 (by decide) (by decide)
  exact absurd heq (by decide)

end SemLock

end Spp
