import Mathlib.Tactic.Linarith
import Spp.Ctrl.Trim

/-!
# Processes asked for in one check pass

The group check asks for the processes that are missing, a dead process is replaced, and for an
overloaded process another one is asked for while `curprocnum` is below the maximum.  But
`curprocnum` only changes when a new process sends its first heartbeat, so every overloaded
process of a pass sees the same count.

## Main definitions

* `Pass.size` — the processes at the start, less those that left, plus those asked for.
* `Pass.limit` — the maximum, or what there was at the start if that is more.
* `Pass.Overloaded` — the next process is alive and overloaded, and the table has fewer processes
  than the maximum.
* `Pass.room` — what the table leaves to the limit when the pass comes to the group.
* `Pass.HasRoom` — there is as much room as there are such processes to be visited.
-/

namespace Spp.Pass

open MonSrv

/-- The processes of a group that are registered. -/
def registered (s : MonSrv) (k : ℕ) : ℕ := Buckets.total BUCKET_SIZE (s.procGroups k).bucket

/-- What becomes of `n` processes of group `k`: those that left are gone, those asked for will
come. -/
def size (n k : ℕ) (p : Pass) : ℤ := n - p.srv.removed k + p.srv.asked k

/-- The configured maximum of group `k`, or the number at the start. -/
def limit (s : MonSrv) (k : ℕ) : ℤ :=
  max ((s.procGroups k).groupinfo.maxprocnum.toNat : ℤ) (registered s k)

/-- The next process to be visited is one of group `k`, it is alive and overloaded, and fewer
processes are registered than the maximum, as an `int`. -/
def Overloaded (k : ℕ) (p : Pass) (a : PassAnswer) : Prop :=
  match p.todo with
  | [] => False
  | o :: _ =>
      let g := p.srv.procGroups k
      let e := o.procinfo.event g.groupinfo a
      p.i = k ∧ p.i < p.srv.curGroup ∧ p.checked ∧ ¬e.procdead ∧ e.overload ∧
        g.curprocnum < s32 g.groupinfo.maxprocnum.toNat

instance (k : ℕ) (p : Pass) (a : PassAnswer) : Decidable (Overloaded k p a) := by
  cases p with
  | mk srv i checked j todo =>
    cases todo with
    | nil => exact inferInstanceAs (Decidable False)
    | cons o todo => exact inferInstanceAs (Decidable (_ ∧ _))

/-- The pass comes to group `k`. -/
def Enters (k : ℕ) (p : Pass) : Prop := p.i = k ∧ p.i < p.srv.curGroup ∧ ¬p.checked

instance (k : ℕ) (p : Pass) : Decidable (Enters k p) := inferInstanceAs (Decidable (_ ∧ _))

/-- What is left to the limit of group `k` when the pass comes to it, by the table: those that
were there at the start stay, but for what the check of the group changes. -/
def room (s : MonSrv) (k : ℕ) (p : Pass) (a : PassAnswer) : ℤ :=
  limit s k - registered s k - if p.Elapsed a then p.srv.change k a else 0

/-- When the pass comes to group `k`, there is room for as many processes as overloaded ones
are still to be visited in it. -/
def HasRoom (s : MonSrv) (k : ℕ) : Pass → List PassAnswer → Prop
  | _, [] => True
  | p, a :: as =>
      if Enters k p then
        (Run.count turn (Overloaded k) (p.step a) as : ℤ) ≤ room s k p a
      else HasRoom s k (p.step a) as

instance instDecidableHasRoom (s : MonSrv) (k : ℕ) :
    ∀ (p : Pass) (as : List PassAnswer), Decidable (HasRoom s k p as)
  | _, [] => inferInstanceAs (Decidable True)
  | p, a :: as =>
      have := instDecidableHasRoom s k (p.step a) as
      inferInstanceAs (Decidable (if Enters k p then _ else _))

variable {p : Pass} {k : ℕ}

/-! ## One turn -/

/-- The pass goes on, to the next group or within this one. -/
theorem step_pos (p : Pass) (a : PassAnswer) :
    (p.step a).i = p.i ∧ (p.checked → (p.step a).checked) ∨
      (p.step a).i = p.i + 1 ∧ ¬(p.step a).checked := by
  rw [step]
  split
  next => exact .inl ⟨rfl, id⟩
  next =>
    split
    next hunchecked =>
      split
      next => exact .inr ⟨rfl, hunchecked⟩
      next => exact .inl ⟨rfl, fun _ => rfl⟩
    next =>
      split
      next =>
        split
        next => exact .inl ⟨rfl, id⟩
        next => exact .inr ⟨rfl, by simp⟩
      next =>
        split
        next => exact .inl ⟨rfl, id⟩
        next => exact .inl ⟨rfl, id⟩

/-- The turn that comes to a group is its check. -/
theorem step_enters (hp : p.Inv) (henters : Enters k p) (a : PassAnswer) :
    (p.step a).srv = p.enter a ∧ (p.step a).i = k ∧ (p.step a).checked := by
  obtain ⟨rfl, hi, hchecked⟩ := henters
  have hused : (p.srv.procGroups p.i).curprocnum ≠ GROUP_UNUSED := by
    have hbounds := hp.ok.curprocnum_bounds hi
    rw [GROUP_UNUSED]
    omega
  rw [step, if_neg (by omega), if_pos hchecked, if_neg hused]
  exact ⟨rfl, rfl, rfl⟩

/-- The turn at the end of a bucket. -/
theorem step_nil (hi : p.i < p.srv.curGroup) (hchecked : p.checked) (hnil : p.todo = [])
    (a : PassAnswer) :
    p.step a =
      if p.j + 1 < BUCKET_SIZE then
        { p with j := p.j + 1, todo := (p.srv.procGroups p.i).bucket (p.j + 1) }
      else { p with i := p.i + 1, checked := false } := by
  simp [step, hnil, hchecked, Nat.not_le.mpr hi]

/-- The turn that visits a process. -/
theorem step_cons {o : TProcObj} {todo : List TProcObj} {changed : Bool} {s : MonSrv}
    (hi : p.i < p.srv.curGroup) (hchecked : p.checked) (hcons : p.todo = o :: todo)
    {a : PassAnswer} (hres : p.srv.checkProc p.i o a = (changed, s)) :
    (p.step a).srv = s := by
  cases changed <;> simp [step, hcons, hchecked, Nat.not_le.mpr hi, hres]

/-- A visit asks for as many as it takes out, and for one more if it asks for overload. -/
theorem step_checked (hp : p.Inv) (hi : p.i < p.srv.curGroup) (hchecked : p.checked)
    (a : PassAnswer) :
    ∃ m, Moves p.i (m + if Overloaded p.i p a then 1 else 0) m p.srv (p.step a).srv := by
  cases hcons : p.todo with
  | nil =>
    have hover : ¬Overloaded p.i p a := by simp [Overloaded, hcons]
    refine ⟨0, ?_⟩
    rw [step_nil hi hchecked hcons, if_neg hover]
    split <;> exact (Grows.refl _).moves hp.ok
  | cons o todo =>
    have ho := hp.todo hchecked o (by simp [hcons])
    have hcheck := Moves.checkProc hp.ok hi ho.1 ho.2 a
    cases hres : p.srv.checkProc p.i o a with
    | mk changed s =>
      rw [step_cons hi hchecked hcons hres]
      rw [hres] at hcheck
      obtain ⟨-, hmoves⟩ := hcheck
      cases hdead : (o.procinfo.event (p.srv.procGroups p.i).groupinfo a).procdead with
      | true =>
          have hover : ¬Overloaded p.i p a := by simp [Overloaded, hcons, hdead]
          rw [hdead, if_pos rfl] at hmoves
          exact ⟨1, by simpa [hover] using hmoves⟩
      | false =>
          have hover : Overloaded p.i p a ↔
              (o.procinfo.event (p.srv.procGroups p.i).groupinfo a).overload ∧
                p.srv.Open p.i := by
            simp [Overloaded, Open, hcons, hdead, hi, hchecked]
          rw [hdead, if_neg (by simp)] at hmoves
          exact ⟨0, by simpa [hover] using hmoves⟩

/-! ## A whole pass -/

/-- Group `k` has not been checked yet. -/
def Due (k : ℕ) (p : Pass) : Prop := p.i < k ∨ p.i = k ∧ ¬p.checked

/-- A pass that started at `s`: before its check, nobody was asked for in group `k` and nobody
left it. -/
structure Track (s : MonSrv) (k : ℕ) (p : Pass) : Prop where
  inv : p.Inv
  curGroup : p.srv.curGroup = s.curGroup
  maxprocnum : (p.srv.procGroups k).groupinfo.maxprocnum = (s.procGroups k).groupinfo.maxprocnum
  asked : Due k p → p.srv.asked k = 0
  removed : Due k p → p.srv.removed k = 0
  curprocnum : Due k p → (s.procGroups k).curprocnum ≤ (p.srv.procGroups k).curprocnum

variable {s : MonSrv}

theorem Track.start (hs : s.Ok) (k : ℕ) : Track s k (start s) :=
  ⟨.start hs, rfl, rfl, fun _ => rfl, fun _ => rfl, fun _ => le_rfl⟩

/-- Every turn moves processes of the group it is at. -/
theorem step_moves (hp : p.Inv) (a : PassAnswer) : ∃ n m, Moves p.i n m p.srv (p.step a).srv := by
  by_cases hi : p.i < p.srv.curGroup
  · by_cases hchecked : p.checked
    · obtain ⟨m, hmoves⟩ := step_checked hp hi hchecked a
      exact ⟨_, m, hmoves⟩
    · obtain ⟨n, m, hmoves, -⟩ := moves_enter hp.ok hi a
      rw [(step_enters hp ⟨rfl, hi, hchecked⟩ a).1]
      exact ⟨n, m, hmoves⟩
  · rw [step, if_pos (by omega)]
    exact ⟨0, 0, (Grows.refl _).moves hp.ok⟩

/-- What is due after a turn was due before, and the turn was not about group `k`. -/
theorem due_of_step {a : PassAnswer} (h : Due k (p.step a)) : Due k p := by
  rcases step_pos p a with hpos | hpos
  · rcases h with h | h
    · exact .inl (by omega)
    · exact .inr ⟨by omega, fun hc => h.2 (hpos.2 hc)⟩
  · rcases h with h | h
    · exact .inl (by omega)
    · exact .inl (by omega)

theorem step_of_ge (hi : ¬p.i < p.srv.curGroup) (a : PassAnswer) : p.step a = p := by
  rw [step, if_pos (by omega)]

/-- A group that is still due was not the one that the turn was about. -/
theorem ne_of_due_step (hp : p.Inv) (hi : p.i < p.srv.curGroup) {a : PassAnswer}
    (h : Due k (p.step a)) : k ≠ p.i := by
  rintro rfl
  have hpos := step_pos p a
  rcases h with h | ⟨hsame, hunchecked⟩
  · omega
  · by_cases hchecked : p.checked
    · rcases hpos with hpos | hpos
      · exact hunchecked (hpos.2 hchecked)
      · omega
    · exact hunchecked (step_enters hp ⟨rfl, hi, hchecked⟩ a).2.2

theorem Track.step (h : Track s k p) (a : PassAnswer) : Track s k (p.step a) := by
  by_cases hi : p.i < p.srv.curGroup
  · obtain ⟨n, m, hmoves⟩ := step_moves h.inv a
    constructor
    · exact h.inv.step a
    · rw [hmoves.curGroup, h.curGroup]
    · rw [hmoves.maxprocnum, h.maxprocnum]
    · intro hdue
      rw [hmoves.asked_of_ne k (ne_of_due_step h.inv hi hdue), h.asked (due_of_step hdue)]
    · intro hdue
      rw [hmoves.removed_of_ne k (ne_of_due_step h.inv hi hdue), h.removed (due_of_step hdue)]
    · intro hdue
      exact (h.curprocnum (due_of_step hdue)).trans
        (hmoves.curprocnum_of_ne k (ne_of_due_step h.inv hi hdue))
  · rwa [step_of_ge hi]

end Spp.Pass
