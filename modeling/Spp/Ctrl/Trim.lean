import Spp.Ctrl.Procmon

/-!
# Trimming a group

`do_event` trims a group bucket by bucket.  After a process is taken out the walk through the
bucket is left, and `i--` makes the loop come back to the same bucket.  The limits are unsigned,
but `check_group` compares them as an `int`: from 2^31 on a maximum counts as negative.  Then
the whole group goes, unless the difference to the maximum does not fit an `int` either.

## Main definitions

* `Trim`, `Trim.turn` — the loop, one bucket that is looked at a turn.
* `MonSrv.Idle` — the group may be shrunk by one.
* `MonSrv.Trimmed` — the processes of a list were signalled and unregistered, and no others.
* `MonSrv.Trims` — the group is brought down to its maximum, or by one where it is idle.
-/

namespace Spp

namespace MonSrv

/-! ## The decision -/

/-- The group has more processes than it needs, it was left alone for a while, and none of its
processes is above the watermark. -/
def Idle (s : MonSrv) (i : ℕ) (a : PassAnswer) : Prop :=
  let g := s.procGroups i
  g.groupinfo.minprocnum.toNat < g.curprocnum ∧
    g.groupinfo.adjustProcTime + ADJUST_PROC_DELAY < a.again ∧
      ¬ s.checkGroupbusy g.groupinfo.groupid

variable {s : MonSrv} {i : ℕ}

/-- With a maximum for an `int`, the group is over it or idle, and has its minimum. -/
theorem Procup.cases {a : PassAnswer} (h : s.Procup i a) (hs : s.Ok) (hi : i < s.curGroup)
    (hmax : (s.procGroups i).groupinfo.maxprocnum.toNat < 2 ^ 31)
    (hdiff : (s.procGroups i).curprocnum - (s.procGroups i).groupinfo.maxprocnum.toNat < 2 ^ 31) :
    (s.procGroups i).groupinfo.minprocnum.toNat ≤ (s.procGroups i).curprocnum ∧
      ((s.procGroups i).curprocnum > (s.procGroups i).groupinfo.maxprocnum.toNat ∧
          s.surplus i =
            (s.procGroups i).curprocnum - (s.procGroups i).groupinfo.maxprocnum.toNat ∨
        (s.procGroups i).curprocnum ≤ (s.procGroups i).groupinfo.maxprocnum.toNat ∧
          s.Idle i a ∧ s.surplus i = 1) := by
  have hbounds := hs.curprocnum_bounds hi
  have hle : (s.procGroups i).groupinfo.minprocnum.toNat ≤
      (s.procGroups i).groupinfo.maxprocnum.toNat := (s.procGroups i).groupinfo.le
  have hmin32 := s32_of_lt (lt_of_le_of_lt hle hmax)
  have hdiffMin : s.diffMin i =
      (s.procGroups i).groupinfo.minprocnum.toNat - (s.procGroups i).curprocnum := by
    rw [diffMin, hmin32, s32_of_bounds (by omega) (by omega)]
  have hdiffMax : s.diffMax i =
      (s.procGroups i).curprocnum - (s.procGroups i).groupinfo.maxprocnum.toNat := by
    rw [diffMax, s32_of_lt hmax, s32_of_bounds (by omega) hdiff]
  obtain ⟨hdown, hup⟩ := h
  rw [hmin32] at hup
  rw [surplus]
  refine ⟨by omega, ?_⟩
  by_cases hover : s.diffMax i > 0
  · rw [if_pos hover]
    exact .inl ⟨by omega, hdiffMax⟩
  · rw [if_neg hover]
    exact .inr ⟨by omega, hup.resolve_left hover, rfl⟩

/-- As an `int`, a maximum from 2^31 on is negative: everybody is surplus, or the difference
does not fit and is negative as well. -/
theorem surplus_of_ge (hs : s.Ok) (hi : i < s.curGroup)
    (hmax : 2 ^ 31 ≤ (s.procGroups i).groupinfo.maxprocnum.toNat) :
    if (s.procGroups i).groupinfo.maxprocnum.toNat ≤ 2 ^ 31 + (s.procGroups i).curprocnum then
      s.surplus i = 1
    else (s.procGroups i).curprocnum < s.surplus i := by
  have hbounds := hs.curprocnum_bounds hi
  have hlt := (s.procGroups i).groupinfo.maxprocnum.toNat_lt
  have hdiffMax : s.diffMax i =
      s32 ((s.procGroups i).curprocnum -
        ((s.procGroups i).groupinfo.maxprocnum.toNat - 2 ^ 32)) := by
    rw [diffMax, s32_of_ge hmax hlt]
  rw [surplus]
  split
  next hnear =>
    have hneg : ¬s.diffMax i > 0 := by
      rw [hdiffMax, s32]
      omega
    rw [if_neg hneg]
  next hfar =>
    have hfits : s.diffMax i = (s.procGroups i).curprocnum -
        ((s.procGroups i).groupinfo.maxprocnum.toNat - 2 ^ 32) := by
      rw [hdiffMax, s32_of_bounds (by omega) (by omega)]
    rw [if_pos (by omega)]
    omega

end MonSrv

/-! ## The loop -/

/-- The loop of `do_event`: at bucket `i`, with `count` processes taken out; `ended` after its
`break`.  `drained` are the messages that each `do_recv` to come finds. -/
structure Trim where
  srv : MonSrv
  i : ℕ
  count : ℤ
  drained : List (List TProcMonMsg)
  ended : Bool

namespace Trim

def start (s : MonSrv) (drained : List (List TProcMonMsg)) : Trim := ⟨s, 0, 0, drained, false⟩

def Done (t : Trim) : Prop := t.ended ∨ t.i ≥ BUCKET_SIZE

instance (t : Trim) : Decidable t.Done := inferInstanceAs (Decidable (_ ∨ _))

/-- A process is signalled, its messages are drained, and it is taken out. -/
def kill (k : ℕ) (t : Trim) (o : TProcObj) : MonSrv :=
  let s := t.srv.emit (.kill o.procid SIGUSR1)
  let s := s.doRecv (t.drained.headD [])
  s.delProc (t.srv.procGroups k).groupinfo.groupid o.procid

/-- One turn for group `k`. -/
def turn (k : ℕ) (diff : ℤ) (t : Trim) : Trim :=
  if t.Done then t
  else
    match (t.srv.procGroups k).bucket t.i with
    | [] => if t.count ≥ diff then { t with ended := true } else { t with i := t.i + 1 }
    | o :: _ =>
        -- `i--` and `++i`: the same bucket is next
        { t with
          srv := t.kill k o, count := t.count + 1, drained := t.drained.tail
          ended := t.count + 1 ≥ diff }

/-- `do_recv(procid)` finds messages of that process only. -/
def Own (k : ℕ) (t : Trim) : Prop :=
  ¬t.Done → ∀ o ∈ ((t.srv.procGroups k).bucket t.i).head?, ∀ m ∈ t.drained.headD [],
    m.procinfo.procid = o.procid

instance (k : ℕ) (t : Trim) : Decidable (t.Own k) := inferInstanceAs (Decidable (_ → _))

section

variable {k : ℕ} {diff : ℤ} {t : Trim} {o : TProcObj} {os : List TProcObj}

theorem turn_of_done (h : t.Done) : t.turn k diff = t := by
  rw [turn, if_pos h]

theorem turn_nil (h : ¬t.Done) (hbucket : (t.srv.procGroups k).bucket t.i = []) :
    t.turn k diff =
      if t.count ≥ diff then { t with ended := true } else { t with i := t.i + 1 } := by
  rw [turn, if_neg h, hbucket]

theorem turn_cons (h : ¬t.Done) (hbucket : (t.srv.procGroups k).bucket t.i = o :: os) :
    t.turn k diff =
      { t with
        srv := t.kill k o, count := t.count + 1, drained := t.drained.tail
        ended := t.count + 1 ≥ diff } := by
  rw [turn, if_neg h, hbucket]

/-! ## The loop, taken turn by turn -/

/-- Where the loop comes out when it is gone on with. -/
def rest (k : ℕ) (diff : ℤ) (t : Trim) : MonSrv :=
  if t.ended then t.srv
  else MonSrv.procupLoop k (BUCKET_SIZE - t.i) (diff - t.count).toNat t.drained t.srv

theorem rest_of_done (h : t.Done) : t.rest k diff = t.srv := by
  rw [rest]
  split
  next => rfl
  next hended =>
    have hi : BUCKET_SIZE - t.i = 0 := Nat.sub_eq_zero_of_le (h.resolve_left hended)
    rw [hi, MonSrv.procupLoop]

theorem rest_turn (k : ℕ) (diff : ℤ) (t : Trim) : (t.turn k diff).rest k diff = t.rest k diff := by
  by_cases hdone : t.Done
  · rw [turn_of_done hdone]
  · obtain ⟨hended, hi⟩ := not_or.mp hdone
    obtain ⟨b, hb⟩ : ∃ b, BUCKET_SIZE - t.i = b + 1 := ⟨BUCKET_SIZE - t.i - 1, by omega⟩
    have hback : BUCKET_SIZE - (b + 1) = t.i := by omega
    rw [rest.eq_1 k diff t, if_neg hended, hb, MonSrv.procupLoop, hback]
    cases hbucket : (t.srv.procGroups k).bucket t.i with
    | nil =>
        rw [turn_nil hdone hbucket]
        by_cases hcount : t.count ≥ diff
        · have hleft : (diff - t.count).toNat = 0 := by omega
          simp [hcount, hleft, rest]
        · have hleft : (diff - t.count).toNat ≠ 0 := by omega
          have hnext : BUCKET_SIZE - (t.i + 1) = b := by omega
          simp [hcount, hleft, rest, hended, hnext]
    | cons o os =>
        have hsub : (diff - t.count).toNat - 1 = (diff - (t.count + 1)).toNat := by omega
        rw [turn_cons hdone hbucket]
        by_cases hcount : t.count + 1 ≥ diff
        · have hleft : (diff - (t.count + 1)).toNat = 0 := by omega
          simp [hcount, hsub, hleft, rest, kill]
        · have hleft : (diff - (t.count + 1)).toNat ≠ 0 := by omega
          simp [hcount, hsub, hleft, rest, hb, kill]

/-- Only the turns before the loop is done matter. -/
theorem own_of_done {n : ℕ} (hdone : ((turn k diff)^[n] t).Done)
    (hown : ∀ m < n, ((turn k diff)^[m] t).Own k) (m : ℕ) : ((turn k diff)^[m] t).Own k := by
  by_cases hlt : m < n
  · exact hown m hlt
  · obtain ⟨d, rfl⟩ := Nat.exists_eq_add_of_le (le_of_not_gt hlt)
    rw [Nat.add_comm, Function.iterate_add_apply, Function.iterate_fixed (turn_of_done hdone)]
    intro hgoes
    exact absurd hdone hgoes

end

/-- The loop that is done has come out where `procupLoop` does. -/
theorem srv_of_done {k n : ℕ} {diff : ℤ} {s : MonSrv} {drained : List (List TProcMonMsg)}
    (h : ((turn k diff)^[n] (start s drained)).Done) :
    ((turn k diff)^[n] (start s drained)).srv =
      MonSrv.procupLoop k BUCKET_SIZE diff.toNat drained s := by
  have hrest : ∀ n, ((turn k diff)^[n] (start s drained)).rest k diff =
      (start s drained).rest k diff := by
    intro n
    induction n with
    | zero => rfl
    | succ n ih => rw [Function.iterate_succ_apply', rest_turn, ih]
  have hdone : ((turn k diff)^[n] (start s drained)).rest k diff =
      ((turn k diff)^[n] (start s drained)).srv := rest_of_done h
  rw [← hdone, hrest]
  simp [rest, start]

end Trim

/-! ## One process -/

namespace MonSrv

variable {s s' s'' : MonSrv} {i procid : ℕ} {pids pids' : List ℕ}

/-- Group `i` is as it was, but for what its processes reported. -/
structure Settled (i : ℕ) (s s' : MonSrv) : Prop where
  keys : ∀ j, ((s'.procGroups i).bucket j).map TProcObj.procid =
    ((s.procGroups i).bucket j).map TProcObj.procid
  curprocnum : (s'.procGroups i).curprocnum = (s.procGroups i).curprocnum
  effects : s'.effects = s.effects

theorem Settled.refl (i : ℕ) (s : MonSrv) : Settled i s s := ⟨fun _ => rfl, rfl, rfl⟩

theorem Settled.trans (h : Settled i s s') (h' : Settled i s' s'') : Settled i s s'' where
  keys j := (h'.keys j).trans (h.keys j)
  curprocnum := h'.curprocnum.trans h.curprocnum
  effects := h'.effects.trans h.effects

theorem Settled.registered_iff (h : Settled i s s') (p : ℕ) :
    s'.Registered i p ↔ s.Registered i p := by
  rw [Registered, Registered, h.keys]

theorem Settled.setGroup_of_ne {k : ℕ} (h : k ≠ i) (g : TProcGroupObj) :
    Settled i s (s.setGroup k g) where
  keys j := by rw [MonSrv.setGroup_of_ne s g h.symm]
  curprocnum := by rw [MonSrv.setGroup_of_ne s g h.symm]
  effects := rfl

/-- A registered process is found. -/
theorem findProc_ne_none (hi : i < s.curGroup) (hr : s.Registered i procid) :
    s.findProc i procid ≠ none := by
  rw [findProc, if_neg (by omega)]
  intro hnone
  obtain ⟨o, ho, hkey⟩ := List.mem_map.mp hr
  exact Buckets.find?_eq_none_iff.mp hnone o ho hkey

/-- A message of a process that is registered in the group. -/
theorem Settled.recvMsg {m : TProcMonMsg} (hi : i < s.curGroup)
    (hr : s.Registered i m.procinfo.procid) : Settled i s (s.recvMsg m) := by
  rw [MonSrv.recvMsg]
  split
  next =>
    by_cases hg : m.procinfo.groupid = i
    · subst hg
      have hfound := findProc_ne_none hi hr
      split
      next =>
        constructor
        · intro j
          rw [modProc, setGroup_self]
          apply Buckets.keys_modify
          intro _ _
          rfl
        · exact curprocnum_modProc s _ _ _ _
        · rfl
      next hnone => exact absurd hnone hfound
    · split
      next => exact .setGroup_of_ne hg _
      next =>
        rw [addProc]
        split
        · exact .refl i s
        · exact .setGroup_of_ne hg _
  next => exact .refl i s

theorem Settled.doRecv {ms : List TProcMonMsg} (hi : i < s.curGroup)
    (hr : s.Registered i procid) (hown : ∀ m ∈ ms, m.procinfo.procid = procid) :
    Settled i s (s.doRecv ms) := by
  induction ms generalizing s with
  | nil => exact .refl i s
  | cons m ms ih =>
      have hm := hown m (by simp)
      have hone := Settled.recvMsg (m := m) hi (hm ▸ hr)
      have hcur : (s.recvMsg m).curGroup = s.curGroup := (Grows.doRecv s [m]).curGroup
      refine hone.trans (ih (hcur ▸ hi) ((hone.registered_iff _).mpr hr) ?_)
      intro m' hm'
      exact hown m' (List.mem_cons_of_mem _ hm')

/-- The processes `pids` of group `i` were signalled and unregistered, one after the other,
and no others. -/
structure Trimmed (i : ℕ) (pids : List ℕ) (s s' : MonSrv) : Prop where
  curGroup : s'.curGroup = s.curGroup
  ok : s'.Ok
  nodup : pids.Nodup
  registered : ∀ p ∈ pids, s.Registered i p
  left : ∀ p, s'.Registered i p ↔ s.Registered i p ∧ p ∉ pids
  others : ∀ k ≠ i, ∀ p, s.Registered k p → s'.Registered k p
  effects : s'.effects =
    s.effects ++ pids.flatMap fun p => [.kill p SIGUSR1, .del i p]
  curprocnum : (s'.procGroups i).curprocnum + pids.length = (s.procGroups i).curprocnum

theorem Trimmed.refl (hs : s.Ok) : Trimmed i [] s s where
  curGroup := rfl
  ok := hs
  nodup := .nil
  registered := by simp
  left := by simp
  others _ _ _ h := h
  effects := by simp
  curprocnum := by simp

theorem Trimmed.trans (h : Trimmed i pids s s') (h' : Trimmed i pids' s' s'') :
    Trimmed i (pids ++ pids') s s'' where
  curGroup := h'.curGroup.trans h.curGroup
  ok := h'.ok
  nodup := by
    apply List.nodup_append.mpr
    refine ⟨h.nodup, h'.nodup, ?_⟩
    rintro p hp _ hp' rfl
    exact ((h.left p).mp (h'.registered p hp')).2 hp
  registered := by
    intro p hp
    rcases List.mem_append.mp hp with hp | hp
    · exact h.registered p hp
    · exact ((h.left p).mp (h'.registered p hp)).1
  left p := by
    rw [h'.left, h.left, List.mem_append, not_or, and_assoc]
  others k hk p hr := h'.others k hk p (h.others k hk p hr)
  effects := by
    rw [h'.effects, h.effects, List.append_assoc, List.flatMap_append]
  curprocnum := by
    have hfirst := h.curprocnum
    have hthen := h'.curprocnum
    rw [List.length_append]
    omega

/-- What does not touch the processes of the group may follow. -/
theorem Trimmed.setAdjust (h : Trimmed i pids s s') (now : ℤ) :
    Trimmed i pids s (s'.setAdjust i now) where
  curGroup := h.curGroup
  ok := h.ok.setAdjust i now
  nodup := h.nodup
  registered := h.registered
  left p := by
    rw [← h.left, Registered, Registered, MonSrv.setAdjust, setGroup_self]
  others k hk p hr := (Grows.setAdjust s' i now).registered (h.others k hk p hr)
  effects := h.effects
  curprocnum := by
    rw [MonSrv.setAdjust, setGroup_self]
    exact h.curprocnum

theorem Trimmed.kill {ms : List TProcMonMsg} (hs : s.Ok) (hi : i < s.curGroup)
    (hr : s.Registered i procid) (hown : ∀ m ∈ ms, m.procinfo.procid = procid) :
    Trimmed i [procid] s (((s.emit (.kill procid SIGUSR1)).doRecv ms).delProc i procid) := by
  have hsettled : Settled i (s.emit (.kill procid SIGUSR1))
      ((s.emit (.kill procid SIGUSR1)).doRecv ms) := .doRecv hi hr hown
  have hgrows : Grows s ((s.emit (.kill procid SIGUSR1)).doRecv ms) :=
    (Grows.emit s (fun _ => rfl) fun _ => rfl).trans (.doRecv _ ms)
  have hok := hgrows.ok hs
  have hcur := hgrows.curGroup
  have hr' := hgrows.registered hr
  generalize (s.emit (.kill procid SIGUSR1)).doRecv ms = s₁ at *
  have hdel := hok.delProc hr'
  rw [delProc, if_neg (by omega)] at hdel ⊢
  constructor
  · exact hcur
  · exact hdel
  · simp
  · simpa using hr
  · intro p
    have hkeys := Buckets.mem_keys_erase_iff (hok i (by omega)).buckets procid p
    rw [Registered, emit_procGroups, setGroup_self, hkeys, List.mem_singleton]
    exact and_congr_left' (hsettled.registered_iff p)
  · intro k hk p hrk
    have hkept := hgrows.registered hrk
    rwa [Registered, emit_procGroups, setGroup_of_ne s₁ _ hk]
  · have heffects : s₁.effects = s.effects ++ [.kill procid SIGUSR1] := hsettled.effects
    simp [emit, heffects]
  · have hcount : (s₁.procGroups i).curprocnum = (s.procGroups i).curprocnum :=
      hsettled.curprocnum
    simp [hcount]

end MonSrv

/-! ## The run -/

namespace Trim

open MonSrv

variable {k : ℕ} {diff : ℤ} {t : Trim}

/-- Where the loop is: the buckets before are empty, and it goes on while processes are to be
taken out. -/
structure Inv (k : ℕ) (diff : ℤ) (t : Trim) : Prop where
  ok : t.srv.Ok
  lt : k < t.srv.curGroup
  before : ∀ p, t.srv.Registered k p → t.i ≤ p % BUCKET_SIZE
  count : if t.ended then t.count = diff else t.count < diff

theorem Inv.start {s : MonSrv} (hs : s.Ok) (hk : k < s.curGroup) (hdiff : 0 < diff)
    (drained : List (List TProcMonMsg)) : (start s drained).Inv k diff where
  ok := hs
  lt := hk
  before _ _ := Nat.zero_le _
  count := hdiff

/-- A turn takes out the process that it looks at, or nobody. -/
theorem Inv.turn (h : t.Inv k diff) (hown : t.Own k) :
    (t.turn k diff).Inv k diff ∧ ∃ pids, Trimmed k pids t.srv (t.turn k diff).srv ∧
      (t.turn k diff).count = t.count + pids.length := by
  by_cases hdone : t.Done
  · rw [turn_of_done hdone]
    exact ⟨h, [], .refl h.ok, by simp⟩
  · have hended : ¬t.ended := fun hend => hdone (.inl hend)
    have hcount := h.count
    rw [if_neg hended] at hcount
    cases hbucket : (t.srv.procGroups k).bucket t.i with
    | nil =>
        rw [turn_nil hdone hbucket, if_neg (by omega)]
        refine ⟨⟨h.ok, h.lt, ?_, h.count⟩, [], .refl h.ok, by simp⟩
        intro p hp
        have hle := h.before p hp
        have hne : p % BUCKET_SIZE ≠ t.i := by
          intro heq
          rw [Registered, heq, hbucket] at hp
          simp at hp
        dsimp only
        omega
    | cons o os =>
        have ho : o ∈ (t.srv.procGroups k).bucket t.i := by simp [hbucket]
        have hkill : Trimmed k [o.procid] t.srv (t.kill k o) := by
          rw [Trim.kill, (h.ok k h.lt).groupid]
          exact .kill h.ok h.lt (registered_of_mem h.ok h.lt ho)
            (hown hdone o (by simp [hbucket]))
        rw [turn_cons hdone hbucket]
        refine ⟨⟨hkill.ok, ?_, ?_, ?_⟩, [o.procid], hkill, by simp⟩
        · rw [hkill.curGroup]
          exact h.lt
        · intro p hp
          exact h.before p ((hkill.left p).mp hp).1
        · dsimp only
          by_cases hlast : t.count + 1 ≥ diff
          · simp only [hlast, decide_true, if_true]
            omega
          · simp only [hlast, decide_false, Bool.false_eq_true, if_false]
            omega

/-- The turns that are left. -/
def size (diff : ℤ) (t : Trim) : ℕ := BUCKET_SIZE - t.i + (diff - t.count).toNat

theorem Inv.size_turn (h : t.Inv k diff) (hdone : ¬t.Done) :
    (t.turn k diff).size diff < t.size diff := by
  obtain ⟨hended, hi⟩ := not_or.mp hdone
  have hcount := h.count
  rw [if_neg hended] at hcount
  cases hbucket : (t.srv.procGroups k).bucket t.i with
  | nil =>
      rw [turn_nil hdone hbucket, if_neg (by omega), size, size]
      dsimp only
      omega
  | cons o os =>
      rw [turn_cons hdone hbucket, size, size]
      dsimp only
      omega

section

variable {s : MonSrv} {drained : List (List TProcMonMsg)}

theorem Inv.iterate (hs : s.Ok) (hk : k < s.curGroup) (hdiff : 0 < diff)
    (hown : ∀ n, ((Trim.turn k diff)^[n] (Trim.start s drained)).Own k) (n : ℕ) :
    ((Trim.turn k diff)^[n] (Trim.start s drained)).Inv k diff ∧
      ∃ pids, Trimmed k pids s ((Trim.turn k diff)^[n] (Trim.start s drained)).srv ∧
        ((Trim.turn k diff)^[n] (Trim.start s drained)).count = pids.length := by
  induction n with
  | zero => exact ⟨.start hs hk hdiff drained, [], .refl hs, rfl⟩
  | succ n ih =>
      obtain ⟨hinv, pids, htrimmed, hcount⟩ := ih
      obtain ⟨hinv', pids', htrimmed', hcount'⟩ := hinv.turn (hown n)
      rw [Function.iterate_succ_apply']
      refine ⟨hinv', pids ++ pids', htrimmed.trans htrimmed', ?_⟩
      rw [hcount', hcount, List.length_append]
      omega

/-- Where nobody is registered the count is 0. -/
theorem curprocnum_eq_zero (hs : s.Ok) (hk : k < s.curGroup) (hnone : ∀ p, ¬s.Registered k p) :
    (s.procGroups k).curprocnum = 0 := by
  have hempty : ∀ j, (s.procGroups k).bucket j = [] := by
    intro j
    apply List.eq_nil_iff_forall_not_mem.mpr
    intro o ho
    exact hnone _ (registered_of_mem hs hk ho)
  rw [(hs k hk).count, Buckets.total]
  simp [hempty]

/-- The loop comes to its end, and it takes out as many as it is to take out, or all there
are. -/
theorem ends (hs : s.Ok) (hk : k < s.curGroup) (hdiff : 0 < diff)
    (hown : ∀ n, ((Trim.turn k diff)^[n] (Trim.start s drained)).Own k) :
    (∃ n, ((Trim.turn k diff)^[n] (Trim.start s drained)).Done) ∧
      ∃ pids, Trimmed k pids s (procupLoop k BUCKET_SIZE diff.toNat drained s) ∧
        (pids.length : ℤ) = min diff (s.procGroups k).curprocnum := by
  have hkeep : ∀ t, (∃ n, (Trim.turn k diff)^[n] (Trim.start s drained) = t) → ¬t.Done →
      ∃ n, (Trim.turn k diff)^[n] (Trim.start s drained) = Trim.turn k diff t := by
    rintro _ ⟨n, rfl⟩ -
    exact ⟨n + 1, Function.iterate_succ_apply' _ _ _⟩
  have hless : ∀ t, (∃ n, (Trim.turn k diff)^[n] (Trim.start s drained) = t) → ¬t.Done →
      (Trim.turn k diff t).size diff < t.size diff := by
    rintro _ ⟨n, rfl⟩ hdone
    exact (Inv.iterate hs hk hdiff hown n).1.size_turn hdone
  have hend := Run.exists_done (size diff) hkeep hless (s := Trim.start s drained) ⟨0, rfl⟩
  obtain ⟨n, -, hdone⟩ := hend
  obtain ⟨hinv, pids, htrimmed, hcount⟩ := Inv.iterate hs hk hdiff hown n
  rw [← srv_of_done hdone]
  refine ⟨⟨n, hdone⟩, pids, htrimmed, ?_⟩
  have hnow := htrimmed.curprocnum
  have hbound := hinv.count
  rw [hcount] at hbound
  by_cases hended : ((Trim.turn k diff)^[n] (Trim.start s drained)).ended
  · rw [if_pos hended] at hbound
    have hpos := (hinv.ok k hinv.lt).count
    omega
  · rw [if_neg hended] at hbound
    have hnone := curprocnum_eq_zero hinv.ok hinv.lt ?_
    · omega
    · intro p hp
      have hle := hinv.before p hp
      have hlt := Nat.mod_lt p (show 0 < BUCKET_SIZE by decide)
      have hi := hdone.resolve_left hended
      omega

end

end Trim

/-! ## The group check -/

namespace MonSrv

variable {s : MonSrv} {i : ℕ}

/-- The loop of `do_event` ends, and the processes that it signals and unregisters are
different ones of the group: the surplus of a group that is over its maximum, or one of a group
that is idle; and the minimum is kept. -/
def Trims (s : MonSrv) (i : ℕ) (a : PassAnswer) : Prop :=
  let g := s.procGroups i
  (∃ n, ((Trim.turn i (s.surplus i))^[n] (.start (s.notifyGroup i) a.drained)).Done) ∧
    ∃ pids, Trimmed i pids (s.notifyGroup i) (s.checkGroup i a) ∧
      (g.curprocnum > g.groupinfo.maxprocnum.toNat ∧
          pids.length = g.curprocnum - g.groupinfo.maxprocnum.toNat ∨
        g.curprocnum ≤ g.groupinfo.maxprocnum.toNat ∧ s.Idle i a ∧ pids.length = 1) ∧
      g.groupinfo.minprocnum.toNat ≤ ((s.checkGroup i a).procGroups i).curprocnum

/-- Where `check_group` decides on `PROCMON_EVENT_PROCUP`, it trims the group as it should
exactly where the maximum and the difference to it are ones for an `int`, or where the group is
idle and neither is, or the one that goes is all there is. -/
theorem trims_iff (hs : s.Ok) (hi : i < s.curGroup) (a : PassAnswer) (hup : s.Procup i a)
    (hown : ∀ n, ((Trim.turn i (s.surplus i))^[n]
      (.start (s.notifyGroup i) a.drained)).Own i) :
    s.Trims i a ↔
      (s.procGroups i).groupinfo.maxprocnum.toNat < 2 ^ 31 ∧
          (s.procGroups i).curprocnum - (s.procGroups i).groupinfo.maxprocnum.toNat < 2 ^ 31 ∨
        2 ^ 31 ≤ (s.procGroups i).groupinfo.maxprocnum.toNat ∧ s.Idle i a ∧
          ((s.procGroups i).groupinfo.maxprocnum.toNat ≤ 2 ^ 31 + (s.procGroups i).curprocnum ∨
            (s.procGroups i).curprocnum = 1) := by
  have hnotify := Grows.notifyGroup s i
  have hsame := curprocnum_notifyGroup s i i
  have hbounds := hs.curprocnum_bounds hi
  obtain ⟨hend, pids, htrimmed, hlen⟩ := Trim.ends (hnotify.ok hs) (hnotify.curGroup ▸ hi)
    (surplus_pos s i) hown
  have hchecked := htrimmed.setAdjust a.adjust
  rw [← procup, ← checkGroup_of_procup hup] at hchecked
  have hnow := hchecked.curprocnum
  rw [hsame] at hlen hnow
  by_cases hint : (s.procGroups i).groupinfo.maxprocnum.toNat < 2 ^ 31
  · by_cases hdiff : (s.procGroups i).curprocnum -
        (s.procGroups i).groupinfo.maxprocnum.toNat < 2 ^ 31
    · obtain ⟨hmin, hcases⟩ := hup.cases hs hi hint hdiff
      refine iff_of_true ⟨hend, pids, hchecked, ?_⟩ (.inl ⟨hint, hdiff⟩)
      rcases hcases with ⟨hover, hsurplus⟩ | ⟨hunder, hidle, hsurplus⟩
      · have hle : (s.procGroups i).groupinfo.minprocnum.toNat ≤
            (s.procGroups i).groupinfo.maxprocnum.toNat := (s.procGroups i).groupinfo.le
        rw [hsurplus] at hlen
        exact ⟨.inl ⟨hover, by omega⟩, by omega⟩
      · have hmore := hidle.1
        rw [hsurplus] at hlen
        exact ⟨.inr ⟨hunder, hidle, by omega⟩, by omega⟩
    · -- 2^31 processes and no one allowed: the difference does not fit, and one goes
      have hneg : ¬s.diffMax i > 0 := by
        rw [diffMax, s32_of_lt hint, s32]
        omega
      rw [surplus, if_neg hneg] at hlen
      refine iff_of_false ?_ (by omega)
      rintro ⟨-, pids', htrimmed', hsize, -⟩
      have hnow' := htrimmed'.curprocnum
      rw [hsame] at hnow'
      omega
  · have hge := le_of_not_gt hint
    have hsurplus := surplus_of_ge hs hi hge
    constructor
    · rintro ⟨-, pids', htrimmed', hsize, -⟩
      have hnow' := htrimmed'.curprocnum
      rw [hsame] at hnow'
      rcases hsize with ⟨hover, hlen'⟩ | ⟨-, hidle, hlen'⟩
      · omega
      · refine .inr ⟨hge, hidle, ?_⟩
        split at hsurplus
        next hnear => exact .inl hnear
        next => exact .inr (by omega)
    · intro hone
      obtain ⟨-, hidle, hone⟩ := hone.resolve_left fun hsmall => hint hsmall.1
      have hmore := hidle.1
      have hsingle : pids.length = 1 := by
        split at hsurplus <;> omega
      exact ⟨hend, pids, hchecked, .inr ⟨by omega, hidle, hsingle⟩, by omega⟩

/-- A heartbeat of a process of group 0. -/
def beatOf (procid : ℕ) (h : procid < 2 ^ 31) : TProcMonMsg :=
  ⟨3, ⟨0, procid, 1000, 90, 100, 0, 0, h⟩, 1000⟩

/-- Heartbeats of the processes 11 and 12. -/
def twoBeats : List TProcMonMsg := [beatOf 11 (by decide), beatOf 12 (by decide)]

/-- A group with at most `maxprocnum` processes, and three that are registered in it. -/
def threeProcs (maxprocnum : UInt32) (h : 1 ≤ maxprocnum) : MonSrv :=
  let group : TGroupInfo := ⟨0, 0, 9, maxprocnum, 1, 60, 0, 0, 0, 0, h⟩
  Run.final step (new 180 false ⟨group, fun _ => [], 0, 0, 0⟩)
    [.addGroup group, .recv (twoBeats ++ [beatOf 21 (by decide)])]

theorem ok_threeProcs (maxprocnum : UInt32) (h : 1 ≤ maxprocnum) : (threeProcs maxprocnum h).Ok :=
  ok_run _ _ _ _

/-- The process 21 goes, with a heartbeat of its own that is still in the queue. -/
theorem trims_iff_two : (threeProcs 2 (by decide)).Trims 0
    ⟨1000, 1000, 1000, false, [[beatOf 21 (by decide)]]⟩ :=
  (trims_iff (ok_threeProcs 2 _) (by decide) _ (by decide)
    (Trim.own_of_done (n := 2) (by decide) (by decide))).mpr (.inl (by decide))

/-- A maximum of -1 in the configuration: the loop takes out all three processes, and nobody is
left for the minimum of 1. -/
theorem not_trims : ¬∀ (s : MonSrv) (i : ℕ) (a : PassAnswer), s.Ok → i < s.curGroup →
    s.Procup i a → (∀ n, ((Trim.turn i (s.surplus i))^[n]
      (.start (s.notifyGroup i) a.drained)).Own i) → s.Trims i a := by
  intro hall
  have hup : (threeProcs 0xffffffff (by decide)).Procup 0 ⟨1000, 1000, 1000, false, []⟩ := by
    decide
  have hdone : ((Trim.turn 0 ((threeProcs 0xffffffff (by decide)).surplus 0))^[13]
      (.start ((threeProcs 0xffffffff (by decide)).notifyGroup 0) [])).Done := by
    decide
  have htrims := hall _ 0 _ (ok_threeProcs 0xffffffff (by decide)) (by decide) hup
    (Trim.own_of_done hdone (by decide))
  obtain ⟨-, pids, -, -, hmin⟩ := htrims
  rw [checkGroup_of_procup hup, procup, ← Trim.srv_of_done hdone] at hmin
  exact absurd hmin (by decide)

end MonSrv

end Spp
