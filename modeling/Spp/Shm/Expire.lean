import Spp.Lib.Run
import Spp.Lib.StdMap
import Spp.Shm.Commu

/-!
# Requests that are not answered

With an `expiretime_`, a `CTShmCommu` remembers each flow that it has sent to and calls
`CB_TIMEOUT` for those that have no answer in time.  `sendto` adds a flow, `poll` takes it out when
a message for it has come, and `check_expire` goes through the rest once a minute.

The callbacks may send: those of `poll` run before the flow of their message is taken out, and
`CB_TIMEOUT` runs while `check_expire` walks through the map and before it swaps in the entries
that it keeps.  The two queues are left out: a call is given what `produce` and `comsume` return.
A build with `_SPP_PROXY` polls until there is nothing left, and then forgets to take the flows
out; and the entries that are too old stay when no other is left.

## Main definitions

* `ExpireCommu` — the map; `checkExpire`, `poll`, `sendto` — the calls.
* `ExpireEvent` — what happens in them, in its order.
* `watch`, `Allowed` — the flows that wait for an answer, and what may happen to them.
* `ReportedOnce` — a flow is reported once at most, and not after its answer.
* `ExpireCommu.InTime` — a call at which nothing is forgotten.
-/

namespace Spp

/-- The part of a `CTShmCommu` that looks after the answers. -/
structure ExpireCommu where
  expiretime : Int32
  expiremap : StdMap UInt32 UInt32
  lastchecktime : Int32

/-- A `sendto` for which `produce` returns `ret`, with the clock. -/
structure Send where
  flow : UInt32
  ret : ℤ
  now : Int32

/-- A message that `comsume` gives, and what its callback sends. -/
structure Arrived where
  flow : UInt32
  msgtype : UInt8
  sends : List Send

/-- A call: a `sendto`; or a `poll` with the clock at each `get_timebytask`, in which `comsume`
gives the messages `arrived` and then the error `err`, and `CB_TIMEOUT` for a flow sends what
`onTimeout` says. -/
inductive ExpireOp
  | sendto (s : Send)
  | poll (block : Bool) (arrived : List Arrived) (err : { r : ℤ // r ≠ 0 }) (now now' : Int32)
      (onTimeout : UInt32 → List Send)

/-- What happens in a call: a `sendto`, a message whose callback is called, a flow for which
`check_expire` calls `CB_TIMEOUT`, and the end of such a check. -/
inductive ExpireEvent
  | sent (flow : UInt32) (ret : ℤ) (now : UInt32)
  | delivered (flow : UInt32) (cb : CbType)
  | expired (flow now : UInt32)
  | checked (now : UInt32)
  deriving DecidableEq

def Send.event (s : Send) : ExpireEvent := .sent s.flow s.ret s.now.toUInt32

def Arrived.events (a : Arrived) : List ExpireEvent :=
  .delivered a.flow (cbOf a.msgtype) :: a.sends.map Send.event

/-- The iterator goes to the first entry with a key from `k` on. -/
def StdMap.next? (m : StdMap UInt32 UInt32) (k : ℕ) : Option (UInt32 × UInt32) :=
  m.entries.find? fun e => k ≤ e.1.toNat

namespace ExpireCommu

def init (expiretime now : Int32) : ExpireCommu := ⟨expiretime, .empty, now⟩

/-- `sendto`; `expiremap_.insert` does not replace an entry. -/
def sendto (c : ExpireCommu) (s : Send) : ExpireCommu :=
  if c.expiretime ≠ 0 ∧ s.ret = 0 then
    if (c.expiremap.find? s.flow).isSome then c
    else { c with expiremap := c.expiremap.put s.flow s.now.toUInt32 }
  else c

/-- What a callback sends. -/
def sendAll (c : ExpireCommu) (sends : List Send) : ExpireCommu := sends.foldl sendto c

/-- The loop of `check_expire` over `expiremap_`, at the keys from `k` on, with `newmap`.  A
callback may insert while it runs.  There are no more turns than keys. -/
def walk (deadlineTime now : UInt32) (onTimeout : UInt32 → List Send) :
    ℕ → ℕ → ExpireCommu → StdMap UInt32 UInt32 →
      ExpireCommu × StdMap UInt32 UInt32 × List ExpireEvent
  | 0, _, c, newmap => (c, newmap, [])
  | turns + 1, k, c, newmap =>
      match c.expiremap.next? k with
      | none => (c, newmap, [])
      | some (flow, time) =>
          if time < deadlineTime then
            let sends := onTimeout flow
            let (c, newmap, events) :=
              walk deadlineTime now onTimeout turns (flow.toNat + 1) (c.sendAll sends) newmap
            (c, newmap, .expired flow now :: sends.map Send.event ++ events)
          else
            walk deadlineTime now onTimeout turns (flow.toNat + 1) c (newmap.put flow time)

/-- `check_expire`. -/
def checkExpire (c : ExpireCommu) (now now' : Int32) (onTimeout : UInt32 → List Send) :
    ExpireCommu × List ExpireEvent :=
  if now - c.lastchecktime > 60 then
    let deadlineTime := now'.toUInt32 - c.expiretime.toUInt32
    let (c, newmap, events) := walk deadlineTime now'.toUInt32 onTimeout (2 ^ 32) 0 c .empty
    ({ c with
        expiremap := if newmap.entries ≠ [] then newmap else c.expiremap
        lastchecktime := now },
      events ++ [.checked now'.toUInt32])
  else (c, [])

/-- The loop of `poll`, with `ret` and `flow` as they are behind it. -/
def pollLoop (proxy block : Bool) (err : ℤ) :
    List Arrived → UInt32 → ExpireCommu → ExpireCommu × ℤ × UInt32 × List ExpireEvent
  | [], flow, c => (c, err, flow, [])
  | a :: rest, _, c =>
      let c := c.sendAll a.sends
      if proxy ∧ ¬ block then
        let (c, ret, flow, events) := pollLoop proxy block err rest a.flow c
        (c, ret, flow, a.events ++ events)
      else (c, 0, a.flow, a.events)

/-- `expiremap_.erase`. -/
def forget (c : ExpireCommu) (flow : UInt32) : ExpireCommu :=
  { c with expiremap := c.expiremap.erase flow }

/-- `poll`, in a build with or without `_SPP_PROXY`. -/
def poll (proxy : Bool) (c : ExpireCommu) (block : Bool) (arrived : List Arrived) (err : ℤ)
    (now now' : Int32) (onTimeout : UInt32 → List Send) :
    ExpireCommu × ℤ × List ExpireEvent :=
  let (c, ret, flow, events) := pollLoop proxy block err arrived 0 c
  if c.expiretime ≠ 0 then
    let c := if ret = 0 then c.forget flow else c
    let (c, checked) := c.checkExpire now now' onTimeout
    (c, ret, events ++ checked)
  else (c, ret, events)

/-- A call, with what it returns and what happens in it. -/
def step (proxy : Bool) (c : ExpireCommu) : ExpireOp → ExpireCommu × (ℤ × List ExpireEvent)
  | .sendto s => (c.sendto s, s.ret, [s.event])
  | .poll block arrived err now now' onTimeout =>
      c.poll proxy block arrived err.1 now now' onTimeout

end ExpireCommu

/-! ## The flows that wait -/

/-- The flows that wait for an answer, and since when. -/
abbrev Waits : Type := UInt32 → Option UInt32

/-- A flow waits when it was sent to, and until it has an answer or was reported. -/
def watch (w : Waits) : ExpireEvent → Waits × Unit
  | .sent flow ret now =>
      (if ret = 0 ∧ w flow = none then Function.update w flow (some now) else w, ())
  | .delivered flow _ => (Function.update w flow none, ())
  | .expired flow _ => (Function.update w flow none, ())
  | .checked _ => (w, ())

/-- The messages that a `poll` takes. -/
def takenBy (proxy block : Bool) (arrived : List Arrived) : List Arrived :=
  if proxy ∧ ¬ block then arrived else arrived.take 1

/-- The entry of the time `t` is past its deadline. -/
def PastDeadline (expiretime now t : ℕ) : Prop := t + expiretime < now

instance (expiretime now t : ℕ) : Decidable (PastDeadline expiretime now t) :=
  inferInstanceAs (Decidable (_ < _))

/-- What may happen: a message is a response, a flow is reported that waits too long, and after a
check no other flow waits so long. -/
def Allowed (expiretime : ℕ) (w : Waits) : ExpireEvent → Prop
  | .sent _ _ _ => True
  | .delivered _ cb => cb ≠ .timeout
  | .expired flow now => ∃ t, w flow = some t ∧ PastDeadline expiretime now.toNat t.toNat
  | .checked now => ∀ f t, w f = some t → ¬ PastDeadline expiretime now.toNat t.toNat

/-! ### What the events show -/

/-- The flow is sent to. -/
def Opens (f : UInt32) : ExpireEvent → Prop
  | .sent flow ret _ => flow = f ∧ ret = 0
  | _ => False

/-- A message of the flow is delivered. -/
def Answers (f : UInt32) : ExpireEvent → Prop
  | .delivered flow _ => flow = f
  | _ => False

/-- `CB_TIMEOUT` is called for the flow. -/
def Reports (f : UInt32) : ExpireEvent → Prop
  | .delivered flow cb => flow = f ∧ cb = .timeout
  | .expired flow _ => flow = f
  | _ => False

/-- A flow is reported only when it has been sent to, and again, or after an answer, only when it
has been sent to again. -/
structure ReportedOnce (es : List ExpireEvent) : Prop where
  opened : ∀ pre y post f, es = pre ++ y :: post → Reports f y → ∃ z ∈ pre, Opens f z
  reopened : ∀ pre x mid y post f, es = pre ++ x :: (mid ++ y :: post) →
    Answers f x ∨ Reports f x → Reports f y → ∃ z ∈ mid, Opens f z

section
variable {expiretime : ℕ} {w : Waits} {e : ExpireEvent} {es : List ExpireEvent} {f : UInt32}

/-- A flow that does not wait is not reported, and waits only once it is sent to. -/
theorem quiet_step (h : Allowed expiretime w e) (hnone : w f = none) (hclosed : ¬ Opens f e) :
    (watch w e).1 f = none ∧ ¬ Reports f e := by
  cases e with
  | sent flow ret now =>
      refine ⟨?_, id⟩
      by_cases hopens : ret = 0 ∧ w flow = none
      · have hne : f ≠ flow := fun heq => hclosed ⟨heq.symm, hopens.1⟩
        simp [watch, hopens, hne, hnone]
      · simp [watch, hopens, hnone]
  | delivered flow cb =>
      refine ⟨?_, fun hreports => h hreports.2⟩
      by_cases hf : f = flow <;> simp [watch, hf, hnone]
  | expired flow now =>
      obtain ⟨t, ht, -⟩ := h
      have hne : f ≠ flow := by
        rintro rfl
        simp [hnone] at ht
      exact ⟨by simp [watch, hne, hnone], fun hreports => hne hreports.symm⟩
  | checked now => exact ⟨hnone, id⟩

/-- An answer or a report ends the wait. -/
theorem watch_of_ends (hend : Answers f e ∨ Reports f e) : (watch w e).1 f = none := by
  cases e with
  | sent => simp [Answers, Reports] at hend
  | delivered flow cb =>
      have hf : flow = f := hend.elim id fun hreports => hreports.1
      simp [watch, hf]
  | expired flow now =>
      have hf : flow = f := hend.elim False.elim id
      simp [watch, hf]
  | checked => simp [Answers, Reports] at hend

theorem quiet_run (h : Run.Always watch (Allowed expiretime) w es) (hnone : w f = none)
    (hclosed : ∀ z ∈ es, ¬ Opens f z) : ∀ y ∈ es, ¬ Reports f y := by
  induction es generalizing w with
  | nil => simp
  | cons e es ih =>
      obtain ⟨hfree, hquiet⟩ := quiet_step h.1 hnone (hclosed e List.mem_cons_self)
      have hrest := ih h.2 hfree fun z hz => hclosed z (List.mem_cons_of_mem _ hz)
      intro y hy
      cases List.mem_cons.mp hy with
      | inl heq =>
          rw [heq]
          exact hquiet
      | inr hmem => exact hrest y hmem

/-- A report is behind a send, from any state in which the flow does not wait. -/
theorem exists_opens (h : Run.Always watch (Allowed expiretime) w es) (hnone : w f = none)
    {pre post : List ExpireEvent} {y : ExpireEvent} (hes : es = pre ++ y :: post)
    (hy : Reports f y) : ∃ z ∈ pre, Opens f z := by
  by_contra hclosed
  rw [hes, ← List.singleton_append, ← List.append_assoc] at h
  have hopens : ¬ Opens f y := by
    cases y with
    | sent => cases hy
    | delivered => exact id
    | expired => exact id
    | checked => exact id
  have hall : ∀ z ∈ pre ++ [y], ¬ Opens f z := by
    intro z hz hopen
    cases List.mem_append.mp hz with
    | inl hmem => exact hclosed ⟨z, hmem, hopen⟩
    | inr hmem =>
        rw [List.mem_singleton.mp hmem] at hopen
        exact hopens hopen
  exact quiet_run (Run.always_append.mp h).1 hnone hall y (by simp) hy

/-- Where only what may happen happens, flows are reported once. -/
theorem reportedOnce_of_always (h : Run.Always watch (Allowed expiretime) w es)
    (hnone : ∀ f, w f = none) : ReportedOnce es where
  opened pre y post f hes hy := exists_opens h (hnone f) hes hy
  reopened := by
    intro pre x mid y post f hes hend hy
    rw [hes] at h
    have hrest := (Run.always_append.mp h).2.2
    exact exists_opens hrest (watch_of_ends hend) rfl hy

end

/-! ## The map -/

namespace StdMap

variable {m : StdMap UInt32 UInt32} {k : ℕ} {f t : UInt32}

theorem find?_of_next?_none (h : m.next? k = none) (hk : k ≤ f.toNat) : m.find? f = none := by
  rw [next?, List.find?_eq_none] at h
  rw [find?_eq_none_iff, List.mem_map]
  rintro ⟨e, he, rfl⟩
  exact h e he (by simpa using hk)

/-- The iterator goes to the next key. -/
theorem next?_eq_some (hsorted : m.Sorted) (h : m.next? k = some (f, t)) :
    m.find? f = some t ∧ k ≤ f.toNat ∧
      ∀ g : UInt32, k ≤ g.toNat → g.toNat < f.toNat → m.find? g = none := by
  obtain ⟨hle, as, bs, hentries, hbefore⟩ := List.find?_eq_some_iff_append.mp h
  refine ⟨?_, by simpa using hle, ?_⟩
  · rw [find?_eq_some_iff, hentries]
    simp
  · intro g hk hlt
    rw [find?_eq_none_iff, List.mem_map]
    rintro ⟨e, he, rfl⟩
    rw [Sorted, hentries, List.map_append, List.map_cons, List.pairwise_append,
      List.pairwise_cons] at hsorted
    rw [hentries, List.mem_append, List.mem_cons] at he
    rcases he with he | rfl | he
    · have hnot := hbefore e he
      simp only [Bool.not_eq_true', decide_eq_false_iff_not] at hnot
      exact hnot hk
    · exact absurd hlt (lt_irrefl _)
    · have hfirst := hsorted.2.1.1 e.1 (List.mem_map_of_mem he)
      rw [UInt32.le_iff_toNat_le] at hfirst
      exact absurd hlt (not_lt.mpr hfirst)

end StdMap

namespace ExpireCommu

variable {proxy block : Bool} {arrived : List Arrived} {err : ℤ} {c : ExpireCommu}
  {expiretime now now' : Int32} {w : Waits} {s : Send} {sends : List Send} {f : UInt32}
  {onTimeout : UInt32 → List Send}

/-- The test of `check_expire`, as long as the deadline does not wrap. -/
theorem lt_deadline_iff (hle : expiretime.toUInt32 ≤ now'.toUInt32) (t : UInt32) :
    t < now'.toUInt32 - expiretime.toUInt32 ↔
      PastDeadline expiretime.toUInt32.toNat now'.toUInt32.toNat t.toNat := by
  rw [UInt32.lt_iff_toNat_lt, UInt32.toNat_sub_of_le _ _ hle, PastDeadline]
  rw [UInt32.le_iff_toNat_le] at hle
  omega

/-! ### What is sent -/

@[simp] theorem expiretime_sendto : (c.sendto s).expiretime = c.expiretime := by
  rw [sendto]
  split
  · split <;> rfl
  · rfl

@[simp] theorem lastchecktime_sendto : (c.sendto s).lastchecktime = c.lastchecktime := by
  rw [sendto]
  split
  · split <;> rfl
  · rfl

theorem sorted_sendto (h : c.expiremap.Sorted) (s : Send) : (c.sendto s).expiremap.Sorted := by
  rw [sendto]
  split
  · split
    · exact h
    · exact h.put _ _
  · exact h

theorem find?_sendto (hne : c.expiretime ≠ 0) (s : Send) (f : UInt32) :
    (c.sendto s).expiremap.find? f =
      if s.ret = 0 ∧ c.expiremap.find? s.flow = none ∧ f = s.flow then some s.now.toUInt32
      else c.expiremap.find? f := by
  by_cases hret : s.ret = 0
  · cases hfind : c.expiremap.find? s.flow with
    | some t => simp [sendto, hret, hfind]
    | none => simp [sendto, hne, hret, hfind, StdMap.find?_put]
  · simp [sendto, hret]

theorem watch_event (w : Waits) (s : Send) (f : UInt32) :
    (watch w s.event).1 f =
      if s.ret = 0 ∧ w s.flow = none ∧ f = s.flow then some s.now.toUInt32 else w f := by
  by_cases hret : s.ret = 0
  · cases hfind : w s.flow with
    | some t => simp [watch, Send.event, hfind]
    | none =>
        by_cases hf : f = s.flow <;> simp [watch, Send.event, hret, hfind, hf]
  · simp [watch, Send.event, hret]

/-- Where the map holds the flows that wait, it goes on to. -/
theorem find?_sendto_eq (hne : c.expiretime ≠ 0)
    (hs : c.expiremap.find? s.flow = w s.flow) (hf : c.expiremap.find? f = w f) :
    (c.sendto s).expiremap.find? f = (watch w s.event).1 f := by
  rw [find?_sendto hne, watch_event, hs, hf]

/-- A send that is not accepted, or to a flow that waits, changes nothing. -/
theorem sendto_of_waits (h : s.ret = 0 → (c.expiremap.find? s.flow).isSome) : c.sendto s = c := by
  rw [sendto]
  split
  next haccepted => rw [if_pos (h haccepted.2)]
  next => rfl

theorem watch_of_waits (h : s.ret = 0 → (w s.flow).isSome) : (watch w s.event).1 = w := by
  funext f
  rw [watch_event, if_neg]
  rintro ⟨hret, hnone, -⟩
  have hsome := h hret
  rw [hnone] at hsome
  cases hsome

theorem always_sends (expiretime : ℕ) (w : Waits) (sends : List Send) :
    Run.Always watch (Allowed expiretime) w (sends.map Send.event) := by
  induction sends generalizing w with
  | nil => trivial
  | cons s sends ih => exact ⟨trivial, ih _⟩

/-- The map holds the flows that wait. -/
structure Watches (expiretime : Int32) (c : ExpireCommu) (w : Waits) : Prop where
  expiretime : c.expiretime = expiretime
  sorted : c.expiremap.Sorted
  waits : ∀ f, c.expiremap.find? f = w f

theorem Watches.sendto (h : Watches expiretime c w) (hne : expiretime ≠ 0) (s : Send) :
    Watches expiretime (c.sendto s) (watch w s.event).1 where
  expiretime := by rw [expiretime_sendto, h.expiretime]
  sorted := sorted_sendto h.sorted s
  waits f := find?_sendto_eq (h.expiretime ▸ hne) (h.waits s.flow) (h.waits f)

theorem Watches.sendAll (h : Watches expiretime c w) (hne : expiretime ≠ 0) (sends : List Send) :
    Watches expiretime (c.sendAll sends) (Run.final watch w (sends.map Send.event)) := by
  induction sends generalizing c w with
  | nil => exact h
  | cons s sends ih => exact ih (h.sendto hne s)

/-! ### A check -/

/-- Where the loop of `check_expire` is, before key `k`, with the flows that waited at its start:
the entries from `k` on are in `expiremap_`, those before `k` that are not too old in `newmap`. -/
structure Walked (expiretime : Int32) (past : UInt32 → Prop) (start : Waits) (k : ℕ)
    (c : ExpireCommu) (newmap : StdMap UInt32 UInt32) (w : Waits) : Prop where
  expiretime : c.expiretime = expiretime
  sorted : c.expiremap.Sorted
  sorted_newmap : newmap.Sorted
  ahead : ∀ f : UInt32, k ≤ f.toNat → c.expiremap.find? f = w f ∧ newmap.find? f = none
  behind : ∀ f : UInt32, f.toNat < k → newmap.find? f = w f ∧ ∀ t, w f = some t → ¬past t
  stays : ∀ f t, start f = some t → ¬past t → w f = some t ∧ (c.expiremap.find? f).isSome

/-- A callback in the loop sends ahead, or to a flow whose entry is kept. -/
def SendsAhead (past : UInt32 → Prop) (start : Waits) (flow : UInt32) (sends : List Send) : Prop :=
  ∀ s ∈ sends, s.ret = 0 → flow < s.flow ∨ ∃ t, start s.flow = some t ∧ ¬past t

section
variable {past : UInt32 → Prop} {start : Waits} {k : ℕ} {newmap : StdMap UInt32 UInt32}
  {flow time : UInt32}

theorem Walked.init (h : Watches expiretime c w) :
    Walked expiretime past w 0 c .empty w where
  expiretime := h.expiretime
  sorted := h.sorted
  sorted_newmap := StdMap.sorted_empty
  ahead f _ := ⟨h.waits f, rfl⟩
  behind f hf := absurd hf (Nat.not_lt_zero _)
  stays f t ht _ := ⟨ht, by rw [h.waits, ht]; rfl⟩

/-- Keys without an entry are passed over. -/
theorem Walked.skip (h : Walked expiretime past start k c newmap w) {k' : ℕ} (hk : k ≤ k')
    (hnone : ∀ f : UInt32, k ≤ f.toNat → f.toNat < k' → c.expiremap.find? f = none) :
    Walked expiretime past start k' c newmap w where
  expiretime := h.expiretime
  sorted := h.sorted
  sorted_newmap := h.sorted_newmap
  ahead f hf := h.ahead f (hk.trans hf)
  behind f hf := by
    by_cases hlt : f.toNat < k
    · exact h.behind f hlt
    · have hle : k ≤ f.toNat := not_lt.mp hlt
      have hwait : w f = none := (h.ahead f hle).1.symm.trans (hnone f hle hf)
      refine ⟨(h.ahead f hle).2.trans hwait.symm, ?_⟩
      intro t ht
      rw [hwait] at ht
      cases ht
  stays := h.stays

/-- An entry that is too old is reported and does not come into `newmap`. -/
theorem Walked.expired (h : Walked expiretime past start flow.toNat c newmap w)
    (hw : w flow = some time) (hpast : past time) :
    Walked expiretime past start (flow.toNat + 1) c newmap (Function.update w flow none) where
  expiretime := h.expiretime
  sorted := h.sorted
  sorted_newmap := h.sorted_newmap
  ahead f hf := by
    have hne : f ≠ flow := by
      rintro rfl
      omega
    rw [Function.update_of_ne hne]
    exact h.ahead f (by omega)
  behind f hf := by
    by_cases heq : f = flow
    · subst heq
      rw [Function.update_self]
      exact ⟨(h.ahead f le_rfl).2, nofun⟩
    · have hlt : f.toNat < flow.toNat := by
        have hne : f.toNat ≠ flow.toNat := fun h => heq (UInt32.toNat_inj.mp h)
        omega
      rw [Function.update_of_ne heq]
      exact h.behind f hlt
  stays f t ht hnot := by
    obtain ⟨hwait, hentry⟩ := h.stays f t ht hnot
    have hne : f ≠ flow := by
      rintro rfl
      rw [hw] at hwait
      exact hnot (Option.some.inj hwait ▸ hpast)
    rw [Function.update_of_ne hne]
    exact ⟨hwait, hentry⟩

/-- An entry that is not too old comes into `newmap`. -/
theorem Walked.kept (h : Walked expiretime past start flow.toNat c newmap w)
    (hw : w flow = some time) (hnot : ¬past time) :
    Walked expiretime past start (flow.toNat + 1) c (newmap.put flow time) w where
  expiretime := h.expiretime
  sorted := h.sorted
  sorted_newmap := h.sorted_newmap.put flow time
  ahead f hf := by
    have hne : f ≠ flow := by
      rintro rfl
      omega
    rw [StdMap.find?_put, if_neg hne]
    exact h.ahead f (by omega)
  behind f hf := by
    rw [StdMap.find?_put]
    by_cases heq : f = flow
    · subst heq
      rw [if_pos rfl]
      refine ⟨hw.symm, ?_⟩
      intro t ht
      rw [hw] at ht
      exact Option.some.inj ht ▸ hnot
    · have hlt : f.toNat < flow.toNat := by
        have hne : f.toNat ≠ flow.toNat := fun h => heq (UInt32.toNat_inj.mp h)
        omega
      rw [if_neg heq]
      exact h.behind f hlt
  stays := h.stays

/-- What the callback for `flow` sends is met by the loop, or waits already. -/
theorem Walked.sendto (h : Walked expiretime past start (flow.toNat + 1) c newmap w)
    (hne : expiretime ≠ 0)
    (hs : s.ret = 0 → flow < s.flow ∨ ∃ t, start s.flow = some t ∧ ¬past t) :
    Walked expiretime past start (flow.toNat + 1) (c.sendto s) newmap (watch w s.event).1 := by
  by_cases hkept : s.ret = 0 → ∃ t, start s.flow = some t ∧ ¬past t
  · have hentry : s.ret = 0 → (c.expiremap.find? s.flow).isSome := by
      intro hret
      obtain ⟨t, ht, hnot⟩ := hkept hret
      exact (h.stays s.flow t ht hnot).2
    have hwait : s.ret = 0 → (w s.flow).isSome := by
      intro hret
      obtain ⟨t, ht, hnot⟩ := hkept hret
      rw [(h.stays s.flow t ht hnot).1]
      rfl
    rwa [sendto_of_waits hentry, watch_of_waits hwait]
  · obtain ⟨hret, hnot⟩ := Classical.not_imp.mp hkept
    have hlt : flow.toNat < s.flow.toNat := UInt32.lt_iff_toNat_lt.mp ((hs hret).resolve_right hnot)
    have hne' : c.expiretime ≠ 0 := h.expiretime ▸ hne
    have hflow := h.ahead s.flow hlt
    constructor
    · rw [expiretime_sendto, h.expiretime]
    · exact sorted_sendto h.sorted s
    · exact h.sorted_newmap
    · intro f hf
      exact ⟨find?_sendto_eq hne' hflow.1 (h.ahead f hf).1, (h.ahead f hf).2⟩
    · intro f hf
      have hother : (watch w s.event).1 f = w f := by
        rw [watch_event, if_neg]
        rintro ⟨-, -, rfl⟩
        omega
      rw [hother]
      exact h.behind f hf
    · intro f t ht hpast
      obtain ⟨hwait, hentry⟩ := h.stays f t ht hpast
      have hstill : (watch w s.event).1 f = some t := by
        rw [watch_event, if_neg, hwait]
        rintro ⟨-, hnone, rfl⟩
        rw [hwait] at hnone
        cases hnone
      refine ⟨hstill, ?_⟩
      rw [find?_sendto hne']
      split
      · rfl
      · exact hentry

theorem Walked.sendAll (h : Walked expiretime past start (flow.toNat + 1) c newmap w)
    (hne : expiretime ≠ 0) (hs : SendsAhead past start flow sends) :
    Walked expiretime past start (flow.toNat + 1) (c.sendAll sends) newmap
      (Run.final watch w (sends.map Send.event)) := by
  induction sends generalizing c w with
  | nil => exact h
  | cons s sends ih =>
      exact ih (h.sendto hne (hs s List.mem_cons_self)) fun s' hs' =>
        hs s' (List.mem_cons_of_mem _ hs')

/-- The loop ends with the flows that wait in `newmap`, none of them too long. -/
theorem Walked.walk {deadlineTime now : UInt32} {T : ℕ}
    (hpast : ∀ t : UInt32, t < deadlineTime ↔ PastDeadline T now.toNat t.toNat)
    (hne : expiretime ≠ 0)
    (hsends : ∀ flow, SendsAhead (· < deadlineTime) start flow (onTimeout flow))
    (turns : ℕ) (hturns : 2 ^ 32 ≤ k + turns) (hk : k ≤ 2 ^ 32)
    (h : Walked expiretime (· < deadlineTime) start k c newmap w) :
    let walked := ExpireCommu.walk deadlineTime now onTimeout turns k c newmap
    Run.Always watch (Allowed T) w walked.2.2 ∧
      Walked expiretime (· < deadlineTime) start (2 ^ 32) walked.1 walked.2.1
        (Run.final watch w walked.2.2) := by
  induction turns generalizing k c newmap w with
  | zero =>
      refine ⟨trivial, h.skip hk fun f hf _ => ?_⟩
      have hlt := f.toNat_lt
      omega
  | succ turns ih =>
      rw [ExpireCommu.walk]
      split
      next hnone =>
        exact ⟨trivial, h.skip hk fun f hf _ => StdMap.find?_of_next?_none hnone hf⟩
      next flow time hsome =>
        obtain ⟨hfind, hle, hgap⟩ := StdMap.next?_eq_some h.sorted hsome
        have hat := h.skip hle hgap
        have hw : w flow = some time := (hat.ahead flow le_rfl).1.symm.trans hfind
        have hlt := flow.toNat_lt
        split
        next hold =>
          obtain ⟨halways, hwalked⟩ := ih (by omega) (by omega)
            ((hat.expired hw hold).sendAll hne (hsends flow))
          dsimp only
          rw [List.cons_append, Run.always_cons, Run.final_cons, Run.always_append,
            Run.final_append]
          exact ⟨⟨⟨time, hw, (hpast time).mp hold⟩, always_sends T _ _, halways⟩, hwalked⟩
        next hyoung => exact ih (by omega) (by omega) (hat.kept hw hyoung)

end

theorem sendAll_lastchecktime (c : ExpireCommu) (sends : List Send) :
    (c.sendAll sends).lastchecktime = c.lastchecktime := by
  induction sends generalizing c with
  | nil => rfl
  | cons s sends ih => exact (ih (c.sendto s)).trans lastchecktime_sendto

/-- Nothing is looked at in a map without entries. -/
theorem walk_of_empty (hnone : ∀ f, c.expiremap.find? f = none) (deadlineTime now : UInt32)
    (turns k : ℕ) (newmap : StdMap UInt32 UInt32) :
    walk deadlineTime now onTimeout turns k c newmap = (c, newmap, []) := by
  cases turns with
  | zero => rfl
  | succ turns =>
      rw [walk]
      split
      next => rfl
      next flow time hsome =>
        have hmem := List.mem_of_find?_eq_some hsome
        have hfind := StdMap.find?_eq_some_iff.mpr hmem
        rw [hnone] at hfind
        cases hfind

/-- What is asked of a check, by the flows that wait at its start: the clock is not before
`expiretime_`, where one of them waits too long another one does not, and what a callback sends
goes to a later flow, or to one that waits and not too long. -/
structure ChecksInTime (expiretime now' : Int32) (w : Waits) (onTimeout : UInt32 → List Send) :
    Prop where
  le : expiretime.toUInt32 ≤ now'.toUInt32
  other : ∀ f t, w f = some t → PastDeadline expiretime.toUInt32.toNat now'.toUInt32.toNat t.toNat →
    ∃ f' t', w f' = some t' ∧
      ¬ PastDeadline expiretime.toUInt32.toNat now'.toUInt32.toNat t'.toNat
  ahead : ∀ f, ∀ s ∈ onTimeout f, s.ret = 0 → f < s.flow ∨ ∃ t, w s.flow = some t ∧
    ¬ PastDeadline expiretime.toUInt32.toNat now'.toUInt32.toNat t.toNat

/-- A check in time reports what it may, and leaves the flows that wait in the map. -/
theorem Watches.checkExpire (h : Watches expiretime c w) (hne : expiretime ≠ 0)
    (hcheck : now - c.lastchecktime > 60 → ChecksInTime expiretime now' w onTimeout) :
    let checked := c.checkExpire now now' onTimeout
    Run.Always watch (Allowed expiretime.toUInt32.toNat) w checked.2 ∧
      Watches expiretime checked.1 (Run.final watch w checked.2) := by
  rw [ExpireCommu.checkExpire]
  split
  next hdue =>
    obtain ⟨hle, hother, hahead⟩ := hcheck hdue
    have hpast := lt_deadline_iff hle
    have hsends : ∀ flow, SendsAhead (· < now'.toUInt32 - expiretime.toUInt32) w flow
        (onTimeout flow) := by
      intro flow s hs hret
      simpa only [hpast] using hahead flow s hs hret
    obtain ⟨halways, hwalked⟩ := Walked.walk hpast hne hsends (2 ^ 32) (by omega)
      (Nat.zero_le _) (.init h)
    have hempty : (∀ f, c.expiremap.find? f = none) →
        ExpireCommu.walk (now'.toUInt32 - expiretime.toUInt32) now'.toUInt32 onTimeout
          (2 ^ 32) 0 c .empty = (c, .empty, []) :=
      fun hnone => walk_of_empty hnone _ _ _ _ _
    rw [h.expiretime]
    dsimp only at halways hwalked ⊢
    generalize ExpireCommu.walk (now'.toUInt32 - expiretime.toUInt32) now'.toUInt32 onTimeout
      (2 ^ 32) 0 c .empty = walked at *
    obtain ⟨c', newmap, events⟩ := walked
    have hbehind := fun f => hwalked.behind f f.toNat_lt
    rw [Run.always_append, Run.final_append]
    refine ⟨⟨halways, ?_, trivial⟩, hwalked.expiretime, ?_, ?_⟩
    · intro f t ht
      rw [← hpast]
      exact (hbehind f).2 t ht
    · split
      · exact hwalked.sorted_newmap
      · exact hwalked.sorted
    · intro f
      dsimp only [Run.final_cons, Run.final_nil, watch]
      by_cases hnone : ∀ f, c.expiremap.find? f = none
      · have hsame := hempty hnone
        simp only [Prod.mk.injEq] at hsame
        obtain ⟨rfl, rfl, rfl⟩ := hsame
        rw [if_neg (by simp [StdMap.empty])]
        exact h.waits f
      · -- an entry that is not too old is kept
        have hkept : newmap.entries ≠ [] := by
          obtain ⟨g, hg⟩ := not_forall.mp hnone
          obtain ⟨t, ht⟩ := Option.ne_none_iff_exists'.mp hg
          rw [h.waits] at ht
          have hyoung : ∃ f' t', w f' = some t' ∧
              ¬ t' < now'.toUInt32 - expiretime.toUInt32 := by
            by_cases hold : t < now'.toUInt32 - expiretime.toUInt32
            · simpa only [hpast] using hother g t ht ((hpast t).mp hold)
            · exact ⟨g, t, ht, hold⟩
          obtain ⟨f', t', hf', hnot⟩ := hyoung
          have hstays := (hwalked.stays f' t' hf' hnot).1
          exact StdMap.entries_ne_nil_iff.mpr ⟨f', t', (hbehind f').1.trans hstays⟩
        rw [if_pos hkept]
        exact (hbehind f).1
  next => exact ⟨trivial, h⟩

/-! ### A poll -/

/-- The map holds the flows that wait, but for `flow`, which does not wait any more. -/
structure WatchesBut (expiretime : Int32) (flow : UInt32) (c : ExpireCommu) (w : Waits) :
    Prop where
  expiretime : c.expiretime = expiretime
  sorted : c.expiremap.Sorted
  waits : ∀ f, f ≠ flow → c.expiremap.find? f = w f
  answered : w flow = none

theorem WatchesBut.sendto {flow : UInt32} (h : WatchesBut expiretime flow c w)
    (hne : expiretime ≠ 0) (hs : s.ret = 0 → s.flow ≠ flow) :
    WatchesBut expiretime flow (c.sendto s) (watch w s.event).1 := by
  have hne' : c.expiretime ≠ 0 := h.expiretime ▸ hne
  constructor
  · rw [expiretime_sendto, h.expiretime]
  · exact sorted_sendto h.sorted s
  · intro f hf
    by_cases hret : s.ret = 0
    · exact find?_sendto_eq hne' (h.waits s.flow (hs hret)) (h.waits f hf)
    · rw [find?_sendto hne', watch_event, if_neg fun haccepted => hret haccepted.1,
        if_neg fun haccepted => hret haccepted.1, h.waits f hf]
  · rw [watch_event, if_neg, h.answered]
    rintro ⟨hret, -, heq⟩
    exact hs hret heq.symm

theorem WatchesBut.sendAll {flow : UInt32} (h : WatchesBut expiretime flow c w)
    (hne : expiretime ≠ 0) (hs : ∀ s ∈ sends, s.ret = 0 → s.flow ≠ flow) :
    WatchesBut expiretime flow (c.sendAll sends)
      (Run.final watch w (sends.map Send.event)) := by
  induction sends generalizing c w with
  | nil => exact h
  | cons s sends ih =>
      exact ih (h.sendto hne (hs s List.mem_cons_self)) fun s' hs' =>
        hs s' (List.mem_cons_of_mem _ hs')

/-- The flow of a message is taken out behind its callback. -/
theorem Watches.answer {a : Arrived} (h : Watches expiretime c w) (hne : expiretime ≠ 0)
    (hown : ∀ s ∈ a.sends, s.ret = 0 → s.flow ≠ a.flow) :
    Watches expiretime ((c.sendAll a.sends).forget a.flow) (Run.final watch w a.events) := by
  have hbut : WatchesBut expiretime a.flow c (watch w (.delivered a.flow (cbOf a.msgtype))).1 := by
    refine ⟨h.expiretime, h.sorted, fun f hf => ?_, Function.update_self _ _ _⟩
    exact (h.waits f).trans (Function.update_of_ne hf _ _).symm
  have hsent := hbut.sendAll hne hown
  refine ⟨hsent.expiretime, hsent.sorted.erase a.flow, fun f => ?_⟩
  rw [Arrived.events, Run.final_cons, forget, StdMap.find?_erase]
  split
  next hf => rw [hf, hsent.answered]
  next hf => exact hsent.waits f hf

theorem always_events {a : Arrived} (expiretime : ℕ) (w : Waits)
    (htype : a.msgtype ≠ extTypeTimeout) :
    Run.Always watch (Allowed expiretime) w a.events := by
  refine ⟨?_, always_sends _ _ _⟩
  intro hcb
  rw [cbOf] at hcb
  split_ifs at hcb

/-- No message is of a flow that waits. -/
def Fresh (w : Waits) : List Arrived → Prop
  | [] => True
  | a :: rest => w a.flow = none ∧ Fresh (Run.final watch w a.events) rest

/-- A poll that goes on until nothing is left takes no flow out, and needs to take none out. -/
theorem Watches.drain (h : Watches expiretime c w) (hne : expiretime ≠ 0)
    (hdrain : proxy ∧ ¬ block) (hresponses : ∀ a ∈ arrived, a.msgtype ≠ extTypeTimeout)
    (hfresh : Fresh w arrived) (err : ℤ) (flow : UInt32) :
    let polled := pollLoop proxy block err arrived flow c
    polled.2.1 = err ∧ polled.2.2.2 = arrived.flatMap Arrived.events ∧
      Run.Always watch (Allowed expiretime.toUInt32.toNat) w (arrived.flatMap Arrived.events) ∧
      Watches expiretime polled.1 (Run.final watch w (arrived.flatMap Arrived.events)) := by
  induction arrived generalizing c w flow with
  | nil => exact ⟨rfl, rfl, trivial, h⟩
  | cons a arrived ih =>
      have hsame : (watch w (.delivered a.flow (cbOf a.msgtype))).1 = w :=
        Function.update_eq_self_iff.mpr hfresh.1.symm
      have hsent : Watches expiretime (c.sendAll a.sends) (Run.final watch w a.events) := by
        rw [Arrived.events, Run.final_cons, hsame]
        exact h.sendAll hne a.sends
      obtain ⟨hret, hevents, halways, hwatches⟩ := ih hsent
        (fun a' ha' => hresponses a' (List.mem_cons_of_mem _ ha')) hfresh.2 a.flow
      have htype := hresponses a List.mem_cons_self
      rw [pollLoop, if_pos hdrain, List.flatMap_cons, Run.always_append, Run.final_append]
      exact ⟨hret, congrArg (a.events ++ ·) hevents, ⟨always_events _ _ htype, halways⟩, hwatches⟩

/-- The flows that wait when the messages of a poll have been taken. -/
def waitsAfter (w : Waits) (taken : List Arrived) : Waits :=
  Run.final watch w (taken.flatMap Arrived.events)

/-- The messages of a `poll` are responses.  One that polls until nothing is left takes none of a
flow that waits; in another the callback does not send to the flow of its message.  And a check
is in time. -/
def InTime (proxy : Bool) (c : ExpireCommu) : ExpireOp → Prop
  | .sendto _ => True
  | .poll block arrived _ now now' onTimeout =>
      (∀ a ∈ takenBy proxy block arrived, a.msgtype ≠ extTypeTimeout) ∧
      (if proxy ∧ ¬ block then Fresh c.expiremap.find? arrived
        else ∀ a ∈ arrived.take 1, ∀ s ∈ a.sends, s.ret = 0 → s.flow ≠ a.flow) ∧
      (now - c.lastchecktime > 60 → ChecksInTime c.expiretime now'
        (waitsAfter c.expiremap.find? (takenBy proxy block arrived)) onTimeout)

theorem lastchecktime_pollLoop (err : ℤ) (flow : UInt32) :
    (pollLoop proxy block err arrived flow c).1.lastchecktime = c.lastchecktime := by
  induction arrived generalizing c flow with
  | nil => rfl
  | cons a arrived ih =>
      rw [pollLoop]
      split
      · exact (ih a.flow).trans (sendAll_lastchecktime c a.sends)
      · exact sendAll_lastchecktime c a.sends

/-- `poll` before `check_expire`: the messages are delivered, and the flows that wait are in the
map. -/
theorem Watches.taken (h : Watches expiretime c w) (hne : expiretime ≠ 0) (herr : err ≠ 0)
    (hresponses : ∀ a ∈ takenBy proxy block arrived, a.msgtype ≠ extTypeTimeout)
    (hsends : if proxy ∧ ¬ block then Fresh w arrived
      else ∀ a ∈ arrived.take 1, ∀ s ∈ a.sends, s.ret = 0 → s.flow ≠ a.flow) :
    let polled := pollLoop proxy block err arrived 0 c
    polled.2.2.2 = (takenBy proxy block arrived).flatMap Arrived.events ∧
      Run.Always watch (Allowed expiretime.toUInt32.toNat) w polled.2.2.2 ∧
      Watches expiretime (if polled.2.1 = 0 then polled.1.forget polled.2.2.1 else polled.1)
        (waitsAfter w (takenBy proxy block arrived)) := by
  by_cases hdrain : proxy ∧ ¬ block
  · rw [if_pos hdrain] at hsends
    rw [takenBy, if_pos hdrain] at hresponses ⊢
    obtain ⟨hret, hevents, halways, hwatches⟩ := h.drain hne hdrain hresponses hsends err 0
    dsimp only at hret hevents ⊢
    rw [hret, if_neg herr, hevents]
    exact ⟨rfl, halways, hwatches⟩
  · rw [if_neg hdrain] at hsends
    rw [takenBy, if_neg hdrain] at hresponses ⊢
    cases arrived with
    | nil =>
        rw [pollLoop]
        dsimp only
        rw [if_neg herr]
        exact ⟨rfl, trivial, h⟩
    | cons a arrived =>
        have htype := hresponses a (by simp)
        have hwatches := h.answer hne (hsends a (by simp))
        rw [pollLoop, if_neg hdrain, List.take_succ_cons, List.take_zero, waitsAfter]
        simp only [List.flatMap_cons, List.flatMap_nil, List.append_nil, if_true]
        exact ⟨trivial, always_events _ _ htype, hwatches⟩

/-! ### Runs -/

/-- In a call in time happens what may happen, and the map holds the flows that wait. -/
theorem Watches.step (h : Watches expiretime c w) (hne : expiretime ≠ 0) (op : ExpireOp)
    (hop : InTime proxy c op) :
    Run.Always watch (Allowed expiretime.toUInt32.toNat) w (step proxy c op).2.2 ∧
      Watches expiretime (ExpireCommu.step proxy c op).1
        (Run.final watch w (ExpireCommu.step proxy c op).2.2) := by
  cases op with
  | sendto s => exact ⟨⟨trivial, trivial⟩, h.sendto hne s⟩
  | poll block arrived err now now' onTimeout =>
      obtain ⟨hresponses, hsends, hcheck⟩ := hop
      have hfind : c.expiremap.find? = w := funext h.waits
      rw [hfind] at hsends hcheck
      rw [h.expiretime] at hcheck
      obtain ⟨hevents, halways, hwatches⟩ := h.taken hne err.2 hresponses hsends
      have hlast : (pollLoop proxy block err.1 arrived 0 c).1.lastchecktime = c.lastchecktime :=
        lastchecktime_pollLoop err.1 0
      have hkept : (pollLoop proxy block err.1 arrived 0 c).1.expiretime = expiretime := by
        rw [← hwatches.expiretime]
        split <;> rfl
      rw [ExpireCommu.step, poll]
      dsimp only at hevents halways hwatches ⊢
      generalize pollLoop proxy block err.1 arrived 0 c = polled at *
      rw [if_pos (hkept ▸ hne), hevents]
      rw [hevents] at halways
      have hsame : (if polled.2.1 = 0 then polled.1.forget polled.2.2.1
          else polled.1).lastchecktime = c.lastchecktime := by
        rw [← hlast]
        split <;> rfl
      obtain ⟨hchecks, hleft⟩ := hwatches.checkExpire hne fun hdue => hcheck (hsame ▸ hdue)
      rw [Run.always_append, Run.final_append]
      exact ⟨⟨halways, hchecks⟩, hleft⟩

/-- What happens in a run. -/
def events (proxy : Bool) (c : ExpireCommu) (ops : List ExpireOp) : List ExpireEvent :=
  (Run.trace (step proxy) c ops).flatMap fun x => x.2.2

theorem Watches.run (h : Watches expiretime c w) (hne : expiretime ≠ 0) {ops : List ExpireOp}
    (hrun : Run.Always (ExpireCommu.step proxy) (InTime proxy) c ops) :
    Run.Always watch (Allowed expiretime.toUInt32.toNat) w (events proxy c ops) ∧
      Watches expiretime (Run.final (ExpireCommu.step proxy) c ops)
        (Run.final watch w (events proxy c ops)) := by
  induction ops generalizing c w with
  | nil => exact ⟨trivial, h⟩
  | cons op ops ih =>
      obtain ⟨hfirst, hnext⟩ := h.step hne op hrun.1
      obtain ⟨hrest, hlast⟩ := ih hnext hrun.2
      rw [events, Run.trace_cons, List.flatMap_cons, Run.always_append, Run.final_append]
      exact ⟨⟨hfirst, hrest⟩, hlast⟩

/-- `CB_TIMEOUT` is called for the flows that wait too long, once for each, and the map holds the
flows that wait, as long as each call is made in time. -/
theorem expire_run (proxy : Bool) (expiretime now : Int32) (hpos : 0 < expiretime)
    (ops : List ExpireOp)
    (hrun : Run.Always (step proxy) (InTime proxy) (init expiretime now) ops) :
    ReportedOnce (events proxy (init expiretime now) ops) ∧
      Run.Always watch (Allowed expiretime.toUInt32.toNat) (fun _ => none)
        (events proxy (init expiretime now) ops) ∧
      ∀ f, (Run.final (step proxy) (init expiretime now) ops).expiremap.find? f =
        Run.final watch (fun _ => none) (events proxy (init expiretime now) ops) f := by
  have hne : expiretime ≠ 0 := by
    rintro rfl
    exact absurd hpos (by decide)
  have hstart : Watches expiretime (init expiretime now) fun _ => none :=
    ⟨rfl, StdMap.sorted_empty, fun _ => rfl⟩
  obtain ⟨halways, hwatches⟩ := hstart.run hne hrun
  exact ⟨reportedOnce_of_always halways fun _ => rfl, halways, hwatches.waits⟩

/-- Flow 1 has no answer after ten seconds and is reported, and its callback sends to flow 3; flow
2, which has just been sent to, stays. -/
theorem expire_run_two :
    let ops : List ExpireOp := [.sendto ⟨1, 0, 100⟩, .sendto ⟨2, 0, 165⟩,
      .poll false [] ⟨commuErrMqEmpty, by decide⟩ 170 170
        fun f => if f = 1 then [⟨3, 0, 170⟩] else []]
    ReportedOnce (events false (init 10 100) ops) ∧
      Run.Always watch (Allowed 10) (fun _ => none) (events false (init 10 100) ops) ∧
      ∀ f, (Run.final (step false) (init 10 100) ops).expiremap.find? f =
        Run.final watch (fun _ => none) (events false (init 10 100) ops) f := by
  intro ops
  apply expire_run false 10 100 (by decide) ops
  refine ⟨trivial, trivial, ⟨nofun, nofun, fun _ => ⟨by decide, ?_, ?_⟩⟩, trivial⟩
  · intro f t _ _
    exact ⟨2, 165, by decide, by decide⟩
  · intro f s hs _
    by_cases hf : f = 1
    · rw [if_pos hf, List.mem_singleton] at hs
      exact .inl (by rw [hs, hf]; decide)
    · rw [if_neg hf] at hs
      cases hs

/-- A single flow that has no answer is reported twice. -/
theorem not_expire_once :
    ¬ ReportedOnce (events false (init 10 100)
      [.sendto ⟨1, 0, 100⟩, .poll false [] ⟨commuErrMqEmpty, by decide⟩ 170 170 fun _ => [],
        .poll false [] ⟨commuErrMqEmpty, by decide⟩ 240 240 fun _ => []]) := by
  intro h
  have hevents : events false (init 10 100)
      [.sendto ⟨1, 0, 100⟩, .poll false [] ⟨commuErrMqEmpty, by decide⟩ 170 170 fun _ => [],
        .poll false [] ⟨commuErrMqEmpty, by decide⟩ 240 240 fun _ => []] =
      [.sent 1 0 100] ++ .expired 1 170 ::
        ([.checked 170] ++ .expired 1 240 :: [.checked 240]) := by decide
  obtain ⟨z, hz, hopens⟩ := h.reopened _ _ _ _ _ 1 hevents (.inr rfl) rfl
  rw [List.mem_singleton.mp hz] at hopens
  exact hopens

end ExpireCommu

end Spp
