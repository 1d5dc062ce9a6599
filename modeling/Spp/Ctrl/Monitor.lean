import Spp.Ctrl.Effects
import Spp.Lib.MsgQueue

/-!
# The monitor and its processes

The controller and the processes that it watches share one message queue.  A process puts its
heartbeats there under type 1 and takes the orders that have its own id as their type; the
controller takes the heartbeats, and in a check it sends orders, and throws away those of a
process that it kills.  They all run at once: here a step is one call of `msgsnd` or `msgrcv`,
or what one of them does without the queue, and steps come in any order.

## Main definitions

* `MQMsg`, `heartbeat`, `doOrder` — the messages.
* `System`, `System.step` — the queue with the controller, and a step of the controller or of a
  process.
* `registry` — what a trace says that the controller knows.
* `Monitored` — every message is taken once and in order, by the one it is for.
-/

namespace Spp.Monitor

open MsgQueue

/-! ## Messages -/

def MSG_VERSION : ℕ := 1
def MSG_ID_SERVER : ℕ := 1
def MSG_SRC_SERVER : ℕ := 0
def MSG_SRC_CLIENT : ℕ := 1
def PROCMON_CMD_LOAD : ℕ := 2

/-- `TProcEvent`. -/
structure TProcEvent where
  groupid : ℕ
  procid : ℕ
  cmd : ℕ
  arg1 : UInt32
  arg2 : UInt32

/-- `msgcontent_`, which holds the one or the other by who sent it. -/
inductive MsgContent
  | info (procinfo : TProcInfo)
  | event (e : TProcEvent)

/-- `TProcMonMsg`, in the queue. -/
structure MQMsg where
  msgtype : ℕ
  srctype : ℕ
  content : MsgContent

/-- What `CTProcMonCli::run` sends. -/
def heartbeat (procinfo : TProcInfo) : MQMsg :=
  ⟨MSG_ID_SERVER, 2 * MSG_VERSION + MSG_SRC_CLIENT, .info procinfo⟩

/-- What `do_order` sends; its second argument is always 0. -/
def doOrder (groupid procid cmd : ℕ) (arg1 : UInt32) : MQMsg :=
  ⟨procid, 2 * MSG_VERSION + MSG_SRC_SERVER, .event ⟨groupid, procid, cmd, arg1, 0⟩⟩

/-- What `do_recv` does with a message; in one of its own it looks at nothing but the sender. -/
def handle (s : MonSrv) (m : MQMsg) (now : ℤ) : MonSrv :=
  match m.content with
  | .info procinfo => s.recvMsg ⟨m.srctype, procinfo, now⟩
  | .event _ => s

/-! ## Steps -/

/-- What the controller is doing: `do_recv(0)` of `set_commu`, nothing, `do_recv(MSG_ID_SERVER)`,
or `do_check`. -/
inductive Phase
  | any
  | idle
  | beats
  | check
  deriving DecidableEq

/-- The queue, the monitor with the check that it is in, and what is left to do of a turn of the
check. -/
structure System where
  mq : List MQMsg
  pass : Pass
  phase : Phase
  todo : List Effect

/-- A process sends a heartbeat or asks for an order, the controller goes one step on, or reads
its configuration again.  `accepted` is whether `msgsnd` finds room. -/
inductive Op
  | beat (procinfo : TProcInfo) (accepted : Bool)
  | listen (groupid procid : ℕ)
  | ctrl (a : PassAnswer) (accepted : Bool)
  | reload (groups : List TGroupInfo)

/-- What a step shows: a message is sent, the controller takes one, a process gets one, a turn of
the check decides on its effects, or one of them is done. -/
inductive Out
  | sent (m : MQMsg) (accepted : Bool)
  | took (m : MQMsg)
  | got (groupid procid : ℕ) (m : MQMsg)
  | found (es : List Effect)
  | did (e : Effect)
  | quiet

namespace System

/-- `CMQCommu::send`. -/
def send (m : System) (msg : MQMsg) (accepted : Bool) : System × Out :=
  ({ m with mq := if accepted then m.mq ++ [msg] else m.mq }, .sent msg accepted)

/-- A turn of the loop in `do_recv`. -/
def take (m : System) (t : ℕ) (now : ℤ) : Option (System × Out) :=
  (recv MQMsg.msgtype m.mq t).map fun taken =>
    ({ m with mq := taken.2, pass := { m.pass with srv := handle m.pass.srv taken.1 now } },
      .took taken.1)

/-- The next effect of a turn.  After a `kill` comes `do_recv(procid)`, until it finds nothing. -/
def act (m : System) (e : Effect) (es : List Effect) (now : ℤ) (accepted : Bool) : System × Out :=
  match e with
  | .order groupid procid _ arg =>
      send { m with todo := es } (doOrder groupid procid PROCMON_CMD_LOAD arg) accepted
  | .kill procid signo =>
      (m.take procid now).getD ({ m with todo := es }, .did (.kill procid signo))
  | e => ({ m with todo := es }, .did e)

/-- A step of the controller.  A turn of the check decides without what `do_recv` is to find
(`Inv.turn_of_found`). -/
def ctrl (m : System) (a : PassAnswer) (accepted : Bool) : System × Out :=
  match m.phase with
  | .any => (m.take 0 a.now).getD ({ m with phase := .idle }, .quiet)
  | .idle => ({ m with phase := .beats }, .quiet)
  | .beats => (m.take MSG_ID_SERVER a.now).getD
      ({ m with phase := .check, pass := .start m.pass.srv }, .quiet)
  | .check =>
      match m.todo with
      | e :: es => m.act e es a.now accepted
      | [] =>
          if m.pass.i ≥ m.pass.srv.curGroup then ({ m with phase := .idle }, .quiet)
          else
            let p := m.pass.step { a with drained := [] }
            let es := p.srv.effects.drop m.pass.srv.effects.length
            ({ m with pass := p, todo := es }, .found es)

def modGroups (s : MonSrv) (groups : List TGroupInfo) : MonSrv :=
  groups.foldl (fun s g => s.modGroup g.groupid g) s

/-- A step of the controller or of a process. -/
def step (m : System) : Op → System × Out
  | .beat procinfo accepted => m.send (heartbeat procinfo) accepted
  | .listen groupid procid =>
      match recv MQMsg.msgtype m.mq procid with
      | some (msg, mq) => ({ m with mq := mq }, .got groupid procid msg)
      | none => (m, .quiet)
  | .ctrl a accepted => m.ctrl a accepted
  | .reload groups =>
      if m.phase = .idle then
        ({ m with pass := { m.pass with srv := modGroups m.pass.srv groups }, phase := .any },
          .quiet)
      else (m, .quiet)

/-- The monitor with its groups, behind a queue in which older messages may be left. -/
def start (srv : MonSrv) (mq : List MQMsg) : System := ⟨mq, .start srv, .any, []⟩

end System

/-! ## What a step can be -/

/-- What a step does to the system, and what it shows. -/
inductive Changes (m : System) : Op → System → Out → Prop
  | beat (procinfo : TProcInfo) (accepted : Bool) :
      Changes m (.beat procinfo accepted)
        { m with mq := if accepted then m.mq ++ [heartbeat procinfo] else m.mq }
        (.sent (heartbeat procinfo) accepted)
  | order (a : PassAnswer) (accepted : Bool) {groupid procid event : ℕ} {arg : UInt32}
      {es : List Effect} (htodo : m.todo = .order groupid procid event arg :: es) :
      Changes m (.ctrl a accepted)
        { m with
          mq := if accepted then m.mq ++ [doOrder groupid procid PROCMON_CMD_LOAD arg] else m.mq
          todo := es }
        (.sent (doOrder groupid procid PROCMON_CMD_LOAD arg) accepted)
  | took (a : PassAnswer) (accepted : Bool) {t : ℕ} {msg : MQMsg} {mq : List MQMsg}
      (h : recv MQMsg.msgtype m.mq t = some (msg, mq)) :
      Changes m (.ctrl a accepted)
        { m with mq := mq, pass := { m.pass with srv := handle m.pass.srv msg a.now } }
        (.took msg)
  | got (groupid procid : ℕ) {msg : MQMsg} {mq : List MQMsg}
      (h : recv MQMsg.msgtype m.mq procid = some (msg, mq)) :
      Changes m (.listen groupid procid) { m with mq := mq } (.got groupid procid msg)
  | found (a : PassAnswer) (accepted : Bool) (hphase : m.phase = .check) (htodo : m.todo = [])
      {es : List Effect} (hes : es = (m.pass.step { a with drained := [] }).srv.effects.drop
        m.pass.srv.effects.length) :
      Changes m (.ctrl a accepted)
        { m with pass := m.pass.step { a with drained := [] }, todo := es } (.found es)
  | did (a : PassAnswer) (accepted : Bool) {e : Effect} {es : List Effect}
      (htodo : m.todo = e :: es) (horder : ∀ groupid procid event arg,
        e ≠ .order groupid procid event arg)
      (hkill : ∀ procid signo, e = .kill procid signo → ofType MQMsg.msgtype procid m.mq = []) :
      Changes m (.ctrl a accepted) { m with todo := es } (.did e)
  | rest (op : Op) {phase : Phase} (hphase : phase = m.phase ∨ phase ≠ .check) :
      Changes m op { m with phase := phase } .quiet
  | enter (op : Op) :
      Changes m op { m with phase := .check, pass := .start m.pass.srv } .quiet
  | reload (op : Op) (groups : List TGroupInfo) :
      Changes m op
        { m with
          pass := { m.pass with srv := System.modGroups m.pass.srv groups }, phase := .any } .quiet

theorem changes_take {m : System} {t : ℕ} {a : PassAnswer} {accepted : Bool} {m' : System}
    {out : Out} (h : recv MQMsg.msgtype m.mq t = none → Changes m (.ctrl a accepted) m' out) :
    Changes m (.ctrl a accepted) ((m.take t a.now).getD (m', out)).1
      ((m.take t a.now).getD (m', out)).2 := by
  rw [System.take]
  cases hrecv : recv MQMsg.msgtype m.mq t with
  | none => exact h hrecv
  | some taken => exact .took a accepted hrecv

theorem changes_act {m : System} {e : Effect} {es : List Effect} (htodo : m.todo = e :: es)
    (a : PassAnswer) (accepted : Bool) :
    Changes m (.ctrl a accepted) (m.act e es a.now accepted).1 (m.act e es a.now accepted).2 := by
  cases e with
  | order groupid procid event arg => exact .order a accepted htodo
  | kill procid signo =>
      refine changes_take fun hnone => .did a accepted htodo (fun _ _ _ _ h => by cases h) ?_
      rintro _ _ ⟨⟩
      exact recv_eq_none hnone
  | fork _ _ _ => exact .did a accepted htodo (fun _ _ _ _ h => by cases h) nofun
  | notify _ _ => exact .did a accepted htodo (fun _ _ _ _ h => by cases h) nofun
  | del _ _ => exact .did a accepted htodo (fun _ _ _ _ h => by cases h) nofun

theorem changes_ctrl (m : System) (a : PassAnswer) (accepted : Bool) :
    Changes m (.ctrl a accepted) (m.ctrl a accepted).1 (m.ctrl a accepted).2 := by
  rw [System.ctrl]
  split
  next => exact changes_take fun _ => .rest _ (.inr (by decide))
  next => exact .rest _ (.inr (by decide))
  next => exact changes_take fun _ => .enter _
  next hphase =>
    split
    next e es htodo => exact changes_act htodo a accepted
    next htodo =>
      split
      next => exact .rest _ (.inr (by decide))
      next => exact .found a accepted hphase htodo rfl

theorem changes_step (m : System) (op : Op) : Changes m op (m.step op).1 (m.step op).2 := by
  cases op with
  | beat procinfo accepted => exact .beat procinfo accepted
  | listen groupid procid =>
      rw [System.step]
      split
      next msg mq h => exact .got groupid procid h
      next => exact .rest _ (.inl rfl)
  | ctrl a accepted => exact changes_ctrl m a accepted
  | reload groups =>
      rw [System.step]
      split
      next => exact .reload _ groups
      next => exact .rest _ (.inl rfl)

/-! ## What a run shows -/

/-- The messages that found room. -/
def put : Op × Out → List MQMsg
  | (_, .sent msg true) => [msg]
  | _ => []

/-- The messages that were taken out, by the controller or by a process. -/
def taken : Op × Out → List MQMsg
  | (_, .took msg) => [msg]
  | (_, .got _ _ msg) => [msg]
  | _ => []

/-- The orders among some effects. -/
def orders (es : List Effect) : List MQMsg :=
  es.filterMap fun
    | .order groupid procid _ arg => some (doOrder groupid procid PROCMON_CMD_LOAD arg)
    | _ => none

/-- The orders that the check decided on. -/
def decided : Op × Out → List MQMsg
  | (_, .found es) => orders es
  | _ => []

/-- The messages that the controller tried to send. -/
def tried : Op × Out → List MQMsg
  | (.ctrl _ _, .sent msg _) => [msg]
  | _ => []

/-- What the controller of `n` groups learns from a step. -/
def learn (n : ℕ) (t : Table) : Op × Out → Table
  | (_, .took ⟨_, srctype, .info procinfo⟩) =>
      if srctype % 2 = MSG_SRC_CLIENT ∧ procinfo.groupid < n then t.put procinfo else t
  | (_, .found es) => t.remove es
  | _ => t

/-- Of every process, the last heartbeat that was taken since the process was taken out. -/
def registry (n : ℕ) (tr : List (Op × Out)) : Table := tr.foldl (learn n) fun _ _ => none

/-- The messages that the processes `procs` and their controller send. -/
def MQMsg.Fits (procs : ℕ → ℕ → Prop) (msg : MQMsg) : Prop :=
  (∃ procinfo, procs procinfo.groupid procinfo.procid ∧ msg = heartbeat procinfo) ∨
    ∃ groupid procid arg, procs groupid procid ∧
      msg = doOrder groupid procid PROCMON_CMD_LOAD arg

/-- A process speaks for itself and asks for its own orders. -/
def Op.Legal (procs : ℕ → ℕ → Prop) : Op → Prop
  | .beat procinfo _ => procs procinfo.groupid procinfo.procid
  | .listen groupid procid => procs groupid procid
  | _ => True

/-- What has happened to the messages, when the queue held `mq` at first. -/
structure Monitored (procs : ℕ → ℕ → Prop) (n : ℕ) (mq : List MQMsg) (tr : List (Op × Out))
    (m : System) : Prop where
  /-- Of every type, what was there or found room is what was taken or is in flight, in order. -/
  delivered : ∀ t, ofType MQMsg.msgtype t mq ++ ofType MQMsg.msgtype t (tr.flatMap put) =
    ofType MQMsg.msgtype t (tr.flatMap taken) ++ ofType MQMsg.msgtype t m.mq
  /-- A process gets nothing but orders that are for its id. -/
  heard : ∀ op groupid procid msg, (op, .got groupid procid msg) ∈ tr →
    ∃ groupid' arg, procs groupid' procid ∧ msg = doOrder groupid' procid PROCMON_CMD_LOAD arg
  /-- Where no id is used in two groups, they are for its group: what `run` asserts. -/
  asserted : (∀ groupid groupid' procid, procs groupid procid → procs groupid' procid →
      groupid = groupid') → ∀ op groupid procid msg, (op, .got groupid procid msg) ∈ tr →
    ∃ arg, msg = doOrder groupid procid PROCMON_CMD_LOAD arg
  /-- Every order that the check decides on is sent once, in this order; where `msgsnd` finds no
  room, it is gone. -/
  sentOnce : tr.flatMap decided = tr.flatMap tried ++ orders m.todo
  /-- The controller knows what it was told last. -/
  registered : m.pass.srv.table = registry n tr
  /-- When the controller is done with killing, no order for the process is in flight. -/
  cleared : ∀ tr₁ x tr₂ procid signo, tr = tr₁ ++ x :: tr₂ → x.2 = .did (.kill procid signo) →
    ofType MQMsg.msgtype procid mq ++ ofType MQMsg.msgtype procid (tr₁.flatMap put) =
      ofType MQMsg.msgtype procid (tr₁.flatMap taken)

/-! ## The invariant -/

variable {procs : ℕ → ℕ → Prop} {n : ℕ} {m m' : System} {op : Op} {out : Out} {msg : MQMsg}
  {mq : List MQMsg} {s : MonSrv}

/-- Who is in the table, in the queue or in what is left to do is one of the processes. -/
structure Inv (procs : ℕ → ℕ → Prop) (n : ℕ) (m : System) : Prop where
  curGroup : m.pass.srv.curGroup = n
  ok : m.pass.srv.Ok
  pass : m.phase = .check → m.pass.Inv
  mq : ∀ msg ∈ m.mq, msg.Fits procs
  table : ∀ groupid procid, (m.pass.srv.table groupid procid).isSome → procs groupid procid
  todo : ∀ groupid procid event arg, .order groupid procid event arg ∈ m.todo →
    procs groupid procid

theorem grows_handle (s : MonSrv) (msg : MQMsg) (now : ℤ) : MonSrv.Grows s (handle s msg now) := by
  rw [handle]
  split
  next procinfo _ => exact .doRecv s [⟨msg.srctype, procinfo, now⟩]
  next => exact .refl s

theorem table_handle (s : MonSrv) (op : Op) (msg : MQMsg) (now : ℤ) :
    (handle s msg now).table = learn s.curGroup s.table (op, .took msg) := by
  obtain ⟨msgtype, srctype, content⟩ := msg
  cases content with
  | info procinfo => exact MonSrv.table_recvMsg s ⟨srctype, procinfo, now⟩
  | event _ => rfl

theorem keeps_modGroups (hs : s.Ok) (groups : List TGroupInfo) :
    (System.modGroups s groups).Ok ∧ (System.modGroups s groups).curGroup = s.curGroup ∧
      (System.modGroups s groups).table = s.table := by
  rw [System.modGroups]
  induction groups generalizing s with
  | nil => exact ⟨hs, rfl, rfl⟩
  | cons g groups ih =>
      obtain ⟨hok, hcur, htable⟩ := ih (hs.modGroup g.groupid g)
      have hone : (s.modGroup g.groupid g).curGroup = s.curGroup ∧
          (s.modGroup g.groupid g).table = s.table := by
        rw [MonSrv.modGroup]
        split
        · exact ⟨rfl, MonSrv.table_setGroup_of_bucket rfl⟩
        · exact ⟨rfl, rfl⟩
      exact ⟨hok, hcur.trans hone.1, htable.trans hone.2⟩

/-- A process that is to be visited stays registered while nobody leaves. -/
theorem inv_of_grows {p : Pass} (hp : p.Inv) (h : MonSrv.Grows p.srv s) :
    ({ p with srv := s } : Pass).Inv where
  ok := h.ok hp.ok
  todo hchecked o ho := ⟨(hp.todo hchecked o ho).1, h.registered (hp.todo hchecked o ho).2⟩

/-- The effects of a turn are the last ones. -/
theorem exists_found (h : Inv procs n m) (hphase : m.phase = .check) (a : PassAnswer)
    {es : List Effect} (hes : es = (m.pass.step { a with drained := [] }).srv.effects.drop
      m.pass.srv.effects.length) :
    MonSrv.Acts m.pass.srv es (m.pass.step { a with drained := [] }).srv := by
  obtain ⟨es', hacts⟩ := Pass.acts_step (a := { a with drained := [] }) (h.pass hphase) rfl
  rw [hacts.effects, List.drop_left] at hes
  rwa [hes]

/-- What `do_recv` can find of a killed process is orders, so the turn of the check goes as if it
found nothing. -/
theorem Inv.turn_of_found (h : Inv procs n m) {a : PassAnswer}
    (ha : ∀ ms ∈ a.drained, ∀ found ∈ ms, ∃ msg ∈ m.mq,
      msg.msgtype ≠ MSG_ID_SERVER ∧ found.srctype = msg.srctype) :
    m.pass.step a = m.pass.step { a with drained := [] } := by
  refine Pass.step_of_server fun ms hms found hfound => ?_
  obtain ⟨msg, hmsg, htype, hsrc⟩ := ha ms hms found hfound
  rw [hsrc]
  rcases h.mq msg hmsg with ⟨procinfo, -, rfl⟩ | ⟨_, _, _, -, rfl⟩
  · exact absurd rfl htype
  · exact (by decide : (2 * MSG_VERSION + MSG_SRC_SERVER) % 2 ≠ 1)

/-- A message that is sent fits. -/
theorem fits_of_sent {sent : MQMsg} (hmq : ∀ msg ∈ mq, msg.Fits procs) (hsent : sent.Fits procs)
    (accepted : Bool) : ∀ msg ∈ if accepted then mq ++ [sent] else mq, msg.Fits procs := by
  intro msg hmsg
  cases accepted with
  | false => exact hmq msg hmsg
  | true =>
      rcases List.mem_append.mp hmsg with hmsg | hmsg
      · exact hmq msg hmsg
      · exact List.mem_singleton.mp hmsg ▸ hsent

theorem Inv.changes (h : Inv procs n m) (hop : op.Legal procs) (hc : Changes m op m' out) :
    Inv procs n m' := by
  cases hc with
  | beat procinfo accepted =>
      have hmq := fits_of_sent h.mq (.inl ⟨procinfo, hop, rfl⟩) accepted
      exact ⟨h.curGroup, h.ok, h.pass, hmq, h.table, h.todo⟩
  | @order a accepted groupid procid event arg es htodo =>
      have hfits := h.todo _ _ _ _ (htodo ▸ List.mem_cons_self)
      have hmq := fits_of_sent h.mq (.inr ⟨groupid, procid, arg, hfits, rfl⟩) accepted
      exact ⟨h.curGroup, h.ok, h.pass, hmq, h.table, fun groupid procid event arg he =>
        h.todo groupid procid event arg (htodo ▸ List.mem_cons_of_mem _ he)⟩
  | @took a accepted t msg mq hrecv =>
      obtain ⟨-, hmem, hsub, -⟩ := recv_spec hrecv
      have hgrows := grows_handle m.pass.srv msg a.now
      refine ⟨hgrows.curGroup.trans h.curGroup, hgrows.ok h.ok,
        fun hphase => inv_of_grows (h.pass hphase) hgrows, fun msg hmsg => h.mq msg (hsub hmsg),
        fun groupid procid hsome => ?_, h.todo⟩
      dsimp only at hsome
      rw [table_handle _ (.ctrl a accepted)] at hsome
      rcases h.mq msg hmem with ⟨procinfo, hproc, rfl⟩ | ⟨_, _, _, -, rfl⟩
      · rw [heartbeat, learn] at hsome
        split at hsome
        next =>
          rw [Table.put_apply] at hsome
          split at hsome
          next heq =>
            rw [heq.1, heq.2]
            exact hproc
          next => exact h.table groupid procid hsome
        next => exact h.table groupid procid hsome
      · exact h.table groupid procid hsome
  | got groupid procid hrecv =>
      obtain ⟨-, -, hsub, -⟩ := recv_spec hrecv
      exact ⟨h.curGroup, h.ok, h.pass, fun msg hmsg => h.mq msg (hsub hmsg), h.table, h.todo⟩
  | found a accepted hphase htodo hes =>
      have hacts := exists_found h hphase a hes
      refine ⟨hacts.curGroup.trans h.curGroup, hacts.ok, fun hphase => (h.pass hphase).step _, h.mq,
        fun groupid procid hsome => ?_, fun groupid procid event arg he => ?_⟩
      · dsimp only at hsome
        rw [hacts.table] at hsome
        exact h.table groupid procid (Table.isSome_of_remove hsome)
      · exact h.table groupid procid (hacts.orders _ he)
  | did a accepted htodo horder hkill =>
      exact ⟨h.curGroup, h.ok, h.pass, h.mq, h.table, fun groupid procid event arg he =>
        h.todo groupid procid event arg (htodo ▸ List.mem_cons_of_mem _ he)⟩
  | rest op hphase =>
      refine ⟨h.curGroup, h.ok, fun hcheck => ?_, h.mq, h.table, h.todo⟩
      rcases hphase with heq | hne
      · exact h.pass (heq ▸ hcheck)
      · exact absurd hcheck hne
  | enter op => exact ⟨h.curGroup, h.ok, fun _ => .start h.ok, h.mq, h.table, h.todo⟩
  | reload op groups =>
      obtain ⟨hok, hcur, htable⟩ := keeps_modGroups h.ok groups
      refine ⟨hcur.trans h.curGroup, hok, nofun, h.mq, ?_, h.todo⟩
      dsimp only
      rw [htable]
      exact h.table

/-! ## Steps -/

/-- What a step puts in and takes out. -/
theorem account (hc : Changes m op m' out) (t : ℕ) :
    ofType MQMsg.msgtype t m.mq ++ ofType MQMsg.msgtype t (put (op, out)) =
      ofType MQMsg.msgtype t (taken (op, out)) ++ ofType MQMsg.msgtype t m'.mq := by
  cases hc with
  | beat procinfo accepted => cases accepted <;> simp [put, taken]
  | order a accepted htodo => cases accepted <;> simp [put, taken]
  | took a accepted hrecv =>
      obtain ⟨-, -, -, hof⟩ := recv_spec hrecv
      simpa [put, taken] using hof t
  | got groupid procid hrecv =>
      obtain ⟨-, -, -, hof⟩ := recv_spec hrecv
      simpa [put, taken] using hof t
  | found a accepted hphase htodo hes => simp [put, taken]
  | did a accepted htodo horder hkill => simp [put, taken]
  | rest op hphase => simp [put, taken]
  | enter op => simp [put, taken]
  | reload op groups => simp [put, taken]

theorem table_changes (h : Inv procs n m) (hc : Changes m op m' out) :
    m'.pass.srv.table = learn n m.pass.srv.table (op, out) := by
  cases hc with
  | took a accepted hrecv => rw [← h.curGroup, ← table_handle]
  | found a accepted hphase htodo hes => exact (exists_found h hphase a hes).table
  | reload op groups => exact (keeps_modGroups h.ok groups).2.2
  | beat procinfo accepted => rfl
  | order a accepted htodo => rfl
  | got groupid procid hrecv => rfl
  | did a accepted htodo horder hkill => rfl
  | rest op hphase => rfl
  | enter op => rfl

theorem sentOnce_changes (hc : Changes m op m' out) :
    orders m.todo ++ decided (op, out) = tried (op, out) ++ orders m'.todo := by
  cases hc with
  | beat procinfo accepted => simp [decided, tried]
  | order a accepted htodo => simp [decided, tried, htodo, orders]
  | took a accepted hrecv => simp [decided, tried]
  | got groupid procid hrecv => simp [decided, tried]
  | found a accepted hphase htodo hes => simp [decided, tried, htodo, orders]
  | @did a accepted e es htodo horder hkill =>
      cases e with
      | order groupid procid event arg => exact absurd rfl (horder groupid procid event arg)
      | fork _ _ _ => simp [decided, tried, htodo, orders]
      | kill _ _ => simp [decided, tried, htodo, orders]
      | notify _ _ => simp [decided, tried, htodo, orders]
      | del _ _ => simp [decided, tried, htodo, orders]
  | rest op hphase => simp [decided, tried]
  | enter op => simp [decided, tried]
  | reload op groups => simp [decided, tried]

/-- What a process gets is an order for its id. -/
theorem heard_changes (hpid : ∀ groupid procid, procs groupid procid → 1 < procid)
    (h : Inv procs n m) (hop : op.Legal procs) {groupid procid : ℕ}
    (hc : Changes m op m' (.got groupid procid msg)) : procs groupid procid ∧
      ∃ groupid' arg, procs groupid' procid ∧
        msg = doOrder groupid' procid PROCMON_CMD_LOAD arg := by
  cases hc with
  | got _ _ hrecv =>
      have hproc : procs groupid procid := hop
      have hlt := hpid groupid procid hproc
      obtain ⟨htype, hmem, -, -⟩ := recv_spec hrecv
      refine ⟨hproc, ?_⟩
      rcases h.mq msg hmem with ⟨procinfo, -, rfl⟩ | ⟨groupid', procid', arg, hfits, rfl⟩
      · -- heartbeats are of type 1
        simp only [heartbeat, MSG_ID_SERVER] at htype
        omega
      · simp only [doOrder] at htype
        obtain rfl : procid' = procid := by omega
        exact ⟨groupid', arg, hfits, rfl⟩

theorem Monitored.step (hpid : ∀ groupid procid, procs groupid procid → 1 < procid)
    {tr : List (Op × Out)} (hm : Monitored procs n mq tr m) (h : Inv procs n m)
    (hop : op.Legal procs) (hc : Changes m op m' out) :
    Monitored procs n mq (tr ++ [(op, out)]) m' := by
  constructor
  · intro t
    simp only [List.flatMap_append, List.flatMap_singleton, ofType_append]
    rw [← List.append_assoc, hm.delivered, List.append_assoc, account hc, List.append_assoc]
  · intro op' groupid procid msg hmem
    rcases List.mem_append.mp hmem with hmem | hmem
    · exact hm.heard op' groupid procid msg hmem
    · obtain ⟨rfl, rfl⟩ := Prod.mk.injEq .. ▸ List.mem_singleton.mp hmem
      exact (heard_changes hpid h hop hc).2
  · intro hgroup op' groupid procid msg hmem
    rcases List.mem_append.mp hmem with hmem | hmem
    · exact hm.asserted hgroup op' groupid procid msg hmem
    · obtain ⟨rfl, rfl⟩ := Prod.mk.injEq .. ▸ List.mem_singleton.mp hmem
      obtain ⟨hproc, groupid', arg, hfits, hmsg⟩ := heard_changes hpid h hop hc
      exact ⟨arg, hgroup groupid' groupid procid hfits hproc ▸ hmsg⟩
  · simp only [List.flatMap_append, List.flatMap_singleton]
    rw [hm.sentOnce, List.append_assoc, sentOnce_changes hc, List.append_assoc]
  · rw [table_changes h hc, hm.registered, registry, registry, List.foldl_append]
    rfl
  · intro tr₁ x tr₂ procid signo hsplit hx
    rcases List.eq_nil_or_concat' tr₂ with rfl | ⟨tr₃, y, rfl⟩
    · obtain ⟨rfl, heq⟩ := List.append_inj' hsplit rfl
      obtain rfl : (op, out) = x := by simpa using heq
      dsimp only at hx
      subst hx
      cases hc with
      | did a accepted htodo horder hkill =>
          rw [hm.delivered, hkill procid signo rfl, List.append_nil]
    · rw [← List.cons_append, ← List.append_assoc] at hsplit
      obtain ⟨rfl, -⟩ := List.append_inj' hsplit rfl
      exact hm.cleared tr₁ x tr₃ procid signo rfl hx

/-- The monitor when its groups are set. -/
def withGroups (checkGroupInterval : UInt32) (notify : Bool) (group : TProcGroupObj)
    (groups : List TGroupInfo) : MonSrv :=
  groups.foldl MonSrv.addGroup (.new checkGroupInterval notify group)

/-- At first nobody is known. -/
theorem withGroups_spec (checkGroupInterval : UInt32) (notify : Bool) (group : TProcGroupObj)
    (groups : List TGroupInfo) : (withGroups checkGroupInterval notify group groups).Ok ∧
      (withGroups checkGroupInterval notify group groups).table = fun _ _ => none := by
  suffices h : ∀ s : MonSrv, s.Ok → (s.table = fun _ _ => none) →
      (groups.foldl MonSrv.addGroup s).Ok ∧
        (groups.foldl MonSrv.addGroup s).table = fun _ _ => none by
    refine h _ (fun i hi => absurd hi (Nat.not_lt_zero i)) ?_
    funext groupid procid
    exact MonSrv.table_of_ge (Nat.zero_le groupid)
  induction groups with
  | nil => exact fun s hok htable => ⟨hok, htable⟩
  | cons g groups ih =>
      intro s hok htable
      refine ih _ (hok.addGroup g) ?_
      funext groupid procid
      rw [MonSrv.addGroup]
      split
      next hassert =>
        by_cases hlt : groupid < s.curGroup + 1
        · rw [MonSrv.table_of_lt hlt]
          dsimp only
          by_cases hnew : groupid = s.curGroup
          · subst hnew
            simp [Buckets.find?]
          · rw [MonSrv.setGroup_of_ne s _ hnew, ← MonSrv.table_of_lt (by omega), htable]
        · exact MonSrv.table_of_ge (by dsimp only; omega)
      next => rw [htable]

/-- **In every run of the controller and its processes, with any interleaving of their steps, no
message that found room is lost, doubled or overtaken by one of its type, a process gets nothing
but orders for it, every order that a check decides on is tried once, and the controller knows of
every process what it was told last.**  The processes' ids are above 1, which is the type of the
heartbeats; older messages of theirs may be left in the queue. -/
theorem monitored_run (checkGroupInterval : UInt32) (notify : Bool) (group : TProcGroupObj)
    (groups : List TGroupInfo) (procs : ℕ → ℕ → Prop)
    (hpid : ∀ groupid procid, procs groupid procid → 1 < procid) (mq : List MQMsg)
    (hmq : ∀ msg ∈ mq, msg.Fits procs) (ops : List Op)
    (hrun : Run.Always System.step (fun _ op => op.Legal procs)
      (.start (withGroups checkGroupInterval notify group groups) mq) ops) :
    Monitored procs (withGroups checkGroupInterval notify group groups).curGroup mq
      (Run.trace System.step (.start (withGroups checkGroupInterval notify group groups) mq) ops)
      (Run.final System.step (.start (withGroups checkGroupInterval notify group groups) mq)
        ops) := by
  obtain ⟨hok, htable⟩ := withGroups_spec checkGroupInterval notify group groups
  generalize withGroups checkGroupInterval notify group groups = s at *
  have hinv : Inv procs s.curGroup (.start s mq) := by
    refine ⟨rfl, hok, nofun, hmq, fun groupid procid hsome => ?_, nofun⟩
    have hnone : (System.start s mq).pass.srv.table groupid procid = none :=
      congrFun (congrFun htable groupid) procid
    rw [hnone] at hsome
    cases hsome
  have hstart : Monitored procs s.curGroup mq [] (.start s mq) := by
    refine ⟨by simp [System.start], nofun, fun _ => nofun, rfl, htable, ?_⟩
    intro tr₁ x tr₂ _ _ hsplit
    simp at hsplit
  have hall := Run.trace_invariant
    (R := fun tr m => Inv procs s.curGroup m ∧ Monitored procs s.curGroup mq tr m)
    (fun tr m op hm hop => ⟨hm.1.changes hop (changes_step m op),
      hm.2.step hpid hm.1 hop (changes_step m op)⟩) ⟨hinv, hstart⟩ hrun
  exact hall.2

/-- A group of one process. -/
def loneGroup : TGroupInfo where
  groupid := 0
  adjustProcTime := 0
  exitsignal := 9
  maxprocnum := 1
  minprocnum := 1
  heartbeat := 60
  maxwatermark := 5
  minsrate := 0
  maxdelay := 0
  maxmemused := 0
  le := UInt32.le_refl 1

/-- The process is above its watermark. -/
def loneInfo : TProcInfo := ⟨0, 10, 100, 9, 0, 0, 0, by decide⟩

/-- The controller starts, hears of the process, checks it, and the process gets its order. -/
def loneRun : List Op :=
  let turn : Op := .ctrl ⟨100, 100, 100, false, []⟩ true
  [turn, .beat loneInfo true, turn, turn, turn, turn, turn, turn, .listen 0 10]

def lone : System :=
  .start (withGroups 180 false ⟨loneGroup, fun _ => [], 0, 0, 0⟩ [loneGroup]) []

theorem monitored_run_lone :
    Monitored (fun groupid procid => groupid = 0 ∧ procid = 10) 1 []
        (Run.trace System.step lone loneRun) (Run.final System.step lone loneRun) ∧
      (Run.trace System.step lone loneRun).flatMap taken =
        [heartbeat loneInfo, doOrder 0 10 PROCMON_CMD_LOAD 5] := by
  refine ⟨monitored_run 180 false ⟨loneGroup, fun _ => [], 0, 0, 0⟩ [loneGroup] _ ?_ [] nofun
    loneRun ?_, rfl⟩
  · rintro groupid procid ⟨-, rfl⟩
    decide
  · exact ⟨trivial, ⟨rfl, rfl⟩, trivial, trivial, trivial, trivial, trivial, trivial,
      ⟨rfl, rfl⟩, trivial⟩

end Spp.Monitor
