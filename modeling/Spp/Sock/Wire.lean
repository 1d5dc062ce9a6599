import Spp.Sock.ConnSet

/-!
# What a connection sends

Over any run of calls on the connection set, the bytes that the kernel took from a live
connection, followed by its write cache, are the write cache it began with followed by
the data of all its `send` calls, until a call asks for the connection to be closed.

## Main definitions

* `ConnOp.sentOn`, `wireOn` — the bytes given to a flow and taken from it.
* `StaysOpen` — a call that lets the connection live on.
-/

namespace Spp

/-- The data that a call sends on the flow. -/
def ConnOp.sentOn (f : ℕ) : ConnOp → List UInt8
  | .send flow data _ _ _ _ => if flow = f then data.1 else []
  | _ => []

/-- The bytes that the kernel took on the flow. -/
def wireOn (f : ℕ) (call : ConnOp × ConnOut) : List UInt8 :=
  if call.1.flow = f then call.2.wire else []

namespace ConnSet

/-- The call does not close the flow, does not ask for it to be closed and does not throw. -/
def StaysOpen (f : ℕ) (s : ConnSet) (op : ConnOp) : Prop :=
  op.flow = f → match op with
    | .send .. | .sendfromcache .. =>
        (s.exec op).2.ret ≠ none ∧ (s.exec op).2.ret ≠ some (-eNeedClose)
    | .closeconn _ => False
    | _ => True

/-- What the connection is, and the balance of its bytes over a call. -/
structure Carries (f : ℕ) (s s' : ConnSet) (sent wire : List UInt8) : Prop where
  live : s'.Live f
  same : (s.getcc f).Same (s'.getcc f)
  bytes : wire ++ (s'.getcc f).w.content = (s.getcc f).w.content ++ sent

variable {f : ℕ} {s s' : ConnSet} {sent wire : List UInt8}

theorem Carries.refl (h : s.Live f) : Carries f s s [] [] := ⟨h, ⟨rfl, rfl, rfl⟩, by simp⟩

/-- A call that leaves the entry of the flow alone. -/
theorem Carries.of_getcc_eq (h : s.Live f) (heq : s'.getcc f = s.getcc f) :
    Carries f s s' [] [] := by
  refine ⟨?_, by rw [heq]; exact ⟨rfl, rfl, rfl⟩, by simp [heq]⟩
  rw [Live, heq]
  exact h

/-- A call that finds its entry and keeps the connection. -/
theorem Carries.on {act : ConnCache → ConnResult} (h : s.Live f)
    (hsame : (s.getcc f).Same (act (s.getcc f)).cc)
    (hbytes : (act (s.getcc f)).wire ++ (act (s.getcc f)).cc.w.content =
      (s.getcc f).w.content ++ sent) :
    Carries f s (s.on f act).1 sent (s.on f act).2.wire := by
  rw [on_of_live h]
  refine ⟨?_, ?_, ?_⟩
  · rw [Live, getcc_setcc, hsame.flow]
    exact h
  · rw [getcc_setcc]
    exact hsame
  · rw [getcc_setcc]
    exact hbytes

/-- A call for another flow. -/
theorem Carries.on_of_ne {g : ℕ} (h : s.Live f) (hg : g ≠ f) (act : ConnCache → ConnResult) :
    Carries f s (s.on g act).1 [] [] := by
  by_cases hlive : s.Live g
  · rw [on_of_live hlive]
    refine .of_getcc_eq h (getcc_setcc_of_ne (h.slot_ne ?_))
    rw [hlive.1]
    exact hg
  · rw [on_of_not_live hlive]
    exact .refl h

theorem wireOn_nil {op : ConnOp} {out : ConnOut} (h : out.wire = []) : wireOn f (op, out) = [] := by
  rw [wireOn, h]
  exact ite_self _

/-- A new connection takes a free slot, and nothing is sent. -/
theorem Live.addconn (h : s.Live f) (flow fd type : ℕ) (now : ℤ) :
    Carries f s (s.addconn flow fd type now).1 [] [] ∧
      (s.addconn flow fd type now).2.wire = [] := by
  obtain ⟨g, -, hfail | ⟨hstore, hfree⟩⟩ := addconn_spec s flow fd type now
  · rw [hfail]
    exact ⟨.refl h, rfl⟩
  · rw [hstore]
    have hslot : f % s.maxconn ≠ g % s.maxconn := by
      refine h.slot_ne ?_
      rw [hfree]
      exact h.2.symm
    exact ⟨.of_getcc_eq h (getcc_setcc_of_ne hslot), rfl⟩

/-- The read bytes of the slot are skipped, whoever has it. -/
theorem Live.skipRead (h : s.Live f) (flow length : ℕ) :
    Carries f s (s.skipRead flow length) [] [] := by
  by_cases hslot : f % s.maxconn = flow % s.maxconn
  · have hsame : s.getcc flow = s.getcc f := (congrArg s.ccs hslot).symm
    have hnew : (s.skipRead flow length).getcc f =
        { s.getcc f with r := (s.getcc f).r.skip length } := by
      rw [ConnSet.skipRead, hsame]
      exact getcc_setcc_of_eq hslot
    refine ⟨?_, ?_, by simp [hnew]⟩
    · rw [Live, hnew]
      exact h
    · rw [hnew]
      exact ⟨rfl, rfl, rfl⟩
  · exact .of_getcc_eq h (getcc_setcc_of_ne hslot)

/-- One call. -/
theorem Live.exec (h : s.Live f) (op : ConnOp) (hopen : StaysOpen f s op) :
    Carries f s (s.exec op).1 (op.sentOn f) (wireOn f (op, (s.exec op).2)) := by
  cases op with
  | addconn flow fd type now =>
      obtain ⟨hcarries, hnone⟩ := h.addconn flow fd type now
      have hwire : wireOn f (.addconn flow fd type now, (s.addconn flow fd type now).2) = [] :=
        wireOn_nil hnone
      rw [ConnSet.exec, hwire]
      exact hcarries
  | recv flow k alloc now =>
      by_cases hf : flow = f
      · subst hf
        have hspec := ConnCache.recv_spec (s.getcc flow) k alloc now
        rw [wireOn, if_pos (by rfl)]
        refine .on h (.of_eq hspec.same) ?_
        rw [hspec.wire, hspec.same]
        exact (List.append_nil _).symm
      · rw [wireOn, if_neg (by exact hf)]
        exact .on_of_ne h hf _
  | send flow data k k' alloc now =>
      by_cases hf : flow = f
      · subst hf
        have hspec := ConnCache.send_spec (s.getcc flow) data k k' alloc now
        have hret : (s.exec (.send flow data k k' alloc now)).2.ret =
            ((s.getcc flow).send data k k' alloc now).ret := by
          rw [ConnSet.exec, ConnSet.send, on_of_live h]
        obtain ⟨hno, hkeep⟩ := hopen rfl
        rw [hret] at hno hkeep
        rw [wireOn, if_pos (by rfl), ConnOp.sentOn, if_pos rfl]
        refine .on h (.of_eq hspec.same) ?_
        rcases hspec.ret with hthrow | hclose | ⟨n, -, -, hbytes, -⟩
        · exact absurd hthrow hno
        · exact absurd hclose hkeep
        · exact hbytes
      · rw [wireOn, if_neg (by exact hf), ConnOp.sentOn, if_neg hf]
        exact .on_of_ne h hf _
  | sendfromcache flow k now =>
      by_cases hf : flow = f
      · subst hf
        have hspec := ConnCache.sendfromcache_spec (s.getcc flow) k now
        rw [wireOn, if_pos (by rfl)]
        refine .on h (.of_eq hspec.same) ?_
        exact hspec.wire.trans (List.append_nil _).symm
      · rw [wireOn, if_neg (by exact hf)]
        exact .on_of_ne h hf _
  | closeconn flow =>
      have hf : flow ≠ f := fun hf => hopen hf
      rw [wireOn, if_neg (by exact hf)]
      by_cases hlive : s.Live flow
      · rw [ConnSet.exec, closeconn_of_live hlive]
        have hslot : f % s.maxconn ≠ flow % s.maxconn := by
          refine h.slot_ne ?_
          rw [hlive.1]
          exact hf
        exact .of_getcc_eq h (getcc_setcc_of_ne hslot)
      · rw [ConnSet.exec, closeconn_of_not_live hlive]
        exact .refl h
  | skipRead flow length =>
      rw [wireOn_nil rfl]
      exact h.skipRead flow length

/-- Over a run of calls that let a live connection live on, the bytes that the kernel
took, followed by the write cache, are the write cache from before followed by the data
of all `send` calls.  The connection keeps its flow, descriptor and type. -/
theorem send_preserves_stream (s : ConnSet) (f : ℕ) (ops : List ConnOp) (hlive : s.Live f)
    (hopen : Run.Always exec (StaysOpen f) s ops) :
    Carries f s (Run.final exec s ops) (ops.flatMap (ConnOp.sentOn f))
      ((Run.trace exec s ops).flatMap (wireOn f)) := by
  induction ops generalizing s with
  | nil => exact .refl hlive
  | cons op ops ih =>
      have hfirst := hlive.exec op hopen.1
      have hrest := ih (s.exec op).1 hfirst.live hopen.2
      refine ⟨hrest.live, hfirst.same.trans hrest.same, ?_⟩
      rw [Run.trace_cons, List.flatMap_cons, List.flatMap_cons, List.append_assoc]
      calc wireOn f (op, (s.exec op).2) ++ ((Run.trace exec (s.exec op).1 ops).flatMap (wireOn f) ++
              ((Run.final exec s (op :: ops)).getcc f).w.content)
          = wireOn f (op, (s.exec op).2) ++
              (((s.exec op).1.getcc f).w.content ++ ops.flatMap (ConnOp.sentOn f)) := by
            rw [Run.final_cons, hrest.bytes]
        _ = (s.getcc f).w.content ++ (op.sentOn f ++ ops.flatMap (ConnOp.sentOn f)) := by
            rw [← List.append_assoc, hfirst.bytes, List.append_assoc]

/-- Two bytes, of which the kernel takes one at once and one from the cache. -/
theorem send_preserves_stream_partial :
    Carries 7 ((new 4 (by decide) (by decide)).store 7 5 1 0).1
      (Run.final exec ((new 4 (by decide) (by decide)).store 7 5 1 0).1
        [.send 7 ⟨[1, 2], by decide⟩ (.sent 0) (.sent 1) .exact 0, .sendfromcache 7 (.sent 9) 0])
      [1, 2] [1, 2] := by
  have hwire : (Run.trace exec ((new 4 (by decide) (by decide)).store 7 5 1 0).1
      [.send 7 ⟨[1, 2], by decide⟩ (.sent 0) (.sent 1) .exact 0,
        .sendfromcache 7 (.sent 9) 0]).flatMap (wireOn 7) = [1, 2] := by decide
  have hstream := send_preserves_stream ((new 4 (by decide) (by decide)).store 7 5 1 0).1 7
    [.send 7 ⟨[1, 2], by decide⟩ (.sent 0) (.sent 1) .exact 0, .sendfromcache 7 (.sent 9) 0]
    ⟨rfl, by decide⟩ ⟨fun _ => by decide, fun _ => by decide, trivial⟩
  rw [hwire] at hstream
  exact hstream

end ConnSet
end Spp
