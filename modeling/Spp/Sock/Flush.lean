import Spp.Sock.ConnSet

/-!
# Two ways to flush

`send` and `sendfromcache` both hand the bytes of the write cache to the kernel, and each
sorts the kernel's errors on its own: `send` keeps a connection whose flush was interrupted
or is in progress, and `sendfromcache` asks for it to be closed.

## Main definitions

* `KSend.Interrupted` — `EINTR` or `EINPROGRESS`.
* `FlushAgrees` — the two flushes decide and remove alike.
-/

namespace Spp

/-- The kernel's answer is `EINTR` or `EINPROGRESS`. -/
def KSend.Interrupted : KSend → Prop
  | .sent _ => False
  | .fail errno => (errno : ℤ) = eintr ∨ (errno : ℤ) = einprogress

/-- The bytes that the kernel accepts from the front of a buffer. -/
def KSend.accepted (k : KSend) (buf : List UInt8) : ℕ := (k.answer buf).2

theorem KSend.interrupted_iff (k : KSend) (buf : List UInt8) :
    k.Interrupted ↔ (k.answer buf).1 = -eintr ∨ (k.answer buf).1 = -einprogress := by
  cases k with
  | sent n => simp [Interrupted, answer, eintr, einprogress]
  | fail errno =>
      simp only [Interrupted, answer, errorCode, eintr, einprogress]
      split <;> omega

namespace ConnCache

variable {cc : ConnCache} {k : KSend} {now : ℤ}

/-! ## The decision -/

/-- New data that the kernel takes is no reason to close. -/
theorem sendData_sent (data : Payload) (alloc : Alloc) (wire : List UInt8) (n : ℕ) :
    (cc.sendData data (.sent n) alloc wire).ret ≠ some (-eNeedClose) := by
  unfold sendData
  dsimp only [KSend.answer]
  rw [if_neg (by omega)]
  split
  · split
    · simp
    · simp only [ne_eq, Option.some.injEq, eNeedClose]
      omega
  · simp only [ne_eq, Option.some.injEq, eNeedClose]
    omega

/-- The flush of `send` closes the connection, whatever the kernel answers for the new data,
on errors that it does not know to be transient. -/
theorem send_close_iff (data : Payload) (alloc : Alloc) :
    (∀ k', (cc.send data k k' alloc now).ret = some (-eNeedClose)) ↔
      cc.w.content ≠ [] ∧ (k.answer cc.w.content).1 < 0 ∧ (k.answer cc.w.content).1 ≠ -eagain ∧
        (k.answer cc.w.content).1 ≠ -einprogress ∧ (k.answer cc.w.content).1 ≠ -eintr := by
  rw [ne_eq, ← RawCache.dataLen_eq_zero_iff]
  unfold send
  dsimp only
  by_cases hpending : cc.w.dataLen ≠ 0
  · simp only [if_pos hpending]
    by_cases hpart : (k.answer cc.w.content).1 = -eagain ∨
        (k.answer cc.w.content).1 = -einprogress ∨ (k.answer cc.w.content).1 = -eintr ∨
        ((k.answer cc.w.content).1 = 0 ∧ (k.answer cc.w.content).2 < cc.w.dataLen)
    · simp only [if_pos hpart]
      refine iff_of_false (fun hclose => ?_) fun hfail => by omega
      have hret := hclose (.sent 0)
      split at hret <;> simp [eNeedClose] at hret
    · simp only [if_neg hpart]
      by_cases hneg : (k.answer cc.w.content).1 < 0
      · simp only [if_pos hneg]
        exact iff_of_true (by simp) ⟨hpending, hneg, by omega, by omega, by omega⟩
      · simp only [if_neg hneg]
        exact iff_of_false (fun hclose => sendData_sent data alloc _ 0 (hclose (.sent 0)))
          fun hfail => hneg hfail.2.1
  · simp only [if_neg hpending]
    exact iff_of_false (fun hclose => sendData_sent data alloc _ 0 (hclose (.sent 0)))
      fun hfail => hpending hfail.1

/-- The flush of `sendfromcache` closes it on any error but `EAGAIN`. -/
theorem sendfromcache_close_iff :
    (cc.sendfromcache k now).ret = some (-eNeedClose) ↔
      cc.w.content ≠ [] ∧ (k.answer cc.w.content).1 < 0 ∧ (k.answer cc.w.content).1 ≠ -eagain := by
  obtain ⟨-, hcode⟩ := answer_spec k cc.w.content
  rw [ne_eq, ← RawCache.dataLen_eq_zero_iff]
  unfold sendfromcache
  dsimp only
  by_cases hpending : cc.w.dataLen = 0
  · rw [if_pos hpending]
    exact iff_of_false (by simp [eNeedClose]) fun hfail => hfail.1 hpending
  · rw [if_neg hpending]
    by_cases hzero : (k.answer cc.w.content).1 = 0
    · rw [if_pos hzero]
      refine iff_of_false ?_ fun hfail => by omega
      split
      · simp [cNeedSend, eNeedClose]
      · split <;> simp only [Option.some.injEq, eNeedClose] <;> omega
    · rw [if_neg hzero]
      by_cases hagain : (k.answer cc.w.content).1 = -eagain
      · rw [if_pos hagain]
        exact iff_of_false (by simp [cNeedSend, eNeedClose]) fun hfail => hfail.2.2 hagain
      · rw [if_neg hagain]
        exact iff_of_true rfl ⟨hpending, by omega, hagain⟩

/-! ## The bytes -/

/-- `sendfromcache` removes what the kernel accepted. -/
theorem sendfromcache_content :
    (cc.sendfromcache k now).cc.w.content =
      cc.w.content.drop (k.accepted cc.w.content) := by
  obtain ⟨-, hcode⟩ := answer_spec k cc.w.content
  unfold sendfromcache KSend.accepted
  dsimp only
  by_cases hpending : cc.w.dataLen = 0
  · rw [if_pos hpending, RawCache.dataLen_eq_zero_iff.mp hpending, List.drop_nil]
  · rw [if_neg hpending]
    by_cases hzero : (k.answer cc.w.content).1 = 0
    · rw [if_pos hzero]
      by_cases hnone : (k.answer cc.w.content).2 = 0
      · rw [if_pos hnone, hnone, List.drop_zero]
      · rw [if_neg hnone]
        split <;> exact RawCache.content_skip _ _
    · -- nothing is accepted on an error
      rw [if_neg hzero, (hcode.resolve_right hzero).2, List.drop_zero]
      split <;> rfl

/-- What is left of the new data is its end. -/
theorem sendData_content (cc : ConnCache) (data : Payload) (k : KSend) (alloc : Alloc)
    (wire : List UInt8) :
    (cc.sendData data k alloc wire).cc.w.content <:+ data.1 := by
  have hempty := RawCache.content_skip_all cc.w
  unfold sendData
  dsimp only
  split
  · rw [hempty]
    exact List.nil_suffix
  · split
    · split
      · rw [hempty]
        exact List.nil_suffix
      · next w hw =>
        have hcontent := RawCache.content_append hw
        rw [hempty, List.nil_append] at hcontent
        rw [hcontent]
        exact List.drop_suffix _ _
    · rw [hempty]
      exact List.nil_suffix

/-- `send` removes what the kernel accepted, and then appends what is left of the new data. -/
theorem send_content (data : Payload) (k' : KSend) (alloc : Alloc) :
    ∃ rest, rest <:+ data.1 ∧ (cc.send data k k' alloc now).cc.w.content =
      cc.w.content.drop (k.accepted cc.w.content) ++ rest := by
  obtain ⟨hle, hcode⟩ := answer_spec k cc.w.content
  unfold send KSend.accepted
  dsimp only
  by_cases hpending : cc.w.dataLen ≠ 0
  · rw [if_pos hpending]
    by_cases hpart : (k.answer cc.w.content).1 = -eagain ∨
        (k.answer cc.w.content).1 = -einprogress ∨ (k.answer cc.w.content).1 = -eintr ∨
        ((k.answer cc.w.content).1 = 0 ∧ (k.answer cc.w.content).2 < cc.w.dataLen)
    · rw [if_pos hpart]
      split
      · exact ⟨[], List.nil_suffix, by rw [List.append_nil]; exact RawCache.content_skip _ _⟩
      · next w hw =>
        have hcontent := RawCache.content_append hw
        rw [RawCache.content_skip] at hcontent
        exact ⟨data.1, List.suffix_refl _, hcontent⟩
    · rw [if_neg hpart]
      by_cases hneg : (k.answer cc.w.content).1 < 0
      · rw [if_pos hneg]
        have hnone : (k.answer cc.w.content).2 = 0 := by
          rcases hcode with ⟨-, hnone⟩ | hzero <;> omega
        exact ⟨[], List.nil_suffix, by rw [hnone, List.drop_zero, List.append_nil]⟩
      · -- the kernel has taken everything
        have hall : cc.w.content.length ≤ (k.answer cc.w.content).2 := by
          rw [RawCache.length_content]
          rcases hcode with ⟨hlt, -⟩ | hzero <;> omega
        rw [if_neg hneg]
        rw [List.drop_eq_nil_of_le hall]
        exact ⟨_, sendData_content _ data k' alloc _, (List.nil_append _).symm⟩
  · rw [if_neg hpending]
    refine ⟨_, sendData_content { cc with access := now } data k' alloc [], ?_⟩
    rw [RawCache.dataLen_eq_zero_iff.mp (not_not.mp hpending), List.drop_nil, List.nil_append]

end ConnCache

namespace ConnSet

open ConnCache

/-- The flushes of `send`, called with new data, and of `sendfromcache` make the same decision
to close, and both remove exactly the accepted bytes from the front of the pending ones. -/
structure FlushAgrees (s : ConnSet) (flow : ℕ) (data : Payload) (k : KSend) (alloc : Alloc)
    (now : ℤ) : Prop where
  decision : (∀ k', (s.send flow data k k' alloc now).2.ret = some (-eNeedClose)) ↔
    (s.sendfromcache flow k now).2.ret = some (-eNeedClose)
  flushed : s.Live flow → ((s.sendfromcache flow k now).1.getcc flow).w.content =
    (s.getcc flow).w.content.drop (k.accepted (s.getcc flow).w.content)
  sent : s.Live flow → ∀ k', ∃ rest, rest <:+ data.1 ∧
    ((s.send flow data k k' alloc now).1.getcc flow).w.content =
      (s.getcc flow).w.content.drop (k.accepted (s.getcc flow).w.content) ++ rest

/-- The two flushes agree if and only if the flow is not live, no byte is pending, or the
kernel's answer is neither `EINTR` nor `EINPROGRESS`. -/
theorem flushAgrees_iff (s : ConnSet) (flow : ℕ) (data : Payload) (k : KSend) (alloc : Alloc)
    (now : ℤ) :
    FlushAgrees s flow data k alloc now ↔
      ¬ s.Live flow ∨ (s.getcc flow).w.content = [] ∨ ¬ k.Interrupted := by
  by_cases hlive : s.Live flow
  · have hsend : ∀ k', s.send flow data k k' alloc now = _ := fun k' =>
      s.on_of_live hlive fun cc => cc.send data k k' alloc now
    have hflush : s.sendfromcache flow k now = _ :=
      s.on_of_live hlive fun cc => cc.sendfromcache k now
    have hcode := k.interrupted_iff (s.getcc flow).w.content
    have hdecision : ((∀ k', (s.send flow data k k' alloc now).2.ret = some (-eNeedClose)) ↔
        (s.sendfromcache flow k now).2.ret = some (-eNeedClose)) ↔
        ((s.getcc flow).w.content = [] ∨ ¬ k.Interrupted) := by
      simp only [hsend, hflush, send_close_iff, sendfromcache_close_iff, hcode]
      generalize (k.answer (s.getcc flow).w.content).1 = code
      by_cases hpending : (s.getcc flow).w.content = []
      · simp [hpending]
      · simp only [ne_eq, hpending, not_false_eq_true, true_and, false_or, eintr, eagain,
          einprogress]
        omega
    constructor
    · exact fun h => .inr (hdecision.mp h.decision)
    · intro h
      refine ⟨hdecision.mpr (h.resolve_left (not_not.mpr hlive)), fun _ => ?_, fun _ k' => ?_⟩
      · rw [hflush, getcc_setcc]
        exact sendfromcache_content
      · rw [hsend, getcc_setcc]
        exact send_content data k' alloc
  · have hsend : ∀ k', s.send flow data k k' alloc now = _ := fun k' =>
      s.on_of_not_live hlive fun cc => cc.send data k k' alloc now
    have hflush : s.sendfromcache flow k now = _ :=
      s.on_of_not_live hlive fun cc => cc.sendfromcache k now
    refine iff_of_true ⟨?_, fun h => absurd h hlive, fun h => absurd h hlive⟩ (.inl hlive)
    simp only [hsend, hflush]
    exact iff_of_false (fun h => absurd (h (.sent 0)) (by decide)) (by decide)

/-- A connection with a byte in its write cache: an interrupted flush leaves it open in `send`,
and closes it in `sendfromcache`. -/
theorem not_flushAgrees :
    ¬ FlushAgrees
        (((new 1 (by decide) (by decide)).addconn 1 5 1 0).1.send 1 ⟨[7], by decide⟩
          (.sent 0) (.fail 11) Alloc.exact 0).1
        1 ⟨[8], by decide⟩ (.fail 4) Alloc.exact 0 := by
  intro h
  have hclose := h.decision.mpr (by decide +kernel) (.sent 0)
  exact absurd hclose (by decide +kernel)

end ConnSet
end Spp
