import Spp.Proto.Requests

/-!
# The two encoders of a request

`MakeReq(string)` and `MakeReq(buf, len)` make the same calls.  The growing packer adds the bytes
of each; the fixed one adds them too, or fails and stays failed.  So the two packets are the same
if the packet fits the buffer and the fixed packer sees that it does, which it does not where the
length of the buffer is no `int`.

## Main definitions

* `FixedPacker.Wrote` — bytes were put at the tail.
* `DpReq.Valid` — the contents for which the encoders should agree.
* `DpReq.calls`, `DpReq.size` — the calls of the encoders, and the size of the packet.
* `DpReq.Agrees` — the encoders agree on buffers of a length.
* `DpReq.Fits` — when they do.
-/

namespace Spp

variable {R : Type}

/-- The call packs no string. -/
def PackCall.Plain : PackCall R → Prop
  | .string _ | .cstring _ => False
  | _ => True

@[simp] theorem PackCall.plain_byte (v : UInt8) : (.byte v : PackCall R).Plain := trivial
@[simp] theorem PackCall.plain_word (v : UInt16) : (.word v : PackCall R).Plain := trivial
@[simp] theorem PackCall.plain_dword (v : UInt32) : (.dword v : PackCall R).Plain := trivial
@[simp] theorem PackCall.plain_qword (v : UInt64) : (.qword v : PackCall R).Plain := trivial
@[simp] theorem PackCall.plain_real (v : R) : (.real v : PackCall R).Plain := trivial
@[simp] theorem PackCall.plain_data (s : List UInt8) (len : UInt32) :
    (.data s len : PackCall R).Plain := trivial

/-! ## The builders -/

theorem ret_tlvScript {tlv : TLV R} (h : (TlvKind.ofType tlv.type).isSome) :
    (tlvScript tlv).ret = retOk := by
  rw [tlvScript]
  cases hkind : TlvKind.ofType tlv.type with
  | none => simp [hkind] at h
  | some kind => cases kind <;> rfl

/-- The loop over less than 65536 conditions, all of a known type, ends. -/
theorem condLoop_eq (op : UInt8 → PackCall R) {conds : List (ConditionExpression R)} {num : ℕ}
    (hnum : num ≤ conds.length)
    (hknown : ∀ c ∈ conds.take num, (TlvKind.ofType c.data.type).isSome) (hlt : num < 65536)
    (fuel : ℕ) {i : UInt16} (hi : i.toNat ≤ num) :
    condLoop op conds num fuel i =
      if num - i.toNat < fuel then
        some ⟨((conds.take num).drop i.toNat).flatMap fun c => (condScript op c).calls, retOk⟩
      else none := by
  induction fuel generalizing i with
  | zero => simp [condLoop]
  | succ fuel ih =>
      rw [condLoop]
      by_cases hend : i.toNat < num
      · have hlen : i.toNat < (conds.take num).length := by rw [List.length_take]; omega
        have hcond : conds[i.toNat]? = some (conds.take num)[i.toNat] := by
          rw [List.getElem_take, List.getElem?_eq_getElem]
        have hnext : (i + 1).toNat = i.toNat + 1 := by
          rw [UInt16.toNat_add]
          change (i.toNat + 1) % 65536 = _
          omega
        have hret : (condScript op (conds.take num)[i.toNat]).ret = retOk :=
          ret_tlvScript (hknown _ (List.getElem_mem hlen))
        rw [if_pos hend, hcond, List.drop_eq_getElem_cons hlen, List.flatMap_cons]
        simp only [hret, ne_eq, not_true_eq_false, if_false]
        rw [ih (by omega), hnext]
        by_cases hfuel : num - i.toNat < fuel + 1
        · rw [if_pos hfuel, if_pos (by omega)]
          rfl
        · rw [if_neg hfuel, if_neg (by omega)]
          rfl
      · have hdrop : (conds.take num).drop i.toNat = [] := by
          refine List.drop_eq_nil_of_le ?_
          rw [List.length_take]
          omega
        rw [if_neg hend, if_pos (by omega), hdrop]
        rfl

namespace DpReq

/-- The conditions of a request. -/
def conds : DpReq R → List (ConditionExpression R)
  | .query r => r.condSet
  | .update r => r.condFieldSet
  | .insert _ => []
  | .delete r => r.condFieldSet
  | .count r => r.condFieldSet
  | .condFind r => r.condSet

/-- The fields of a request that have values. -/
def fields : DpReq R → List (ConditionExpression R)
  | .update r => r.updFieldSet
  | .insert r => r.insFieldSet
  | _ => []

/-- The fields that a request asks for. -/
def retFields : DpReq R → List UInt32
  | .query r => r.retFieldSet
  | _ => []

/-- Less than 65536 conditions and fields, and types that `PackTLV` knows. -/
structure Valid (r : DpReq R) : Prop where
  conds : r.conds.length < 65536
  fields : r.fields.length < 65536
  retFields : r.retFields.length < 65536
  types : ∀ c ∈ r.conds ++ r.fields, (TlvKind.ofType c.data.type).isSome

/-- The number of conditions that the loop goes through: all of them, or what 16 bits say. -/
def condNum : DpReq R → ℕ
  | .query r => r.condNum
  | .update r => r.condNum.toNat
  | .insert _ => 0
  | .delete r => r.condNum.toNat
  | .count r => r.condNum.toNat
  | .condFind r => r.condNum

/-- The calls in front of the conditions. -/
def front : DpReq R → List (PackCall R)
  | .query r => r.front
  | .update r => r.front
  | .insert r => r.front
  | .delete r => r.front
  | .count r => r.front
  | .condFind r => r.front

/-- The calls behind the conditions. -/
def back : DpReq R → List (PackCall R)
  | .query r => r.back
  | .update r => r.back
  | .insert r => r.back
  | .delete r => r.back
  | .count r => r.back
  | .condFind r => r.back

/-- The call that packs the operator of a condition. -/
def packOp : DpReq R → UInt8 → PackCall R
  | .condFind _ => DpCondFindReq.packOp
  | _ => .byte

/-- The loop over the conditions comes to its end. -/
structure Ends (r : DpReq R) : Prop where
  condNum : r.condNum < 65536
  types : ∀ c ∈ r.conds.take r.condNum, (TlvKind.ofType c.data.type).isSome

/-- The calls of the encoders. -/
def calls (r : DpReq R) : List (PackCall R) :=
  r.front ++ (r.conds.take r.condNum).flatMap (fun c => (condScript r.packOp c).calls) ++ r.back

theorem condNum_le (r : DpReq R) : r.condNum ≤ r.conds.length := by
  cases r with
  | insert r => exact Nat.le_refl 0
  | query r => exact Nat.mod_le _ _
  | update r => exact Nat.mod_le _ _
  | delete r => exact Nat.mod_le _ _
  | count r => exact Nat.mod_le _ _
  | condFind r => exact Nat.mod_le _ _

theorem Valid.ends {r : DpReq R} (h : r.Valid) : r.Ends where
  condNum := r.condNum_le.trans_lt h.conds
  types := fun c hc => h.types c (List.mem_append_left _ (List.mem_of_mem_take hc))

/-- All builders but that of an insert have the loop between their other fields. -/
theorem script_eq (r : DpReq R) (fuel : ℕ) :
    r.script fuel = condsBetween r.front (condLoop r.packOp r.conds r.condNum fuel 0) r.back ∨
      r.script fuel = some ⟨r.calls, retOk⟩ ∧ r.condNum = 0 := by
  cases r with
  | insert r => exact .inr ⟨by simp [script, calls, front, back, conds], rfl⟩
  | query r => exact .inl rfl
  | update r => exact .inl rfl
  | delete r => exact .inl rfl
  | count r => exact .inl rfl
  | condFind r => exact .inl rfl

/-- A builder ends if it may take one turn more than there are conditions. -/
theorem script_cases {r : DpReq R} (h : r.Ends) (fuel : ℕ) :
    r.script fuel = some ⟨r.calls, retOk⟩ ∨ fuel ≤ r.condNum ∧ r.script fuel = none := by
  rcases r.script_eq fuel with hloop | ⟨hsome, -⟩
  · rw [hloop, condLoop_eq r.packOp r.condNum_le h.types h.condNum fuel (Nat.zero_le _)]
    by_cases hfuel : r.condNum < fuel
    · refine .inl ?_
      simp [condsBetween, calls, hfuel]
    · refine .inr ⟨by omega, ?_⟩
      simp [condsBetween, hfuel]
  · exact .inl hsome

theorem exists_script {r : DpReq R} (h : r.Ends) :
    ∃ fuel, r.script fuel = some ⟨r.calls, retOk⟩ := by
  refine ⟨r.condNum + 1, ?_⟩
  rcases script_cases h (r.condNum + 1) with hsome | ⟨hle, -⟩
  · exact hsome
  · omega

/-! ## The calls pack no strings -/

end DpReq

theorem plain_tlvScript (tlv : TLV R) : ∀ c ∈ (tlvScript tlv).calls, c.Plain := by
  rw [tlvScript]
  cases TlvKind.ofType tlv.type with
  | none => simp
  | some kind => cases kind <;> simp

theorem plain_fieldCalls (num : ℕ) (fields : List (ConditionExpression R)) :
    ∀ c ∈ fieldCalls num fields, c.Plain := by
  intro c hc
  simp only [fieldCalls, List.mem_flatMap, List.cons_append, List.nil_append,
    List.mem_cons] at hc
  rcases hc with ⟨f, -, rfl | hc⟩
  · trivial
  · exact plain_tlvScript f.data c hc

theorem plain_logicCalls (logicExp : List UInt8) :
    (∀ c ∈ (logicCalls logicExp : List (PackCall R)), c.Plain) ∧
      ∀ c ∈ (logicCallsIf logicExp : List (PackCall R)), c.Plain := by
  constructor
  · simp [logicCalls]
  · rw [logicCallsIf]
    split <;> simp

theorem BaseDpReq.plain_cookieCalls (r : BaseDpReq) :
    ∀ c ∈ (r.cookieCalls : List (PackCall R)), c.Plain := by
  simp [cookieCalls]

namespace DpReq

theorem plain_front (r : DpReq R) : ∀ c ∈ r.front, c.Plain := by
  cases r with
  | query r => simp [front, DpQueryReq.front]
  | update r => simp [front, DpUpdateReq.front]
  | insert r => simp [front, DpInsertReq.front]
  | delete r => simp [front, DpDeleteReq.front]
  | count r => simp [front, DpCountReq.front]
  | condFind r => simp [front, DpCondFindReq.front]

theorem plain_back (r : DpReq R) : ∀ c ∈ r.back, c.Plain := by
  cases r with
  | query r =>
      simp only [back, DpQueryReq.back, List.forall_mem_append]
      refine ⟨(plain_logicCalls r.logicExp).2, by simp, ?_, r.plain_cookieCalls⟩
      intro c hc
      rcases List.mem_map.mp hc with ⟨v, -, rfl⟩
      simp
  | update r =>
      simp only [back, DpUpdateReq.back, List.forall_mem_append]
      exact ⟨(plain_logicCalls r.logicExp).1, by simp, plain_fieldCalls _ _, r.plain_cookieCalls⟩
  | insert r =>
      simp only [back, DpInsertReq.back, List.forall_mem_append]
      exact ⟨by simp, plain_fieldCalls _ _, r.plain_cookieCalls⟩
  | delete r =>
      simp only [back, DpDeleteReq.back, List.forall_mem_append]
      exact ⟨(plain_logicCalls r.logicExp).1, r.plain_cookieCalls⟩
  | count r =>
      simp only [back, DpCountReq.back, List.forall_mem_append]
      exact ⟨(plain_logicCalls r.logicExp).2, r.plain_cookieCalls⟩
  | condFind r => exact r.plain_cookieCalls

theorem plain_packOp (r : DpReq R) (op : UInt8) : (r.packOp op).Plain := by
  cases r <;> exact trivial

theorem plain_calls (r : DpReq R) : ∀ c ∈ r.calls, c.Plain := by
  rw [calls]
  simp only [List.forall_mem_append]
  refine ⟨⟨r.plain_front, ?_⟩, r.plain_back⟩
  intro call hcall
  rcases List.mem_flatMap.mp hcall with ⟨c, -, hone⟩
  simp only [condScript, List.cons_append, List.nil_append, List.mem_cons] at hone
  rcases hone with rfl | rfl | htlv
  · simp
  · exact r.plain_packOp c.opCode
  · exact plain_tlvScript c.data call htlv

/-- A request begins with a word. -/
theorem calls_head (r : DpReq R) : ∃ v rest, r.calls = .word v :: rest := by
  cases r <;> exact ⟨_, _, rfl⟩

end DpReq

/-! ## The packers -/

variable [CDouble R]

/-- A call of the builders, with a text that fits. -/
def PackCall.Good (c : PackCall R) : Prop := c.Plain ∧ c.Prints

theorem PackCall.Good.length_lt {c : PackCall R} (h : c.Good) : c.bytes.length < 2 ^ 32 := by
  cases c with
  | byte v => simp [bytes]
  | word v => simp [bytes]
  | dword v => simp [bytes]
  | qword v => simp [bytes]
  | real v =>
      have hprints : (CDouble.sprintf v).length < 64 := h.2
      simp only [bytes, List.length_append, List.length_singleton]
      omega
  | binary v len =>
      rw [bytes, Mem.length_read]
      exact len.toNat_lt
  | string v => exact h.1.elim
  | cstring v => exact h.1.elim

namespace FixedPacker

/-! ## One call -/

/-- A C string that is no huge one. -/
theorem packCString_eq (p : FixedPacker) {v : List UInt8} (hnul : v.takeWhile (· ≠ 0) = v)
    (hlen : v.length + 1 < 2 ^ 31) :
    p.packCString (some v) = p.pack (v ++ [0]).length (v ++ [0]) := by
  have hneed : s32 (s32 v.length + 1) = ((v ++ [0]).length : ℤ) := by
    rw [s32, s32, List.length_append, List.length_singleton]
    omega
  have hread : Mem.read (fun i => v.getD i 0) 0 (v.length + 1) = v ++ [0] := by
    refine List.ext_getElem (by simp) ?_
    intro i hi hi'
    rw [Mem.length_read] at hi
    rw [Mem.getElem_read, List.getElem_append]
    split
    next hlt => simp [hlt]
    next hge => simp [Nat.not_lt.mp hge]
  have hcount : (((v ++ [0]).length : ℤ) % 2 ^ 64).toNat = v.length + 1 := by
    rw [List.length_append, List.length_singleton]
    omega
  rw [packCString]
  simp only [hnul, hneed, hcount, hread]

/-- All that a call can do: fail, or put its bytes, where it has some. -/
theorem call_cases (p : FixedPacker) {c : PackCall R} (h : c.Good) :
    p.leftSpace < s32 c.bytes.length ∧ p.call c = p.fail ∨
      s32 c.bytes.length ≤ p.leftSpace ∧
        (p.call c = p.put c.bytes ∨ c.bytes = [] ∧ p.call c = p) := by
  have hpack : ∀ bs : List UInt8, bs.length < 2 ^ 31 → c.bytes = bs →
      p.call c = p.pack bs.length bs →
      p.leftSpace < s32 c.bytes.length ∧ p.call c = p.fail ∨
        s32 c.bytes.length ≤ p.leftSpace ∧
          (p.call c = p.put c.bytes ∨ c.bytes = [] ∧ p.call c = p) := by
    intro bs hlen hbytes hcall
    have hneed : s32 (bs.length : ℤ) = bs.length := s32_of_bounds (by omega) (by omega)
    rw [hcall, hbytes, pack, hneed]
    split
    next hfail => exact .inl ⟨hfail, rfl⟩
    next hroom => exact .inr ⟨by omega, .inl rfl⟩
  cases c with
  | byte v => exact hpack [v] (by simp) rfl rfl
  | word v =>
      refine hpack (be 2 v.toNat) (by simp) rfl ?_
      simp [call, packWord, htons]
  | dword v =>
      refine hpack (be 4 v.toNat) (by simp) rfl ?_
      simp [call, packDWord, htonl]
  | qword v =>
      refine hpack (be 8 v.toNat) (by simp) rfl ?_
      simp [call, packQWord, myhtonll_eq]
  | real v =>
      have hprints : (CDouble.sprintf v).length < 64 := h.2
      refine hpack (CDouble.sprintf v ++ [0]) (by simp; omega) rfl ?_
      rw [← packCString_eq p (takeWhile_sprintf v) (by omega), call, packReal,
        decide_eq_false (by omega), Bool.or_false]
  | binary v len =>
      rw [call, packBinary, PackCall.bytes, Mem.length_read]
      split
      next hfail => exact .inl ⟨hfail, rfl⟩
      next hroom =>
        refine .inr ⟨by omega, ?_⟩
        split
        next hzero =>
          have hlen : len.toNat = 0 := by omega
          exact .inr ⟨by rw [hlen]; rfl, rfl⟩
        next => exact .inl rfl
  | string v => exact h.1.elim
  | cstring v => exact h.1.elim

/-- `q` is `p` with bytes put at its tail. -/
structure Wrote (p : FixedPacker) (bs : List UInt8) (q : FixedPacker) : Prop where
  buf : q.buf = Mem.write p.buf p.tail bs
  tail : q.tail = p.tail + bs.length
  bufLen : q.bufLen = p.bufLen
  err : q.err = p.err

variable {p q : FixedPacker} {bs cs : List UInt8} {c : PackCall R} {calls : List (PackCall R)}

theorem wrote_put (p : FixedPacker) (bs : List UInt8) : Wrote p bs (p.put bs) := by
  constructor <;> rfl

theorem wrote_nil (p : FixedPacker) : Wrote p [] p := by
  constructor <;> simp

theorem Wrote.trans {r : FixedPacker} (h : Wrote p bs q) (h' : Wrote q cs r) :
    Wrote p (bs ++ cs) r := by
  constructor
  · rw [h'.buf, h.buf, h.tail, Mem.write_append]
  · rw [h'.tail, h.tail, List.length_append, Nat.add_assoc]
  · rw [h'.bufLen, h.bufLen]
  · rw [h'.err, h.err]

theorem wrote_of_room (h : c.Good) (hroom : s32 c.bytes.length ≤ p.leftSpace) :
    Wrote p c.bytes (p.call c) := by
  rcases p.call_cases h with ⟨hfail, -⟩ | ⟨-, hput | ⟨hnil, hsame⟩⟩
  · omega
  · rw [hput]
    exact wrote_put p c.bytes
  · rw [hnil, hsame]
    exact wrote_nil p

theorem bufLen_call (h : c.Good) : (p.call c).bufLen = p.bufLen := by
  rcases p.call_cases h with ⟨-, hcall⟩ | ⟨-, hcall | ⟨-, hcall⟩⟩ <;> rw [hcall] <;> rfl

theorem tail_le_call (h : c.Good) : p.tail ≤ (p.call c).tail := by
  rcases p.call_cases h with ⟨-, hcall⟩ | ⟨-, hcall | ⟨-, hcall⟩⟩ <;> rw [hcall]
  · exact le_rfl
  · exact Nat.le_add_right _ _

theorem err_call (h : c.Good) (herr : p.err ≠ 0) : (p.call c).err ≠ 0 := by
  rcases p.call_cases h with ⟨-, hcall⟩ | ⟨-, hcall | ⟨-, hcall⟩⟩ <;> rw [hcall]
  · simp [fail, errProtocol]
  · exact herr
  · exact herr

/-- What lies in front of the tail stays. -/
theorem buf_call (h : c.Good) {i : ℕ} (hi : i < p.tail) : (p.call c).buf i = p.buf i := by
  rcases p.call_cases h with ⟨-, hcall⟩ | ⟨-, hcall | ⟨-, hcall⟩⟩ <;> rw [hcall]
  · rfl
  · exact Mem.write_of_lt _ _ hi

/-- Nothing is taken back. -/
theorem inside_of_call (h : c.Good) (hin : (p.call c).Inside) : p.Inside := by
  rcases p.call_cases h with ⟨-, hcall⟩ | ⟨-, hcall | ⟨-, hcall⟩⟩ <;> rw [hcall] at hin
  · exact ⟨hin.written, hin.overrun⟩
  · exact ((inside_store_iff p.tail c.bytes).mp ⟨hin.written, hin.overrun⟩).1
  · exact hin

theorem inBuf_of_inside (h : c.Good) (hp : p.InBuf) (hin : (p.call c).Inside) :
    (p.call c).InBuf := by
  rcases p.call_cases h with ⟨-, hcall⟩ | ⟨-, hcall | ⟨-, hcall⟩⟩ <;> rw [hcall] at hin ⊢
  · exact inBuf_fail hp
  · rw [inBuf_put_iff hp]
    exact ((inside_store_iff p.tail c.bytes).mp ⟨hin.written, hin.overrun⟩).2
  · exact hp

/-- Bytes whose number is an `int` stay in the buffer. -/
theorem inBuf_of_short (h : c.Good) (hp : p.InBuf) (hshort : c.bytes.length < 2 ^ 31) :
    (p.call c).InBuf := by
  have hleft := leftSpace_eq hp
  have hneed : s32 (c.bytes.length : ℤ) = c.bytes.length := s32_of_bounds (by omega) (by omega)
  rcases p.call_cases h with ⟨-, hcall⟩ | ⟨hroom, hcall | ⟨-, hcall⟩⟩ <;> rw [hcall]
  · exact inBuf_fail hp
  · rw [inBuf_put_iff hp]
    rw [hneed] at hroom
    split at hleft <;> omega
  · exact hp

/-- In a buffer whose length is an `int` only such bytes stay. -/
theorem short_of_inside (h : c.Good) (hp : p.InBuf) (hin : (p.call c).Inside)
    (hlen : p.bufLen.toNat < 2 ^ 31) : c.bytes.length < 2 ^ 31 := by
  have hleft := leftSpace_eq hp
  have htail := hp.tail_le
  have hlt := h.length_lt
  rcases p.call_cases h with ⟨hfail, -⟩ | ⟨-, hcall | ⟨hnil, -⟩⟩
  · rw [s32] at hfail
    rw [if_pos (by omega)] at hleft
    omega
  · rw [hcall] at hin
    have hend := ((inside_store_iff p.tail c.bytes).mp ⟨hin.written, hin.overrun⟩).2
    omega
  · simp [hnil]

/-! ## Series of calls -/

theorem bufLen_final (hc : ∀ c ∈ calls, c.Good) :
    (Run.final step p calls).bufLen = p.bufLen := by
  induction calls generalizing p with
  | nil => rfl
  | cons c calls ih =>
      rw [List.forall_mem_cons] at hc
      exact (ih hc.2).trans (bufLen_call hc.1)

theorem err_final (hc : ∀ c ∈ calls, c.Good) (herr : p.err ≠ 0) :
    (Run.final step p calls).err ≠ 0 := by
  induction calls generalizing p with
  | nil => exact herr
  | cons c calls ih =>
      rw [List.forall_mem_cons] at hc
      exact ih hc.2 (err_call hc.1 herr)

theorem buf_final (hc : ∀ c ∈ calls, c.Good) {i : ℕ} (hi : i < p.tail) :
    (Run.final step p calls).buf i = p.buf i := by
  induction calls generalizing p with
  | nil => rfl
  | cons c calls ih =>
      rw [List.forall_mem_cons] at hc
      exact (ih hc.2 (hi.trans_le (tail_le_call hc.1))).trans (buf_call hc.1 hi)

theorem inside_of_final (hc : ∀ c ∈ calls, c.Good) (hin : (Run.final step p calls).Inside) :
    p.Inside := by
  induction calls generalizing p with
  | nil => exact hin
  | cons c calls ih =>
      rw [List.forall_mem_cons] at hc
      exact inside_of_call hc.1 (ih hc.2 hin)

/-- Where nothing was written outside the buffer, the tail is in it, and in a buffer whose length
is an `int` no call had more bytes than an `int` can say. -/
theorem inBuf_of_final (hc : ∀ c ∈ calls, c.Good) (hp : p.InBuf)
    (hin : (Run.final step p calls).Inside) :
    (Run.final step p calls).InBuf ∧
      (p.bufLen.toNat < 2 ^ 31 → ∀ c ∈ calls, c.bytes.length < 2 ^ 31) := by
  induction calls generalizing p with
  | nil => exact ⟨hp, fun _ c h => absurd h (List.not_mem_nil)⟩
  | cons c calls ih =>
      rw [List.forall_mem_cons] at hc
      have hcall : (p.call c).Inside := inside_of_final hc.2 hin
      have hrest := ih hc.2 (inBuf_of_inside hc.1 hp hcall) hin
      refine ⟨hrest.1, ?_⟩
      intro hlen
      rw [List.forall_mem_cons]
      refine ⟨short_of_inside hc.1 hp hcall hlen, hrest.2 ?_⟩
      rwa [bufLen_call hc.1]

theorem inBuf_final (hc : ∀ c ∈ calls, c.Good) (hp : p.InBuf)
    (hshort : ∀ c ∈ calls, c.bytes.length < 2 ^ 31) : (Run.final step p calls).InBuf := by
  induction calls generalizing p with
  | nil => exact hp
  | cons c calls ih =>
      rw [List.forall_mem_cons] at hc hshort
      exact ih hc.2 (inBuf_of_short hc.1 hp hshort.1) hshort.2

/-- A series of calls puts the bytes of each, or fails. -/
theorem wrote_or_err (hc : ∀ c ∈ calls, c.Good) :
    Wrote p (calls.flatMap PackCall.bytes) (Run.final step p calls) ∨
      (Run.final step p calls).err ≠ 0 := by
  induction calls generalizing p with
  | nil => exact .inl (wrote_nil p)
  | cons c calls ih =>
      rw [List.forall_mem_cons] at hc
      by_cases hroom : s32 c.bytes.length ≤ p.leftSpace
      · rcases ih (p := p.call c) hc.2 with hrest | hrest
        · exact .inl ((wrote_of_room hc.1 hroom).trans hrest)
        · exact .inr hrest
      · refine .inr (err_final (p := p.call c) hc.2 ?_)
        rcases p.call_cases hc.1 with ⟨-, hcall⟩ | ⟨hle, -⟩
        · simp [hcall, fail, errProtocol]
        · exact absurd hle hroom

/-- What fits a buffer of less than `2 ^ 31 + 29` bytes is put. -/
theorem wrote_of_fits (hc : ∀ c ∈ calls, c.Good) (hp : p.InBuf)
    (hlen : p.bufLen.toNat < 2 ^ 31 + msgHeaderLen)
    (hfits : p.tail + (calls.flatMap PackCall.bytes).length ≤ p.bufLen.toNat) :
    Wrote p (calls.flatMap PackCall.bytes) (Run.final step p calls) ∧
      (Run.final step p calls).InBuf := by
  induction calls generalizing p with
  | nil => exact ⟨wrote_nil p, hp⟩
  | cons c calls ih =>
      rw [List.forall_mem_cons] at hc
      rw [List.flatMap_cons, List.length_append] at hfits
      have hleft := leftSpace_eq hp
      have hlow := hp.le_tail
      have hneed : s32 (c.bytes.length : ℤ) = c.bytes.length :=
        s32_of_bounds (by omega) (by omega)
      rw [if_pos (by omega)] at hleft
      have hput := wrote_of_room hc.1 (p := p) (by omega)
      have hin := inBuf_of_short hc.1 hp (by omega)
      have hrest := ih (p := p.call c) hc.2 hin (by rwa [hput.bufLen])
        (by rw [hput.bufLen, hput.tail]; omega)
      exact ⟨hput.trans hrest.1, hrest.2⟩

/-- In a buffer of more bytes the first call fails. -/
theorem err_of_huge {v : UInt16} (hc : ∀ c ∈ calls, c.Good) (hp : p.InBuf)
    (htail : p.tail = msgHeaderLen) (hlen : 2 ^ 31 + msgHeaderLen ≤ p.bufLen.toNat) :
    (Run.final step p (.word v :: calls)).err ≠ 0 := by
  have hlt := p.bufLen.toNat_lt
  have hleft := leftSpace_eq hp
  rw [if_neg (by omega)] at hleft
  have hfail : p.packWord v = p.fail := by
    rw [packWord, pack, if_pos (by rw [msgHeaderLen] at htail; omega)]
  rw [Run.final_cons, step, call, hfail]
  exact err_final hc (by simp [fail, errProtocol])

/-! ## The packet -/

theorem inside_of_getPack {hd : MsgHeader} (hin : (p.getPack hd).2.Inside) : p.Inside := by
  rw [getPack] at hin
  split at hin
  · exact hin
  · have hheader := ((inside_store_iff _ [eot]).mp hin).1
    refine ⟨?_, hheader.overrun⟩
    intro r hr
    exact hheader.written r (List.mem_append_left _ hr)

/-- The end mark lies in the buffer only if there is a byte left. -/
theorem tail_lt_of_getPack {hd : MsgHeader} (hp : p.InBuf) (herr : p.err = 0)
    (hin : (p.getPack hd).2.Inside) : p.tail < p.bufLen.toNat := by
  have hsub := packLen_sub hp (le_refl 1) (by decide)
  rw [getPack, if_neg (by simp [herr])] at hin
  have hend := ((inside_store_iff _ [eot]).mp hin).2
  rw [hsub, List.length_singleton, bufLen_storeHeader] at hend
  omega

/-- The packet of a body that was put behind the place of the header. -/
theorem getPack_of_wrote {body : List UInt8} (hput : Wrote p body q)
    (htail : p.tail = msgHeaderLen) (hq : q.InBuf) (herr : q.err = 0)
    (hroom : q.tail < q.bufLen.toNat) (hd : MsgHeader) :
    (q.getPack hd).1 = s32 (q.tail + 1 : ℕ) ∧
      Mem.read (q.getPack hd).2.buf 0 (hd.bytes (q.tail + 1) ++ body ++ [eot]).length =
        hd.bytes (q.tail + 1) ++ body ++ [eot] ∧
      (q.getPack hd).2.Inside := by
  have hlt := q.bufLen.toNat_lt
  have hlow := hq.le_tail
  have hsub := packLen_sub hq (le_refl 1) (by decide)
  have hbody := packLen_sub hq (by decide) (le_refl (msgHeaderLen + 1))
  have hlen : u32 (q.tail + 1) = q.tail + 1 := u32_of_lt (by omega)
  have hsafe := ((safeGet_iff hq (.plain hd)).mpr (.inr hroom.ne)).1
  rw [get] at hsafe
  rw [hlen] at hsub hbody
  refine ⟨?_, ?_, hsafe⟩
  · rw [getPack, if_neg (by simp [herr])]
    simp only [hlen]
  · have hbuf : (q.getPack hd).2.buf =
        Mem.write (Mem.write (Mem.write p.buf msgHeaderLen body) 0 (hd.bytes (q.tail + 1)))
          q.tail [eot] := by
      have htotal : msgHeaderLen + (q.tail + 1 - (msgHeaderLen + 1)) + 1 = q.tail + 1 := by omega
      rw [getPack, if_neg (by simp [herr])]
      simp only [hsub, hbody, store, storeHeader, Packer.packHeader_eq, hput.buf, htail, htotal,
        hlen, Nat.add_sub_cancel]
    have hplace := hput.tail
    rw [htail] at hplace
    rw [hbuf, Mem.read_append_iff, Mem.read_append_iff, List.length_append,
      MsgHeader.length_bytes, Nat.zero_add, ← hplace, Nat.zero_add]
    refine ⟨⟨?_, ?_⟩, Mem.read_write_self _ _ _⟩
    · have hself := Mem.read_write_self (Mem.write p.buf msgHeaderLen body) 0
        (hd.bytes (q.tail + 1))
      rw [MsgHeader.length_bytes] at hself
      rw [Mem.read_write_of_disjoint _ _ (.inl (by omega)), hself]
    · rw [Mem.read_write_of_disjoint _ _ (.inl (by omega)),
        Mem.read_write_of_disjoint _ _ (.inr (by rw [MsgHeader.length_bytes]; omega)),
        Mem.read_write_self]

end FixedPacker

/-- What the growing packer gives. -/
theorem Packer.getPack_cases (pk : Packer) (hd : MsgHeader) :
    2 ^ 32 ≤ msgHeaderLen + u32 pk.oss.length + 1 ∧ pk.getPack hd = none ∨
      msgHeaderLen + u32 pk.oss.length + 1 < 2 ^ 32 ∧
        ∃ req, pk.getPack hd = some req ∧ req.length = msgHeaderLen + u32 pk.oss.length + 1 ∧
          req[0]? = some hd.soh := by
  by_cases hlen : msgHeaderLen + u32 pk.oss.length + 1 < 2 ^ 32
  · refine .inr ⟨hlen, ?_⟩
    have hpack := u32_of_lt hlen
    rw [getPack]
    simp only [hpack, lt_irrefl, if_false, Option.some.injEq, exists_eq_left', Mem.length_read,
      true_and]
    rw [List.getElem?_eq_getElem (by simp), Mem.getElem_read,
      Mem.write_of_lt _ _ (by rw [msgHeaderLen]; omega), Mem.write_of_lt _ _ (by decide),
      packHeader_eq]
    simp [Mem.write, MsgHeader.bytes]
  · refine .inl ⟨by omega, ?_⟩
    have hlt := u32_lt (msgHeaderLen + u32 pk.oss.length + 1)
    rw [getPack]
    simp only [if_pos (show u32 (msgHeaderLen + u32 pk.oss.length + 1) <
      msgHeaderLen + u32 pk.oss.length + 1 by omega)]

namespace DpReq

/-! ## The encoders -/

/-- The size of the packet. -/
def size (r : DpReq R) : ℕ := msgHeaderLen + (r.calls.flatMap PackCall.bytes).length + 1

/-- The size that `GetPack` computes. -/
def packLen (r : DpReq R) : ℕ := msgHeaderLen + u32 (r.calls.flatMap PackCall.bytes).length + 1

/-- On buffers of `len` bytes: one that is no smaller than the size `MakeReq(string)` returns gets
the same length and the same bytes, and for one that is smaller by two or more the value is -1.
Nothing is written outside the buffer. -/
def Agrees (r : DpReq R) (len : UInt32) : Prop :=
  ∃ fuel n req, r.makeReq fuel = some (n, some req) ∧
    ∀ buf, ∃ m p, r.makeReqBuf fuel buf len = some (m, p) ∧
      (n ≤ len.toNat → m = n ∧ Mem.read p.buf 0 req.length = req ∧ p.Inside) ∧
      ((len.toNat : ℤ) + 2 ≤ n → m = -1 ∧ p.Inside)

/-- The texts of the reals fit their array and the packet its size; a buffer that seems large
enough is, and its length is an `int` behind the header; in one that is too small no length is
mistaken for a negative one. -/
structure Fits (r : DpReq R) (len : UInt32) : Prop where
  prints : ∀ c ∈ r.calls, c.Prints
  packLen : r.packLen < 2 ^ 32
  large : s32 r.packLen ≤ len.toNat →
    r.size ≤ len.toNat ∧ len.toNat < 2 ^ 31 + msgHeaderLen
  small : msgHeaderLen + 1 ≤ len.toNat → (len.toNat : ℤ) + 2 ≤ s32 r.packLen →
    ∀ c ∈ r.calls, c.bytes.length < 2 ^ 31

variable {r : DpReq R} {fuel : ℕ}

omit [CDouble R] in
theorem soh_header (r : DpReq R) : r.header.soh = soh := by cases r <;> rfl

/-- What `MakeReq(string)` gives where it packs. -/
theorem makeReq_eq (hs : r.script fuel = some ⟨r.calls, retOk⟩)
    (hprints : ∀ c ∈ r.calls, c.Prints) (hlen : r.packLen < 2 ^ 32) :
    ∃ req, r.makeReq fuel = some (s32 r.packLen, some req) ∧ req.length = r.packLen ∧
      req[0]? = some soh ∧
      Packer.getPack ⟨r.calls.flatMap PackCall.bytes⟩ r.header = some req := by
  rcases Packer.getPack_cases ⟨r.calls.flatMap PackCall.bytes⟩ r.header with
    ⟨hge, -⟩ | ⟨-, req, hreq, hlength, hsoh⟩
  · exact absurd hlen (Nat.not_lt.mpr hge)
  · refine ⟨req, ?_, hlength, by rwa [soh_header] at hsoh, hreq⟩
    have hrun : Packer.run {} r.calls = some ⟨r.calls.flatMap PackCall.bytes⟩ := by
      rw [Packer.run_eq, if_pos hprints, List.nil_append]
    rw [makeReq, hs]
    simp only [Option.bind_eq_bind, Option.bind_some, hrun, ne_eq, not_true_eq_false, if_false,
      hreq, hlength]
    rfl

/-- Where `MakeReq(string)` gives a packet it was such a one. -/
theorem of_makeReq (h : r.Ends) {n : ℤ} {req : List UInt8}
    (hreq : r.makeReq fuel = some (n, some req)) :
    r.script fuel = some ⟨r.calls, retOk⟩ ∧ (∀ c ∈ r.calls, c.Prints) ∧ r.packLen < 2 ^ 32 := by
  rcases script_cases h fuel with hs | ⟨-, hs⟩
  · refine ⟨hs, ?_⟩
    rw [makeReq, hs] at hreq
    simp only [Option.bind_eq_bind, Option.bind_some, Packer.run_eq, List.nil_append] at hreq
    by_cases hprints : ∀ c ∈ r.calls, c.Prints
    · refine ⟨hprints, ?_⟩
      rcases Packer.getPack_cases ⟨r.calls.flatMap PackCall.bytes⟩ r.header with
        ⟨-, hnone⟩ | ⟨hlt, -⟩
      · simp [if_pos hprints, hnone] at hreq
      · exact hlt
    · simp [if_neg hprints] at hreq
  · simp [makeReq, hs] at hreq

/-- A buffer that `Init` turns away. -/
theorem makeReqBuf_of_short (r : DpReq R) (fuel : ℕ) (buf : ℕ → UInt8)
    {len : UInt32} (hlen : len.toNat < msgHeaderLen + 1) :
    r.makeReqBuf fuel buf len = some (-1, ⟨buf, 0, len, errProtocol, [], false⟩) := by
  rw [makeReqBuf, FixedPacker.init, if_pos hlen]

/-- A packer that `Init` has set up. -/
def started (buf : ℕ → UInt8) (len : UInt32) : FixedPacker :=
  ⟨buf, msgHeaderLen, len, 0, [], false⟩

/-- The packer that has made the calls. -/
def packed (r : DpReq R) (buf : ℕ → UInt8) (len : UInt32) : FixedPacker :=
  Run.final FixedPacker.step (started buf len) r.calls

theorem makeReqBuf_of_err (hs : r.script fuel = some ⟨r.calls, retOk⟩) {buf : ℕ → UInt8}
    {len : UInt32} (hlen : msgHeaderLen + 1 ≤ len.toNat) (herr : (r.packed buf len).err ≠ 0) :
    r.makeReqBuf fuel buf len = some (-1, r.packed buf len) := by
  rw [packed, started] at herr ⊢
  rw [makeReqBuf, FixedPacker.init, if_neg (Nat.not_lt.mpr hlen)]
  simp [hs, herr]

theorem makeReqBuf_of_ok (hs : r.script fuel = some ⟨r.calls, retOk⟩) {buf : ℕ → UInt8}
    {len : UInt32} (hlen : msgHeaderLen + 1 ≤ len.toNat) (herr : (r.packed buf len).err = 0) :
    r.makeReqBuf fuel buf len = some ((r.packed buf len).getPack r.header) := by
  rw [packed, started] at herr ⊢
  rw [makeReqBuf, FixedPacker.init, if_neg (Nat.not_lt.mpr hlen)]
  simp [hs, herr]

theorem good_calls (hprints : ∀ c ∈ r.calls, c.Prints) : ∀ c ∈ r.calls, c.Good :=
  fun c hc => ⟨r.plain_calls c hc, hprints c hc⟩

omit [CDouble R] in
theorem inBuf_started (buf : ℕ → UInt8) {len : UInt32} (hlen : msgHeaderLen + 1 ≤ len.toNat) :
    (started buf len).InBuf :=
  FixedPacker.inBuf_init (show FixedPacker.init buf len = some (started buf len) by
    rw [FixedPacker.init, if_neg (Nat.not_lt.mpr hlen), started])

/-- A packer that has not failed has its tail behind the bytes of the calls. -/
theorem tail_packed (h : ∀ c ∈ r.calls, c.Good) {buf : ℕ → UInt8} {len : UInt32}
    (herr : (r.packed buf len).err = 0) : (r.packed buf len).tail + 1 = r.size := by
  rcases FixedPacker.wrote_or_err (p := started buf len) h with hput | herr'
  · have htail := hput.tail
    rw [← packed] at htail
    rw [htail, size]
    rfl
  · exact absurd herr herr'

theorem bufLen_packed (h : ∀ c ∈ r.calls, c.Good) (buf : ℕ → UInt8) (len : UInt32) :
    (r.packed buf len).bufLen = len :=
  FixedPacker.bufLen_final (p := started buf len) h

/-- A packet that is too long for the buffer, or for the packer, is not built in it. -/
theorem not_built (hs : r.script fuel = some ⟨r.calls, retOk⟩)
    (hprints : ∀ c ∈ r.calls, c.Prints) {len : UInt32}
    (hlong : len.toNat < r.size ∨ 2 ^ 31 + msgHeaderLen ≤ len.toNat) {m : ℤ} {p : FixedPacker}
    (hbuf : r.makeReqBuf fuel (fun _ => 0) len = some (m, p)) (hin : p.Inside) :
    p.buf 0 = 0 := by
  have hgood := good_calls hprints
  by_cases hlen : msgHeaderLen + 1 ≤ len.toNat
  · have hstart := inBuf_started (fun _ => 0) hlen
    have herr : (r.packed (fun _ => 0) len).err ≠ 0 := by
      intro herr
      rw [makeReqBuf_of_ok hs hlen herr, Option.some.injEq] at hbuf
      have hget := congrArg Prod.snd hbuf
      dsimp only at hget
      rw [← hget] at hin
      have hfinal := (FixedPacker.inBuf_of_final hgood hstart
        (FixedPacker.inside_of_getPack hin)).1
      have hend := FixedPacker.tail_lt_of_getPack hfinal herr hin
      rw [← packed, bufLen_packed hgood] at hend
      have htail := tail_packed hgood herr
      rcases hlong with hlong | hhuge
      · omega
      · rcases r.calls_head with ⟨v, rest, hcalls⟩
        rw [packed, hcalls] at herr
        rw [hcalls, List.forall_mem_cons] at hgood
        exact FixedPacker.err_of_huge hgood.2 hstart rfl hhuge herr
    rw [makeReqBuf_of_err hs hlen herr] at hbuf
    cases hbuf
    exact FixedPacker.buf_final (p := started (fun _ => 0) len) hgood (i := 0) (Nat.succ_pos 28)
  · rw [makeReqBuf_of_short r fuel _ (by omega)] at hbuf
    cases hbuf
    rfl

/-- In a buffer that is too small a length of `2 ^ 31` or more is mistaken for a negative one. -/
theorem short_of_inside (h : ∀ c ∈ r.calls, c.Good)
    (hs : r.script fuel = some ⟨r.calls, retOk⟩) {buf : ℕ → UInt8} {len : UInt32}
    (hlen : msgHeaderLen + 1 ≤ len.toNat) (hint : len.toNat < 2 ^ 31) {m : ℤ} {p : FixedPacker}
    (hbuf : r.makeReqBuf fuel buf len = some (m, p)) (hin : p.Inside) :
    ∀ c ∈ r.calls, c.bytes.length < 2 ^ 31 := by
  have hpacked : (r.packed buf len).Inside := by
    by_cases herr : (r.packed buf len).err ≠ 0
    · rw [makeReqBuf_of_err hs hlen herr] at hbuf
      cases hbuf
      exact hin
    · rw [makeReqBuf_of_ok hs hlen (not_not.mp herr), Option.some.injEq] at hbuf
      have hget := congrArg Prod.snd hbuf
      dsimp only at hget
      rw [← hget] at hin
      exact FixedPacker.inside_of_getPack hin
  exact (FixedPacker.inBuf_of_final h (inBuf_started buf hlen) hpacked).2 hint

/-- A packet that fits is built. -/
theorem built (h : ∀ c ∈ r.calls, c.Good) (hs : r.script fuel = some ⟨r.calls, retOk⟩)
    {len : UInt32} (hsize : r.size ≤ len.toNat) (hlen : len.toNat < 2 ^ 31 + msgHeaderLen)
    {req : List UInt8} (hreq : Packer.getPack ⟨r.calls.flatMap PackCall.bytes⟩ r.header = some req)
    (buf : ℕ → UInt8) :
    ∃ p, r.makeReqBuf fuel buf len = some (s32 r.packLen, p) ∧
      Mem.read p.buf 0 req.length = req ∧ p.Inside := by
  have hlt := len.toNat_lt
  have hroom : msgHeaderLen + 1 ≤ len.toNat := by rw [size] at hsize; omega
  have hput := FixedPacker.wrote_of_fits h (inBuf_started buf hroom) hlen
    (by change msgHeaderLen + _ ≤ len.toNat; rw [size] at hsize; omega)
  have herr : (r.packed buf len).err = 0 := hput.1.err
  have htail := tail_packed h herr
  have hbody : u32 (r.calls.flatMap PackCall.bytes).length =
      (r.calls.flatMap PackCall.bytes).length := by
    refine u32_of_lt ?_
    rw [size] at hsize
    omega
  have hpack := FixedPacker.getPack_of_wrote hput.1 rfl hput.2 herr
    (by rw [← packed, bufLen_packed h]; omega) r.header
  rw [← packed, htail] at hpack
  have hreq' : Packer.getPack ⟨r.calls.flatMap PackCall.bytes⟩ r.header = _ := Packer.getPack_eq
    (by rw [size] at hsize; dsimp only; omega)
  rw [hreq, Option.some.injEq] at hreq'
  rw [makeReqBuf_of_ok hs hroom herr]
  refine ⟨_, ?_, ?_, hpack.2.2⟩
  · rw [packLen, hbody, ← size, ← hpack.1]
  · rw [hreq']
    exact hpack.2.1

/-- **The two encoders agree exactly if the packet fits, and the packer sees that it does.** -/
theorem encoders_agree_iff (r : DpReq R) (h : r.Valid) (len : UInt32) :
    r.Agrees len ↔ r.Fits len := by
  constructor
  · rintro ⟨fuel, n, req, hreq, hagree⟩
    rcases of_makeReq h.ends hreq with ⟨hs, hprints, hlen⟩
    rcases makeReq_eq hs hprints hlen with ⟨req', hreq', hlength, hsoh, -⟩
    rw [hreq, Option.some.injEq, Prod.mk.injEq, Option.some.injEq] at hreq'
    rw [hreq'.1, hreq'.2] at hagree
    rcases hagree (fun _ => 0) with ⟨m, p, hbuf, hlarge, hsmall⟩
    constructor
    · exact hprints
    · exact hlen
    · intro hle
      rcases hlarge hle with ⟨-, hread, hin⟩
      by_contra hlong
      have hzero := not_built hs hprints (by omega) hbuf hin
      rw [← hread, hlength, packLen] at hsoh
      rw [List.getElem?_eq_getElem (by simp), Mem.getElem_read, hzero] at hsoh
      exact absurd hsoh (by decide)
    · intro hroom hle
      have hint : s32 r.packLen < 2 ^ 31 := by rw [s32]; omega
      exact short_of_inside (good_calls hprints) hs hroom (by omega) hbuf (hsmall hle).2
  · intro hfits
    have hgood := good_calls hfits.prints
    rcases exists_script h.ends with ⟨fuel, hs⟩
    rcases makeReq_eq hs hfits.prints hfits.packLen with ⟨req, hreq, hlength, -, hpack⟩
    refine ⟨fuel, _, req, hreq, ?_⟩
    intro buf
    by_cases hle : s32 r.packLen ≤ len.toNat
    · rcases hfits.large hle with ⟨hsize, hlen⟩
      rcases built hgood hs hsize hlen hpack buf with ⟨p, hbuf, hread, hin⟩
      exact ⟨_, p, hbuf, fun _ => ⟨rfl, hread, hin⟩, fun hlt => by omega⟩
    · by_cases hroom : msgHeaderLen + 1 ≤ len.toNat
      · by_cases herr : (r.packed buf len).err ≠ 0
        · refine ⟨_, _, makeReqBuf_of_err hs hroom herr, fun hlt => absurd hlt hle, ?_⟩
          intro hlt
          have hin := FixedPacker.inBuf_final hgood (inBuf_started buf hroom)
            (hfits.small hroom hlt)
          exact ⟨rfl, hin.toInside⟩
        · refine ⟨_, _, makeReqBuf_of_ok hs hroom (not_not.mp herr),
            fun hlt => absurd hlt hle, ?_⟩
          intro hlt
          have hin := FixedPacker.inBuf_final hgood (inBuf_started buf hroom)
            (hfits.small hroom hlt)
          have htail := tail_packed hgood (not_not.mp herr)
          have hend := hin.tail_le
          have hmod := Nat.mod_le (r.calls.flatMap PackCall.bytes).length (2 ^ 32)
          rw [← packed, bufLen_packed hgood] at hend
          rw [size] at htail
          rw [s32, packLen, u32] at hlt
          omega
      · rw [makeReqBuf_of_short r fuel _ (by omega)]
        refine ⟨_, _, rfl, fun hlt => absurd hlt hle, fun _ => ⟨rfl, ?_⟩⟩
        exact ⟨fun r hr => absurd hr List.not_mem_nil, rfl⟩

/-- An update of a number where another field is a string. -/
def sampleUpdate : DpReq Unit :=
  .update ⟨{}, [⟨1, 0, ⟨5, 2, 0, (), [97, 98]⟩⟩], [⟨2, 0, ⟨2, 0, 7, (), []⟩⟩], [], false⟩

theorem encoders_agree_update : sampleUpdate.Agrees 100 ∧ sampleUpdate.Agrees 40 := by
  have hvalid : sampleUpdate.Valid := ⟨by decide, by decide, by decide, by decide⟩
  constructor
  · exact (encoders_agree_iff sampleUpdate hvalid 100).mpr
      ⟨by decide, by decide, by decide, by decide⟩
  · exact (encoders_agree_iff sampleUpdate hvalid 40).mpr
      ⟨by decide, by decide, by decide, by decide⟩

/-- An insert of no fields, which has 36 bytes. -/
def emptyInsert : DpReq Unit := .insert ⟨{}, [], false⟩

theorem valid_emptyInsert : emptyInsert.Valid :=
  ⟨by decide, by decide, by decide, fun c hc => by simp [emptyInsert, conds, fields] at hc⟩

/-- A buffer of `2 ^ 31 + 29` bytes is turned away. -/
theorem not_encoders_agree : ¬∀ (r : DpReq Unit), r.Valid → ∀ len, r.Agrees len := by
  intro h
  rcases h emptyInsert valid_emptyInsert 2147483677 with ⟨fuel, n, req, hreq, hagree⟩
  rcases hagree (fun _ => 0) with ⟨m, p, hbuf, hlarge, -⟩
  have hn : (emptyInsert.makeReq 0).map Prod.fst = some 36 := by decide +kernel
  have hm : (emptyInsert.makeReqBuf 0 (fun _ => 0) 2147483677).map Prod.fst = some (-1) := by
    decide +kernel
  have hfuel : emptyInsert.script fuel = emptyInsert.script 0 := rfl
  rw [makeReq, hfuel, ← makeReq] at hreq
  rw [makeReqBuf, hfuel, ← makeReqBuf] at hbuf
  rw [hreq, Option.map_some, Option.some.injEq] at hn
  rw [hbuf, Option.map_some, Option.some.injEq] at hm
  have hsame := (hlarge (by dsimp only at hn; rw [hn]; decide)).1
  dsimp only at hn hm
  omega

end DpReq

end Spp
