import Spp.Proto.Encoders
import Spp.Proto.RoundTrip
import Spp.Lib.Codec

/-!
# Requests that can be read back

The body of a request says what the request says, unless a count, a length or a value does not fit
the bytes it is given.  Where a builder goes wrong before that, it does not end, or it returns the
error of `PackTLV`, which is positive as a size is.

## Main definitions

* `TLV.Kept`, `DpReq.Kept` — everything fits its bytes.
* `DpReq.Says` — what a body says in its documented order is what the request says.
* `DpReq.Decodable` — if the builder returns a positive number, it has built a packet of that
  size whose body says what the request says.
* `DpReq.Clean` — when this is so.
-/

namespace Spp

open Format

variable {R : Type}

/-! ## Bodies -/

/-- The member that the type selects fits the bytes that are packed for it, and a string has the
announced length. -/
def TLV.Kept [CDouble R] (t : TLV R) : Prop :=
  match TlvKind.ofType t.type with
  | some .byte => t.intValue.toNat < 2 ^ 8
  | some .word => t.intValue.toNat < 2 ^ 16
  | some .dword => t.intValue.toNat < 2 ^ 32
  | some .qword => True
  | some .real => CDouble.atof (CDouble.sprintf t.realValue) = t.realValue
  | some .binary => t.stringValue.length = t.length.toNat
  | none => False

/-- An operator that is packed as a byte. -/
def byteOp : Parser UInt16 := fun bs => (byte bs).map fun r => (r.1.toUInt16, r.2)

section
variable [CDouble R]

def readCond (op : Parser UInt16) : Parser (UInt32 × UInt16 × TlvView R) :=
  seq dword (seq op tlvView)

def readField : Parser (UInt32 × TlvView R) := seq dword tlvView

end

namespace ConditionExpression

/-- What a condition says. -/
def view (c : ConditionExpression R) : UInt32 × UInt16 × TlvView R :=
  (c.fieldId, c.opCode.toUInt16, c.data.view)

/-- What a field says. -/
def fieldView (c : ConditionExpression R) : UInt32 × TlvView R := (c.fieldId, c.data.view)

end ConditionExpression

variable [CDouble R]

namespace DpReq

/-- What a body says in its documented order is what the request says. -/
def Says : DpReq R → List UInt8 → Prop
  | .query r, body =>
      let flags : UInt16 := if r.bPrimaryKey then primaryKeyFlagMask else 0
      seq word (seq (counted (readCond byteOp))
        (seq lengthed (seq (counted dword) lengthed))) body =
          some ((flags, r.condSet.map (·.view), r.logicExp, r.retFieldSet, r.cookie), [])
  | .update r, body =>
      let flags : UInt16 := if !r.bAsyn then syncFlagMask else 0
      seq word (seq (counted (readCond byteOp))
        (seq lengthed (seq (counted readField) lengthed))) body =
          some ((flags, r.condFieldSet.map (·.view), r.logicExp,
            r.updFieldSet.map (·.fieldView), r.cookie), [])
  | .insert r, body =>
      let flags : UInt16 := if !r.bAsyn then syncFlagMask else 0
      seq word (seq (counted readField) lengthed) body =
        some ((flags, r.insFieldSet.map (·.fieldView), r.cookie), [])
  | .delete r, body =>
      let flags : UInt16 := if !r.bAsyn then syncFlagMask else 0
      seq word (seq (counted (readCond byteOp)) (seq lengthed lengthed)) body =
        some ((flags, r.condFieldSet.map (·.view), r.logicExp, r.cookie), [])
  | .count r, body =>
      seq word (seq (counted (readCond byteOp)) (seq lengthed lengthed)) body =
        some ((0, r.condFieldSet.map (·.view), r.logicExp, r.cookie), [])
  | .condFind r, body =>
      seq word (seq word (seq (counted (readCond word)) lengthed)) body =
        some ((r.nLimitNumber, r.nStatus, r.condSet.map (·.view), r.cookie), [])

/-- The logic expression of a request. -/
def logicExp : DpReq R → List UInt8
  | .query r => r.logicExp
  | .update r => r.logicExp
  | .insert _ => []
  | .delete r => r.logicExp
  | .count r => r.logicExp
  | .condFind _ => []

/-- The cookie of a request. -/
def cookie : DpReq R → List UInt8
  | .query r => r.cookie
  | .update r => r.cookie
  | .insert r => r.cookie
  | .delete r => r.cookie
  | .count r => r.cookie
  | .condFind r => r.cookie

/-- Every count, length and value fits its bytes. -/
structure Kept (r : DpReq R) : Prop where
  conds : r.conds.length < 65536
  fields : r.fields.length < 65536
  retFields : r.retFields.length < 65536
  logicExp : r.logicExp.length < 65536
  cookie : r.cookie.length < 65536
  values : ∀ c ∈ r.conds ++ r.fields, c.data.Kept

end DpReq

/-! ## What is read of the calls -/

variable {t : TLV R}

/-- The head of a value, and what is read behind it. -/
theorem reads_tlvView_of {kind : TlvKind} (hkind : TlvKind.ofType t.type = some kind)
    {vs : List UInt8} (hv : Reads (tlvValue t.length kind) vs t.view.value t.Kept) :
    Reads tlvView ([t.type] ++ (be 4 t.length.toNat ++ vs)) t.view t.Kept where
  whole := by
    intro hkept ys
    simp only [List.append_assoc, tlvView, (exact_byte t.type).whole,
      (exact_dword t.length).whole, Option.bind_eq_bind, Option.bind_some, hkind,
      hv.whole hkept ys]
    rfl
  part := by
    intro d bs ys rest hcut hr
    simp only [tlvView, Option.bind_eq_bind, Option.bind_eq_some_iff, Prod.exists,
      Option.some.injEq, Prod.mk.injEq] at hr
    rcases hr with
      ⟨type, bs₁, htype, length, bs₂, hlength, kind', hkind', value, bs₃, hvalue, hview, rfl⟩
    rw [List.append_assoc, List.append_assoc] at hcut
    have hbyte := (exact_byte t.type).part d bs _ type bs₁ hcut htype
    have hdword := (exact_dword t.length).part d bs₁ _ length bs₂ hbyte.2 hlength
    rw [hbyte.1, hkind, Option.some.injEq] at hkind'
    have hsame : value = t.view.value := congrArg TlvView.value hview
    rw [hdword.1, ← hkind', hsame] at hvalue
    exact hv.part d bs₂ ys _ hdword.2 hvalue

theorem reads_tlvView (t : TLV R) :
    Reads tlvView ((tlvScript t).calls.flatMap PackCall.bytes) t.view t.Kept := by
  rw [tlvScript]
  cases hkind : TlvKind.ofType t.type with
  | none =>
      refine ⟨fun hkept => ?_, ?_⟩
      · simp [TLV.Kept, hkind] at hkept
      · intro d bs ys rest hcut hr
        simp only [tlvView, Option.bind_eq_bind, Option.bind_eq_some_iff, Prod.exists,
          Option.some.injEq, Prod.mk.injEq] at hr
        rcases hr with ⟨type, bs₁, -, length, bs₂, -, kind, hkind', value, bs₃, -, hview, -⟩
        have hsame : type = t.type := congrArg TlvView.type hview
        rw [hsame, hkind] at hkind'
        cases hkind'
  | some kind =>
      cases kind with
      | byte =>
          have hv : Reads (tlvValue t.length .byte) [t.intValue.toUInt8] t.view.value t.Kept := by
            refine Reads.congr ((exact_byte t.intValue.toUInt8).map
              (fun v => TlvValue.int v.toUInt64) t.view.value) ?_
            simp only [TLV.view, TLV.Kept, hkind, TlvValue.int.injEq, ← UInt64.toNat_inj]
            simp
          simpa using reads_tlvView_of hkind hv
      | word =>
          have hv : Reads (tlvValue t.length .word) (be 2 t.intValue.toUInt16.toNat)
              t.view.value t.Kept := by
            refine Reads.congr ((exact_word t.intValue.toUInt16).map
              (fun v => TlvValue.int v.toUInt64) t.view.value) ?_
            simp only [TLV.view, TLV.Kept, hkind, TlvValue.int.injEq, ← UInt64.toNat_inj]
            simp
          simpa using reads_tlvView_of hkind hv
      | dword =>
          have hv : Reads (tlvValue t.length .dword) (be 4 t.intValue.toUInt32.toNat)
              t.view.value t.Kept := by
            refine Reads.congr ((exact_dword t.intValue.toUInt32).map
              (fun v => TlvValue.int v.toUInt64) t.view.value) ?_
            simp only [TLV.view, TLV.Kept, hkind, TlvValue.int.injEq, ← UInt64.toNat_inj]
            simp
          simpa using reads_tlvView_of hkind hv
      | qword =>
          have hv : Reads (tlvValue t.length .qword) (be 8 t.intValue.toNat)
              t.view.value t.Kept := by
            refine Reads.congr ((exact_qword t.intValue).map TlvValue.int t.view.value) ?_
            simp [TLV.view, TLV.Kept, hkind]
          simpa using reads_tlvView_of hkind hv
      | real =>
          have hpos : 0 < (CDouble.sprintf t.realValue).length :=
            List.length_pos_of_ne_nil (CDouble.sprintf_ne_nil t.realValue)
          have hv : Reads (tlvValue t.length .real) (CDouble.sprintf t.realValue ++ [0])
              t.view.value t.Kept := by
            refine Reads.congr ((exact_cstr (CDouble.nul_notMem t.realValue)).map
              (fun s => TlvValue.real (if s.length > 0 then CDouble.atof s else CDouble.zero))
              t.view.value) ?_
            simp [TLV.view, TLV.Kept, hkind, hpos]
          simpa using reads_tlvView_of hkind hv
      | binary =>
          have hlen : (UInt32.ofNat t.stringValue.length).toNat = u32 t.stringValue.length := by
            simp [u32]
          have hbytes : (PackCall.data t.stringValue (.ofNat t.stringValue.length) :
              PackCall R).bytes = _ := bytes_data t.stringValue
            (by rw [hlen]; exact Nat.mod_le _ _)
          have htake : Reads (take t.length.toNat) (t.stringValue.take (u32 t.stringValue.length))
              t.stringValue _ := reads_take (by
              intro hsame
              have hlt := t.length.toNat_lt
              rw [u32_of_lt (by omega)])
          have hv : Reads (tlvValue t.length .binary)
              (t.stringValue.take (u32 t.stringValue.length)) t.view.value t.Kept := by
            have hmap := htake.map (f := TlvValue.bytes (R := R)) (by
              intro a b hab
              exact TlvValue.bytes.inj hab)
            have hview : t.view.value = .bytes t.stringValue := by simp [TLV.view, hkind]
            rw [hview]
            exact hmap.congr (by simp [TLV.Kept, hkind])
          rw [hlen] at hbytes
          simpa [hbytes] using reads_tlvView_of hkind hv

/-- The bytes of a condition whose operator is packed by `op`. -/
def condBytes (op : UInt8 → PackCall R) (c : ConditionExpression R) : List UInt8 :=
  (condScript op c).calls.flatMap PackCall.bytes

/-- The bytes of a field. -/
def fieldBytes (f : ConditionExpression R) : List UInt8 :=
  be 4 f.fieldId.toNat ++ (tlvScript f.data).calls.flatMap PackCall.bytes

theorem reads_cond {op : UInt8 → PackCall R} {p : Parser UInt16}
    (hop : ∀ v, Reads p (op v).bytes v.toUInt16 True) (c : ConditionExpression R) :
    Reads (readCond p) (condBytes op c) c.view c.data.Kept := by
  have hcond := (exact_dword c.fieldId).reads.seq ((hop c.opCode).seq (reads_tlvView c.data))
  have hbytes : condBytes op c = be 4 c.fieldId.toNat ++
      ((op c.opCode).bytes ++ (tlvScript c.data).calls.flatMap PackCall.bytes) := by
    simp [condBytes, condScript]
  rw [hbytes]
  exact hcond.congr (by simp)

theorem reads_byteOp (v : UInt8) : Reads byteOp (PackCall.byte v : PackCall R).bytes v.toUInt16
    True :=
  (exact_byte v).reads.map (f := UInt8.toUInt16) (by
    intro a b hab
    have hsame := congrArg UInt16.toNat hab
    rw [UInt8.toNat_toUInt16, UInt8.toNat_toUInt16] at hsame
    exact UInt8.toNat_inj.mp hsame)

theorem reads_wordOp (v : UInt8) :
    Reads word (DpCondFindReq.packOp v : PackCall R).bytes v.toUInt16 True :=
  (exact_word v.toUInt16).reads

theorem reads_field (f : ConditionExpression R) :
    Reads readField (fieldBytes f) f.fieldView f.data.Kept :=
  ((exact_dword f.fieldId).reads.seq (reads_tlvView f.data)).congr (by simp)

/-- The bytes of a string behind its length. -/
def lengthedBytes (s : List UInt8) : List UInt8 :=
  be 2 (UInt16.ofNat s.length).toNat ++ s.take (UInt16.ofNat s.length).toNat

/-- The bytes of a list behind its count. -/
def countedBytes {ι : Type} (enc : ι → List UInt8) (is : List ι) : List UInt8 :=
  be 2 (UInt16.ofNat is.length).toNat ++ (is.take (UInt16.ofNat is.length).toNat).flatMap enc

theorem bytes_logicCalls (s : List UInt8) :
    (logicCalls s : List (PackCall R)).flatMap PackCall.bytes = lengthedBytes s ∧
      (logicCallsIf s : List (PackCall R)).flatMap PackCall.bytes = lengthedBytes s := by
  have hle : (UInt16.ofNat s.length).toUInt32.toNat ≤ s.length := by
    rw [UInt16.toNat_toUInt32]
    exact Nat.mod_le _ _
  have hdata := bytes_data (R := R) s hle
  rw [UInt16.toNat_toUInt32] at hdata
  constructor
  · simp only [logicCalls, List.flatMap_cons, List.flatMap_nil, hdata, List.append_nil]
    rfl
  · rw [logicCallsIf]
    by_cases hpos : (UInt16.ofNat s.length).toNat > 0
    · simp only [if_pos hpos, List.flatMap_append, List.flatMap_cons, List.flatMap_nil, hdata,
        List.append_nil]
      rfl
    · have hzero : (UInt16.ofNat s.length).toNat = 0 := by omega
      simp [lengthedBytes, hzero]

theorem BaseDpReq.bytes_cookieCalls (r : BaseDpReq) :
    (r.cookieCalls : List (PackCall R)).flatMap PackCall.bytes = lengthedBytes r.cookie :=
  (bytes_logicCalls r.cookie).1

theorem bytes_fieldCalls (fields : List (ConditionExpression R)) (n : ℕ) :
    (fieldCalls n fields).flatMap PackCall.bytes = (fields.take n).flatMap fieldBytes := by
  rw [fieldCalls, List.flatMap_assoc]
  simp only [List.cons_append, List.nil_append, List.flatMap_cons, PackCall.bytes_dword]
  rfl

theorem bytes_retFields (fields : List UInt32) (n : ℕ) :
    ((fields.take n).map (PackCall.dword : UInt32 → PackCall R)).flatMap PackCall.bytes =
      (fields.take n).flatMap fun v => be 4 v.toNat := by
  rw [List.flatMap_map]
  rfl

namespace DpReq

theorem reads_conds {op : UInt8 → PackCall R} {p : Parser UInt16}
    (hop : ∀ v, Reads p (op v).bytes v.toUInt16 True) (conds : List (ConditionExpression R)) :
    Reads (counted (readCond p)) (countedBytes (condBytes op) conds) (conds.map (·.view))
      (conds.length < 65536 ∧ ∀ c ∈ conds, c.data.Kept) :=
  reads_counted rfl fun c _ => reads_cond hop c

theorem reads_fields (fields : List (ConditionExpression R)) :
    Reads (counted readField) (countedBytes fieldBytes fields) (fields.map (·.fieldView))
      (fields.length < 65536 ∧ ∀ c ∈ fields, c.data.Kept) :=
  reads_counted rfl fun f _ => reads_field f

theorem reads_string (s : List UInt8) :
    Reads lengthed (lengthedBytes s) s (s.length < 65536) := reads_lengthed rfl

theorem reads_retFields (fields : List UInt32) :
    Reads (counted dword) (countedBytes (fun v : UInt32 => be 4 v.toNat) fields) fields
      (fields.length < 65536) := by
  have hreads := reads_counted (l := fields) rfl fun v _ => (exact_dword v).reads
  rw [List.map_id'] at hreads
  exact hreads.congr (by simp)

theorem kept_iff (r : DpReq R) :
    r.Kept ↔ (r.conds.length < 65536 ∧ ∀ c ∈ r.conds, c.data.Kept) ∧
      (r.fields.length < 65536 ∧ ∀ c ∈ r.fields, c.data.Kept) ∧ r.retFields.length < 65536 ∧
      r.logicExp.length < 65536 ∧ r.cookie.length < 65536 := by
  constructor
  · intro h
    have hvalues := List.forall_mem_append.mp h.values
    exact ⟨⟨h.conds, hvalues.1⟩, ⟨h.fields, hvalues.2⟩, h.retFields, h.logicExp, h.cookie⟩
  · rintro ⟨⟨hconds, hcv⟩, ⟨hfields, hfv⟩, hret, hlogic, hcookie⟩
    exact ⟨hconds, hfields, hret, hlogic, hcookie, List.forall_mem_append.mpr ⟨hcv, hfv⟩⟩

omit [CDouble R] in
/-- A loop that ends goes through as many conditions as 16 bits say. -/
theorem condNum_eq {r : DpReq R} (h : r.Ends) : r.condNum = r.conds.length % 65536 := by
  have hlt := h.condNum
  have hcut : ∀ n : ℕ, n % 2 ^ 32 < 65536 → n % 2 ^ 32 = n % 65536 := by omega
  cases r with
  | query r => exact hcut _ hlt
  | condFind r => exact hcut _ hlt
  | insert r => rfl
  | update r => exact UInt16.toNat_ofNat'
  | delete r => exact UInt16.toNat_ofNat'
  | count r => exact UInt16.toNat_ofNat'

/-- The count of the conditions, and the conditions. -/
theorem bytes_conds {r : DpReq R} (h : r.Ends) :
    countedBytes (condBytes r.packOp) r.conds = be 2 (UInt16.ofNat r.condNum).toNat ++
      ((r.conds.take r.condNum).flatMap fun c => (condScript r.packOp c).calls).flatMap
        PackCall.bytes := by
  have hnum := condNum_eq h
  have hcount : UInt16.ofNat r.conds.length = UInt16.ofNat r.condNum := by
    rw [← UInt16.toNat_inj, UInt16.toNat_ofNat', UInt16.toNat_ofNat', hnum]
    omega
  have htake : (UInt16.ofNat r.condNum).toNat = r.condNum :=
    UInt16.toNat_ofNat_of_lt' h.condNum
  rw [countedBytes, hcount, htake, List.flatMap_assoc]
  rfl

/-- The bytes of the calls, from the beginning on, are read as the request if everything fits. -/
theorem says_iff {r : DpReq R} (h : r.Ends) (n : ℕ) :
    r.Says ((r.calls.flatMap PackCall.bytes).take n) ↔
      r.Kept ∧ (r.calls.flatMap PackCall.bytes).length ≤ n := by
  have hconds := bytes_conds h
  cases r with
  | query r =>
      have hbytes : (calls (.query r)).flatMap PackCall.bytes =
          be 2 (if r.bPrimaryKey then primaryKeyFlagMask else 0 : UInt16).toNat ++
            (countedBytes (condBytes (packOp (.query r))) (conds (.query r)) ++
              (lengthedBytes r.logicExp ++
                (countedBytes (fun v : UInt32 => be 4 v.toNat) r.retFieldSet ++
                  lengthedBytes r.cookie))) := by
        rw [hconds]
        simp only [calls, front, back, DpQueryReq.front, DpQueryReq.back, List.flatMap_append,
          List.flatMap_cons, List.flatMap_nil, PackCall.bytes_word, (bytes_logicCalls _).2,
          r.bytes_cookieCalls, bytes_retFields, List.append_assoc, List.nil_append, countedBytes]
        rfl
      have hreads := (exact_word (if r.bPrimaryKey then primaryKeyFlagMask else 0)).reads.seq
        ((reads_conds (R := R) reads_byteOp r.condSet).seq ((reads_string r.logicExp).seq
          ((reads_retFields r.retFieldSet).seq (reads_string r.cookie))))
      have hkept : Kept (.query r) ↔ _ := kept_iff _
      simp only [conds, fields, retFields, logicExp, cookie] at hkept
      rw [hbytes, Says]
      refine (hreads.congr ?_).take_iff n
      rw [hkept]
      simp
      tauto
  | update r =>
      have hbytes : (calls (.update r)).flatMap PackCall.bytes =
          be 2 (if !r.bAsyn then syncFlagMask else 0 : UInt16).toNat ++
            (countedBytes (condBytes (packOp (.update r))) (conds (.update r)) ++
              (lengthedBytes r.logicExp ++
                (countedBytes fieldBytes r.updFieldSet ++ lengthedBytes r.cookie))) := by
        rw [hconds]
        simp only [calls, front, back, DpUpdateReq.front, DpUpdateReq.back, List.flatMap_append,
          List.flatMap_cons, List.flatMap_nil, PackCall.bytes_word, (bytes_logicCalls _).1,
          r.bytes_cookieCalls, bytes_fieldCalls, List.append_assoc, List.nil_append, countedBytes,
          condNum, UInt16.ofNat_toNat]
      have hreads := (exact_word (if !r.bAsyn then syncFlagMask else 0 : UInt16)).reads.seq
        ((reads_conds (R := R) reads_byteOp r.condFieldSet).seq ((reads_string r.logicExp).seq
          ((reads_fields r.updFieldSet).seq (reads_string r.cookie))))
      have hkept : Kept (.update r) ↔ _ := kept_iff _
      simp only [conds, fields, retFields, logicExp, cookie] at hkept
      rw [hbytes, Says]
      refine (hreads.congr ?_).take_iff n
      rw [hkept]
      simp
      tauto
  | insert r =>
      have hbytes : (calls (.insert r)).flatMap PackCall.bytes =
          be 2 (if !r.bAsyn then syncFlagMask else 0 : UInt16).toNat ++
            (countedBytes fieldBytes r.insFieldSet ++ lengthedBytes r.cookie) := by
        simp only [calls, front, back, conds, List.take_nil, DpInsertReq.front, DpInsertReq.back,
          List.flatMap_append, List.flatMap_cons, List.flatMap_nil, PackCall.bytes_word,
          r.bytes_cookieCalls, bytes_fieldCalls, List.append_assoc, List.nil_append, countedBytes]
      have hreads := (exact_word (if !r.bAsyn then syncFlagMask else 0 : UInt16)).reads.seq
        ((reads_fields r.insFieldSet).seq (reads_string r.cookie))
      have hkept : Kept (.insert r) ↔ _ := kept_iff _
      simp only [conds, fields, retFields, logicExp, cookie] at hkept
      rw [hbytes, Says]
      refine (hreads.congr ?_).take_iff n
      rw [hkept]
      simp
  | delete r =>
      have hbytes : (calls (.delete r)).flatMap PackCall.bytes =
          be 2 (if !r.bAsyn then syncFlagMask else 0 : UInt16).toNat ++
            (countedBytes (condBytes (packOp (.delete r))) (conds (.delete r)) ++
              (lengthedBytes r.logicExp ++ lengthedBytes r.cookie)) := by
        rw [hconds]
        simp only [calls, front, back, DpDeleteReq.front, DpDeleteReq.back, List.flatMap_append,
          List.flatMap_cons, List.flatMap_nil, PackCall.bytes_word, (bytes_logicCalls _).1,
          r.bytes_cookieCalls, List.append_assoc, List.nil_append, condNum, UInt16.ofNat_toNat]
      have hreads := (exact_word (if !r.bAsyn then syncFlagMask else 0 : UInt16)).reads.seq
        ((reads_conds (R := R) reads_byteOp r.condFieldSet).seq ((reads_string r.logicExp).seq
          (reads_string r.cookie)))
      have hkept : Kept (.delete r) ↔ _ := kept_iff _
      simp only [conds, fields, retFields, logicExp, cookie] at hkept
      rw [hbytes, Says]
      refine (hreads.congr ?_).take_iff n
      rw [hkept]
      simp
  | count r =>
      have hbytes : (calls (.count r)).flatMap PackCall.bytes =
          be 2 (0 : UInt16).toNat ++
            (countedBytes (condBytes (packOp (.count r))) (conds (.count r)) ++
              (lengthedBytes r.logicExp ++ lengthedBytes r.cookie)) := by
        rw [hconds]
        simp only [calls, front, back, DpCountReq.front, DpCountReq.back, List.flatMap_append,
          List.flatMap_cons, List.flatMap_nil, PackCall.bytes_word, (bytes_logicCalls _).2,
          r.bytes_cookieCalls, List.append_assoc, List.nil_append, condNum, UInt16.ofNat_toNat]
      have hreads := (exact_word 0).reads.seq
        ((reads_conds (R := R) reads_byteOp r.condFieldSet).seq ((reads_string r.logicExp).seq
          (reads_string r.cookie)))
      have hkept : Kept (.count r) ↔ _ := kept_iff _
      simp only [conds, fields, retFields, logicExp, cookie] at hkept
      rw [hbytes, Says]
      refine (hreads.congr ?_).take_iff n
      rw [hkept]
      simp
  | condFind r =>
      have hbytes : (calls (.condFind r)).flatMap PackCall.bytes =
          be 2 r.nLimitNumber.toNat ++ (be 2 r.nStatus.toNat ++
            (countedBytes (condBytes (packOp (.condFind r))) (conds (.condFind r)) ++
              lengthedBytes r.cookie)) := by
        rw [hconds]
        simp only [calls, front, back, DpCondFindReq.front, DpCondFindReq.back,
          List.flatMap_append, List.flatMap_cons, List.flatMap_nil, PackCall.bytes_word,
          r.bytes_cookieCalls, List.append_assoc, List.nil_append, condNum]
      have hreads := (exact_word r.nLimitNumber).reads.seq ((exact_word r.nStatus).reads.seq
        ((reads_conds (R := R) reads_wordOp r.condSet).seq (reads_string r.cookie)))
      have hkept : Kept (.condFind r) ↔ _ := kept_iff _
      simp only [conds, fields, retFields, logicExp, cookie] at hkept
      rw [hbytes, Says]
      refine (hreads.congr ?_).take_iff n
      rw [hkept]
      simp

end DpReq

/-! ## Where the builders end -/

omit [CDouble R] in
theorem known_of_ret {tlv : TLV R} (h : (tlvScript tlv).ret = retOk) :
    (TlvKind.ofType tlv.type).isSome := by
  cases hkind : TlvKind.ofType tlv.type with
  | none => simp [tlvScript, hkind, errProtocol, retOk] at h
  | some kind => rfl

omit [CDouble R] in
/-- A loop that ends without an error has gone through less than 65536 conditions, all of a known
type: its counter would begin again. -/
theorem condLoop_ends (op : UInt8 → PackCall R) {conds : List (ConditionExpression R)} {num : ℕ}
    (hnum : num ≤ conds.length) {fuel : ℕ} {i : UInt16} (hi : i.toNat ≤ num) {s : Script R}
    (hs : condLoop op conds num fuel i = some s) (hret : s.ret = retOk) :
    num < 65536 ∧ ∀ c ∈ (conds.take num).drop i.toNat, (TlvKind.ofType c.data.type).isSome := by
  induction fuel generalizing i s with
  | zero => cases hs
  | succ fuel ih =>
      have hlt := i.toNat_lt
      rw [condLoop] at hs
      by_cases hend : i.toNat < num
      · have hlen : i.toNat < (conds.take num).length := by rw [List.length_take]; omega
        have hcond : conds[i.toNat]? = some (conds.take num)[i.toNat] := by
          rw [List.getElem_take, List.getElem?_eq_getElem]
        rw [if_pos hend, hcond] at hs
        dsimp only at hs
        by_cases hone : (condScript op (conds.take num)[i.toNat]).ret = retOk
        · rw [if_neg (not_not.mpr hone)] at hs
          cases hrest : condLoop op conds num fuel (i + 1) with
          | none => simp [hrest] at hs
          | some rest =>
              simp only [hrest, Option.map_some, Option.some.injEq] at hs
              subst hs
              have hnext : (i + 1).toNat = (i.toNat + 1) % 65536 := UInt16.toNat_add i 1
              have hih := ih (by omega) hrest hret
              -- the counter does not begin again, for then it would not be below the bound
              rw [hnext, Nat.mod_eq_of_lt (by omega)] at hih
              rw [List.drop_eq_getElem_cons hlen, List.forall_mem_cons]
              exact ⟨hih.1, known_of_ret hone, hih.2⟩
        · rw [if_pos hone, Option.some.injEq] at hs
          subst hs
          exact absurd hret hone
      · have hdrop : (conds.take num).drop i.toNat = [] := by
          refine List.drop_eq_nil_of_le ?_
          rw [List.length_take]
          omega
        rw [hdrop]
        exact ⟨by omega, by simp⟩

/-- `GetPack` takes as much of the stream as 32 bits say. -/
theorem Packer.getPack_take (pk : Packer) (h : MsgHeader) :
    pk.getPack h = (⟨pk.oss.take (u32 pk.oss.length)⟩ : Packer).getPack h := by
  have hlen : u32 (pk.oss.take (u32 pk.oss.length)).length = u32 pk.oss.length := by
    have hle : u32 pk.oss.length ≤ pk.oss.length := Nat.mod_le _ _
    rw [List.length_take, Nat.min_eq_left hle, u32_of_lt (u32_lt _)]
  simp only [getPack, hlen, List.take_take, Nat.min_self]

theorem UnPacker.At.unique {u : UnPacker} {xs ys : List UInt8} (h : u.At xs) (h' : u.At ys) :
    xs = ys := by
  have hlen : xs.length = ys.length := by
    have hx := h.bodyLen
    have hy := h'.bodyLen
    omega
  rw [← h.bytes, hlen, h'.bytes]

namespace DpReq

/-- If the builder returns a positive number, it has built a packet of that size which is accepted,
and whose body says what the request says. -/
def Decodable (r : DpReq R) : Prop :=
  ∃ fuel n out, r.makeReq fuel = some (n, out) ∧
    (0 < n → ∃ pack, out = some pack ∧ (pack.length : ℤ) = n ∧
      ∀ m, Mem.read m 0 pack.length = pack →
        (UnPacker.fresh.init m pack.length).1 = retOk ∧
          ∃ body, (UnPacker.fresh.init m pack.length).2.At body ∧ r.Says body)

/-- The builder comes to its end, and the texts of the reals fit their array and the packet its
size; unless the size is no positive `int`, everything fits its bytes and nothing is lost. -/
structure Clean (r : DpReq R) : Prop where
  ends : r.Ends
  prints : ∀ c ∈ r.calls, c.Prints
  packLen : r.packLen < 2 ^ 32
  kept : r.packLen < 2 ^ 31 → r.Kept ∧ r.size = r.packLen

variable {r : DpReq R} {fuel : ℕ}

omit [CDouble R] in
theorem ends_of_script {s : Script R} (hs : r.script fuel = some s) (hret : s.ret = retOk) :
    r.Ends := by
  rcases r.script_eq fuel with hloop | ⟨-, hzero⟩
  · rw [hloop] at hs
    cases hconds : condLoop r.packOp r.conds r.condNum fuel 0 with
    | none => simp [hconds, condsBetween] at hs
    | some one =>
        simp only [hconds, condsBetween, Option.map_some, Option.some.injEq] at hs
        have hone : one.ret = retOk := by
          by_contra hne
          rw [if_pos hne] at hs
          rw [← hs] at hret
          exact hne hret
        have hall := condLoop_ends r.packOp r.condNum_le (Nat.zero_le _) hconds hone
        exact ⟨hall.1, hall.2⟩
  · refine ⟨by omega, ?_⟩
    simp [hzero]

/-- A builder returns the error of `PackTLV`, which is positive, or a packet. -/
theorem makeReq_cases {n : ℤ} {out : Option (List UInt8)}
    (hreq : r.makeReq fuel = some (n, out)) : 0 < n ∧ out = none ∨ out.isSome ∧ r.Ends := by
  cases hs : r.script fuel with
  | none => simp [makeReq, hs] at hreq
  | some s =>
      cases hrun : Packer.run {} s.calls with
      | none => simp [makeReq, hs, hrun] at hreq
      | some pk =>
          by_cases hret : s.ret = retOk
          · cases hpack : pk.getPack r.header with
            | none => simp [makeReq, hs, hrun, hret, hpack] at hreq
            | some req =>
                simp only [makeReq, hs, hrun, hret, hpack, Option.bind_eq_bind, Option.bind_some,
                  ne_eq, not_true_eq_false, if_false, Option.some.injEq, Prod.mk.injEq] at hreq
                rw [← hreq.2]
                exact .inr ⟨rfl, ends_of_script hs hret⟩
          · simp only [makeReq, hs, hrun, Option.bind_eq_bind, Option.bind_some, ne_eq, hret,
              not_false_eq_true, if_true, Option.some.injEq, Prod.mk.injEq] at hreq
            rw [retOk] at hret
            exact .inl ⟨by omega, hreq.2.symm⟩

/-- The packet of a builder is accepted, and its body is what 32 bits take of the calls. -/
theorem accepted {req : List UInt8} (hlen : r.packLen < 2 ^ 32)
    (hreq : Packer.getPack ⟨r.calls.flatMap PackCall.bytes⟩ r.header = some req) {m : ℕ → UInt8}
    (hm : Mem.read m 0 req.length = req) :
    (UnPacker.fresh.init m req.length).1 = retOk ∧
      (UnPacker.fresh.init m req.length).2.At ((r.calls.flatMap PackCall.bytes).take
        (u32 (r.calls.flatMap PackCall.bytes).length)) := by
  have hbody : ((r.calls.flatMap PackCall.bytes).take
      (u32 (r.calls.flatMap PackCall.bytes).length)).length =
        u32 (r.calls.flatMap PackCall.bytes).length := by
    rw [List.length_take]
    exact Nat.min_eq_left (Nat.mod_le _ _)
  have hver : r.header.mainVer = mainVer := by cases r <;> rfl
  rw [Packer.getPack_take] at hreq
  dsimp only at hreq
  rw [Packer.getPack_packet (by rw [hbody]; exact hlen), Option.some.injEq] at hreq
  rw [← hreq] at hm ⊢
  have hinit := UnPacker.fresh.init_packet (soh_header r) hver (by rw [hbody]; exact hlen) hm
  exact ⟨hinit.1, hinit.2.2.1⟩

/-- **A builder that reports success has built a packet that can be read back exactly if it ends
and everything fits.** -/
theorem decodable_iff (r : DpReq R) : r.Decodable ↔ r.Clean := by
  constructor
  · rintro ⟨fuel, n, out, hreq, hpos⟩
    rcases makeReq_cases hreq with ⟨hn, rfl⟩ | ⟨hsome, hends⟩
    · rcases hpos hn with ⟨pack, hpack, -⟩
      cases hpack
    · rcases Option.isSome_iff_exists.mp hsome with ⟨req, rfl⟩
      rcases of_makeReq hends hreq with ⟨hs, hprints, hlen⟩
      rcases makeReq_eq hs hprints hlen with ⟨req', hreq', hlength, -, hpack⟩
      rw [hreq, Option.some.injEq, Prod.mk.injEq, Option.some.injEq] at hreq'
      refine ⟨hends, hprints, hlen, ?_⟩
      intro hint
      have hn : n = r.packLen := by
        rw [hreq'.1]
        exact s32_of_bounds (by omega) (by omega)
      rcases hpos (by rw [hn, packLen]; omega) with ⟨pack, hsame, -, hread⟩
      rw [Option.some.injEq] at hsame
      rw [← hsame, hreq'.2] at hread
      have hm := Mem.read_write_self (fun _ => (0 : UInt8)) 0 req'
      rcases (hread _ hm).2 with ⟨body, hbody, hmeans⟩
      rw [hbody.unique (accepted hlen hpack hm).2, says_iff hends] at hmeans
      refine ⟨hmeans.1, ?_⟩
      have hle : u32 (r.calls.flatMap PackCall.bytes).length ≤
        (r.calls.flatMap PackCall.bytes).length := Nat.mod_le _ _
      rw [size, packLen]
      omega
  · intro hclean
    rcases exists_script hclean.ends with ⟨fuel, hs⟩
    rcases makeReq_eq hs hclean.prints hclean.packLen with ⟨req, hreq, hlength, -, hpack⟩
    refine ⟨fuel, _, _, hreq, ?_⟩
    intro hpos
    have hint : r.packLen < 2 ^ 31 := by
      have hlt := hclean.packLen
      rw [s32] at hpos
      omega
    rcases hclean.kept hint with ⟨hkept, hsize⟩
    refine ⟨req, rfl, ?_, ?_⟩
    · rw [hlength]
      exact (s32_of_bounds (by omega) (by omega)).symm
    · intro m hm
      have hacc := accepted hclean.packLen hpack hm
      refine ⟨hacc.1, _, hacc.2, (says_iff hclean.ends _).mpr ⟨hkept, ?_⟩⟩
      rw [size, packLen] at hsize
      omega

/-- A query with a condition of type 7 returns 1. -/
theorem not_decodable : ¬∀ r : DpQueryReq Unit, (query r).Decodable := by
  intro h
  rcases h ⟨{}, [], [⟨1, 0, ⟨7, 0, 0, (), []⟩⟩], [], false⟩ with ⟨fuel, n, out, hreq, hpos⟩
  rcases makeReq_cases hreq with ⟨hn, rfl⟩ | ⟨-, hends⟩
  · rcases hpos hn with ⟨pack, hpack, -⟩
    cases hpack
  · exact absurd hends.types (by decide)

end DpReq

end Spp
