import Spp.Proto.Cursor
import Spp.Proto.Bounds

/-!
# The response parsers

A response is a return code, counts, that many values, and a cookie behind its length.
The parsers never look at `GetErr`, so a body that ends early is accepted; only a `TLV` of
no known type makes the query parser give up.  A parser keeps to complete bodies exactly
where the body is at least as long as its own counts announce.

## Main definitions

* `BaseDpRsp.parseRsp`, `DpQueryRsp.parseRsp`, `DpCondFindRsp.parseRsp` — the parsers.
* `baseBody`, `queryBody`, `condFindBody` — the formats, read strictly.
* `baseLen`, `queryLen`, `condFindLen` — the length that a body announces.
* `BaseDpRsp.Keeps`, `DpQueryRsp.Keeps`, `DpCondFindRsp.Keeps` — `RET_OK` is returned for a
  complete body only, with what is in it.
* `QueryMeetsUnknown` — a value of a query response has no known type.
-/

namespace Spp

/-! ## The parsers -/

/-- `UnPackCookie` into `m_Cookie`. -/
def unPackCookie (cookie : List UInt8) (u : UnPacker) : List UInt8 × UnPacker :=
  let (cookieLen, u) := u.unPackWord
  let (_, cookie, u) := u.unPackBinaryStr cookie cookieLen.toNat
  (cookie, u)

/-- `BaseDpRsp`, with the values of its constructor. -/
structure BaseDpRsp where
  cookie : List UInt8 := []
  retCode : UInt16 := 0xffff
  recordNum : UInt32 := 0

/-- `BaseDpRsp::ParseRsp`. -/
def BaseDpRsp.parseRsp (r : BaseDpRsp) (buf : ℕ → UInt8) (bufLen : ℕ) : ℕ × BaseDpRsp :=
  let (ret, u) := UnPacker.fresh.init buf bufLen
  if ret ≠ retOk then (ret, r)
  else
    let (retCode, u) := u.unPackWord
    let (recordNum, u) := u.unPackDWord
    let (cookie, _) := unPackCookie r.cookie u
    (retOk, { r with retCode, recordNum, cookie })

section Query

variable {R : Type} [CDouble R]

/-- `DpQueryRsp`. -/
structure DpQueryRsp (R : Type) extends BaseDpRsp where
  retFields : List UInt32 := []
  retData : List (TLV R) := []

/-- `DpQueryRsp::ParseRsp`. -/
def DpQueryRsp.parseRsp (r : DpQueryRsp R) (buf : ℕ → UInt8) (bufLen : ℕ) :
    ℕ × DpQueryRsp R :=
  let (ret, u) := UnPacker.fresh.init buf bufLen
  if ret ≠ retOk then (ret, r)
  else
    let (retCode, u) := u.unPackWord
    let (fieldNum, u) := u.unPackWord
    let (retFields, u) := UnPacker.unPackDWords fieldNum.toNat r.retFields u
    let (recordNum, u) := u.unPackDWord
    let tlvNum := u32 (recordNum.toNat * fieldNum.toNat)
    let (ret, retData, u) := unPackTLVs tlvNum r.retData u
    if ret ≠ retOk then (ret, { r with retCode, retFields, retData })
    else
      let recordNum :=
        if fieldNum.toNat > 0 then .ofNat (tlvNum / fieldNum.toNat) else r.recordNum
      let (cookie, _) := unPackCookie r.cookie u
      (retOk, { r with retCode, retFields, retData, recordNum, cookie })

end Query

/-- `DpCondFindRsp`. -/
structure DpCondFindRsp extends BaseDpRsp where
  retOnLineUIN : List UInt32 := []
  retOffLineUIN : List UInt32 := []

/-- The loop over `status_num` groups; the status 1 stands for off line. -/
def unPackGroups : ℕ → List UInt32 × List UInt32 → UnPacker →
    (List UInt32 × List UInt32) × UnPacker
  | 0, v, u => (v, u)
  | n + 1, (on, off), u =>
      let (status, u) := u.unPackWord
      let (count, u) := u.unPackWord
      if status = 1 then
        let (off, u) := UnPacker.unPackDWords count.toNat off u
        unPackGroups n (on, off) u
      else
        let (on, u) := UnPacker.unPackDWords count.toNat on u
        unPackGroups n (on, off) u

/-- `DpCondFindRsp::ParseRsp`. -/
def DpCondFindRsp.parseRsp (r : DpCondFindRsp) (buf : ℕ → UInt8) (bufLen : ℕ) :
    ℕ × DpCondFindRsp :=
  let (ret, u) := UnPacker.fresh.init buf bufLen
  if ret ≠ retOk then (ret, r)
  else
    let (retCode, u) := u.unPackWord
    let (statusNum, u) := u.unPackWord
    let (totalNum, u) := u.unPackWord
    let ((retOnLineUIN, retOffLineUIN), u) :=
      unPackGroups statusNum.toNat (r.retOnLineUIN, r.retOffLineUIN) u
    let (cookie, _) := unPackCookie r.cookie u
    (retOk, { r with
      retCode, recordNum := totalNum.toUInt32, retOnLineUIN, retOffLineUIN, cookie })

/-! ## The formats -/

/-- The body of a packet of `bufLen` bytes. -/
def bodyOf (buf : ℕ → UInt8) (bufLen : ℕ) : List UInt8 :=
  Mem.read buf msgHeaderLen (bufLen - (msgHeaderLen + 1))

/-- A cookie behind its length. -/
def cookieBody : Format.Parser (List UInt8) := fun bs => do
  let (cookieLen, bs) ← Format.word bs
  Format.take cookieLen.toNat bs

/-- Return code, record count and cookie. -/
def baseBody : Format.Parser (UInt16 × UInt32 × List UInt8) := fun bs => do
  let (retCode, bs) ← Format.word bs
  let (recordNum, bs) ← Format.dword bs
  let (cookie, bs) ← cookieBody bs
  some ((retCode, recordNum, cookie), bs)

/-- The content of a query response. -/
structure QueryContent (R : Type) where
  retCode : UInt16
  fields : List UInt32
  recordNum : UInt32
  values : List (TlvView R)
  cookie : List UInt8

/-- Return code, field count and fields, record count, a value for every field of every
record, and cookie. -/
def queryBody {R : Type} [CDouble R] : Format.Parser (QueryContent R) := fun bs => do
  let (retCode, bs) ← Format.word bs
  let (fieldNum, bs) ← Format.word bs
  let (fields, bs) ← Format.many Format.dword fieldNum.toNat bs
  let (recordNum, bs) ← Format.dword bs
  let (values, bs) ← Format.many tlvView (recordNum.toNat * fieldNum.toNat) bs
  let (cookie, bs) ← cookieBody bs
  some (⟨retCode, fields, recordNum, values, cookie⟩, bs)

/-- A status, a count and that many users. -/
def groupBody : Format.Parser (UInt16 × List UInt32) := fun bs => do
  let (status, bs) ← Format.word bs
  let (count, bs) ← Format.word bs
  let (uins, bs) ← Format.many Format.dword count.toNat bs
  some ((status, uins), bs)

/-- The content of a response to a search. -/
structure CondFindContent where
  retCode : UInt16
  totalNum : UInt16
  groups : List (UInt16 × List UInt32)
  cookie : List UInt8

/-- Return code, group count, total count, the groups and cookie. -/
def condFindBody : Format.Parser CondFindContent := fun bs => do
  let (retCode, bs) ← Format.word bs
  let (statusNum, bs) ← Format.word bs
  let (totalNum, bs) ← Format.word bs
  let (groups, bs) ← Format.many groupBody statusNum.toNat bs
  let (cookie, bs) ← cookieBody bs
  some (⟨retCode, totalNum, groups, cookie⟩, bs)

/-- The users of the groups that are on line, and those of the groups that are not. -/
def groupUins (groups : List (UInt16 × List UInt32)) : List UInt32 × List UInt32 :=
  (((groups.filter fun g => g.1 ≠ 1).map Prod.snd).flatten,
    ((groups.filter fun g => g.1 = 1).map Prod.snd).flatten)

/-! ## Complete bodies -/

/-- `RET_OK` is returned only where the body is complete, with the numbers in it. -/
def BaseDpRsp.Keeps (r : BaseDpRsp) (buf : ℕ → UInt8) (bufLen : ℕ) : Prop :=
  (r.parseRsp buf bufLen).1 = retOk → ∃ c rest, baseBody (bodyOf buf bufLen) = some (c, rest) ∧
    (r.parseRsp buf bufLen).2.retCode = c.1 ∧ (r.parseRsp buf bufLen).2.recordNum = c.2.1

/-- The same with the fields and the values, which are put behind those that were there. -/
def DpQueryRsp.Keeps {R : Type} [CDouble R] (r : DpQueryRsp R) (buf : ℕ → UInt8)
    (bufLen : ℕ) : Prop :=
  (r.parseRsp buf bufLen).1 = retOk →
    ∃ (c : QueryContent R) (rest : List UInt8) (ts : List (TLV R)),
      queryBody (bodyOf buf bufLen) = some (c, rest) ∧ ts.map TLV.view = c.values ∧
      (r.parseRsp buf bufLen).2.retCode = c.retCode ∧
      (r.parseRsp buf bufLen).2.retFields = r.retFields ++ c.fields ∧
      (r.parseRsp buf bufLen).2.retData = r.retData ++ ts ∧
      (c.fields ≠ [] → (r.parseRsp buf bufLen).2.recordNum = c.recordNum)

/-- The same with the users. -/
def DpCondFindRsp.Keeps (r : DpCondFindRsp) (buf : ℕ → UInt8) (bufLen : ℕ) : Prop :=
  (r.parseRsp buf bufLen).1 = retOk →
    ∃ c rest, condFindBody (bodyOf buf bufLen) = some (c, rest) ∧
      (r.parseRsp buf bufLen).2.retCode = c.retCode ∧
      (r.parseRsp buf bufLen).2.recordNum = c.totalNum.toUInt32 ∧
      (r.parseRsp buf bufLen).2.retOnLineUIN = r.retOnLineUIN ++ (groupUins c.groups).1 ∧
      (r.parseRsp buf bufLen).2.retOffLineUIN = r.retOffLineUIN ++ (groupUins c.groups).2

/-! ## Announced lengths -/

/-- The number in the next two bytes. -/
def wordOf (bs : List UInt8) : ℕ := ofBe (bs.take 2)

/-- The number in the next four bytes. -/
def dwordOf (bs : List UInt8) : ℕ := ofBe (bs.take 4)

def cookieLen (bs : List UInt8) : ℕ := 2 + wordOf bs

def baseLen (bs : List UInt8) : ℕ := 6 + cookieLen (bs.drop 6)

/-- The length of a value of the case `k`. -/
def valueLen (length : ℕ) (bs : List UInt8) : TlvKind → ℕ
  | .byte => 1
  | .word => 2
  | .dword => 4
  | .qword => 8
  | .real => (bs.takeWhile (· ≠ 0)).length + 1
  | .binary => length

/-- A type, a length and the value; a type that is not known has none. -/
def tlvLen (bs : List UInt8) : ℕ :=
  5 + ((TlvKind.ofType (bs.headD 0)).map (valueLen (dwordOf (bs.drop 1)) (bs.drop 5))).getD 0

def queryLen (bs : List UInt8) : ℕ :=
  let fieldNum := wordOf (bs.drop 2)
  let bs := bs.drop (4 + 4 * fieldNum)
  let n := 4 + Format.manyLen tlvLen (dwordOf bs * fieldNum) (bs.drop 4)
  4 + 4 * fieldNum + n + cookieLen (bs.drop n)

def groupLen (bs : List UInt8) : ℕ := 4 + 4 * wordOf (bs.drop 2)

def condFindLen (bs : List UInt8) : ℕ :=
  let n := 6 + Format.manyLen groupLen (wordOf (bs.drop 2)) (bs.drop 6)
  n + cookieLen (bs.drop n)

/-- A type that is not known comes up among the values of a query response. -/
def QueryMeetsUnknown (buf : ℕ → UInt8) (bufLen : ℕ) : Prop :=
  let len := (bodyOf buf bufLen).length
  let fieldNum := wordOf ((bodyOf buf bufLen).drop 2)
  let recordNum := dwordOf ((bodyOf buf bufLen).drop (4 + 4 * fieldNum))
  8 + 4 * fieldNum ≤ len ∧
    MeetsUnknown buf len (u32 (recordNum * fieldNum)) (8 + 4 * fieldNum)

/-! ## What a body announces is what is read off it -/

theorem toNat_wordOf (bs : List UInt8) :
    (UInt16.ofNat (ofBe (bs.take 2))).toNat = wordOf bs := by
  apply UInt16.toNat_ofNat_of_lt'
  have hlt := ofBe_lt (bs.take 2)
  have hpow : 256 ^ (bs.take 2).length ≤ 256 ^ 2 :=
    Nat.pow_le_pow_right (by omega) (List.length_take_le 2 bs)
  exact lt_of_lt_of_le hlt hpow

theorem toNat_dwordOf (bs : List UInt8) :
    (UInt32.ofNat (ofBe (bs.take 4))).toNat = dwordOf bs := by
  apply UInt32.toNat_ofNat_of_lt'
  have hlt := ofBe_lt (bs.take 4)
  have hpow : 256 ^ (bs.take 4).length ≤ 256 ^ 4 :=
    Nat.pow_le_pow_right (by omega) (List.length_take_le 4 bs)
  exact lt_of_lt_of_le hlt hpow

theorem takes_cookieBody : Format.Takes cookieBody cookieLen where
  fits := by
    intro bs c rest h
    simp only [cookieBody, Option.bind_eq_bind, Option.bind_eq_some_iff, Prod.exists] at h
    obtain ⟨n, bs₁, hn, hc⟩ := h
    obtain ⟨hle, rfl, hval⟩ := Format.word_fits hn
    obtain ⟨hsplit, hlen⟩ := Format.take_eq_some_iff.mp hc
    have hall := congrArg List.length hsplit
    rw [List.length_drop, List.length_append, hlen] at hall
    rw [cookieLen, wordOf, hval]
    exact ⟨by omega, by rw [← List.drop_drop, hsplit, ← hlen, List.drop_left]⟩
  enough := by
    intro bs h
    rw [cookieLen] at h
    have hc := Format.take_of_le (wordOf bs) (bs.drop 2) (by rw [List.length_drop]; omega)
    rw [cookieBody, Format.word_of_le _ (by omega)]
    simp only [Option.bind_eq_bind, Option.bind_some, toNat_wordOf, hc, List.drop_drop, cookieLen]
    exact ⟨_, rfl⟩

theorem takes_baseBody : Format.Takes baseBody baseLen where
  fits := by
    intro bs c rest h
    simp only [baseBody, Option.bind_eq_bind, Option.bind_eq_some_iff, Prod.exists,
      Option.some.injEq, Prod.mk.injEq] at h
    obtain ⟨retCode, bs₁, hret, recordNum, bs₂, hnum, cookie, bs₃, hcookie, -, rfl⟩ := h
    obtain ⟨hle, rfl, -⟩ := Format.word_fits hret
    obtain ⟨hle', rfl, -⟩ := Format.dword_fits hnum
    obtain ⟨hle'', hrest⟩ := takes_cookieBody.fits _ _ _ hcookie
    simp only [List.drop_drop, List.length_drop, Nat.reduceAdd] at hle' hle'' hrest
    rw [baseLen]
    exact ⟨by omega, hrest⟩
  enough := by
    intro bs h
    rw [baseLen] at h
    have hnum := Format.dword_of_le (bs.drop 2) (by rw [List.length_drop]; omega)
    obtain ⟨c, hc⟩ := takes_cookieBody.enough (bs.drop 6) (by rw [List.length_drop]; omega)
    rw [List.drop_drop] at hnum hc
    rw [baseBody, Format.word_of_le _ (by omega)]
    simp only [Option.bind_eq_bind, Option.bind_some, hnum, hc, baseLen]
    exact ⟨_, rfl⟩

theorem takes_groupBody : Format.Takes groupBody groupLen where
  fits := by
    intro bs g rest h
    simp only [groupBody, Option.bind_eq_bind, Option.bind_eq_some_iff, Prod.exists,
      Option.some.injEq, Prod.mk.injEq] at h
    obtain ⟨status, bs₁, hstatus, count, bs₂, hcount, uins, bs₃, huins, -, rfl⟩ := h
    obtain ⟨hle, rfl, -⟩ := Format.word_fits hstatus
    obtain ⟨hle', rfl, hval⟩ := Format.word_fits hcount
    obtain ⟨hle'', hrest⟩ := (Format.takes_many Format.takes_dword _).fits _ _ _ huins
    simp only [Format.manyLen_const, List.drop_drop, List.length_drop, Nat.reduceAdd]
      at hle' hle'' hrest
    rw [groupLen, wordOf, hval, Nat.mul_comm]
    exact ⟨by omega, hrest⟩
  enough := by
    intro bs h
    rw [groupLen] at h
    have hcount := Format.word_of_le (bs.drop 2) (by rw [List.length_drop]; omega)
    have hmany := (Format.takes_many Format.takes_dword (wordOf (bs.drop 2))).enough (bs.drop 4)
    rw [Format.manyLen_const, List.length_drop, List.drop_drop] at hmany
    obtain ⟨uins, huins⟩ := hmany (by omega)
    rw [List.drop_drop] at hcount
    rw [groupBody, Format.word_of_le _ (by omega)]
    simp only [Option.bind_eq_bind, Option.bind_some, hcount, toNat_wordOf, huins, groupLen,
      Nat.mul_comm 4]
    exact ⟨_, rfl⟩

theorem takes_condFindBody : Format.Takes condFindBody condFindLen where
  fits := by
    intro bs c rest h
    simp only [condFindBody, Option.bind_eq_bind, Option.bind_eq_some_iff, Prod.exists,
      Option.some.injEq, Prod.mk.injEq] at h
    obtain ⟨retCode, bs₁, hret, statusNum, bs₂, hnum, totalNum, bs₃, htotal, groups, bs₄, hgroups,
      cookie, bs₅, hcookie, -, rfl⟩ := h
    obtain ⟨hle, rfl, -⟩ := Format.word_fits hret
    obtain ⟨hle₁, rfl, hval⟩ := Format.word_fits hnum
    obtain ⟨hle₂, rfl, -⟩ := Format.word_fits htotal
    obtain ⟨hle₃, rfl⟩ := (Format.takes_many takes_groupBody _).fits _ _ _ hgroups
    obtain ⟨hle₄, hrest⟩ := takes_cookieBody.fits _ _ _ hcookie
    simp only [List.drop_drop, List.length_drop, Nat.reduceAdd] at hle₁ hle₂ hle₃ hle₄ hrest
    rw [condFindLen, wordOf, hval]
    exact ⟨by omega, hrest⟩
  enough := by
    intro bs h
    rw [condFindLen] at h
    generalize hn : 6 + Format.manyLen groupLen (wordOf (bs.drop 2)) (bs.drop 6) = n at h
    have hnum := Format.word_of_le (bs.drop 2) (by rw [List.length_drop]; omega)
    have htotal := Format.word_of_le (bs.drop 4) (by rw [List.length_drop]; omega)
    obtain ⟨groups, hgroups⟩ := (Format.takes_many takes_groupBody (wordOf (bs.drop 2))).enough
      (bs.drop 6) (by rw [List.length_drop]; omega)
    obtain ⟨c, hc⟩ := takes_cookieBody.enough (bs.drop n) (by rw [List.length_drop]; omega)
    rw [List.drop_drop] at hnum htotal hgroups hc
    rw [hn] at hgroups
    rw [condFindBody, Format.word_of_le _ (by omega)]
    simp only [Option.bind_eq_bind, Option.bind_some, hnum, htotal, toNat_wordOf, hgroups, hc,
      condFindLen, hn]
    exact ⟨_, rfl⟩

section Query

variable {R : Type} [CDouble R]

theorem takes_tlvValue (length : UInt32) (kind : TlvKind) :
    Format.Takes (tlvValue length kind : Format.Parser (TlvValue R))
      fun bs => valueLen length.toNat bs kind := by
  cases kind with
  | byte => exact Format.takes_map Format.takes_byte fun v => TlvValue.int v.toUInt64
  | word => exact Format.takes_map Format.takes_word fun v => TlvValue.int v.toUInt64
  | dword => exact Format.takes_map Format.takes_dword fun v => TlvValue.int v.toUInt64
  | qword => exact Format.takes_map Format.takes_qword TlvValue.int
  | real =>
      exact Format.takes_map Format.takes_cstr fun v =>
        TlvValue.real (if v.length > 0 then CDouble.atof v else CDouble.zero)
  | binary => exact Format.takes_map (Format.takes_take length.toNat) TlvValue.bytes

theorem fits_tlvView : Format.Fits (tlvView : Format.Parser (TlvView R)) tlvLen := by
  intro bs v rest h
  simp only [tlvView, Option.bind_eq_bind, Option.bind_eq_some_iff, Prod.exists,
    Option.some.injEq, Prod.mk.injEq] at h
  obtain ⟨type, bs₁, htype, length, bs₂, hlength, kind, hkind, value, bs₃, hvalue, -, rfl⟩ := h
  have hcons := Format.byte_eq_some_iff.mp htype
  subst hcons
  obtain ⟨hle, rfl, hval⟩ := Format.dword_fits hlength
  obtain ⟨hle', hrest⟩ : valueLen length.toNat (bs₁.drop 4) kind ≤ (bs₁.drop 4).length ∧
      (bs₁.drop 4).drop (valueLen length.toNat (bs₁.drop 4) kind) = bs₃ :=
    (takes_tlvValue length kind).fits _ _ _ hvalue
  rw [List.drop_drop] at hrest
  rw [List.length_drop] at hle'
  have hlen : tlvLen (type :: bs₁) = 5 + valueLen length.toNat (bs₁.drop 4) kind := by
    simp [tlvLen, hkind, dwordOf, hval]
  rw [hlen, List.length_cons]
  have hdrop : (type :: bs₁).drop (5 + valueLen length.toNat (bs₁.drop 4) kind) =
      bs₁.drop (4 + valueLen length.toNat (bs₁.drop 4) kind) := by
    rw [show 5 + valueLen length.toNat (bs₁.drop 4) kind =
      (4 + valueLen length.toNat (bs₁.drop 4) kind) + 1 by omega, List.drop_succ_cons]
  exact ⟨by omega, hdrop.trans hrest⟩

/-- Where its type is known, a value is read off as many bytes as it announces. -/
theorem tlvView_of_le {bs : List UInt8} (hle : tlvLen bs ≤ bs.length)
    (hknown : TlvKind.ofType (bs.headD 0) ≠ none) :
    ∃ v : TlvView R, tlvView bs = some (v, bs.drop (tlvLen bs)) := by
  obtain ⟨kind, hkind⟩ := Option.ne_none_iff_exists'.mp hknown
  have hlen : tlvLen bs = 5 + valueLen (dwordOf (bs.drop 1)) (bs.drop 5) kind := by
    simp only [tlvLen, hkind, Option.map_some, Option.getD_some]
  cases bs with
  | nil =>
      rw [hlen] at hle
      simp at hle
  | cons type bs =>
      simp only [List.drop_succ_cons, List.drop_zero, List.headD_cons] at hlen hkind
      rw [hlen, List.length_cons] at hle
      obtain ⟨value, hvalue⟩ := (takes_tlvValue (R := R) (.ofNat (ofBe (bs.take 4))) kind).enough
        (bs.drop 4) (by simp only [toNat_dwordOf, List.length_drop]; omega)
      simp only [toNat_dwordOf, List.drop_drop] at hvalue
      rw [tlvView, Format.byte_eq_some_iff.mpr rfl]
      simp only [Option.bind_eq_bind, Option.bind_some,
        Format.dword_of_le bs (by omega), hkind, hvalue, hlen]
      refine ⟨⟨type, .ofNat (ofBe (bs.take 4)), value⟩, ?_⟩
      rw [show 5 + valueLen (dwordOf bs) (bs.drop 4) kind =
        (4 + valueLen (dwordOf bs) (bs.drop 4) kind) + 1 by omega, List.drop_succ_cons]

theorem fits_queryBody : Format.Fits (queryBody (R := R)) queryLen := by
  intro bs c rest h
  simp only [queryBody, Option.bind_eq_bind, Option.bind_eq_some_iff, Prod.exists,
    Option.some.injEq, Prod.mk.injEq] at h
  obtain ⟨retCode, bs₁, hret, fieldNum, bs₂, hnum, fields, bs₃, hfields, recordNum, bs₄, hrec,
    values, bs₅, hvalues, cookie, bs₆, hcookie, -, rfl⟩ := h
  obtain ⟨hle, rfl, -⟩ := Format.word_fits hret
  obtain ⟨hle₁, rfl, hval⟩ := Format.word_fits hnum
  obtain ⟨hle₂, rfl⟩ := (Format.takes_many Format.takes_dword _).fits _ _ _ hfields
  obtain ⟨hle₃, rfl, hval'⟩ := Format.dword_fits hrec
  obtain ⟨hle₄, rfl⟩ := Format.fits_many fits_tlvView _ _ _ _ hvalues
  obtain ⟨hle₅, hrest⟩ := takes_cookieBody.fits _ _ _ hcookie
  simp only [Format.manyLen_const, List.drop_drop, List.length_drop, Nat.reduceAdd,
    Nat.mul_comm fieldNum.toNat 4] at hle₁ hle₂ hle₃ hle₄ hle₅ hrest hval'
  have hfield : wordOf (bs.drop 2) = fieldNum.toNat := hval
  have hrecord : dwordOf (bs.drop (4 + 4 * fieldNum.toNat)) = recordNum.toNat := hval'
  simp only [queryLen, hfield, hrecord, List.drop_drop, ← Nat.add_assoc] at *
  exact ⟨by omega, hrest⟩

end Query

/-! ## The unpacker follows -/

namespace UnPacker

variable {u : UnPacker} {bs rest : List UInt8}

theorem At.dwords {n : ℕ} {v : List UInt32} (h : u.At bs) (acc : List UInt32)
    (hp : Format.many Format.dword n bs = some (v, rest)) :
    ∃ u', unPackDWords n acc u = (acc ++ v, u') ∧ u'.At rest := by
  induction n generalizing u bs acc v with
  | zero =>
      simp only [Format.many, Option.some.injEq, Prod.mk.injEq] at hp
      obtain ⟨rfl, rfl⟩ := hp
      exact ⟨u, by simp [unPackDWords], h⟩
  | succ n ih =>
      simp only [Format.many, Option.bind_eq_bind, Option.bind_eq_some_iff, Prod.exists,
        Option.some.injEq, Prod.mk.injEq] at hp
      obtain ⟨x, bs₁, hx, xs, bs₂, hxs, rfl, rfl⟩ := hp
      obtain ⟨hread, h⟩ := h.dword hx
      obtain ⟨u', hrest, h⟩ := ih h (acc ++ [x]) hxs
      refine ⟨u', ?_, h⟩
      simp only [unPackDWords, hread, hrest, List.append_assoc, List.singleton_append]

theorem At.groups {n : ℕ} {v : List (UInt16 × List UInt32)} (h : u.At bs)
    (on off : List UInt32) (hp : Format.many groupBody n bs = some (v, rest)) :
    ∃ u', unPackGroups n (on, off) u = ((on ++ (groupUins v).1, off ++ (groupUins v).2), u') ∧
      u'.At rest := by
  induction n generalizing u bs on off v with
  | zero =>
      simp only [Format.many, Option.some.injEq, Prod.mk.injEq] at hp
      obtain ⟨rfl, rfl⟩ := hp
      exact ⟨u, by simp [unPackGroups, groupUins], h⟩
  | succ n ih =>
      simp only [Format.many, Option.bind_eq_bind, Option.bind_eq_some_iff,
        Prod.exists, Option.some.injEq, Prod.mk.injEq] at hp
      obtain ⟨_, _, bs₁, hgroup, groups, bs₂, hgroups, rfl, rfl⟩ := hp
      simp only [groupBody, Option.bind_eq_bind, Option.bind_eq_some_iff, Prod.exists,
        Option.some.injEq, Prod.mk.injEq] at hgroup
      obtain ⟨status, bs₃, hstatus, count, bs₄, hcount, uins, bs₅, huins, ⟨rfl, rfl⟩, rfl⟩ := hgroup
      obtain ⟨hread, h⟩ := h.word hstatus
      obtain ⟨hread', h⟩ := h.word hcount
      simp only [unPackGroups, hread, hread']
      split
      next hone =>
        obtain ⟨u', hdwords, h⟩ := h.dwords off huins
        obtain ⟨u'', hrest, h⟩ := ih h on (off ++ uins) hgroups
        refine ⟨u'', ?_, h⟩
        simp [hdwords, hrest, groupUins, hone]
      next hone =>
        obtain ⟨u', hdwords, h⟩ := h.dwords on huins
        obtain ⟨u'', hrest, h⟩ := ih h (on ++ uins) off hgroups
        refine ⟨u'', ?_, h⟩
        simp [hdwords, hrest, groupUins, hone]

theorem At.tlvs {R : Type} [CDouble R] {n : ℕ} {v : List (TlvView R)} (h : u.At bs)
    (acc : List (TLV R)) (hp : Format.many tlvView n bs = some (v, rest)) :
    ∃ (ts : List (TLV R)) (u' : UnPacker),
      unPackTLVs n acc u = (retOk, acc ++ ts, u') ∧ ts.map TLV.view = v ∧ u'.At rest := by
  induction n generalizing u bs acc v with
  | zero =>
      simp only [Format.many, Option.some.injEq, Prod.mk.injEq] at hp
      obtain ⟨rfl, rfl⟩ := hp
      exact ⟨[], u, by simp [unPackTLVs], rfl, h⟩
  | succ n ih =>
      simp only [Format.many, Option.bind_eq_bind, Option.bind_eq_some_iff, Prod.exists,
        Option.some.injEq, Prod.mk.injEq] at hp
      obtain ⟨x, bs₁, hx, xs, bs₂, hxs, rfl, rfl⟩ := hp
      obtain ⟨t, u', hread, rfl, h⟩ := h.tlv hx
      obtain ⟨ts, u'', hrest, rfl, h⟩ := ih h (acc ++ [t]) hxs
      refine ⟨t :: ts, u'', ?_, rfl, h⟩
      simp [unPackTLVs, hread, hrest]

/-- Values that all have a known type are there as soon as there are bytes enough. -/
theorem At.many_tlvView {R : Type} [CDouble R] {n : ℕ} (h : u.At bs) (acc : List (TLV R))
    (hle : Format.manyLen tlvLen n bs ≤ bs.length) (hok : (unPackTLVs n acc u).1 = retOk) :
    ∃ v : List (TlvView R),
      Format.many tlvView n bs = some (v, bs.drop (Format.manyLen tlvLen n bs)) := by
  induction n generalizing u bs acc with
  | zero => exact ⟨[], rfl⟩
  | succ n ih =>
      rw [Format.manyLen] at hle
      have hread : (unPackTLV u : ℕ × TLV R × UnPacker).1 = retOk := by
        by_contra hfail
        simp [unPackTLVs, hfail] at hok
      have hknown : TlvKind.ofType (bs.headD 0) ≠ none := by
        cases bs with
        | nil => simp [tlvLen] at hle
        | cons type bs =>
            intro hnone
            have hbyte := (h.byte (Format.byte_eq_some_iff.mpr rfl)).1
            have hpos : errProtocol ≠ retOk := by decide
            simp only [List.headD_cons] at hnone
            simp [unPackTLV, hbyte, unPackValue, hnone, hpos] at hread
      obtain ⟨x, hx⟩ := tlvView_of_le (R := R) (by omega) hknown
      obtain ⟨t, u', hstep, -, h⟩ := h.tlv hx
      simp only [unPackTLVs, hstep, ne_eq, not_true_eq_false, if_false] at hok
      obtain ⟨xs, hxs⟩ := ih h _ (by rw [List.length_drop]; omega) hok
      exact ⟨x :: xs, by simp [Format.many, hx, hxs, Format.manyLen, List.drop_drop]⟩

/-- Where an accepted packet is read from. -/
theorem init_at (buf : ℕ → UInt8) {bufLen : ℕ} (hlt : bufLen < 2 ^ 32)
    (hok : (fresh.init buf bufLen).1 = retOk) :
    (fresh.init buf bufLen).2.At (bodyOf buf bufLen) ∧
      (fresh.init buf bufLen).2.Stands buf (bodyOf buf bufLen).length 0 := by
  obtain ⟨hle, hbody⟩ := init_bodyLen hlt hok
  have hlen : (bodyOf buf bufLen).length = bufLen - (msgHeaderLen + 1) := by simp [bodyOf]
  rw [msgHeaderLen] at hle hbody hlen
  constructor
  · refine ⟨?_, by omega, ?_⟩
    · rw [hbody, hlen]
      simp [init]
    · rw [hlen]
      rfl
  · exact ⟨rfl, rfl, hbody.trans hlen.symm, rfl, Nat.zero_le _, by omega⟩

end UnPacker

/-! ## The parsers keep to complete bodies -/

theorem BaseDpRsp.keeps_iff (r : BaseDpRsp) (buf : ℕ → UInt8) {bufLen : ℕ}
    (hlt : bufLen < 2 ^ 32) :
    r.Keeps buf bufLen ↔ (UnPacker.fresh.init buf bufLen).1 ≠ retOk ∨
      baseLen (bodyOf buf bufLen) ≤ (bodyOf buf bufLen).length := by
  have hinit := UnPacker.init_at buf hlt
  unfold Keeps parseRsp
  generalize UnPacker.fresh.init buf bufLen = p at hinit ⊢
  cases p with
  | mk ret u =>
      by_cases hok : ret = retOk
      · obtain ⟨hat, -⟩ := hinit hok
        simp only [hok, ne_eq, not_true_eq_false, if_false, forall_const, false_or]
        constructor
        · rintro ⟨c, rest, hc, -⟩
          exact (takes_baseBody.fits _ _ _ hc).1
        · intro hle
          obtain ⟨c, hc⟩ := takes_baseBody.enough _ hle
          refine ⟨_, _, hc, ?_⟩
          simp only [baseBody, Option.bind_eq_bind, Option.bind_eq_some_iff, Prod.exists,
            Option.some.injEq, Prod.mk.injEq] at hc
          obtain ⟨retCode, bs₁, hword, recordNum, bs₂, hdword, cookie, bs₃, -, rfl, -⟩ := hc
          obtain ⟨hread, hat⟩ := hat.word hword
          obtain ⟨hread', -⟩ := hat.dword hdword
          simp [hread, hread']
      · simp [hok]

theorem DpCondFindRsp.keeps_iff (r : DpCondFindRsp) (buf : ℕ → UInt8) {bufLen : ℕ}
    (hlt : bufLen < 2 ^ 32) :
    r.Keeps buf bufLen ↔ (UnPacker.fresh.init buf bufLen).1 ≠ retOk ∨
      condFindLen (bodyOf buf bufLen) ≤ (bodyOf buf bufLen).length := by
  have hinit := UnPacker.init_at buf hlt
  unfold Keeps parseRsp
  generalize UnPacker.fresh.init buf bufLen = p at hinit ⊢
  cases p with
  | mk ret u =>
      by_cases hok : ret = retOk
      · obtain ⟨hat, -⟩ := hinit hok
        simp only [hok, ne_eq, not_true_eq_false, if_false, forall_const, false_or]
        constructor
        · rintro ⟨c, rest, hc, -⟩
          exact (takes_condFindBody.fits _ _ _ hc).1
        · intro hle
          obtain ⟨c, hc⟩ := takes_condFindBody.enough _ hle
          refine ⟨_, _, hc, ?_⟩
          simp only [condFindBody, Option.bind_eq_bind, Option.bind_eq_some_iff, Prod.exists,
            Option.some.injEq, Prod.mk.injEq] at hc
          obtain ⟨retCode, bs₁, hret, statusNum, bs₂, hnum, totalNum, bs₃, htotal, groups, bs₄,
            hgroups, cookie, bs₅, -, rfl, -⟩ := hc
          obtain ⟨hread₁, hat⟩ := hat.word hret
          obtain ⟨hread₂, hat⟩ := hat.word hnum
          obtain ⟨hread₃, hat⟩ := hat.word htotal
          obtain ⟨u', hread₄, -⟩ := hat.groups r.retOnLineUIN r.retOffLineUIN hgroups
          simp [hread₁, hread₂, hread₃, hread₄]
      · simp [hok]

section Query

variable {R : Type} [CDouble R]

/-- The number that is read at a place of the body. -/
theorem dwordOf_bodyOf (buf : ℕ → UInt8) (bufLen : ℕ) {k : ℕ}
    (h : k + 4 ≤ (bodyOf buf bufLen).length) :
    dwordOf ((bodyOf buf bufLen).drop k) = ofBe (Mem.read buf (msgHeaderLen + k) 4) := by
  rw [bodyOf, Mem.length_read] at h
  rw [dwordOf, bodyOf, Mem.take_drop_read _ _ h]

theorem wordOf_bodyOf (buf : ℕ → UInt8) (bufLen : ℕ) {k : ℕ}
    (h : k + 2 ≤ (bodyOf buf bufLen).length) :
    wordOf ((bodyOf buf bufLen).drop k) = ofBe (Mem.read buf (msgHeaderLen + k) 2) := by
  rw [bodyOf, Mem.length_read] at h
  rw [wordOf, bodyOf, Mem.take_drop_read _ _ h]

/-- The query parser gives up exactly where it meets a type that is not known.  In a body
too short for the two counts there is nothing to meet. -/
theorem DpQueryRsp.parseRsp_eq_retOk_iff (r : DpQueryRsp R) (buf : ℕ → UInt8) {bufLen : ℕ}
    (hlt : bufLen < 2 ^ 32) (hok : (UnPacker.fresh.init buf bufLen).1 = retOk) :
    (r.parseRsp buf bufLen).1 = retOk ↔ ¬ QueryMeetsUnknown buf bufLen := by
  obtain ⟨-, hstands⟩ := UnPacker.init_at buf hlt hok
  unfold parseRsp
  generalize UnPacker.fresh.init buf bufLen = p at hok hstands ⊢
  cases p with
  | mk ret u =>
      simp only at hok hstands
      simp only [hok, ne_eq, not_true_eq_false, if_false]
      obtain ⟨-, hstands⟩ := hstands.unPackWord
      obtain ⟨hfield, hstands⟩ := hstands.unPackWord
      generalize u.unPackWord.2.unPackWord.1 = fieldNum at hfield ⊢
      obtain ⟨q, hdwords, hfit, hlack⟩ := hstands.unPackDWords fieldNum.toNat r.retFields
      obtain ⟨hrecord, hvalues⟩ := hdwords.unPackDWord
      generalize (UnPacker.unPackDWords fieldNum.toNat r.retFields
        u.unPackWord.2.unPackWord.2).2 = u' at hrecord hvalues ⊢
      generalize u'.unPackDWord.1 = recordNum at hrecord ⊢
      have hiff := hvalues.unPackTLVs_eq_retOk_iff
        (u32 (recordNum.toNat * fieldNum.toNat)) r.retData
      have hreads : (unPackTLVs (u32 (recordNum.toNat * fieldNum.toNat)) r.retData
          u'.unPackDWord.2).1 = retOk ↔ ¬ QueryMeetsUnknown buf bufLen := by
        rw [hiff]
        by_cases hfour : 4 ≤ (bodyOf buf bufLen).length
        · have hskip : skip (bodyOf buf bufLen).length 2 0 = 2 := if_pos (by omega)
          have hskip' : skip (bodyOf buf bufLen).length 2 2 = 4 := if_pos (by omega)
          rw [hskip] at hfield hfit hlack
          rw [hskip'] at hfit hlack
          have hnum : fieldNum.toNat = wordOf ((bodyOf buf bufLen).drop 2) := by
            rw [hfield, if_pos (by omega), ← wordOf_bodyOf buf bufLen (by omega)]
            exact toNat_wordOf _
          rw [QueryMeetsUnknown, ← hnum]
          by_cases height : 8 + 4 * fieldNum.toNat ≤ (bodyOf buf bufLen).length
          · have hq := hfit (by omega)
            have hskip'' : skip (bodyOf buf bufLen).length 4 (4 + 4 * fieldNum.toNat) =
                8 + 4 * fieldNum.toNat := by
              rw [skip, if_pos (by omega)]
              omega
            have hrec : recordNum.toNat =
                dwordOf ((bodyOf buf bufLen).drop (4 + 4 * fieldNum.toNat)) := by
              rw [hrecord, hq, if_pos (by omega), ← dwordOf_bodyOf buf bufLen (by omega)]
              exact toNat_dwordOf _
            simp [hq, hskip'', hrec, height]
          · have hq : (bodyOf buf bufLen).length < q + 4 := by
              by_cases hroom : 4 + 4 * fieldNum.toNat ≤ (bodyOf buf bufLen).length
              · have := hfit hroom
                omega
              · exact hlack (by omega)
            rw [if_neg (by omega)] at hrecord
            simp [hrecord, height, u32, MeetsUnknown]
        · have hnone : ¬ skip (bodyOf buf bufLen).length 2 0 + 2 ≤ (bodyOf buf bufLen).length := by
            rw [skip]
            split <;> omega
          rw [if_neg hnone] at hfield
          have hshort : ¬ QueryMeetsUnknown buf bufLen := by
            rintro ⟨hle, -⟩
            omega
          simp [hfield, hshort, u32, MeetsUnknown]
      rw [ite_not]
      split
      next hread => simp [← hreads, hread]
      next hfail => simp [← hreads, hfail]

/-- A body as long as it announces has all the values, if `UnPackTLV` knows them all. -/
theorem DpQueryRsp.keeps_of_le (r : DpQueryRsp R) (buf : ℕ → UInt8) {bufLen : ℕ}
    (hlt : bufLen < 2 ^ 32) (hok : (UnPacker.fresh.init buf bufLen).1 = retOk)
    (hle : queryLen (bodyOf buf bufLen) ≤ (bodyOf buf bufLen).length) :
    r.Keeps buf bufLen := by
  obtain ⟨hat, -⟩ := UnPacker.init_at buf hlt hok
  have hshort : (bodyOf buf bufLen).length < 2 ^ 32 := by
    rw [bodyOf, Mem.length_read]
    omega
  unfold Keeps parseRsp
  generalize UnPacker.fresh.init buf bufLen = p at hok hat ⊢
  generalize bodyOf buf bufLen = bs at hle hat hshort ⊢
  cases p with
  | mk ret u =>
      simp only at hok hat
      simp only [queryLen, List.drop_drop] at hle
      generalize hn : wordOf (bs.drop 2) = n at hle
      generalize hm : dwordOf (bs.drop (4 + 4 * n)) = m at hle
      have hret := Format.word_of_le bs (by omega)
      have hnum := Format.word_of_le (bs.drop 2) (by rw [List.length_drop]; omega)
      obtain ⟨fields, hfields⟩ := (Format.takes_many Format.takes_dword n).enough (bs.drop 4)
        (by rw [Format.manyLen_const, List.length_drop]; omega)
      have hrec := Format.dword_of_le (bs.drop (4 + 4 * n))
        (by rw [List.length_drop]; omega)
      rw [Format.manyLen_const, List.drop_drop] at hfields
      rw [List.drop_drop] at hnum hrec
      obtain ⟨hread₁, hat⟩ := hat.word hret
      obtain ⟨hread₂, hat⟩ := hat.word hnum
      have hval : (UInt16.ofNat (ofBe ((bs.drop 2).take 2))).toNat = n := by
        rw [toNat_wordOf, hn]
      have hval' : (UInt32.ofNat (ofBe ((bs.drop (4 + 4 * n)).take 4))).toNat = m := by
        rw [toNat_dwordOf, hm]
      obtain ⟨u₁, hread₃, hat⟩ := hat.dwords r.retFields hfields
      rw [Nat.mul_comm n 4] at hat
      obtain ⟨hread₄, hat⟩ := hat.dword hrec
      have hwrap : u32 (m * n) = m * n := by
        have hfive : ∀ bs, 5 ≤ tlvLen bs := fun bs => by rw [tlvLen]; omega
        have := Format.le_manyLen hfive (m * n) (bs.drop (4 + 4 * n + 4))
        exact u32_of_lt (by omega)
      simp only [hok, ne_eq, not_true_eq_false, if_false, hread₁, hread₂, hval, hread₃, hread₄,
        hval', hwrap]
      intro hread
      have hvalues : (unPackTLVs (m * n) r.retData (u₁.next 4)).1 = retOk := by
        by_contra hfail
        simp [hfail] at hread
      obtain ⟨v, hv⟩ := hat.many_tlvView r.retData (by rw [List.length_drop]; omega) hvalues
      obtain ⟨ts, u₂, hread₅, hview, hat⟩ := hat.tlvs r.retData hv
      rw [List.drop_drop] at hat hv
      obtain ⟨c, hc⟩ := takes_cookieBody.enough
        (bs.drop (4 + 4 * n + (4 + Format.manyLen tlvLen (m * n) (bs.drop (4 + 4 * n + 4)))))
        (by rw [List.length_drop]; omega)
      rw [← Nat.add_assoc] at hc
      obtain ⟨rest, hbody⟩ : ∃ rest, queryBody bs = some ((⟨.ofNat (ofBe (bs.take 2)), fields,
          .ofNat (ofBe ((bs.drop (4 + 4 * n)).take 4)), v, c⟩ : QueryContent R), rest) := by
        rw [queryBody, hret]
        simp only [Option.bind_eq_bind, Option.bind_some, hnum, Nat.reduceAdd, hval, hfields,
          Nat.mul_comm n 4, hrec, hval', hv, hc]
        exact ⟨_, rfl⟩
      refine ⟨_, rest, ts, hbody, hview, ?_⟩
      have hnil : fields ≠ [] → n > 0 := by
        rw [← Format.length_of_many hfields]
        exact List.length_pos_of_ne_nil
      have hm' : UInt32.ofNat m = .ofNat (ofBe ((bs.drop (4 + 4 * n)).take 4)) := by
        rw [← hval', UInt32.ofNat_toNat]
      simp only [hread₅, not_true_eq_false, if_false]
      refine ⟨trivial, trivial, trivial, ?_⟩
      intro hfields'
      have hpos := hnil hfields'
      rw [if_pos hpos, Nat.mul_div_cancel _ hpos, hm']

theorem DpQueryRsp.parseRsp_of_rejected (r : DpQueryRsp R) (buf : ℕ → UInt8) {bufLen : ℕ}
    (hok : (UnPacker.fresh.init buf bufLen).1 ≠ retOk) : (r.parseRsp buf bufLen).1 ≠ retOk := by
  unfold parseRsp
  generalize UnPacker.fresh.init buf bufLen = p at hok ⊢
  cases p with
  | mk ret u =>
      simp only at hok
      simp [hok]

theorem DpQueryRsp.keeps_iff (r : DpQueryRsp R) (buf : ℕ → UInt8) {bufLen : ℕ}
    (hlt : bufLen < 2 ^ 32) :
    r.Keeps buf bufLen ↔ (UnPacker.fresh.init buf bufLen).1 ≠ retOk ∨
      QueryMeetsUnknown buf bufLen ∨
      queryLen (bodyOf buf bufLen) ≤ (bodyOf buf bufLen).length := by
  constructor
  · intro hkeeps
    by_contra hno
    rw [not_or, not_or, not_not] at hno
    obtain ⟨hok, hmeets, hle⟩ := hno
    obtain ⟨c, rest, -, hc, -⟩ := hkeeps ((r.parseRsp_eq_retOk_iff buf hlt hok).mpr hmeets)
    exact hle (fits_queryBody _ _ _ hc).1
  · rintro hcond hread
    by_cases hok : (UnPacker.fresh.init buf bufLen).1 = retOk
    · rcases hcond with hno | hmeets | hle
      · exact absurd hok hno
      · exact absurd hmeets ((r.parseRsp_eq_retOk_iff buf hlt hok).mp hread)
      · exact r.keeps_of_le buf hlt hok hle hread
    · exact absurd hread (r.parseRsp_of_rejected buf hok)

/-- The three parsers keep to complete bodies exactly where a packet is rejected or its body
is as long as its own counts announce; the query parser also where it meets a type that it
does not know. -/
theorem responses_keep_iff (buf : ℕ → UInt8) (bufLen : UInt32) (base : BaseDpRsp)
    (query : DpQueryRsp R) (condFind : DpCondFindRsp) :
    (base.Keeps buf bufLen.toNat ↔ (UnPacker.fresh.init buf bufLen.toNat).1 ≠ retOk ∨
      baseLen (bodyOf buf bufLen.toNat) ≤ (bodyOf buf bufLen.toNat).length) ∧
    (query.Keeps buf bufLen.toNat ↔ (UnPacker.fresh.init buf bufLen.toNat).1 ≠ retOk ∨
      QueryMeetsUnknown buf bufLen.toNat ∨
      queryLen (bodyOf buf bufLen.toNat) ≤ (bodyOf buf bufLen.toNat).length) ∧
    (condFind.Keeps buf bufLen.toNat ↔ (UnPacker.fresh.init buf bufLen.toNat).1 ≠ retOk ∨
      condFindLen (bodyOf buf bufLen.toNat) ≤ (bodyOf buf bufLen.toNat).length) :=
  ⟨base.keeps_iff buf bufLen.toNat_lt, query.keeps_iff buf bufLen.toNat_lt,
    condFind.keeps_iff buf bufLen.toNat_lt⟩

end Query

/-- A packet with an empty body is accepted as a response with return code 0. -/
theorem not_responses_keep : ¬ ∀ (buf : ℕ → UInt8) (bufLen : UInt32) (base : BaseDpRsp),
    base.Keeps buf bufLen.toNat := by
  intro h
  obtain ⟨c, rest, hc, -⟩ := h (fun i => UnPacker.emptyPack.getD i 0) 30 {} (by decide)
  have hnone : baseBody (bodyOf (fun i => UnPacker.emptyPack.getD i 0) (30 : UInt32).toNat) =
      none := by decide
  rw [hnone] at hc
  cases hc

end Spp
