import Spp.Proto.Requests
import Spp.Proto.Responses

/-!
# Responses to a combined request

A combined response has a return code, a count and that many responses, each behind its length.
`ParseRsp` stops at the first that it cannot parse, and `IsAllCmdOK` looks at the responses that
were parsed before.

## Main definitions

* `SubRsp`, `parsePart` — a response in a part; a part parsed.
* `DpComboRsp.parseRsp`, `DpComboRsp.getRsp`, `DpComboRsp.isAllCmdOK` — the class.
* `announcedParts`, `partAt` — the count of a packet and its parts, one behind the other.
* `DpComboRsp.Sound` — `IsAllCmdOK` is right about a packet.
* `EndsEarly` — the packet fails before any of its responses has reported an error.
-/

namespace Spp

/-- `DP_ERR_GENERAL`. -/
def dpErrGeneral : UInt16 := 1

/-- `DELTA_MAIN_CMD`. -/
def deltaMainCmd : UInt16 := 0x0505

section

variable {R : Type} [CDouble R]

/-! ## One part -/

/-- A response of a part: all but the query response are a `BaseDpRsp`. -/
inductive SubRsp (R : Type)
  | base (r : BaseDpRsp)
  | query (r : DpQueryRsp R)

omit [CDouble R] in
/-- `GetRetCode`. -/
def SubRsp.retCode : SubRsp R → UInt16
  | .base r => r.retCode
  | .query r => r.retCode

/-- `ParseRsp` of the class of the response. -/
def SubRsp.parseRsp (buf : ℕ → UInt8) (bufLen : ℕ) : SubRsp R → ℕ × SubRsp R
  | .base r => let (ret, r) := r.parseRsp buf bufLen; (ret, .base r)
  | .query r => let (ret, r) := r.parseRsp buf bufLen; (ret, .query r)

/-- `GetRspCmd`: the value returned, `main_cmd` and `sub_cmd`, which are 0 before. -/
def getRspCmd (pack : ℕ → UInt8) (packLen : ℕ) : ℕ × UInt16 × UInt16 :=
  if msgHeaderLen > packLen then (errProtocol, 0, 0)
  else
    (retOk, .ofNat (htons (ofLe (Mem.read pack 7 2))), .ofNat (htons (ofLe (Mem.read pack 9 2))))

omit [CDouble R] in
/-- `switch(main_cmd)`: a fresh response of the class for the command. -/
def newRsp (mainCmd : UInt16) : Option (SubRsp R) :=
  if mainCmd = insertMainCmd then some (.base {})
  else if mainCmd = updateMainCmd then some (.base {})
  else if mainCmd = deleteMainCmd then some (.base {})
  else if mainCmd = deltaMainCmd then some (.base {})
  else if mainCmd = queryMainCmd then some (.query {})
  else if mainCmd = countMainCmd then some (.base {})
  else none

/-- The length of a part and where `UnPackBinary(len)` points, or `none` for `NULL`. -/
def readPart (u : UnPacker) : Option ((ℕ → UInt8) × ℕ) × UnPacker :=
  let (len, u) := u.unPackDWord
  match u.unPackBinaryPtr len.toNat with
  | (none, u') => (none, u')
  | (some _, u') => (some (fun i => u.mem (u.pBody + u.offset + i), len.toNat), u')

/-- The response of a part and its command; `none` where `ParseRsp` gives up. -/
def parsePart : Option ((ℕ → UInt8) × ℕ) → Option (SubRsp R × UInt16)
  | none => none
  | some (rsp, len) =>
      let (r, mainCmd, _) := getRspCmd rsp len
      if r ≠ retOk then none
      else
        match (newRsp mainCmd : Option (SubRsp R)) with
        | none => none
        | some sub =>
            let (r, sub) := sub.parseRsp rsp len
            if r ≠ retOk then none else some (sub, mainCmd)

/-! ## The whole response -/

/-- `DpComboRsp`; `comboRsp` are the responses with their commands. -/
structure DpComboRsp (R : Type) extends BaseDpRsp where
  comboRsp : List (SubRsp R × UInt16) := []

/-- The loop over `n` parts: whether it got through, and the responses pushed back. -/
def parseParts : ℕ → List (SubRsp R × UInt16) → UnPacker →
    Bool × List (SubRsp R × UInt16) × UnPacker
  | 0, v, u => (true, v, u)
  | n + 1, v, u =>
      let (part, u) := readPart u
      match parsePart part with
      | none => (false, v, u)
      | some x => parseParts n (v ++ [x]) u

namespace DpComboRsp

/-- `DpComboRsp::ParseRsp`. -/
def parseRsp (r : DpComboRsp R) (buf : ℕ → UInt8) (bufLen : ℕ) : ℤ × DpComboRsp R :=
  let (ret, u) := UnPacker.fresh.init buf bufLen
  if ret ≠ retOk then (ret, r)
  else
    let (retcode, u) := u.unPackWord
    if retcode ≠ 0 then (-1, { r with retCode := dpErrGeneral })
    else
      let (recordNum, u) := u.unPackWord
      let (through, comboRsp, u) := parseParts recordNum.toNat r.comboRsp u
      let r := { r with recordNum := .ofNat comboRsp.length, comboRsp }
      if !through then (-1, { r with retCode := dpErrGeneral })
      else
        let (cookie, _) := unPackCookie r.cookie u
        (retOk, { r with retCode := 0, cookie })

omit [CDouble R] in
/-- `GetRsp`, or `none` for `NULL`. -/
def getRsp (r : DpComboRsp R) (idx : ℕ) : Option (SubRsp R × UInt16) :=
  if idx ≥ r.recordNum.toNat then none else r.comboRsp[idx]?

omit [CDouble R] in
/-- `IsAllCmdOK`. -/
def isAllCmdOK (r : DpComboRsp R) : Bool :=
  (List.range r.recordNum.toNat).all fun i =>
    match r.getRsp i with
    | none => false
    | some (p, _) => p.retCode == 0

end DpComboRsp

/-! ## What a packet says -/

/-- The return code of a packet; 0 where the body has none. -/
def codeOf (buf : ℕ → UInt8) (bufLen : ℕ) : ℕ :=
  if 2 ≤ (bodyOf buf bufLen).length then wordOf (bodyOf buf bufLen) else 0

/-- The count of a packet; 0 where the body has none. -/
def announcedParts (buf : ℕ → UInt8) (bufLen : ℕ) : ℕ :=
  if 4 ≤ (bodyOf buf bufLen).length then wordOf ((bodyOf buf bufLen).drop 2) else 0

/-- The unpacker behind the two numbers and `k` parts, whatever is in them. -/
def behindParts (buf : ℕ → UInt8) (bufLen k : ℕ) : UnPacker :=
  (fun u => (readPart u).2)^[k] (UnPacker.fresh.init buf bufLen).2.unPackWord.2.unPackWord.2

/-- The part `k` of a packet. -/
def partAt (buf : ℕ → UInt8) (bufLen k : ℕ) : Option ((ℕ → UInt8) × ℕ) :=
  (readPart (behindParts buf bufLen k)).1

/-- `IsAllCmdOK` after `ParseRsp` of a fresh object tells of a response that was parsed to its
end, with all the responses that the packet announced, none of which reports an error. -/
def DpComboRsp.Sound (buf : ℕ → UInt8) (bufLen : ℕ) : Prop :=
  let p := ({} : DpComboRsp R).parseRsp buf bufLen
  p.2.isAllCmdOK = true →
    p.1 = retOk ∧ p.2.comboRsp.length = announcedParts buf bufLen ∧
      ∀ x ∈ p.2.comboRsp, x.1.retCode = 0

variable (R) in
/-- The packet is rejected, or has a return code, or one of its parts cannot be parsed and all
before it have responses without an error. -/
def EndsEarly (buf : ℕ → UInt8) (bufLen : ℕ) : Prop :=
  (UnPacker.fresh.init buf bufLen).1 ≠ retOk ∨ codeOf buf bufLen ≠ 0 ∨
    ∃ k < announcedParts buf bufLen,
      (∀ j < k, ∃ x : SubRsp R × UInt16,
        parsePart (partAt buf bufLen j) = some x ∧ x.1.retCode = 0) ∧
      parsePart (R := R) (partAt buf bufLen k) = none

/-! ## The loop -/

/-- The parts that were parsed are the first ones, in their order, and the loop ends early
only at a part that cannot be parsed. -/
theorem parseParts_spec (n : ℕ) (v : List (SubRsp R × UInt16)) (u : UnPacker) :
    ∃ xs, (parseParts n v u).2.1 = v ++ xs ∧
      (∀ (j : ℕ) (h : j < xs.length),
        parsePart (readPart ((fun u => (readPart u).2)^[j] u)).1 = some xs[j]) ∧
      ((parseParts n v u).1 = true ∧ xs.length = n ∨
        (parseParts n v u).1 = false ∧ xs.length < n ∧
          parsePart (R := R) (readPart ((fun u => (readPart u).2)^[xs.length] u)).1 = none) := by
  induction n generalizing v u with
  | zero => exact ⟨[], by simp [parseParts]⟩
  | succ n ih =>
      cases hpart : parsePart (R := R) (readPart u).1 with
      | none => exact ⟨[], by simp [parseParts, hpart]⟩
      | some x =>
          obtain ⟨xs, hpushed, hparsed, hend⟩ := ih (v ++ [x]) (readPart u).2
          have hstep : parseParts (n + 1) v u = parseParts n (v ++ [x]) (readPart u).2 := by
            simp [parseParts, hpart]
          refine ⟨x :: xs, ?_, ?_, ?_⟩
          · simp [hstep, hpushed]
          · intro j hj
            cases j with
            | zero => simpa using hpart
            | succ j => simpa using hparsed j (by simpa using hj)
          · rw [hstep]
            simpa using hend

/-! ## What is left behind -/

omit [CDouble R] in
theorem DpComboRsp.isAllCmdOK_iff {r : DpComboRsp R}
    (hnum : r.recordNum.toNat = r.comboRsp.length) :
    r.isAllCmdOK = true ↔ ∀ x ∈ r.comboRsp, x.1.retCode = 0 := by
  have hget : ∀ i < r.comboRsp.length, r.getRsp i = r.comboRsp[i]? := by
    intro i hi
    rw [getRsp, if_neg (by omega)]
  rw [isAllCmdOK, List.all_eq_true, hnum]
  constructor
  · intro hall x hx
    obtain ⟨i, hi, rfl⟩ := List.getElem_of_mem hx
    have hok := hall i (List.mem_range.mpr hi)
    simpa [hget i hi, List.getElem?_eq_getElem hi] using hok
  · intro hall i hi
    have hlt := List.mem_range.mp hi
    simpa [hget i hlt, List.getElem?_eq_getElem hlt] using hall _ (List.getElem_mem hlt)

/-- The two numbers in front of the parts. -/
theorem counts_eq (buf : ℕ → UInt8) {bufLen : ℕ} (hlt : bufLen < 2 ^ 32)
    (hok : (UnPacker.fresh.init buf bufLen).1 = retOk) :
    (UnPacker.fresh.init buf bufLen).2.unPackWord.1.toNat = codeOf buf bufLen ∧
      (UnPacker.fresh.init buf bufLen).2.unPackWord.2.unPackWord.1.toNat =
        announcedParts buf bufLen := by
  obtain ⟨-, hstands⟩ := UnPacker.init_at buf hlt hok
  obtain ⟨hcode, hstands⟩ := hstands.unPackWord
  obtain ⟨hnum, -⟩ := hstands.unPackWord
  rw [hcode, hnum, codeOf, announcedParts]
  constructor
  · by_cases htwo : 2 ≤ (bodyOf buf bufLen).length
    · have hword := wordOf_bodyOf buf bufLen (k := 0) (by omega)
      rw [if_pos htwo, if_pos (by omega), ← hword, List.drop_zero]
      exact toNat_wordOf _
    · rw [if_neg htwo, if_neg (by omega)]
      rfl
  · by_cases hfour : 4 ≤ (bodyOf buf bufLen).length
    · have hskip : skip (bodyOf buf bufLen).length 2 0 = 2 := if_pos (by omega)
      rw [hskip, if_pos hfour, if_pos (by omega), ← wordOf_bodyOf buf bufLen (by omega)]
      exact toNat_wordOf _
    · have hend : ¬ skip (bodyOf buf bufLen).length 2 0 + 2 ≤ (bodyOf buf bufLen).length := by
        rw [skip]
        split <;> omega
      rw [if_neg hfour, if_neg hend]
      rfl

section

variable {buf : ℕ → UInt8} {bufLen ret : ℕ} {u u' : UnPacker} {r : DpComboRsp R}
  {v : List (SubRsp R × UInt16)}

theorem DpComboRsp.parseRsp_rejected (hinit : UnPacker.fresh.init buf bufLen = (ret, u))
    (hret : ret ≠ retOk) : r.parseRsp buf bufLen = (↑ret, r) := by
  rw [parseRsp, hinit]
  simp [hret]

theorem DpComboRsp.parseRsp_coded (hinit : UnPacker.fresh.init buf bufLen = (retOk, u))
    (hcode : u.unPackWord.1 ≠ 0) :
    r.parseRsp buf bufLen = (-1, { r with retCode := dpErrGeneral }) := by
  rw [parseRsp, hinit]
  simp [hcode]

theorem DpComboRsp.parseRsp_cut (hinit : UnPacker.fresh.init buf bufLen = (retOk, u))
    (hcode : u.unPackWord.1 = 0)
    (hparts : parseParts u.unPackWord.2.unPackWord.1.toNat r.comboRsp
      u.unPackWord.2.unPackWord.2 = (false, v, u')) :
    r.parseRsp buf bufLen =
      (-1, { r with recordNum := .ofNat v.length, comboRsp := v, retCode := dpErrGeneral }) := by
  rw [parseRsp, hinit]
  simp [hcode, hparts]

theorem DpComboRsp.parseRsp_through (hinit : UnPacker.fresh.init buf bufLen = (retOk, u))
    (hcode : u.unPackWord.1 = 0)
    (hparts : parseParts u.unPackWord.2.unPackWord.1.toNat r.comboRsp
      u.unPackWord.2.unPackWord.2 = (true, v, u')) :
    r.parseRsp buf bufLen =
      ((retOk : ℤ), { r with
        recordNum := .ofNat v.length, comboRsp := v, retCode := 0,
        cookie := (unPackCookie r.cookie u').1 }) := by
  rw [parseRsp, hinit]
  simp [hcode, hparts]

end

variable (R) in
/-- A packet that is rejected or has a return code leaves no responses. -/
theorem DpComboRsp.parseRsp_of_none (buf : ℕ → UInt8) {bufLen : ℕ} (hlt : bufLen < 2 ^ 32)
    (hnone : (UnPacker.fresh.init buf bufLen).1 ≠ retOk ∨ codeOf buf bufLen ≠ 0) :
    (({} : DpComboRsp R).parseRsp buf bufLen).1 ≠ retOk ∧
      (({} : DpComboRsp R).parseRsp buf bufLen).2.isAllCmdOK = true := by
  have hcounts := counts_eq buf hlt
  cases hinit : UnPacker.fresh.init buf bufLen with
  | mk ret u =>
      rw [hinit] at hnone hcounts
      by_cases hok : ret = retOk
      · subst hok
        have hne : u.unPackWord.1 ≠ 0 := by
          intro hzero
          have hcode := (hcounts rfl).1
          simp only [hzero] at hcode
          exact hnone.elim (fun h => h rfl) fun h => h hcode.symm
        rw [parseRsp_coded hinit hne]
        exact ⟨by simp [retOk], rfl⟩
      · rw [parseRsp_rejected hinit hok]
        refine ⟨?_, rfl⟩
        intro h
        exact hok (Int.ofNat_inj.mp h)

variable (R) in
/-- Otherwise the responses in front are left, up to the one that cannot be parsed, and the
packet passes where there is no such. -/
theorem DpComboRsp.parseRsp_of_some (buf : ℕ → UInt8) {bufLen : ℕ} (hlt : bufLen < 2 ^ 32)
    (hok : (UnPacker.fresh.init buf bufLen).1 = retOk) (hcode : codeOf buf bufLen = 0) :
    ∃ xs, (({} : DpComboRsp R).parseRsp buf bufLen).2.comboRsp = xs ∧
      (({} : DpComboRsp R).parseRsp buf bufLen).2.recordNum.toNat = xs.length ∧
      (∀ (j : ℕ) (h : j < xs.length), parsePart (partAt buf bufLen j) = some xs[j]) ∧
      ((({} : DpComboRsp R).parseRsp buf bufLen).1 = retOk ∧
          xs.length = announcedParts buf bufLen ∨
        (({} : DpComboRsp R).parseRsp buf bufLen).1 ≠ retOk ∧
          xs.length < announcedParts buf bufLen ∧
          parsePart (R := R) (partAt buf bufLen xs.length) = none) := by
  have hcounts := counts_eq buf hlt hok
  unfold partAt behindParts
  cases hinit : UnPacker.fresh.init buf bufLen with
  | mk ret u =>
      rw [hinit] at hok hcounts
      simp only at hok hcounts
      subst hok
      obtain ⟨hret, hnum⟩ := hcounts
      have hzero : u.unPackWord.1 = 0 := by
        apply UInt16.toNat_inj.mp
        rw [hret, hcode]
        rfl
      have hspec := parseParts_spec (announcedParts buf bufLen) ([] : List (SubRsp R × UInt16))
        u.unPackWord.2.unPackWord.2
      have hword := u.unPackWord.2.unPackWord.1.toNat_lt
      rw [hnum] at hword
      have hsize : UInt32.size = 2 ^ 32 := rfl
      cases hparts : parseParts (announcedParts buf bufLen) ([] : List (SubRsp R × UInt16))
        u.unPackWord.2.unPackWord.2 with
      | mk through rest =>
          obtain ⟨v, u'⟩ := rest
          rw [hparts] at hspec
          obtain ⟨xs, hpushed, hparsed, hend⟩ := hspec
          simp only [List.nil_append] at hpushed hend
          subst hpushed
          rw [← hnum] at hparts
          cases through with
          | true =>
              have hlen : v.length = announcedParts buf bufLen := by simpa using hend
              rw [parseRsp_through hinit hzero hparts]
              refine ⟨v, rfl, ?_, hparsed, .inl ⟨rfl, hlen⟩⟩
              exact UInt32.toNat_ofNat_of_lt' (lt_of_le_of_lt hlen.le (by omega))
          | false =>
              obtain ⟨hlen, hstop⟩ : v.length < announcedParts buf bufLen ∧ _ := by simpa using hend
              rw [parseRsp_cut hinit hzero hparts]
              refine ⟨v, rfl, ?_, hparsed, .inr ⟨by simp [retOk], hlen, hstop⟩⟩
              exact UInt32.toNat_ofNat_of_lt' (lt_trans hlen (by omega))

/-! ## Where `IsAllCmdOK` is right -/

/-- `IsAllCmdOK` is right about a packet exactly where the packet does not end early: what is
left of a packet that failed says nothing of its failure, so it is a response in front with an
error of its own that tells. -/
theorem DpComboRsp.sound_iff (buf : ℕ → UInt8) (bufLen : UInt32) :
    DpComboRsp.Sound (R := R) buf bufLen.toNat ↔ ¬ EndsEarly R buf bufLen.toNat := by
  have hlt := bufLen.toNat_lt
  generalize bufLen.toNat = bufLen at hlt ⊢
  rw [Sound, EndsEarly]
  by_cases hnone : (UnPacker.fresh.init buf bufLen).1 ≠ retOk ∨ codeOf buf bufLen ≠ 0
  · obtain ⟨hfail, hall⟩ := parseRsp_of_none R buf hlt hnone
    constructor
    · intro hsound
      exact absurd (hsound hall).1 hfail
    · intro hearly
      exact absurd (hnone.imp_right Or.inl) hearly
  · obtain ⟨hok, hcode⟩ := not_or.mp hnone
    obtain ⟨xs, hleft, hnum, hparsed, hend⟩ :=
      parseRsp_of_some R buf hlt (not_not.mp hok) (not_not.mp hcode)
    have hall := isAllCmdOK_iff (r := (({} : DpComboRsp R).parseRsp buf bufLen).2)
      (by rw [hleft, hnum])
    rw [hleft] at hall
    simp only [hall, hleft, hok, hcode, false_or]
    rcases hend with ⟨hpass, hlen⟩ | ⟨hfail, hlen, hstop⟩
    · constructor
      · rintro - ⟨k, hk, -, hnext⟩
        rw [hparsed k (by omega)] at hnext
        exact absurd hnext (by simp)
      · intro _ hcodes
        exact ⟨hpass, hlen, hcodes⟩
    · constructor
      · rintro hsound ⟨k, hk, hbefore, hnext⟩
        have hkle : xs.length ≤ k := by
          by_contra hlt'
          rw [hparsed k (by omega)] at hnext
          exact absurd hnext (by simp)
        apply hfail
        refine (hsound ?_).1
        intro x hx
        obtain ⟨j, hj, rfl⟩ := List.getElem_of_mem hx
        obtain ⟨x', hx', hzero⟩ := hbefore j (by omega)
        rw [hparsed j hj] at hx'
        cases hx'
        exact hzero
      · intro hearly hcodes
        refine absurd ⟨xs.length, hlen, ?_, hstop⟩ hearly
        intro j hj
        exact ⟨xs[j], hparsed j hj, hcodes _ (List.getElem_mem hj)⟩

end

/-- A packet of 32 bytes with the return code 1. -/
def refusal : ℕ → UInt8 := fun i =>
  [74, 1, 0, 0, 0, 0, 32, 5, 5, 87, 0, 0, 0, 0, 1, 0, 0, 0, 2, 0, 0, 0, 3, 0, 1, 0, 0, 0, 0,
    0, 1, 87].getD i 0

/-- The refusal is accepted as a packet and `ParseRsp` fails on it, yet all commands are OK. -/
theorem DpComboRsp.not_sound :
    (UnPacker.fresh.init refusal 32).1 = retOk ∧ ¬ DpComboRsp.Sound (R := Unit) refusal 32 := by
  refine ⟨by decide, ?_⟩
  intro hsound
  exact absurd (hsound (by decide)).1 (by decide)

end Spp
