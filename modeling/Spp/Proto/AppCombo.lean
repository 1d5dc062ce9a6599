import Mathlib.Data.List.Induction
import Mathlib.Data.List.ReduceOption
import Spp.Proto.ComboRsp

/-!
# Responses to an application's combined request

`AppComboRsp` keeps the responses of a packet as they came, each with its command, and gives them
out by their numbers.  Called again, `ParseRsp` puts the responses of the next packet behind
those that are there.

## Main definitions

* `AppComboRsp.parseRsp`, `getSubRsp`, `getSubRspString`, `getSubRspCmd` — the class.
* `AppComboRsp.parseAll` — an object after some packets.
* `AppComboRsp.responses` — the responses of a packet, up to a part that holds none.
-/

namespace Spp

/-- `AppComboRsp`; `comboRsp` are the responses, each with its two commands in one number. -/
structure AppComboRsp where
  retCode : UInt16 := 0xffff
  recordNum : UInt32 := 0
  comboRsp : List (List UInt8 × UInt32) := []

namespace AppComboRsp

/-! ## Parsing -/

/-- The response of a part with its command; `none` where `ParseRsp` gives up. -/
def subRsp : Option ((ℕ → UInt8) × ℕ) → Option (List UInt8 × UInt32)
  | none => none
  | some (rsp, len) =>
      let (r, mainCmd, subCmd) := getRspCmd rsp len
      if r ≠ retOk then none
      else some (Mem.read rsp 0 len, mainCmd.toUInt32 <<< 16 ||| subCmd.toUInt32)

/-- The loop over `n` parts: whether it got through, and the responses pushed back. -/
def parseParts : ℕ → List (List UInt8 × UInt32) → UnPacker → Bool × List (List UInt8 × UInt32)
  | 0, v, _ => (true, v)
  | n + 1, v, u =>
      let (part, u) := readPart u
      match subRsp part with
      | none => (false, v)
      | some x => parseParts n (v ++ [x]) u

/-- `AppComboRsp::ParseRsp`. -/
def parseRsp (r : AppComboRsp) (buf : ℕ → UInt8) (bufLen : ℕ) : ℤ × AppComboRsp :=
  let (ret, u) := UnPacker.fresh.init buf bufLen
  if ret ≠ retOk then (ret, r)
  else
    let (retcode, u) := u.unPackWord
    if retcode ≠ 0 then (-1, { r with retCode := dpErrGeneral })
    else
      let (recordNum, u) := u.unPackWord
      let (through, comboRsp) := parseParts recordNum.toNat r.comboRsp u
      if through then (0, ⟨0, recordNum.toUInt32, comboRsp⟩)
      else (-1, ⟨dpErrGeneral, .ofNat comboRsp.length, comboRsp⟩)

/-- An object after some packets, each with its length. -/
def parseAll (packets : List ((ℕ → UInt8) × UInt32)) : AppComboRsp :=
  packets.foldl (fun r packet => (r.parseRsp packet.1 packet.2.toNat).2) {}

/-! ## Reading -/

/-- What a call gives: an error, a response with the value returned, or two commands.  `outside`
is a read behind the end of the vector. -/
inductive Answer
  | error (ret : ℤ)
  | rsp (ret : ℤ) (pack : List UInt8)
  | cmd (mainCmd subCmd : UInt16)
  | outside

/-- The check of the number, which all calls make. -/
def withItem (r : AppComboRsp) (idx : UInt16) (f : List UInt8 × UInt32 → Answer) : Answer :=
  if idx.toNat ≥ r.recordNum.toNat then .error (-1)
  else
    match r.comboRsp[idx.toNat]? with
    | none => .outside
    | some t => f t

/-- `GetSubRsp` into a buffer. -/
def getSubRsp (r : AppComboRsp) (bufLen : UInt32) (idx : UInt16) : Answer :=
  r.withItem idx fun t =>
    if bufLen.toNat < t.1.length then .error (-2) else .rsp (s32 t.1.length) t.1

/-- `GetSubRsp` into a string. -/
def getSubRspString (r : AppComboRsp) (idx : UInt16) : Answer :=
  r.withItem idx fun t => .rsp (s32 t.1.length) t.1

/-- `GetSubRspCmd`. -/
def getSubRspCmd (r : AppComboRsp) (idx : UInt16) : Answer :=
  r.withItem idx fun t => .cmd (t.2 >>> 16).toUInt16 t.2.toUInt16

/-! ## What a packet holds -/

/-- The first parts from a place on. -/
def parts (n : ℕ) (u : UnPacker) : List (Option (List UInt8 × UInt32)) :=
  (List.range n).map fun k => subRsp (readPart ((fun u => (readPart u).2)^[k] u)).1

/-- All parts that a packet announces. -/
def announced (buf : ℕ → UInt8) (bufLen : ℕ) : List (Option (List UInt8 × UInt32)) :=
  (List.range (announcedParts buf bufLen)).map fun k => subRsp (partAt buf bufLen k)

/-- The packet is accepted and reports no error. -/
def Answered (buf : ℕ → UInt8) (bufLen : ℕ) : Prop :=
  (UnPacker.fresh.init buf bufLen).1 = retOk ∧ codeOf buf bufLen = 0

instance (buf : ℕ → UInt8) (bufLen : ℕ) : Decidable (Answered buf bufLen) :=
  inferInstanceAs (Decidable (_ ∧ _))

/-- The responses of a packet, up to a part that holds none. -/
def responses (buf : ℕ → UInt8) (bufLen : ℕ) : List (List UInt8 × UInt32) :=
  if Answered buf bufLen then ((announced buf bufLen).takeWhile Option.isSome).reduceOption else []

theorem parts_succ (n : ℕ) (u : UnPacker) :
    parts (n + 1) u = subRsp (readPart u).1 :: parts n (readPart u).2 := by
  simp only [parts, List.range_succ_eq_map, List.map_cons, List.map_map, Function.comp_def,
    Function.iterate_zero, id_eq, Function.iterate_succ_apply]

theorem parseParts_eq (n : ℕ) (v : List (List UInt8 × UInt32)) (u : UnPacker) :
    parseParts n v u =
      ((parts n u).all Option.isSome, v ++ ((parts n u).takeWhile Option.isSome).reduceOption) := by
  induction n generalizing v u with
  | zero => simp [parseParts, parts, List.reduceOption_nil]
  | succ n ih =>
      rw [parts_succ]
      cases hpart : subRsp (readPart u).1 with
      | none =>
          have hstep : parseParts (n + 1) v u = (false, v) := by simp only [parseParts, hpart]
          rw [hstep]
          simp [List.reduceOption_nil]
      | some x =>
          have hstep : parseParts (n + 1) v u = parseParts n (v ++ [x]) (readPart u).2 := by
            simp only [parseParts, hpart]
          rw [hstep, ih]
          simp [List.reduceOption_cons_of_some]

section
variable {buf : ℕ → UInt8} {bufLen ret : ℕ} {u : UnPacker} {r : AppComboRsp}

theorem parseRsp_rejected (hinit : UnPacker.fresh.init buf bufLen = (ret, u)) (hret : ret ≠ retOk) :
    r.parseRsp buf bufLen = (↑ret, r) := by
  rw [parseRsp, hinit]
  simp [hret]

theorem parseRsp_coded (hinit : UnPacker.fresh.init buf bufLen = (retOk, u))
    (hcode : u.unPackWord.1 ≠ 0) :
    r.parseRsp buf bufLen = (-1, { r with retCode := dpErrGeneral }) := by
  rw [parseRsp, hinit]
  simp [hcode]

theorem parseRsp_read (hinit : UnPacker.fresh.init buf bufLen = (retOk, u))
    (hcode : u.unPackWord.1 = 0) : r.parseRsp buf bufLen =
      let recordNum := u.unPackWord.2.unPackWord.1
      let found := parts recordNum.toNat u.unPackWord.2.unPackWord.2
      let comboRsp := r.comboRsp ++ (found.takeWhile Option.isSome).reduceOption
      if found.all Option.isSome then (0, ⟨0, recordNum.toUInt32, comboRsp⟩)
      else (-1, ⟨dpErrGeneral, .ofNat comboRsp.length, comboRsp⟩) := by
  rw [parseRsp, hinit]
  simp [hcode, parseParts_eq]

end

/-- What is read off the packet comes behind what is there. -/
theorem parseRsp_eq (r : AppComboRsp) (buf : ℕ → UInt8) {bufLen : ℕ} (hlt : bufLen < 2 ^ 32)
    (h : Answered buf bufLen) : r.parseRsp buf bufLen =
      if (announced buf bufLen).all Option.isSome then
        (0, ⟨0, .ofNat (announcedParts buf bufLen), r.comboRsp ++ responses buf bufLen⟩)
      else (-1, ⟨dpErrGeneral, .ofNat (r.comboRsp ++ responses buf bufLen).length,
        r.comboRsp ++ responses buf bufLen⟩) := by
  obtain ⟨hcode, hnum⟩ := counts_eq buf hlt h.1
  rw [responses, if_pos h]
  obtain ⟨hok, hret⟩ := h
  unfold announced partAt behindParts
  cases hinit : UnPacker.fresh.init buf bufLen with
  | mk ret u =>
      rw [hinit] at hok hcode hnum
      simp only at hok hcode hnum
      subst hok
      have hzero : u.unPackWord.1 = 0 := by
        apply UInt16.toNat_inj.mp
        rw [hcode, hret]
        rfl
      have hword : u.unPackWord.2.unPackWord.1.toUInt32 = .ofNat (announcedParts buf bufLen) := by
        apply UInt32.toNat_inj.mp
        have hbound := u.unPackWord.2.unPackWord.1.toNat_lt
        rw [UInt16.toNat_toUInt32, hnum, UInt32.toNat_ofNat', Nat.mod_eq_of_lt (by omega)]
      rw [parseRsp_read hinit hzero]
      simp only [hnum, hword, parts]

theorem parseRsp_of_not (r : AppComboRsp) (buf : ℕ → UInt8) {bufLen : ℕ} (hlt : bufLen < 2 ^ 32)
    (h : ¬ Answered buf bufLen) : (r.parseRsp buf bufLen).1 ≠ 0 ∧
      (r.parseRsp buf bufLen).2.recordNum = r.recordNum ∧
      (r.parseRsp buf bufLen).2.comboRsp = r.comboRsp := by
  have hcounts := counts_eq buf hlt
  rw [Answered] at h
  cases hinit : UnPacker.fresh.init buf bufLen with
  | mk ret u =>
      rw [hinit] at h hcounts
      by_cases hok : ret = retOk
      · subst hok
        have hne : u.unPackWord.1 ≠ 0 := by
          intro hzero
          have hcode := (hcounts rfl).1
          simp only [hzero] at hcode
          exact h ⟨rfl, hcode.symm⟩
        rw [parseRsp_coded hinit hne]
        exact ⟨by simp, rfl, rfl⟩
      · rw [parseRsp_rejected hinit hok]
        refine ⟨?_, rfl, rfl⟩
        intro hzero
        exact hok (Int.ofNat_inj.mp hzero)

/-! ## One response -/

/-- The two commands are taken apart as they were put together. -/
theorem commands_eq (mainCmd subCmd : UInt16) :
    ((mainCmd.toUInt32 <<< 16 ||| subCmd.toUInt32) >>> 16).toUInt16 = mainCmd ∧
      (mainCmd.toUInt32 <<< 16 ||| subCmd.toUInt32).toUInt16 = subCmd := by
  have hmain := mainCmd.toNat_lt
  have hsub := subCmd.toNat_lt
  have hcmd : (mainCmd.toUInt32 <<< 16 ||| subCmd.toUInt32).toNat =
      mainCmd.toNat * 2 ^ 16 + subCmd.toNat := by
    rw [UInt32.toNat_or, UInt32.toNat_shiftLeft, UInt16.toNat_toUInt32, UInt16.toNat_toUInt32]
    have hshift : mainCmd.toNat <<< 16 % 2 ^ 32 = mainCmd.toNat <<< 16 := by
      rw [Nat.shiftLeft_eq, Nat.mod_eq_of_lt (by omega)]
    have hsixteen : (16 : UInt32).toNat % 32 = 16 := rfl
    rw [hsixteen, hshift, ← Nat.shiftLeft_add_eq_or_of_lt hsub, Nat.shiftLeft_eq]
  constructor
  · apply UInt16.toNat_inj.mp
    have hsixteen : (16 : UInt32).toNat % 32 = 16 := rfl
    rw [UInt32.toNat_toUInt16, UInt32.toNat_shiftRight, hcmd, hsixteen, Nat.shiftRight_eq_div_pow]
    omega
  · apply UInt16.toNat_inj.mp
    rw [UInt32.toNat_toUInt16, hcmd]
    omega

/-- A response that is pushed back has a header, and its commands are those of the header. -/
theorem subRsp_spec {part : Option ((ℕ → UInt8) × ℕ)} {t : List UInt8 × UInt32}
    (h : subRsp part = some t) : msgHeaderLen ≤ t.1.length ∧
      (t.2 >>> 16).toUInt16 = (getRspCmd (t.1.getD · 0) t.1.length).2.1 ∧
      t.2.toUInt16 = (getRspCmd (t.1.getD · 0) t.1.length).2.2 := by
  obtain _ | ⟨rsp, len⟩ := part
  · cases h
  · by_cases hshort : msgHeaderLen > len
    · simp [subRsp, getRspCmd, hshort, retOk, errProtocol] at h
    · obtain rfl : (Mem.read rsp 0 len, _) = t := by
        simpa [subRsp, getRspCmd, hshort] using h
      have hread : ∀ k, k + 2 ≤ msgHeaderLen →
          Mem.read ((Mem.read rsp 0 len).getD · 0) k 2 = Mem.read rsp k 2 := by
        intro k hk
        refine Mem.read_congr fun i hi => ?_
        have hlt : k + i < len := by omega
        simp [hlt]
      have hcommands := commands_eq (.ofNat (htons (ofLe (Mem.read rsp 7 2))))
        (.ofNat (htons (ofLe (Mem.read rsp 9 2))))
      refine ⟨by simpa using hshort, ?_⟩
      simp only [getRspCmd, Mem.length_read, if_neg hshort, hread 7 (by decide),
        hread 9 (by decide)]
      exact hcommands

theorem exists_subRsp {buf : ℕ → UInt8} {bufLen : ℕ} {t : List UInt8 × UInt32}
    (h : t ∈ responses buf bufLen) : ∃ part, subRsp part = some t := by
  rw [responses] at h
  split at h
  · rw [List.reduceOption_mem_iff] at h
    obtain ⟨k, -, hk⟩ := List.mem_map.mp (List.takeWhile_subset _ h)
    exact ⟨_, hk⟩
  · cases h

/-! ## Any packets -/

/-- An object has as many responses as it says. -/
theorem parseRsp_step {r : AppComboRsp} (hr : r.recordNum.toNat ≤ r.comboRsp.length)
    (buf : ℕ → UInt8) {bufLen : ℕ} (hlt : bufLen < 2 ^ 32) :
    (r.parseRsp buf bufLen).2.comboRsp = r.comboRsp ++ responses buf bufLen ∧
      (r.parseRsp buf bufLen).2.recordNum.toNat ≤ (r.parseRsp buf bufLen).2.comboRsp.length := by
  by_cases h : Answered buf bufLen
  · rw [parseRsp_eq r buf hlt h]
    split
    next hall =>
      refine ⟨rfl, ?_⟩
      have hlen : (responses buf bufLen).length = announcedParts buf bufLen := by
        rw [responses, if_pos h, List.takeWhile_eq_self_iff.mpr (List.all_eq_true.mp hall),
          List.reduceOption_length_eq_iff.mpr (List.all_eq_true.mp hall), announced,
          List.length_map, List.length_range]
      have hle : (UInt32.ofNat (announcedParts buf bufLen)).toNat ≤ announcedParts buf bufLen := by
        rw [UInt32.toNat_ofNat']
        exact Nat.mod_le _ _
      simp only [List.length_append]
      omega
    next =>
      refine ⟨rfl, ?_⟩
      simp only [UInt32.toNat_ofNat']
      exact Nat.mod_le _ _
  · obtain ⟨-, hnum, hcombo⟩ := parseRsp_of_not r buf hlt h
    rw [hnum, hcombo, responses, if_neg h, List.append_nil]
    exact ⟨rfl, hr⟩

theorem parseAll_spec (packets : List ((ℕ → UInt8) × UInt32)) :
    (parseAll packets).comboRsp = packets.flatMap (fun p => responses p.1 p.2.toNat) ∧
      (parseAll packets).recordNum.toNat ≤ (parseAll packets).comboRsp.length := by
  induction packets using List.reverseRecOn with
  | nil => exact ⟨rfl, le_rfl⟩
  | append_singleton packets p ih =>
      have hall : parseAll (packets ++ [p]) =
          ((parseAll packets).parseRsp p.1 p.2.toNat).2 := by
        rw [parseAll, List.foldl_append]
        rfl
      obtain ⟨hcombo, hnum⟩ := parseRsp_step ih.2 p.1 p.2.toNat_lt
      rw [hall]
      refine ⟨?_, hnum⟩
      rw [hcombo, ih.1, List.flatMap_append, List.flatMap_singleton]

/-- The response is given out under the number, as it came and with the commands in it. -/
structure Gives (r : AppComboRsp) (idx : UInt16) (pack : List UInt8) : Prop where
  header : msgHeaderLen ≤ pack.length
  buffer : ∀ bufLen : UInt32, r.getSubRsp bufLen idx =
    if bufLen.toNat < pack.length then .error (-2) else .rsp (s32 pack.length) pack
  string : r.getSubRspString idx = .rsp (s32 pack.length) pack
  commands : r.getSubRspCmd idx = .cmd (getRspCmd (pack.getD · 0) pack.length).2.1
    (getRspCmd (pack.getD · 0) pack.length).2.2

/-- There is no response under the number. -/
structure Refuses (r : AppComboRsp) (idx : UInt16) : Prop where
  buffer : ∀ bufLen, r.getSubRsp bufLen idx = .error (-1)
  string : r.getSubRspString idx = .error (-1)
  commands : r.getSubRspCmd idx = .error (-1)

/-- Whatever packets an object has parsed, a response that it gives out is one that came in them,
in the order in which they came, and it is given out whole with its own commands; every other
number is refused, and nothing is read behind the end of the vector. -/
theorem gives_parseAll (packets : List ((ℕ → UInt8) × UInt32)) (idx : UInt16) :
    if idx.toNat < (parseAll packets).recordNum.toNat then
      ∃ t, (packets.flatMap fun p => responses p.1 p.2.toNat)[idx.toNat]? = some t ∧
        (parseAll packets).Gives idx t.1
    else (parseAll packets).Refuses idx := by
  obtain ⟨hcombo, hnum⟩ := parseAll_spec packets
  generalize parseAll packets = r at *
  split
  next hlt =>
    have hget := List.getElem?_eq_getElem (lt_of_lt_of_le hlt hnum)
    have hmem := List.getElem_mem (lt_of_lt_of_le hlt hnum)
    generalize r.comboRsp[idx.toNat] = t at hget hmem
    have hitem : ∀ f, r.withItem idx f = f t := by
      intro f
      rw [withItem, if_neg (by omega), hget]
    rw [hcombo, List.mem_flatMap] at hmem
    obtain ⟨p, -, hp⟩ := hmem
    obtain ⟨part, hpart⟩ := exists_subRsp hp
    obtain ⟨hheader, hmain, hsub⟩ := subRsp_spec hpart
    refine ⟨t, hcombo ▸ hget, hheader, fun bufLen => hitem _, hitem _, ?_⟩
    rw [getSubRspCmd, hitem, hmain, hsub]
  next hge =>
    have hitem : ∀ f, r.withItem idx f = .error (-1) := fun f => if_pos (by omega)
    exact ⟨fun bufLen => hitem _, hitem _, hitem _⟩

/-- A fresh object tells that all went well exactly where the packet is accepted, reports no error
and has a response in every part that it announces. -/
theorem parseRsp_eq_zero_iff (buf : ℕ → UInt8) (bufLen : UInt32) :
    (({} : AppComboRsp).parseRsp buf bufLen.toNat).1 = 0 ↔
      Answered buf bufLen.toNat ∧ ∀ part ∈ announced buf bufLen.toNat, part.isSome := by
  by_cases h : Answered buf bufLen.toNat
  · rw [parseRsp_eq _ buf bufLen.toNat_lt h, ← List.all_eq_true]
    split
    next hall => simp [h, hall]
    next hall => simp [hall]
  · simp [h, (parseRsp_of_not {} buf bufLen.toNat_lt h).1]

end AppComboRsp

end Spp
