import Spp.Proto.Decodable
import Spp.Proto.Responses
import Mathlib.Algebra.Order.BigOperators.Group.List

/-!
# Query responses that are read back

A response whose cells were packed by `PackTLV`, row by row, is parsed to the same table.  The
parser gets the number of records back by a division, which is exact.

## Main definitions

* `TLV.assign`, `TLV.Made` — `TLV::Assign`; what the constructors make.
* `packQueryRsp` — a response in the layout that `ParseRsp` reads.
* `DpQueryRsp.getData` — `GetData`.
* `queryRspSize` — the size of the packet.
-/

namespace Spp

open Format

variable {R : Type}

/-! ## Cells -/

/-- What a `TLV` is made of; a string is one of `const string &` or `const char *`. -/
inductive CellValue
  | byte (v : UInt8)
  | word (v : UInt16)
  | dword (v : UInt32)
  | qword (v : UInt64)
  | string (v : List UInt8)
  | binary (v : List UInt8)

/-- `TLV::Assign`, which leaves the other members as they are. -/
def TLV.assign (t : TLV R) : CellValue → TLV R
  | .byte v => { t with type := 0, length := 1, intValue := v.toUInt64 }
  | .word v => { t with type := 1, length := 2, intValue := v.toUInt64 }
  | .dword v => { t with type := 2, length := 4, intValue := v.toUInt64 }
  | .qword v => { t with type := 3, length := 8, intValue := v }
  | .string v => { t with type := 5, length := .ofNat v.length, stringValue := v }
  | .binary v =>
      { t with
        type := 6
        length := .ofNat v.length
        stringValue := if v.length > 0 then v else t.stringValue }

/-- A constructor made it, of a `TLV` whose numbers are not set. -/
def TLV.Made (t : TLV R) : Prop := ∃ t₀ c, t₀.stringValue = [] ∧ t = TLV.assign t₀ c

/-- The bytes that `PackTLV` takes for a cell. -/
def TLV.size (t : TLV R) : ℕ :=
  5 + match TlvKind.ofType t.type with
    | some .byte => 1
    | some .word => 2
    | some .dword => 4
    | some .qword => 8
    | _ => t.stringValue.length

section Packing

variable [CDouble R]

/-- `PackTLV` of cell after cell. -/
def packTLVs (pk : Packer) : List (TLV R) → Option (ℕ × Packer)
  | [] => some (retOk, pk)
  | t :: ts => do
      let (ret, pk) ← packTLV pk t
      if ret ≠ retOk then some (ret, pk) else packTLVs pk ts

/-- A response in the layout that `DpQueryRsp::ParseRsp` reads. -/
def packQueryRsp (retCode : UInt16) (fields : List UInt32) (rows : List (List (TLV R)))
    (cookie : List UInt8) : Option (ℕ × Packer) := do
  let pk := (({} : Packer).packWord retCode).packWord (.ofNat fields.length)
  let pk := fields.foldl Packer.packDWord pk
  let (ret, pk) ← packTLVs (pk.packDWord (.ofNat rows.length)) rows.flatten
  if ret ≠ retOk then some (ret, pk)
  else some (retOk, (pk.packWord (.ofNat cookie.length)).packBinary cookie cookie.length)

/-- The size of the packet of a response. -/
def queryRspSize (fields : List UInt32) (rows : List (List (TLV R))) (cookie : List UInt8) : ℕ :=
  msgHeaderLen + (8 + 4 * fields.length + (rows.flatten.map TLV.size).sum + 2 + cookie.length) + 1

/-- `GetData`. -/
def DpQueryRsp.getData (r : DpQueryRsp R) (rowIdx colIdx : ℕ) : Option (TLV R) :=
  r.retData[rowIdx * r.retFields.length + colIdx]?

/-! ## One cell -/

/-- A cell of a string, for both its types. -/
theorem TLV.packs_of_binary {t : TLV R} (hkind : TlvKind.ofType t.type = some .binary)
    (hlength : t.length = .ofNat t.stringValue.length) (hlen : t.stringValue.length < 2 ^ 32) :
    t.Kept ∧ (tlvScript t).ret = retOk ∧ (∀ c ∈ (tlvScript t).calls, c.Prints) ∧
      ((tlvScript t).calls.flatMap PackCall.bytes).length = t.size := by
  have hnat : (UInt32.ofNat t.stringValue.length).toNat = t.stringValue.length :=
    UInt32.toNat_ofNat_of_lt' hlen
  have hbytes := bytes_data (R := R) t.stringValue hnat.le
  rw [hnat, List.take_length] at hbytes
  have hprints : (PackCall.data t.stringValue (.ofNat t.stringValue.length) :
      PackCall R).Prints := trivial
  refine ⟨?_, ?_, ?_, ?_⟩
  · simp only [Kept, hkind, hlength, hnat]
  · simp only [tlvScript, hkind]
  · simp only [tlvScript, hkind, List.cons_append, List.nil_append, List.forall_mem_cons]
    exact ⟨trivial, trivial, hprints, List.forall_mem_nil _⟩
  · simp [tlvScript, hkind, hbytes, size]
    omega

/-- A made cell fits its bytes, and `PackTLV` packs it. -/
theorem TLV.Made.packs {t : TLV R} (h : t.Made) (hlen : t.stringValue.length < 2 ^ 32) :
    t.Kept ∧ (tlvScript t).ret = retOk ∧ (∀ c ∈ (tlvScript t).calls, c.Prints) ∧
      ((tlvScript t).calls.flatMap PackCall.bytes).length = t.size := by
  obtain ⟨t₀, c, hnil, rfl⟩ := h
  cases c with
  | byte v =>
      have hlt : v.toNat < 256 := v.toNat_lt
      simp [assign, Kept, size, tlvScript, TlvKind.ofType, PackCall.Prints, hlt]
  | word v =>
      have hlt : v.toNat < 65536 := v.toNat_lt
      simp [assign, Kept, size, tlvScript, TlvKind.ofType, PackCall.Prints, hlt]
  | dword v =>
      have hlt : v.toNat < 4294967296 := v.toNat_lt
      simp [assign, Kept, size, tlvScript, TlvKind.ofType, PackCall.Prints, hlt]
  | qword v => simp [assign, Kept, size, tlvScript, TlvKind.ofType, PackCall.Prints]
  | string v => exact packs_of_binary rfl rfl hlen
  | binary v =>
      have hvalue : (TLV.assign t₀ (.binary v)).stringValue = v := by
        simp only [assign, hnil]
        split
        next => rfl
        next hzero => exact (List.length_eq_zero_iff.mp (by omega)).symm
      exact packs_of_binary rfl (by rw [hvalue]; rfl) hlen

omit [CDouble R] in
theorem TLV.Made.length_le {t : TLV R} (h : t.Made) : t.stringValue.length ≤ t.size := by
  obtain ⟨t₀, c, hnil, rfl⟩ := h
  cases c with
  | string v => exact Nat.le_add_left _ _
  | binary v => exact Nat.le_add_left _ _
  | _ => simp [assign, hnil]

/-- `PackTLV` of made cells. -/
theorem packTLVs_eq {ts : List (TLV R)}
    (hmade : ∀ t ∈ ts, t.Made ∧ t.stringValue.length < 2 ^ 32) (pk : Packer) :
    packTLVs pk ts =
      some (retOk, ⟨pk.oss ++ ts.flatMap fun t => (tlvScript t).calls.flatMap PackCall.bytes⟩) := by
  induction ts generalizing pk with
  | nil => simp [packTLVs]
  | cons t ts ih =>
      rw [List.forall_mem_cons] at hmade
      obtain ⟨-, hret, hprints, -⟩ := hmade.1.1.packs hmade.1.2
      rw [packTLVs, packTLV_eq, Packer.run_eq, if_pos hprints]
      simp [hret, ih hmade.2]

theorem length_cells {ts : List (TLV R)}
    (hmade : ∀ t ∈ ts, t.Made ∧ t.stringValue.length < 2 ^ 32) :
    (ts.flatMap fun t => (tlvScript t).calls.flatMap PackCall.bytes).length =
      (ts.map TLV.size).sum := by
  rw [List.length_flatMap]
  refine congrArg List.sum (List.map_congr_left ?_)
  intro t ht
  exact ((hmade t ht).1.packs (hmade t ht).2).2.2.2

theorem foldl_packDWord (fields : List UInt32) (pk : Packer) :
    (fields.foldl Packer.packDWord pk).oss = pk.oss ++ fields.flatMap fun v => be 4 v.toNat := by
  induction fields generalizing pk with
  | nil => simp
  | cons v fields ih => simp [ih]

/-! ## The whole response -/

/-- The body of a response. -/
def queryRspBody (retCode : UInt16) (fields : List UInt32) (rows : List (List (TLV R)))
    (cookie : List UInt8) : List UInt8 :=
  be 2 retCode.toNat ++ (be 2 (UInt16.ofNat fields.length).toNat ++
    ((fields.flatMap fun v => be 4 v.toNat) ++ (be 4 (UInt32.ofNat rows.length).toNat ++
      ((rows.flatten.flatMap fun t => (tlvScript t).calls.flatMap PackCall.bytes) ++
        (be 2 (UInt16.ofNat cookie.length).toNat ++ cookie)))))

variable {retCode : UInt16} {fields : List UInt32} {rows : List (List (TLV R))}
  {cookie : List UInt8}

theorem packQueryRsp_eq (hmade : ∀ t ∈ rows.flatten, t.Made ∧ t.stringValue.length < 2 ^ 32) :
    packQueryRsp retCode fields rows cookie =
      some (retOk, ⟨queryRspBody retCode fields rows cookie⟩) := by
  simp [packQueryRsp, packTLVs_eq hmade, queryRspBody, foldl_packDWord, Packer.packBinary,
    Packer.packWord, Packer.packDWord, htons, htonl]

theorem length_queryRspBody
    (hmade : ∀ t ∈ rows.flatten, t.Made ∧ t.stringValue.length < 2 ^ 32) :
    msgHeaderLen + (queryRspBody retCode fields rows cookie).length + 1 =
      queryRspSize fields rows cookie := by
  have hfields : (fields.flatMap fun v => be 4 v.toNat).length = 4 * fields.length := by
    simp [List.length_flatMap, Nat.mul_comm]
  simp only [queryRspBody, queryRspSize, List.length_append, length_be, length_cells hmade, hfields]
  omega

omit [CDouble R] in
/-- The cells of a table that fits a packet. -/
theorem lt_of_mem_cells (hsize : queryRspSize fields rows cookie < 2 ^ 32)
    (hmade : ∀ t ∈ rows.flatten, t.Made) :
    ∀ t ∈ rows.flatten, t.Made ∧ t.stringValue.length < 2 ^ 32 := by
  intro t ht
  have hle : t.size ≤ (rows.flatten.map TLV.size).sum :=
    List.single_le_sum (fun _ _ => Nat.zero_le _) _ (List.mem_map_of_mem ht)
  have hlen := (hmade t ht).length_le
  rw [queryRspSize] at hsize
  exact ⟨hmade t ht, by omega⟩

/-- The parser gets back what a body says. -/
theorem DpQueryRsp.parseRsp_of_body {buf : ℕ → UInt8} {bufLen : ℕ}
    (hok : (UnPacker.fresh.init buf bufLen).1 = retOk)
    (hat : (UnPacker.fresh.init buf bufLen).2.At (queryRspBody retCode fields rows cookie))
    (hpos : fields ≠ []) (hnum : fields.length < 65536)
    (hrows : ∀ row ∈ rows, row.length = fields.length)
    (hmade : ∀ t ∈ rows.flatten, t.Made ∧ t.stringValue.length < 2 ^ 32)
    (hcount : rows.length * fields.length < 2 ^ 32) (hcookie : cookie.length < 65536) :
    ∃ ts : List (TLV R), ts.map TLV.view = rows.flatten.map TLV.view ∧
      ({} : DpQueryRsp R).parseRsp buf bufLen =
        (retOk, { retCode := retCode, retFields := fields, retData := ts,
                  recordNum := .ofNat rows.length, cookie := cookie }) := by
  have hlength : 0 < fields.length := List.length_pos_of_ne_nil hpos
  have hlt : rows.length < 2 ^ 32 :=
    (Nat.le_mul_of_pos_right _ hlength).trans_lt hcount
  have hfield : (UInt16.ofNat fields.length).toNat = fields.length :=
    UInt16.toNat_ofNat_of_lt' hnum
  have hrecord : (UInt32.ofNat rows.length).toNat = rows.length := UInt32.toNat_ofNat_of_lt' hlt
  have hcookieLen : (UInt16.ofNat cookie.length).toNat = cookie.length :=
    UInt16.toNat_ofNat_of_lt' hcookie
  have hcells : rows.flatten.length = rows.length * fields.length := by
    rw [List.length_flatten, List.map_congr_left (fun row hrow => hrows row hrow)]
    simp
  have hids := (reads_many fun v (_ : v ∈ fields) => (exact_dword v).reads).whole (by simp)
  have hvalues := (reads_many fun t (_ : t ∈ rows.flatten) => reads_tlvView t).whole
    fun t ht => ((hmade t ht).1.packs (hmade t ht).2).1
  rw [hcells] at hvalues
  rw [List.map_id'] at hids
  rw [queryRspBody] at hat
  rw [DpQueryRsp.parseRsp]
  generalize UnPacker.fresh.init buf bufLen = p at hok hat ⊢
  obtain ⟨ret, u⟩ := p
  obtain ⟨hread₁, hat⟩ := hat.word ((exact_word retCode).whole _)
  obtain ⟨hread₂, hat⟩ := hat.word ((exact_word (.ofNat fields.length)).whole _)
  obtain ⟨u₁, hread₃, hat⟩ := hat.dwords [] (hids _)
  obtain ⟨hread₄, hat⟩ := hat.dword ((exact_dword (.ofNat rows.length)).whole _)
  obtain ⟨ts, u₂, hread₅, hview, hat⟩ := hat.tlvs [] (hvalues _)
  obtain ⟨hread₆, hat⟩ := hat.word ((exact_word (.ofNat cookie.length)).whole _)
  obtain ⟨u₃, hread₇, -⟩ := hat.binaryStr [] (take_eq_some_iff.mpr ⟨(List.append_nil _).symm, rfl⟩)
  have hwhole : (if cookie.length = 0 then [] else cookie) = cookie := by
    split
    next hnil => exact (List.length_eq_zero_iff.mp hnil).symm
    next => rfl
  refine ⟨ts, hview, ?_⟩
  simp only at hok
  simp only [hok, ne_eq, not_true_eq_false, if_false, hread₁, hread₂, hfield, hread₃, hread₄,
    hrecord, u32_of_lt hcount, hread₅, List.nil_append, unPackCookie, hread₆, hcookieLen, hread₇,
    hwhole, if_pos hlength, Nat.mul_div_cancel _ hlength, gt_iff_lt]

/-- A cell of a table whose rows have one length, by its place in the list of all cells. -/
theorem getElem?_flatten_of_length {α : Type*} {rows : List (List α)} {n i j : ℕ} {row : List α}
    (hrows : ∀ row ∈ rows, row.length = n) (hrow : rows[i]? = some row) (hj : j < n) :
    rows.flatten[i * n + j]? = row[j]? := by
  induction rows generalizing i with
  | nil => simp at hrow
  | cons head rows ih =>
      rw [List.forall_mem_cons] at hrows
      cases i with
      | zero =>
          obtain rfl : head = row := by simpa using hrow
          rw [List.flatten_cons, Nat.zero_mul, Nat.zero_add,
            List.getElem?_append_left (by rw [hrows.1]; exact hj)]
      | succ i =>
          rw [List.getElem?_cons_succ] at hrow
          have hplace : (i + 1) * n + j - head.length = i * n + j := by
            rw [hrows.1, Nat.succ_mul]
            omega
          rw [List.flatten_cons, List.getElem?_append_right (by rw [hrows.1, Nat.succ_mul]; omega),
            hplace, ih hrows.2 hrow]

/-- A response of made cells is parsed to the fields, the table and the cookie it was packed
from. -/
theorem queryRsp_roundTrip (hd : MsgHeader) (hsoh : hd.soh = soh) (hver : hd.mainVer = mainVer)
    (retCode : UInt16) (hpos : fields ≠ []) (hnum : fields.length < 65536)
    (hrows : ∀ row ∈ rows, row.length = fields.length ∧ ∀ t ∈ row, t.Made)
    (hcount : rows.length * fields.length < 2 ^ 32) (hcookie : cookie.length ≤ 65535)
    (hsize : queryRspSize fields rows cookie < 2 ^ 32) :
    ∃ pk pack, packQueryRsp retCode fields rows cookie = some (retOk, pk) ∧
      pk.getPack hd = some pack ∧ pack.length = queryRspSize fields rows cookie ∧
      ∀ buf, Mem.read buf 0 pack.length = pack → ∃ r : DpQueryRsp R,
        ({} : DpQueryRsp R).parseRsp buf pack.length = (retOk, r) ∧ r.retCode = retCode ∧
        r.retFields = fields ∧ r.recordNum.toNat = rows.length ∧ r.cookie = cookie ∧
        ∀ i j row t, rows[i]? = some row → row[j]? = some t →
          ∃ t', r.getData i j = some t' ∧ t'.view = t.view := by
  have hcells := lt_of_mem_cells hsize (by
    intro t ht
    obtain ⟨row, hrow, ht⟩ := List.mem_flatten.mp ht
    exact (hrows row hrow).2 t ht)
  have hbody : msgHeaderLen + (queryRspBody retCode fields rows cookie).length + 1 =
      queryRspSize fields rows cookie := length_queryRspBody hcells
  have hlen : msgHeaderLen + (queryRspBody retCode fields rows cookie).length + 1 < 2 ^ 32 :=
    hbody.trans_lt hsize
  refine ⟨_, _, packQueryRsp_eq hcells, Packer.getPack_packet hlen, ?_, ?_⟩
  · rw [MsgHeader.length_packet, hbody]
  · intro buf hbuf
    obtain ⟨hok, -, hat, -⟩ := UnPacker.fresh.init_packet hsoh hver hlen hbuf
    obtain ⟨ts, hview, hparse⟩ := DpQueryRsp.parseRsp_of_body hok hat hpos hnum
      (fun row hrow => (hrows row hrow).1) hcells hcount (by omega)
    have hlt : rows.length < 2 ^ 32 :=
      (Nat.le_mul_of_pos_right _ (List.length_pos_of_ne_nil hpos)).trans_lt hcount
    refine ⟨_, hparse, rfl, rfl, UInt32.toNat_ofNat_of_lt' hlt, rfl, ?_⟩
    intro i j row t hrow ht
    obtain ⟨hj, -⟩ := List.getElem?_eq_some_iff.mp ht
    have hlength := (hrows row (List.mem_of_getElem? hrow)).1
    have hcell := getElem?_flatten_of_length (fun row hrow => (hrows row hrow).1) hrow
      (hlength ▸ hj)
    have hplace := congrArg (·[i * fields.length + j]?) hview
    simp only [List.getElem?_map, hcell, ht, Option.map_some, Option.map_eq_some_iff] at hplace
    exact hplace

end Packing

/-- A record of a byte and an empty string. -/
def sampleRow : List (TLV Unit) :=
  [.assign ⟨0, 0, 0, (), []⟩ (.byte 7), .assign ⟨0, 0, 0, (), []⟩ (.string [])]

theorem queryRsp_roundTrip_sample :
    ∃ pk pack, packQueryRsp 0 [1, 2] [sampleRow] [5] = some (retOk, pk) ∧
      pk.getPack {} = some pack ∧ pack.length = queryRspSize [1, 2] [sampleRow] [5] ∧
      ∀ buf, Mem.read buf 0 pack.length = pack → ∃ r : DpQueryRsp Unit,
        ({} : DpQueryRsp Unit).parseRsp buf pack.length = (retOk, r) ∧ r.retCode = 0 ∧
        r.retFields = [1, 2] ∧ r.recordNum.toNat = 1 ∧ r.cookie = [5] ∧
        ∀ i j row t, [sampleRow][i]? = some row → row[j]? = some t →
          ∃ t', r.getData i j = some t' ∧ t'.view = t.view :=
  queryRsp_roundTrip {} rfl rfl 0 (by decide) (by decide)
    (by
      intro row hrow
      obtain rfl := List.mem_singleton.mp hrow
      exact ⟨rfl, List.forall_mem_cons.mpr ⟨⟨_, _, rfl, rfl⟩,
        List.forall_mem_singleton.mpr ⟨_, _, rfl, rfl⟩⟩⟩)
    (by decide) (by decide) (by decide)

end Spp
