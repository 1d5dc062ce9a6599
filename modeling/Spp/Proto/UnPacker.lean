import Spp.Proto.Packer

/-!
# The unpacker

`UnPacker` reads a packet where it lies in memory.  `Init` checks the packet, and the
accessors then read the body from `m_Offset` on, each with its own test against
`m_BodyLen`, in 32-bit arithmetic.  An accessor that finds too little sets `m_Err`.

## Main definitions

* `UnPacker` — the state; `touched` records what the accessors read of the body.
* `UnPacker.init`, `UnPacker.checkPack`, `UnPacker.getHeader`, `UnPacker.decrypt`.
* `UnPacker.unPackByte` … `UnPacker.unPackStringLen` — the accessors.
* `Call`, `Value`, `UnPacker.call` — an accessor with its arguments; what it gives back.
* `UnPacker.At u bs` — the bytes `bs` are what is left of the body.
-/

namespace Spp

/-- `UnPacker`.  `mem` is the memory from `m_pData` on and `pBody` the place of `m_pBody` in
it.  `touched` has the place in the body and the length of every stretch that an accessor
read or pointed to. -/
structure UnPacker where
  mem : ℕ → UInt8
  len : ℕ
  err : ℕ
  pBody : ℕ
  bodyLen : ℕ
  offset : ℕ
  touched : List (ℕ × ℕ)

namespace UnPacker

/-- The constructor; it only sets `m_Err`. -/
def fresh : UnPacker := ⟨fun _ => 0, 0, retOk, 0, 0, 0, []⟩

/-! ## The packet -/

/-- `GetHeader`. -/
def getHeader (u : UnPacker) : MsgHeader where
  soh := u.mem 0
  mainVer := u.mem 1
  subVer := u.mem 2
  packLen := .ofNat (htonl (ofLe (Mem.read u.mem 3 4)))
  mainCmd := .ofNat (htons (ofLe (Mem.read u.mem 7 2)))
  subCmd := .ofNat (htons (ofLe (Mem.read u.mem 9 2)))
  seq := .ofNat (htonl (ofLe (Mem.read u.mem 11 4)))
  fromUin := .ofNat (htonl (ofLe (Mem.read u.mem 15 4)))
  toUin := .ofNat (htonl (ofLe (Mem.read u.mem 19 4)))
  encType := u.mem 23
  sourceType := u.mem 24
  rev := .ofNat (htonl (ofLe (Mem.read u.mem 25 4)))

/-- `CheckPack` of a pointer other than `NULL`; the header is that of `m_pData`. -/
def checkPack (u : UnPacker) (data : ℕ → UInt8) (len : ℕ) : ℕ :=
  if len < msgHeaderLen + 1 then errProtocol
  else
    let h := u.getHeader
    if h.soh ≠ soh then errProtocol
    else if h.mainVer ≠ mainVer then errProtocolVer
    else if h.packLen.toNat > len then errProtocol
    else if data (u32sub h.packLen.toNat 1) ≠ eot then errProtocol
    else retOk

/-- `Init`; it leaves `m_Err` as it is. -/
def init (u : UnPacker) (data : ℕ → UInt8) (len : ℕ) : ℕ × UnPacker :=
  let u := { u with
    mem := data
    len := len
    pBody := msgHeaderLen
    bodyLen := u32sub (u32sub len msgHeaderLen) 1
    offset := 0
    touched := [] }
  (u.checkPack data len, u)

/-- `GetErr`. -/
def getErr (u : UnPacker) : ℕ := u.err

/-- `Decrypt`, which changes the packet in place. -/
def decrypt (u : UnPacker) (key : TeaKey) : ℕ × UnPacker :=
  let encType := u.mem msgEncTypePos
  if encType = encTypeNone then (retOk, u)
  else if encType ≠ encTypeTea then (errEncType, u)
  else (retOk, { u with mem := xxteaDecrypt u.mem u.pBody u.bodyLen key.words })

/-- The header of a packet is read as it was written. -/
theorem getHeader_of_read {u : UnPacker} {h : MsgHeader} {len : ℕ} (hlen : len < 2 ^ 32)
    (hread : Mem.read u.mem 0 (h.bytes len).length = h.bytes len) :
    u.getHeader = { h with packLen := .ofNat len } := by
  simp only [MsgHeader.bytes, Mem.read_append_iff, length_be, List.length_singleton,
    Nat.reduceAdd, Mem.read_one_eq_iff] at hread
  obtain ⟨h0, h1, h2, h3, h7, h9, h11, h15, h19, h23, h24, h25⟩ := hread
  simp only [getHeader, htonl, htons, bswap_ofLe (length_be _ _), h0, h1, h2, h3, h7, h9,
    h11, h15, h19, h23, h24, h25, ofBe_be_of_lt (n := 4) hlen, uint16_ofBe_be, uint32_ofBe_be]

/-! ## The accessors -/

/-- `m_Err` after an accessor found too little. -/
def fail (u : UnPacker) : UnPacker := { u with err := errProtocol }

/-- `m_Offset` is moved on. -/
def advance (u : UnPacker) (n : ℕ) : UnPacker := { u with offset := u32 (u.offset + n) }

/-- The `n` bytes from `start` on are read. -/
def touch (u : UnPacker) (start n : ℕ) : UnPacker :=
  { u with touched := u.touched ++ [(start, n)] }

/-- `UnPackByte`, whose test admits the offset behind the last byte. -/
def unPackByte (u : UnPacker) : UInt8 × UnPacker :=
  if u.offset > u.bodyLen then (0, u.fail)
  else (u.mem (u.pBody + u.offset), (u.touch u.offset 1).advance 1)

/-- An integer of `n` bytes as it lies in the body, or 0. -/
def unPackUint (n : ℕ) (u : UnPacker) : ℕ × UnPacker :=
  if u32 (u.offset + n) > u.bodyLen then (0, u.fail)
  else
    let u := u.advance n
    (ofLe (Mem.read u.mem (u.pBody + u.offset - n) n), u.touch (u.offset - n) n)

def unPackWord (u : UnPacker) : UInt16 × UnPacker :=
  let (v, u) := u.unPackUint 2
  (.ofNat (htons v), u)

def unPackDWord (u : UnPacker) : UInt32 × UnPacker :=
  let (v, u) := u.unPackUint 4
  (.ofNat (htonl v), u)

def unPackQWord (u : UnPacker) : UInt64 × UnPacker :=
  let (v, u) := u.unPackUint 8
  (.ofNat (myhtonll v), u)

/-- `UnPackBinary(v, len)`: the return value, and what is in `v` afterwards. -/
def unPackBinary (u : UnPacker) (v : List UInt8) (len : ℕ) : ℕ × List UInt8 × UnPacker :=
  if u32 (u.offset + len) > u.bodyLen then (errProtocol, v, u.fail)
  else
    (retOk, Mem.read u.mem (u.pBody + u.offset) len, (u.touch u.offset len).advance len)

/-- `UnPackBinary(len)`: what the pointer points to, or `none` for `NULL`. -/
def unPackBinaryPtr (u : UnPacker) (len : ℕ) : Option (List UInt8) × UnPacker :=
  if u32 (u.offset + len) > u.bodyLen then (none, u.fail)
  else
    (some (Mem.read u.mem (u.pBody + u.offset) len), (u.touch u.offset len).advance len)

/-- `UnPackBinary(data, len)`, which leaves `data` as it is when `len` is 0. -/
def unPackBinaryStr (u : UnPacker) (data : List UInt8) (len : ℕ) :
    ℕ × List UInt8 × UnPacker :=
  if u32 (u.offset + len) > u.bodyLen then (errProtocol, data, u.fail)
  else if len = 0 then (retOk, data, u)
  else
    (retOk, Mem.read u.mem (u.pBody + u.offset) len, (u.touch u.offset len).advance len)

/-- The loop `for(; *q && (q < end); ++q)`: how far it goes with `left` bytes to the end.
It has read `*q` also where it stops. -/
def scan (m : ℕ → UInt8) : ℕ → ℕ → ℕ
  | 0, _ => 0
  | left + 1, q => if m q = 0 then 0 else scan m left (q + 1) + 1

/-- `UnPackString()`. -/
def unPackString (u : UnPacker) : List UInt8 × UnPacker :=
  let p := u.pBody + u.offset
  let n := scan u.mem (u.bodyLen - u.offset) p
  if u.offset + n ≥ u.bodyLen then ([], u.touch u.offset (n + 1))
  else (Mem.read u.mem p n, (u.touch u.offset (n + 1)).advance (n + 1))

/-- `UnPackString(len)`: the string, whose length is `len`, or `none` for `NULL`. -/
def unPackStringLen (u : UnPacker) : Option (List UInt8) × UnPacker :=
  let p := u.pBody + u.offset
  let n := scan u.mem (u.bodyLen - u.offset) p
  if u.offset + n ≥ u.bodyLen then (none, u.touch u.offset (n + 1))
  else (some (Mem.read u.mem p n), (u.touch u.offset (n + 1)).advance (n + 1))

/-- `n` calls of `UnPackDWord`, each value pushed back on a vector. -/
def unPackDWords : ℕ → List UInt32 → UnPacker → List UInt32 × UnPacker
  | 0, v, u => (v, u)
  | n + 1, v, u =>
      let (x, u) := u.unPackDWord
      unPackDWords n (v ++ [x]) u

end UnPacker

/-! ## Calls -/

/-- An accessor with its arguments. -/
inductive Call
  | byte
  | word
  | dword
  | qword
  | binary (v : List UInt8) (len : UInt32)
  | binaryPtr (len : UInt32)
  | binaryStr (data : List UInt8) (len : UInt32)
  | string
  | stringLen

/-- What an accessor gives back. -/
inductive Value
  | byte (v : UInt8)
  | word (v : UInt16)
  | dword (v : UInt32)
  | qword (v : UInt64)
  | binary (ret : ℕ) (v : List UInt8)
  | pointer (p : Option (List UInt8))
  | string (s : List UInt8)
  deriving DecidableEq

namespace UnPacker

/-- The accessor is called. -/
def call (u : UnPacker) : Call → UnPacker × Value
  | .byte => let (v, u) := u.unPackByte; (u, .byte v)
  | .word => let (v, u) := u.unPackWord; (u, .word v)
  | .dword => let (v, u) := u.unPackDWord; (u, .dword v)
  | .qword => let (v, u) := u.unPackQWord; (u, .qword v)
  | .binary v len => let (ret, v, u) := u.unPackBinary v len.toNat; (u, .binary ret v)
  | .binaryPtr len => let (p, u) := u.unPackBinaryPtr len.toNat; (u, .pointer p)
  | .binaryStr data len =>
      let (ret, data, u) := u.unPackBinaryStr data len.toNat
      (u, .binary ret data)
  | .string => let (s, u) := u.unPackString; (u, .string s)
  | .stringLen => let (p, u) := u.unPackStringLen; (u, .pointer p)

/-! ## What is left of the body -/

/-- The bytes `bs` are what is left of the body.  A body is 30 bytes shorter than its
packet, so a small number added to an offset does not wrap around. -/
structure At (u : UnPacker) (bs : List UInt8) : Prop where
  bodyLen : u.offset + bs.length = u.bodyLen
  bodyLen_lt : u.bodyLen + 30 < 2 ^ 32
  bytes : Mem.read u.mem (u.pBody + u.offset) bs.length = bs

/-- The state after `n` bytes were read. -/
def next (u : UnPacker) (n : ℕ) : UnPacker := (u.touch u.offset n).advance n

@[simp] theorem err_next (u : UnPacker) (n : ℕ) : (u.next n).err = u.err := rfl
@[simp] theorem bodyLen_next (u : UnPacker) (n : ℕ) : (u.next n).bodyLen = u.bodyLen := rfl

variable {u : UnPacker} {n : ℕ} {b : UInt8} {xs ys bs : List UInt8}

theorem At.fits (h : u.At (xs ++ bs)) : u32 (u.offset + xs.length) = u.offset + xs.length ∧
    u.offset + xs.length ≤ u.bodyLen := by
  have hlen := h.bodyLen
  have hlt := h.bodyLen_lt
  rw [List.length_append] at hlen
  exact ⟨u32_of_lt (by omega), by omega⟩

theorem At.read (h : u.At (xs ++ bs)) :
    Mem.read u.mem (u.pBody + u.offset) xs.length = xs := by
  have hbytes := h.bytes
  rw [List.length_append, Mem.read_add] at hbytes
  exact (List.append_inj hbytes (by simp)).1

theorem At.next (h : u.At (xs ++ bs)) : (u.next xs.length).At bs := by
  have hbytes := h.bytes
  have hlen := h.bodyLen
  rw [List.length_append, Mem.read_add] at hbytes
  rw [List.length_append] at hlen
  have hoff : (u.next xs.length).offset = u.offset + xs.length := h.fits.1
  refine ⟨by rw [hoff, bodyLen_next]; omega, h.bodyLen_lt, ?_⟩
  rw [hoff, ← Nat.add_assoc]
  exact (List.append_inj hbytes (by simp)).2

theorem At.unPackByte (h : u.At (b :: bs)) : u.unPackByte = (b, u.next 1) := by
  have h' : u.At ([b] ++ bs) := h
  have hread : Mem.read u.mem (u.pBody + u.offset) 1 = [b] := h'.read
  have hle : u.offset + 1 ≤ u.bodyLen := h'.fits.2
  rw [UnPacker.unPackByte, if_neg (by omega)]
  simpa [Mem.read, UnPacker.next] using hread

theorem At.unPackUint (h : u.At (xs ++ bs)) :
    u.unPackUint xs.length = (ofLe xs, u.next xs.length) := by
  have hfits := h.fits
  have hoff : (u.advance xs.length).offset = u.offset + xs.length := hfits.1
  rw [UnPacker.unPackUint, if_neg (by omega)]
  simp only [hoff, Nat.add_sub_cancel, ← Nat.add_assoc]
  exact Prod.ext (congrArg ofLe h.read) rfl

theorem At.unPackWord (h : u.At (xs ++ bs)) (hxs : xs.length = 2) :
    u.unPackWord = (.ofNat (ofBe xs), u.next 2) := by
  have huint := h.unPackUint
  rw [hxs] at huint
  simp [UnPacker.unPackWord, huint, htons, bswap_ofLe hxs]

theorem At.unPackDWord (h : u.At (xs ++ bs)) (hxs : xs.length = 4) :
    u.unPackDWord = (.ofNat (ofBe xs), u.next 4) := by
  have huint := h.unPackUint
  rw [hxs] at huint
  simp [UnPacker.unPackDWord, huint, htonl, bswap_ofLe hxs]

theorem At.unPackQWord (h : u.At (xs ++ bs)) (hxs : xs.length = 8) :
    u.unPackQWord = (.ofNat (ofBe xs), u.next 8) := by
  have huint := h.unPackUint
  rw [hxs] at huint
  simp [UnPacker.unPackQWord, huint, myhtonll_eq, bswap_ofLe hxs]

theorem At.unPackBinary (h : u.At (xs ++ bs)) (v : List UInt8) :
    u.unPackBinary v xs.length = (retOk, xs, u.next xs.length) := by
  have hfits := h.fits
  rw [UnPacker.unPackBinary, if_neg (by omega), h.read]
  rfl

theorem At.unPackBinaryPtr (h : u.At (xs ++ bs)) :
    u.unPackBinaryPtr xs.length = (some xs, u.next xs.length) := by
  have hfits := h.fits
  rw [UnPacker.unPackBinaryPtr, if_neg (by omega), h.read]
  rfl

theorem At.unPackBinaryStr (h : u.At (xs ++ bs)) (hxs : xs ≠ []) (data : List UInt8) :
    u.unPackBinaryStr data xs.length = (retOk, xs, u.next xs.length) := by
  have hfits := h.fits
  have hne : xs.length ≠ 0 := by simpa using hxs
  rw [UnPacker.unPackBinaryStr, if_neg (by omega), if_neg hne, h.read]
  rfl

/-- A string of length 0 is not assigned. -/
theorem At.unPackBinaryStr_zero (h : u.At bs) (data : List UInt8) :
    u.unPackBinaryStr data 0 = (retOk, data, u) := by
  have h' : u.At ([] ++ bs) := h
  have hfits := h'.fits
  rw [List.length_nil] at hfits
  rw [UnPacker.unPackBinaryStr, if_neg (by omega), if_pos rfl]

theorem scan_le (m : ℕ → UInt8) (left q : ℕ) : scan m left q ≤ left := by
  induction left generalizing q with
  | zero => rfl
  | succ left ih =>
      rw [scan]
      split
      · omega
      · exact Nat.succ_le_succ (ih _)

theorem scan_of_zero {m : ℕ → UInt8} {left q : ℕ}
    (h : Mem.read m q left = xs ++ 0 :: ys) (hxs : (0 : UInt8) ∉ xs) :
    scan m left q = xs.length := by
  induction xs generalizing left q with
  | nil =>
      cases left with
      | zero => simp at h
      | succ left =>
          rw [Mem.read_succ] at h
          have hcell : m q = 0 := List.head_eq_of_cons_eq h
          simp [scan, hcell]
  | cons x xs ih =>
      cases left with
      | zero => simp at h
      | succ left =>
          rw [Mem.read_succ] at h
          have hcell : m q = x := List.head_eq_of_cons_eq h
          have hne : m q ≠ 0 := by
            intro h0
            exact hxs (by simp [← hcell, h0])
          have hrest := ih (List.tail_eq_of_cons_eq h) (fun hmem => hxs (.tail _ hmem))
          simp [scan, hne, hrest]

theorem At.scan_eq (h : u.At (xs ++ 0 :: bs)) (hxs : (0 : UInt8) ∉ xs) :
    scan u.mem (u.bodyLen - u.offset) (u.pBody + u.offset) = xs.length ∧
      u.offset + xs.length < u.bodyLen := by
  have hlen := h.bodyLen
  have hleft : u.bodyLen - u.offset = (xs ++ 0 :: bs).length := by omega
  rw [List.length_append, List.length_cons] at hlen
  refine ⟨?_, by omega⟩
  rw [hleft]
  exact scan_of_zero h.bytes hxs

theorem At.unPackString (h : u.At (xs ++ 0 :: bs)) (hxs : (0 : UInt8) ∉ xs) :
    u.unPackString = (xs, u.next (xs.length + 1)) := by
  obtain ⟨hscan, hlt⟩ := h.scan_eq hxs
  simp only [UnPacker.unPackString, hscan, h.read]
  rw [if_neg (by omega)]
  rfl

theorem At.unPackStringLen (h : u.At (xs ++ 0 :: bs)) (hxs : (0 : UInt8) ∉ xs) :
    u.unPackStringLen = (some xs, u.next (xs.length + 1)) := by
  obtain ⟨hscan, hlt⟩ := h.scan_eq hxs
  simp only [UnPacker.unPackStringLen, hscan, h.read]
  rw [if_neg (by omega)]
  rfl

theorem At.next_string (h : u.At (xs ++ 0 :: bs)) : (u.next (xs.length + 1)).At bs := by
  have hsplit : xs ++ 0 :: bs = (xs ++ [0]) ++ bs := by simp
  rw [hsplit] at h
  simpa using h.next

end UnPacker

end Spp
