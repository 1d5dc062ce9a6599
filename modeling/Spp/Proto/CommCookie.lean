import Spp.Proto.Packer

/-!
# The cookie of a request

`CommCookie` puts a source, a flow, extra information and a request in a cookie, and takes them
out again into an object that may have been used before.  Extra information of no length is not
assigned, and a cookie that is cut off is noticed only after the source and the flow were stored.

## Main definitions

* `CommCookie.pack`, `CommCookie.packBuf`, `CommCookie.unPack` — the three operations.
* `CommCookie.Packs` — `Pack` accepts a cookie and builds these bytes.
* `CommCookie.Receives` — a receiver takes the same cookie out of the bytes.
* `CommCookie.Keeps` — a receiver that reports an error is as it was.
-/

namespace Spp

/-- `CommCookie`; `reqPack` are the `m_ReqPackLen` bytes that `m_pReqPack` points to. -/
@[ext] structure CommCookie where
  source : UInt16
  flow : UInt32
  reqPack : List UInt8
  strExtInfo : List UInt8
  reqPack_lt : reqPack.length < 2 ^ 32
  deriving DecidableEq

namespace CommCookie

/-- `Pack(buf, len)`: the value returned and the buffer, or `none` if the copies do not stay in
it. -/
def packBuf (c : CommCookie) (buf : ℕ → UInt8) (len : UInt32) : Option (ℤ × (ℕ → UInt8)) :=
  let ckLen := u32 (8 + c.strExtInfo.length + c.reqPack.length)
  if ckLen > 0xFFFF then some (-1, buf)
  else if len.toNat < ckLen then some (-1, buf)
  else if len.toNat < 8 + c.strExtInfo.length + c.reqPack.length then none
  else
    let buf := Mem.write buf 0 (le 2 (htons c.source.toNat))
    let buf := Mem.write buf 2 (le 4 (htonl c.flow.toNat))
    let buf := Mem.write buf 6 (le 2 (htons (UInt16.ofNat c.strExtInfo.length).toNat))
    let buf := Mem.write buf 8 c.strExtInfo
    let buf := Mem.write buf (8 + c.strExtInfo.length) c.reqPack
    some (ckLen, buf)

/-- `Pack(ck)`: the value returned and the string, by way of an array on the stack that holds
`cookie` before; `none` for an array of negative length. -/
def pack (c : CommCookie) (ck : List UInt8) (cookie : ℕ → UInt8) : Option (ℤ × List UInt8) :=
  let ckLen := s32 (8 + c.strExtInfo.length + c.reqPack.length : ℕ)
  if ckLen > 0xFFFF then some (-1, ck)
  else if ckLen < 0 then none
  else (c.packBuf cookie (.ofNat ckLen.toNat)).map fun r => (ckLen, Mem.read r.2 0 ckLen.toNat)

/-- The source in a cookie. -/
def sourceOf (buf : ℕ → UInt8) : UInt16 := .ofNat (htons (ofLe (Mem.read buf 0 2)))

/-- The flow in a cookie. -/
def flowOf (buf : ℕ → UInt8) : UInt32 := .ofNat (htonl (ofLe (Mem.read buf 2 4)))

/-- The length of the extra information in a cookie. -/
def otherSize (buf : ℕ → UInt8) : ℕ := htons (ofLe (Mem.read buf 6 2))

/-- The end of `UnPack`: what is left is the request. -/
def takeReqPack (r : CommCookie) (buf : ℕ → UInt8) (place : ℕ) (left : ℕ)
    (hleft : left < 2 ^ 32) : CommCookie :=
  if 0 < left then
    { r with reqPack := Mem.read buf place left, reqPack_lt := by rwa [Mem.length_read] }
  else { r with reqPack := [], reqPack_lt := by decide }

/-- `UnPack`: the value returned and the receiver. -/
def unPack (r : CommCookie) (buf : ℕ → UInt8) (len : UInt32) : ℤ × CommCookie :=
  if len.toNat < 8 then (-1, r)
  else
    let r := { r with source := sourceOf buf, flow := flowOf buf }
    let left := len.toNat - 8
    have hlt : left < 2 ^ 32 := (Nat.sub_le _ _).trans_lt len.toNat_lt
    if 0 < otherSize buf then
      if left < otherSize buf then (-2, r)
      else
        let r := { r with strExtInfo := Mem.read buf 8 (otherSize buf) }
        (0, r.takeReqPack buf (8 + otherSize buf) (left - otherSize buf)
          ((Nat.sub_le _ _).trans_lt hlt))
    else (0, r.takeReqPack buf 8 left hlt)

/-! ## What `Pack` builds -/

/-- `Pack` accepts the cookie and builds these bytes, in a string or in a buffer. -/
def Packs (c : CommCookie) (bytes : List UInt8) : Prop :=
  (∃ ck cookie, c.pack ck cookie = some ((bytes.length : ℤ), bytes)) ∨
    ∃ buf len buf', c.packBuf buf len = some ((bytes.length : ℤ), buf') ∧
      Mem.read buf' 0 bytes.length = bytes

/-- The bytes of a cookie. -/
def bytes (c : CommCookie) : List UInt8 :=
  be 2 c.source.toNat ++ be 4 c.flow.toNat ++ be 2 c.strExtInfo.length ++ c.strExtInfo ++ c.reqPack

variable {c r : CommCookie} {buf : ℕ → UInt8} {len : UInt32}

theorem length_bytes (c : CommCookie) :
    c.bytes.length = 8 + c.strExtInfo.length + c.reqPack.length := by
  simp only [bytes, List.length_append, length_be]

/-- `Pack` into a buffer finds no room, or copies all the bytes. -/
theorem packBuf_cases {n : ℤ} {buf' : ℕ → UInt8} (h : c.packBuf buf len = some (n, buf')) :
    n = -1 ∧ (0xFFFF < u32 (8 + c.strExtInfo.length + c.reqPack.length) ∨
        len.toNat < u32 (8 + c.strExtInfo.length + c.reqPack.length)) ∨
      n = c.bytes.length ∧ c.bytes.length ≤ 0xFFFF ∧ buf' = Mem.write buf 0 c.bytes := by
  have hlen := len.toNat_lt
  rw [length_bytes]
  simp only [packBuf] at h
  split_ifs at h with hlong hshort hover
  · simp only [Option.some.injEq, Prod.mk.injEq] at h
    exact .inl ⟨h.1.symm, .inl hlong⟩
  · simp only [Option.some.injEq, Prod.mk.injEq] at h
    exact .inl ⟨h.1.symm, .inr hshort⟩
  · simp only [Option.some.injEq, Prod.mk.injEq] at h
    obtain ⟨hsum, hwrite⟩ := h
    have hmod : u32 (8 + c.strExtInfo.length + c.reqPack.length) =
        8 + c.strExtInfo.length + c.reqPack.length := u32_of_lt (by omega)
    have hlt : c.strExtInfo.length < 2 ^ 16 := by omega
    have hext : (UInt16.ofNat c.strExtInfo.length).toNat = c.strExtInfo.length :=
      UInt16.toNat_ofNat_of_lt' hlt
    refine .inr ⟨by rw [← hsum, hmod], by omega, ?_⟩
    rw [← hwrite]
    simp only [bytes, Mem.write_append, List.length_append, length_be, htons, htonl, le_bswap, hext,
      Nat.zero_add, Nat.reduceAdd]

/-- A cookie that `Pack` accepts is not too long, and its bytes are those. -/
theorem Packs.cases {bs : List UInt8} (h : c.Packs bs) :
    bs = c.bytes ∧ c.bytes.length ≤ 0xFFFF := by
  rcases h with ⟨ck, cookie, hpack⟩ | ⟨buf, len, buf', hpack, hread⟩
  · simp only [pack] at hpack
    split_ifs at hpack with hlong hneg
    · simp only [Option.some.injEq, Prod.mk.injEq] at hpack
      omega
    · simp only [Option.map_eq_some_iff, Prod.exists, Prod.mk.injEq] at hpack
      obtain ⟨n, buf', hbuf, hlen, hread⟩ := hpack
      have hsame : (s32 (8 + c.strExtInfo.length + c.reqPack.length : ℕ)).toNat =
          u32 (8 + c.strExtInfo.length + c.reqPack.length) := by
        rw [s32] at hlong hneg ⊢
        rw [u32]
        omega
      have hlt := u32_lt (8 + c.strExtInfo.length + c.reqPack.length)
      have hnat := UInt32.toNat_ofNat_of_lt' hlt
      rw [hsame] at hbuf hread
      rcases packBuf_cases hbuf with ⟨-, hlong' | hshort⟩ | ⟨-, hle, rfl⟩
      · omega
      · omega
      · have hsum := length_bytes c
        rw [u32_of_lt (by omega), ← hsum, Mem.read_write_self] at hread
        exact ⟨hread.symm, hle⟩
  · rcases packBuf_cases hpack with ⟨hneg, -⟩ | ⟨hlen, hle, rfl⟩
    · omega
    · rw [Int.natCast_inj] at hlen
      rw [hlen, Mem.read_write_self] at hread
      exact ⟨hread.symm, hle⟩

/-- What a cookie that is not too long says. -/
theorem fields_of_read (hread : Mem.read buf 0 c.bytes.length = c.bytes)
    (hlen : c.bytes.length ≤ 0xFFFF) :
    sourceOf buf = c.source ∧ flowOf buf = c.flow ∧ otherSize buf = c.strExtInfo.length ∧
      Mem.read buf 8 c.strExtInfo.length = c.strExtInfo ∧
      Mem.read buf (8 + c.strExtInfo.length) c.reqPack.length = c.reqPack := by
  have hall : c.bytes.length = 8 + c.strExtInfo.length + c.reqPack.length := length_bytes c
  rw [bytes] at hread
  simp only [Mem.read_append_iff] at hread
  simp only [List.length_append, length_be, Nat.zero_add, Nat.reduceAdd] at hread
  obtain ⟨⟨⟨⟨hsource, hflow⟩, hext⟩, hinfo⟩, hpack⟩ := hread
  refine ⟨?_, ?_, ?_, hinfo, hpack⟩
  · rw [sourceOf, htons, hsource, bswap_ofLe (length_be _ _), uint16_ofBe_be]
  · rw [flowOf, htonl, hflow, bswap_ofLe (length_be _ _), uint32_ofBe_be]
  · rw [otherSize, htons, hext, bswap_ofLe (length_be _ _), ofBe_be_of_lt (by omega)]

/-! ## Into any receiver -/

/-- The receiver takes the cookie `c` out of the bytes, wherever they lie. -/
def Receives (r c : CommCookie) (bs : List UInt8) : Prop :=
  ∀ m, Mem.read m 0 bs.length = bs → r.unPack m (.ofNat bs.length) = (0, c)

/-- A receiver that reports an error is as it was. -/
def Keeps (r : CommCookie) (buf : ℕ → UInt8) (len : UInt32) : Prop :=
  (r.unPack buf len).1 < 0 → (r.unPack buf len).2 = r

instance (r : CommCookie) (buf : ℕ → UInt8) (len : UInt32) : Decidable (r.Keeps buf len) :=
  inferInstanceAs (Decidable (_ → _))

/-- A cookie ends within its extra information. -/
def CutOff (buf : ℕ → UInt8) (len : UInt32) : Prop :=
  8 ≤ len.toNat ∧ len.toNat < 8 + otherSize buf

theorem takeReqPack_eq (r : CommCookie) {place left : ℕ} (hleft : left < 2 ^ 32) :
    r.takeReqPack buf place left hleft =
      { r with reqPack := Mem.read buf place left, reqPack_lt := by rwa [Mem.length_read] } := by
  rw [takeReqPack]
  split
  · rfl
  · next hzero =>
    obtain rfl : left = 0 := by omega
    rfl

/-- Only the extra information may stay what it was. -/
theorem unPack_bytes (r : CommCookie) (hread : Mem.read buf 0 c.bytes.length = c.bytes)
    (hlen : c.bytes.length ≤ 0xFFFF) :
    r.unPack buf (.ofNat c.bytes.length) =
      (0, { c with strExtInfo := if c.strExtInfo = [] then r.strExtInfo else c.strExtInfo }) := by
  obtain ⟨hsource, hflow, hsize, hinfo, hpack⟩ := fields_of_read hread hlen
  have hlt : c.bytes.length < 2 ^ 32 := by omega
  have hnat : (UInt32.ofNat c.bytes.length).toNat = c.bytes.length :=
    UInt32.toNat_ofNat_of_lt' hlt
  have hsum := length_bytes c
  have hlong : ¬ c.bytes.length < 8 := by omega
  simp only [unPack, hnat, hsource, hflow, hsize, hinfo, takeReqPack_eq]
  rw [if_neg hlong]
  by_cases hempty : c.strExtInfo = []
  · have hzero : c.strExtInfo.length = 0 := List.length_eq_zero_iff.mpr hempty
    have hleft : c.bytes.length - 8 = c.reqPack.length := by omega
    have hnone : ¬ 0 < c.strExtInfo.length := by omega
    rw [hzero, Nat.add_zero] at hpack
    simp only [if_neg hnone, if_pos hempty, hleft, hpack]
  · have hpos : 0 < c.strExtInfo.length := List.length_pos_of_ne_nil hempty
    have hroom : ¬ c.bytes.length - 8 < c.strExtInfo.length := by omega
    have hleft : c.bytes.length - 8 - c.strExtInfo.length = c.reqPack.length := by omega
    simp only [if_pos hpos, if_neg hroom, if_neg hempty, hleft, hpack]

theorem keeps_iff : r.Keeps buf len ↔
    (CutOff buf len → r.source = sourceOf buf ∧ r.flow = flowOf buf) := by
  rw [Keeps, CutOff]
  by_cases hshort : len.toNat < 8
  · simp only [unPack, if_pos hshort]
    exact iff_of_true (fun _ => trivial) (fun hcut => absurd hcut.1 (by omega))
  · by_cases hcut : len.toNat < 8 + otherSize buf
    · have hpos : 0 < otherSize buf := by omega
      have hless : len.toNat - 8 < otherSize buf := by omega
      simp only [unPack, if_neg hshort, if_pos hpos, if_pos hless, CommCookie.ext_iff]
      constructor
      · intro hkeeps _
        obtain ⟨hsource, hflow, -⟩ := hkeeps (by decide)
        exact ⟨hsource.symm, hflow.symm⟩
      · intro hsame _
        obtain ⟨hsource, hflow⟩ := hsame ⟨by omega, hcut⟩
        exact ⟨hsource.symm, hflow.symm, trivial, trivial⟩
    · have hless : ¬ len.toNat - 8 < otherSize buf := by omega
      refine iff_of_true ?_ (fun h => absurd h.2 hcut)
      simp only [unPack, if_neg hshort, if_neg hless]
      split
      · exact fun hneg => absurd hneg (lt_irrefl 0)
      · exact fun hneg => absurd hneg (lt_irrefl 0)

/-- A receiver takes the cookie out of what `Pack` built, but for extra information that the
cookie does not have and the receiver has; and it is as it was after an error, but for the
source and the flow of a cookie that ends within its extra information. -/
theorem unPack_pack_iff (r : CommCookie) {c : CommCookie} {bs : List UInt8} (hpack : c.Packs bs)
    (buf : ℕ → UInt8) (len : UInt32) :
    (r.Receives c bs ↔ (c.strExtInfo = [] → r.strExtInfo = [])) ∧
      (r.Keeps buf len ↔
        (CutOff buf len → r.source = sourceOf buf ∧ r.flow = flowOf buf)) := by
  obtain ⟨rfl, hlen⟩ := hpack.cases
  refine ⟨?_, keeps_iff⟩
  constructor
  · intro hreceives hempty
    have hself := Mem.read_write_self (fun _ => (0 : UInt8)) 0 c.bytes
    have htaken := hreceives _ hself
    rw [unPack_bytes r hself hlen, if_pos hempty, Prod.mk.injEq, CommCookie.ext_iff] at htaken
    exact htaken.2.2.2.2.trans hempty
  · intro hempty m hread
    rw [unPack_bytes r hread hlen]
    by_cases hnil : c.strExtInfo = []
    · rw [if_pos hnil, hempty hnil, ← hnil]
    · rw [if_neg hnil]

/-- A cookie without extra information. -/
def plainCookie : CommCookie := ⟨1, 2, [3], [], by decide⟩

/-- A cookie with a byte of extra information. -/
def usedCookie : CommCookie := ⟨1, 2, [], [9], by decide⟩

/-- A cookie with extra information is received, and one of seven bytes is an error. -/
theorem unPack_pack_iff_used :
    plainCookie.Receives usedCookie usedCookie.bytes ∧
      (plainCookie.unPack (fun _ => 0) 7).1 = -1 ∧ plainCookie.Keeps (fun _ => 0) 7 := by
  have hpack : usedCookie.Packs usedCookie.bytes := .inl ⟨[], fun _ => 0, by decide⟩
  have h := unPack_pack_iff plainCookie hpack (fun _ => 0) 7
  exact ⟨h.1.mpr (by decide), by decide, h.2.mpr fun hcut => absurd hcut.1 (by decide)⟩

/-- The extra information of the last cookie stays, and a cookie that is cut off leaves its
source. -/
theorem not_unPack_pack :
    plainCookie.Packs plainCookie.bytes ∧ ¬ usedCookie.Receives plainCookie plainCookie.bytes ∧
      ¬ usedCookie.Keeps (fun i => [0, 5, 0, 0, 0, 2, 0, 1].getD i 0) 8 := by
  refine ⟨.inl ⟨[], fun _ => 0, by decide⟩, ?_, by decide⟩
  intro hreceives
  have htaken := hreceives (fun i => plainCookie.bytes.getD i 0) (by decide)
  exact absurd htaken (by decide)

end CommCookie

end Spp
