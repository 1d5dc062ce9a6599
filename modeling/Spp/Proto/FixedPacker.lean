import Spp.Proto.Tlv
import Spp.Lib.Run

/-!
# The packer for a fixed buffer

`FixedPacker` writes the fields straight into the caller's buffer behind the place of the header,
and tests the space that is left before each of them.  The end mark is not counted, and lengths
are compared as signed numbers.

## Main definitions

* `FixedPacker` — the buffer, and all that was written to it.
* `PackCall`, `GetPackCall` — the functions that may be called.
* `FixedPacker.InBuf` — what was written lies in the buffer.
* `FixedPacker.Safe`, `FixedPacker.SafeGet` — the call keeps that.
* `FixedPacker.Roomy`, `FixedPacker.RoomyGet` — the call is none of those that break it.
-/

namespace Spp

/-- `MSG_REV_POS`. -/
def msgRevPos : ℕ := 25

/-- A call of a packer.  A binary is memory with a length, a C string may be `NULL`. -/
inductive PackCall (R : Type)
  | byte (v : UInt8)
  | word (v : UInt16)
  | dword (v : UInt32)
  | qword (v : UInt64)
  | real (v : R)
  | binary (v : ℕ → UInt8) (len : UInt32)
  | string (v : List UInt8)
  | cstring (v : Option (List UInt8))

/-- The three `GetPack`; the length of the key is not looked at. -/
inductive GetPackCall
  | plain (h : MsgHeader)
  | key (h : MsgHeader) (key : TeaKey)
  | cookie (h : MsgHeader) (ckLen : UInt16) (ck : ℕ → UInt8)

/-- `FixedPacker`.  `buf` is the memory from `m_pBuf` on and `tail` is `m_pTail - m_pBuf`;
`written` has the place and the length of every write to the buffer, and `overrun` says that
`data[64]` was left. -/
structure FixedPacker where
  buf : ℕ → UInt8
  tail : ℕ
  bufLen : UInt32
  err : ℕ
  written : List (ℕ × ℕ)
  overrun : Bool

namespace FixedPacker

/-- `Init`; `none` where it fails. -/
def init (buf : ℕ → UInt8) (len : UInt32) : Option FixedPacker :=
  if len.toNat < msgHeaderLen + 1 then none
  else some ⟨buf, msgHeaderLen, len, 0, [], false⟩

/-- `LeftSpace`; `m_BufLen` is an `int`. -/
def leftSpace (p : FixedPacker) : ℤ := s32 (s32 p.bufLen.toNat - p.tail)

def fail (p : FixedPacker) : FixedPacker := { p with err := errProtocol }

/-- Bytes are written at a place in the buffer. -/
def store (p : FixedPacker) (dst : ℕ) (bs : List UInt8) : FixedPacker :=
  { p with buf := Mem.write p.buf dst bs, written := p.written ++ [(dst, bs.length)] }

/-- Bytes are written at the tail. -/
def put (p : FixedPacker) (bs : List UInt8) : FixedPacker :=
  { p.store p.tail bs with tail := p.tail + bs.length }

/-- A field that needs as much space as `need`. -/
def pack (p : FixedPacker) (need : ℤ) (bs : List UInt8) : FixedPacker :=
  if p.leftSpace < need then p.fail else p.put bs

def packByte (p : FixedPacker) (v : UInt8) : FixedPacker := p.pack 1 [v]

def packWord (p : FixedPacker) (v : UInt16) : FixedPacker := p.pack 2 (le 2 (htons v.toNat))

def packDWord (p : FixedPacker) (v : UInt32) : FixedPacker := p.pack 4 (le 4 (htonl v.toNat))

def packQWord (p : FixedPacker) (v : UInt64) : FixedPacker := p.pack 8 (le 8 (myhtonll v.toNat))

/-- `PackBinary`. -/
def packBinary (p : FixedPacker) (v : ℕ → UInt8) (len : UInt32) : FixedPacker :=
  if p.leftSpace < s32 len.toNat then p.fail
  else if len.toNat < 1 then p
  else p.put (Mem.read v 0 len.toNat)

/-- `PackString` of a `std::string`. -/
def packString (p : FixedPacker) (v : List UInt8) : FixedPacker :=
  p.pack (s32 (v.length + 1 : ℕ)) (v ++ [0])

/-- `PackString` of a `const char *`.  `memcpy` takes the `int` as a `size_t`. -/
def packCString (p : FixedPacker) : Option (List UInt8) → FixedPacker
  | none => p
  | some v =>
      let v := v.takeWhile (· ≠ 0)
      let n := s32 (s32 v.length + 1)
      p.pack n (Mem.read (fun i => v.getD i 0) 0 (n % 2 ^ 64).toNat)

variable {R : Type} [CDouble R]

/-- `PackReal`. -/
def packReal (p : FixedPacker) (v : R) : FixedPacker :=
  let data := CDouble.sprintf v
  ({ p with overrun := p.overrun || decide (64 ≤ data.length) }).packCString (some data)

def call (p : FixedPacker) : PackCall R → FixedPacker
  | .byte v => p.packByte v
  | .word v => p.packWord v
  | .dword v => p.packDWord v
  | .qword v => p.packQWord v
  | .real v => p.packReal v
  | .binary v len => p.packBinary v len
  | .string v => p.packString v
  | .cstring v => p.packCString v

/-! ## The packet -/

/-- `Packer::PackHeader` into the buffer. -/
def storeHeader (p : FixedPacker) (h : MsgHeader) (bodySize : ℕ) : FixedPacker :=
  { p with buf := Packer.packHeader p.buf h bodySize, written := p.written ++ [(0, msgHeaderLen)] }

/-- `xxtea_encrypt` on the buffer, which writes whole words. -/
def encrypt (p : FixedPacker) (len : ℕ) (key : TeaKey) : FixedPacker :=
  { p with
    buf := xxteaEncrypt p.buf msgHeaderLen len key.words
    written := p.written ++ [(msgHeaderLen, len / 4 * 4)] }

/-- `SetCookiePos`. -/
def setCookiePos (p : FixedPacker) (pos : ℕ) : FixedPacker :=
  let reserve := htonl (ofLe (Mem.read p.buf msgRevPos 4))
  p.store msgRevPos (le 4 (htonl ((reserve &&& 0xFF000000) ||| (pos &&& 0x00FFFFFF))))

/-- `SetPackLen`. -/
def setPackLen (p : FixedPacker) (len : ℕ) : FixedPacker := p.store 3 (le 4 (htonl len))

/-- `GetPack(len, h)`: the length and the buffer. -/
def getPack (p : FixedPacker) (h : MsgHeader) : ℤ × FixedPacker :=
  if p.err ≠ 0 then (0, p)
  else
    let packLen := u32 (p.tail + 1)
    let p := p.storeHeader h (u32sub packLen (msgHeaderLen + 1))
    let p := p.store (u32sub packLen 1) [eot]
    (s32 packLen, p)

/-- `GetPack(len, h, key, key_len)`. -/
def getPackKey (p : FixedPacker) (h : MsgHeader) (key : TeaKey) : ℤ × FixedPacker :=
  if h.encType ≠ encTypeTea then p.getPack h
  else if p.err ≠ 0 then (0, p)
  else
    let packLen := u32 (p.tail + 1)
    let p := p.storeHeader h (u32sub packLen (msgHeaderLen + 1))
    let p := p.encrypt (u32sub packLen (msgHeaderLen + 1)) key
    let p := p.store (u32sub packLen 1) [eot]
    (s32 packLen, p)

/-- `GetPack(len, h, ck_len, ck)`. -/
def getPackCookie (p : FixedPacker) (h : MsgHeader) (ckLen : UInt16) (ck : ℕ → UInt8) :
    ℤ × FixedPacker :=
  let p := if p.leftSpace < 2 + ckLen.toNat then p.fail else p
  if p.err ≠ 0 then (0, p)
  else
    let packLen := u32 (p.tail + 1)
    let p := p.storeHeader h (u32sub packLen (msgHeaderLen + 1))
    let totalPackLen := u32 (packLen + 2 + ckLen.toNat)
    let p := p.store p.tail (le 2 (htons ckLen.toNat))
    let p := p.store (p.tail + 2) (Mem.read ck 0 ckLen.toNat)
    let p := p.store (u32sub totalPackLen 1) [eot]
    let p := p.setCookiePos (u32sub packLen 1)
    let p := p.setPackLen totalPackLen
    (s32 totalPackLen, p)

def get (p : FixedPacker) : GetPackCall → ℤ × FixedPacker
  | .plain h => p.getPack h
  | .key h key => p.getPackKey h key
  | .cookie h ckLen ck => p.getPackCookie h ckLen ck

/-! ## Staying in the buffer -/

/-- Nothing was written outside the buffer. -/
structure Inside (p : FixedPacker) : Prop where
  written : ∀ r ∈ p.written, r.1 + r.2 ≤ p.bufLen.toNat
  overrun : p.overrun = false

/-- Nothing was written outside the buffer, and the tail is in it. -/
structure InBuf (p : FixedPacker) : Prop extends Inside p where
  le_tail : msgHeaderLen ≤ p.tail
  tail_le : p.tail ≤ p.bufLen.toNat

/-- The call writes nothing outside the buffer. -/
def Safe (p : FixedPacker) (c : PackCall R) : Prop := (p.call c).InBuf

/-- Where the packet with its end mark ends. -/
def packEnd (p : FixedPacker) : GetPackCall → ℕ
  | .plain _ | .key _ _ => p.tail + 1
  | .cookie _ ckLen _ => p.tail + 2 + ckLen.toNat + 1

/-- `GetPack` writes nothing outside the buffer, and gives a positive length only if the packet
fits. -/
def SafeGet (p : FixedPacker) (g : GetPackCall) : Prop :=
  (p.get g).2.Inside ∧ (0 < (p.get g).1 → p.packEnd g ≤ p.bufLen.toNat)

/-- A number of bytes, compared with the space that is left as an `int`, is below `2 ^ 31`, or
the space is not, or the comparison turns it away. -/
def RoomFor (p : FixedPacker) (n : ℕ) : Prop :=
  n < 2 ^ 31 ∨ n < 2 ^ 32 ∧ p.tail + 2 ^ 31 ≤ p.bufLen.toNat ∨ p.leftSpace < s32 n

/-- A real has a text of less than 64 characters, and no length is mistaken for a negative one. -/
def Roomy (p : FixedPacker) : PackCall R → Prop
  | .byte _ | .word _ | .dword _ | .qword _ => True
  | .real v => (CDouble.sprintf v).length < 64
  | .binary _ len => p.RoomFor len.toNat
  | .string v => p.RoomFor (v.length + 1)
  | .cstring none => True
  | .cstring (some v) =>
      let n := s32 (s32 (v.takeWhile (· ≠ 0)).length + 1)
      0 ≤ n ∨ p.leftSpace < n

/-- There is a byte left for the end mark, or the packer has failed. -/
def RoomyGet (p : FixedPacker) : GetPackCall → Prop
  | .plain _ | .key _ _ => p.err ≠ 0 ∨ p.tail ≠ p.bufLen.toNat
  | .cookie _ ckLen _ => p.err ≠ 0 ∨ p.tail + 2 + ckLen.toNat ≠ p.bufLen.toNat

/-! ## One call -/

/-- The space that is left, where it is an `int`. -/
theorem leftSpace_eq {p : FixedPacker} (h : p.InBuf) :
    p.leftSpace = if p.bufLen.toNat < p.tail + 2 ^ 31 then (p.bufLen.toNat : ℤ) - p.tail
      else (p.bufLen.toNat : ℤ) - p.tail - 2 ^ 32 := by
  have hle := h.tail_le
  have hlt := p.bufLen.toNat_lt
  rw [leftSpace, s32, s32]
  generalize p.bufLen.toNat = n at *
  split <;> omega

variable {p : FixedPacker} {bs : List UInt8}

theorem inBuf_fail (h : p.InBuf) : p.fail.InBuf :=
  ⟨⟨h.written, h.overrun⟩, h.le_tail, h.tail_le⟩

@[simp] theorem bufLen_store (p : FixedPacker) (dst : ℕ) (bs : List UInt8) :
    (p.store dst bs).bufLen = p.bufLen := rfl

@[simp] theorem tail_store (p : FixedPacker) (dst : ℕ) (bs : List UInt8) :
    (p.store dst bs).tail = p.tail := rfl

@[simp] theorem bufLen_storeHeader (p : FixedPacker) (h : MsgHeader) (n : ℕ) :
    (p.storeHeader h n).bufLen = p.bufLen := rfl

@[simp] theorem tail_storeHeader (p : FixedPacker) (h : MsgHeader) (n : ℕ) :
    (p.storeHeader h n).tail = p.tail := rfl

theorem inside_store_iff (dst : ℕ) (bs : List UInt8) :
    (p.store dst bs).Inside ↔ p.Inside ∧ dst + bs.length ≤ p.bufLen.toNat := by
  constructor
  · intro hin
    refine ⟨⟨fun r hr => hin.written r ?_, hin.overrun⟩, ?_⟩
    · exact List.mem_append_left _ hr
    · exact hin.written (dst, bs.length) (by simp [store])
  · intro hin
    refine ⟨?_, hin.1.overrun⟩
    intro r hr
    simp only [store, List.mem_append, List.mem_singleton] at hr
    rcases hr with hr | rfl
    · exact hin.1.written r hr
    · exact hin.2

theorem inBuf_put_iff (h : p.InBuf) (bs : List UInt8) :
    (p.put bs).InBuf ↔ p.tail + bs.length ≤ p.bufLen.toNat := by
  constructor
  · intro hin
    exact hin.tail_le
  · intro hle
    have hstore := (inside_store_iff p.tail bs).mpr ⟨h.toInside, hle⟩
    refine ⟨⟨hstore.written, hstore.overrun⟩, ?_, hle⟩
    have htail := h.le_tail
    change _ ≤ p.tail + bs.length
    omega

/-- A length that is no negative `int` is compared as it should be. -/
theorem inBuf_pack (h : p.InBuf) {n : ℤ} (hn : n = bs.length) : (p.pack n bs).InBuf := by
  rw [pack]
  split
  next => exact inBuf_fail h
  next hroom =>
    have hleft := leftSpace_eq h
    refine (inBuf_put_iff h bs).mpr ?_
    split at hleft <;> omega

/-- What the two fields of any length share. -/
theorem inBuf_iff_roomFor (h : p.InBuf) (bs : List UInt8) :
    (if p.leftSpace < s32 bs.length then p.fail else p.put bs).InBuf ↔ p.RoomFor bs.length := by
  have hleft := leftSpace_eq h
  have hlt := p.bufLen.toNat_lt
  have hle := h.tail_le
  rw [RoomFor]
  split
  next hfail => exact iff_of_true (inBuf_fail h) (.inr (.inr hfail))
  next hroom =>
    rw [inBuf_put_iff h]
    rw [s32] at hroom ⊢
    generalize p.bufLen.toNat = n at *
    split at hleft <;> omega

/-- A C string is cut off at `2 ^ 32`, and a length that looks negative is copied as a huge
one. -/
theorem inBuf_packCString_iff (h : p.InBuf) (v : List UInt8) :
    (p.packCString (some v)).InBuf ↔
      0 ≤ s32 (s32 (v.takeWhile (· ≠ 0)).length + 1) ∨
        p.leftSpace < s32 (s32 (v.takeWhile (· ≠ 0)).length + 1) := by
  rw [packCString]
  generalize v.takeWhile (· ≠ 0) = v
  have hlo : -2 ^ 31 ≤ s32 (s32 v.length + 1) ∧ s32 (s32 v.length + 1) < 2 ^ 31 := by
    generalize s32 v.length + 1 = z
    rw [s32]
    omega
  generalize s32 (s32 v.length + 1) = n at *
  by_cases hneg : 0 ≤ n
  · have hlen : n = (Mem.read (fun i => v.getD i 0) 0 (n % 2 ^ 64).toNat).length := by
      rw [Mem.length_read]
      omega
    exact iff_of_true (inBuf_pack h hlen) (.inl hneg)
  · rw [pack]
    split
    next hfail => exact iff_of_true (inBuf_fail h) (.inr hfail)
    next hroom =>
      have hlt := p.bufLen.toNat_lt
      rw [inBuf_put_iff h, Mem.length_read]
      omega

/-- A text of less than 64 characters is no problem. -/
theorem inBuf_packReal_iff (h : p.InBuf) (v : R) :
    (p.packReal v).InBuf ↔ (CDouble.sprintf v).length < 64 := by
  have hflag : ({ p with overrun := p.overrun || decide (64 ≤ (CDouble.sprintf v).length) } :
      FixedPacker) = { p with overrun := decide (64 ≤ (CDouble.sprintf v).length) } := by
    rw [h.overrun, Bool.false_or]
  have hkeep : ∀ q : FixedPacker, (q.packCString (some (CDouble.sprintf v))).overrun =
      q.overrun := by
    intro q
    rw [packCString, pack]
    split <;> rfl
  rw [packReal, hflag]
  constructor
  · intro hin
    have hover := hin.overrun
    rw [hkeep] at hover
    simpa using hover
  · intro hshort
    have hsame : ({ p with overrun := decide (64 ≤ (CDouble.sprintf v).length) } : FixedPacker) =
        p := by
      rw [decide_eq_false (by omega), ← h.overrun]
    rw [hsame, inBuf_packCString_iff h]
    have hle := (List.takeWhile_sublist (· ≠ 0) (l := CDouble.sprintf v)).length_le
    rw [s32, s32]
    omega

theorem inBuf_packBinary_iff (h : p.InBuf) (v : ℕ → UInt8) (len : UInt32) :
    (p.packBinary v len).InBuf ↔ p.RoomFor len.toNat := by
  have hput := inBuf_iff_roomFor h (Mem.read v 0 len.toNat)
  rw [Mem.length_read] at hput
  rw [← hput, packBinary]
  split
  next => exact Iff.rfl
  next =>
    split
    next hzero =>
      refine iff_of_true h ((inBuf_put_iff h _).mpr ?_)
      have hle := h.tail_le
      rw [Mem.length_read]
      omega
    next => exact Iff.rfl

/-- A call is safe exactly if it is none of those that are not. -/
theorem safe_iff (h : p.InBuf) (c : PackCall R) : p.Safe c ↔ p.Roomy c := by
  cases c with
  | byte v =>
      rw [Safe, call, packByte]
      exact iff_of_true (inBuf_pack h rfl) trivial
  | word v =>
      rw [Safe, call, packWord]
      exact iff_of_true (inBuf_pack h (by simp)) trivial
  | dword v =>
      rw [Safe, call, packDWord]
      exact iff_of_true (inBuf_pack h (by simp)) trivial
  | qword v =>
      rw [Safe, call, packQWord]
      exact iff_of_true (inBuf_pack h (by simp)) trivial
  | real v => exact inBuf_packReal_iff h v
  | binary v len => exact inBuf_packBinary_iff h v len
  | string v =>
      have hput := inBuf_iff_roomFor h (v ++ [0])
      rw [List.length_append, List.length_singleton] at hput
      exact hput
  | cstring v =>
      cases v with
      | none => exact iff_of_true h trivial
      | some v => exact inBuf_packCString_iff h v

/-! ## The packet -/

/-- The length of a packet is cut off at `2 ^ 32`, and the place of its end mark is not. -/
theorem packLen_sub (h : p.InBuf) {k : ℕ} (hk : 1 ≤ k) (hle : k ≤ msgHeaderLen + 1) :
    u32sub (u32 (p.tail + 1)) k = p.tail + 1 - k := by
  have htail := h.tail_le
  have hlow := h.le_tail
  have hlt := p.bufLen.toNat_lt
  rw [msgHeaderLen] at hle hlow
  rw [u32sub, u32]
  omega

theorem inside_storeHeader (h : p.InBuf) (hd : MsgHeader) (n : ℕ) :
    (p.storeHeader hd n).Inside := by
  refine ⟨?_, h.overrun⟩
  intro r hr
  simp only [storeHeader, List.mem_append, List.mem_singleton] at hr
  rcases hr with hr | rfl
  · exact h.written r hr
  · have hle := h.le_tail.trans h.tail_le
    change 0 + msgHeaderLen ≤ p.bufLen.toNat
    omega

/-- `GetPack` writes the end mark without a test. -/
theorem safeGet_plain_iff (h : p.InBuf) (hd : MsgHeader) :
    p.SafeGet (.plain hd) ↔ p.RoomyGet (.plain hd) := by
  have htail := h.tail_le
  have hsub := packLen_sub h (le_refl 1) (by decide)
  rw [SafeGet, RoomyGet, get, getPack]
  split
  next herr => exact iff_of_true ⟨h.toInside, by simp⟩ (.inl herr)
  next herr =>
    dsimp only
    rw [hsub, inside_store_iff, packEnd]
    change (_ ∧ p.tail + 1 - 1 + 1 ≤ p.bufLen.toNat) ∧ _ ↔ _
    simp only [inside_storeHeader h, herr, false_or, true_and]
    omega

theorem inside_encrypt (h : p.Inside) (len : ℕ) (key : TeaKey)
    (hlen : msgHeaderLen + len ≤ p.bufLen.toNat) : (p.encrypt len key).Inside := by
  refine ⟨?_, h.overrun⟩
  intro r hr
  simp only [encrypt, List.mem_append, List.mem_singleton] at hr
  rcases hr with hr | rfl
  · exact h.written r hr
  · change msgHeaderLen + len / 4 * 4 ≤ p.bufLen.toNat
    omega

/-- The cipher stays in the body. -/
theorem safeGet_key_iff (h : p.InBuf) (hd : MsgHeader) (key : TeaKey) :
    p.SafeGet (.key hd key) ↔ p.RoomyGet (.key hd key) := by
  have htail := h.tail_le
  have hlow := h.le_tail
  have hsub := packLen_sub h (le_refl 1) (by decide)
  have hbody := packLen_sub h (by decide) (le_refl (msgHeaderLen + 1))
  have hplain := safeGet_plain_iff h hd
  rw [SafeGet, RoomyGet, get, getPackKey]
  split
  next => exact hplain
  next =>
    split
    next herr => exact iff_of_true ⟨h.toInside, by simp⟩ (.inl herr)
    next herr =>
      have hcipher := inside_encrypt (inside_storeHeader h hd (p.tail + 1 - (msgHeaderLen + 1)))
        (p.tail + 1 - (msgHeaderLen + 1)) key (by change _ ≤ p.bufLen.toNat; omega)
      dsimp only
      rw [hsub, hbody, inside_store_iff, packEnd]
      change (_ ∧ p.tail + 1 - 1 + 1 ≤ p.bufLen.toNat) ∧ _ ↔ _
      simp only [hcipher, herr, false_or, true_and]
      omega

/-- The cookie is tested for, but not the end mark behind it. -/
theorem safeGet_cookie_iff (h : p.InBuf) (hd : MsgHeader) (ckLen : UInt16) (ck : ℕ → UInt8) :
    p.SafeGet (.cookie hd ckLen ck) ↔ p.RoomyGet (.cookie hd ckLen ck) := by
  have htail := h.tail_le
  have hlow := h.le_tail
  have hlt := p.bufLen.toNat_lt
  have hck := ckLen.toNat_lt
  have hleft := leftSpace_eq h
  rw [SafeGet, RoomyGet, get, getPackCookie]
  split
  next hfail =>
    dsimp only
    rw [if_pos (by simp [fail, errProtocol])]
    refine iff_of_true ⟨⟨h.written, h.overrun⟩, by simp⟩ (.inr ?_)
    split at hleft <;> omega
  next hroom =>
    dsimp only
    split
    next herr => exact iff_of_true ⟨h.toInside, by simp⟩ (.inl herr)
    next herr =>
      have hsub := packLen_sub h (le_refl 1) (by decide)
      have hfits : p.tail + 2 + ckLen.toNat ≤ p.bufLen.toNat := by split at hleft <;> omega
      have htotal : u32sub (u32 (u32 (p.tail + 1) + 2 + ckLen.toNat)) 1 =
          p.tail + 2 + ckLen.toNat := by
        rw [u32sub, u32, u32]
        omega
      dsimp only
      rw [htotal]
      simp only [setPackLen, setCookiePos, inside_store_iff, inside_storeHeader h, bufLen_store,
        tail_store, bufLen_storeHeader, tail_storeHeader, length_le, Mem.length_read,
        List.length_singleton, msgRevPos, packEnd, herr, false_or, true_and]
      rw [msgHeaderLen] at hlow
      omega

theorem safeGet_iff (h : p.InBuf) (g : GetPackCall) : p.SafeGet g ↔ p.RoomyGet g := by
  cases g with
  | plain hd => exact safeGet_plain_iff h hd
  | key hd key => exact safeGet_key_iff h hd key
  | cookie hd ckLen ck => exact safeGet_cookie_iff h hd ckLen ck

/-! ## Series of calls -/

/-- One call, for runs. -/
def step (p : FixedPacker) (c : PackCall R) : FixedPacker × Unit := (p.call c, ())

theorem inBuf_init {buf : ℕ → UInt8} {len : UInt32} (hinit : init buf len = some p) :
    p.InBuf := by
  rw [init] at hinit
  split at hinit
  · cases hinit
  next hlen =>
    simp only [Option.some.injEq] at hinit
    subst hinit
    refine ⟨⟨by simp, rfl⟩, le_rfl, ?_⟩
    change msgHeaderLen ≤ len.toNat
    omega

/-- **A packet is built inside its buffer exactly if every call finds room.**  A real has a short
text, no length is mistaken for a negative one, and a byte is left for the end mark. -/
theorem packed_safe_iff (buf : ℕ → UInt8) (len : UInt32) (hinit : init buf len = some p)
    (calls : List (PackCall R)) (g : GetPackCall) :
    Run.Always step Safe p calls ∧ (Run.final step p calls).SafeGet g ↔
      Run.Always step Roomy p calls ∧ (Run.final step p calls).RoomyGet g := by
  have hbuf := inBuf_init hinit
  have hcalls : Run.Always step Safe p calls ↔ Run.Always step Roomy p calls :=
    Run.always_congr InBuf (fun _ _ _ hsafe => hsafe) (fun _ c h => safe_iff h c) hbuf
  constructor
  · intro hsafe
    have hfinal := Run.invariant (fun _ _ _ hsafe => hsafe) hbuf hsafe.1
    exact ⟨hcalls.mp hsafe.1, (safeGet_iff hfinal g).mp hsafe.2⟩
  · intro hroomy
    have hsafe := hcalls.mpr hroomy.1
    have hfinal := Run.invariant (fun _ _ _ hsafe => hsafe) hbuf hsafe
    exact ⟨hsafe, (safeGet_iff hfinal g).mpr hroomy.2⟩

/-- The double 0, which `"%f"` writes as `0.000000`. -/
instance zeroDouble : CDouble Unit where
  zero := ()
  sprintf _ := [48, 46, 48, 48, 48, 48, 48, 48]
  atof _ := ()
  nul_notMem _ := by decide
  sprintf_ne_nil _ := by simp

/-- A byte and a real in a buffer of 64. -/
theorem packed_safe_real :
    let p : FixedPacker := ⟨fun _ => 0, 29, 64, 0, [], false⟩
    Run.Always step Safe p [.byte 7, PackCall.real ()] ∧
      (Run.final step p [.byte 7, PackCall.real ()]).SafeGet (.plain {}) := by
  intro p
  have hroomy : Run.Always step Roomy p [.byte 7, PackCall.real ()] :=
    ⟨trivial, (by decide : (CDouble.sprintf ()).length < 64), trivial⟩
  exact (packed_safe_iff (fun _ => 0) 64 rfl [.byte 7, PackCall.real ()] (.plain {})).mpr
    ⟨hroomy, .inr (by decide)⟩

/-- One byte in a buffer of 30: the end mark is written behind the buffer. -/
theorem not_packed_safe :
    ¬∀ (buf : ℕ → UInt8) (len : UInt32) (p : FixedPacker), init buf len = some p →
      ∀ (calls : List (PackCall Unit)) (g : GetPackCall),
        Run.Always step Safe p calls ∧ (Run.final step p calls).SafeGet g := by
  intro h
  have hsafe := h (fun _ => 0) 30 _ rfl [.byte 1] (.plain {})
  have hin := hsafe.2.1.written (30, 1) (by decide)
  exact absurd hin (by decide)

end FixedPacker

end Spp
