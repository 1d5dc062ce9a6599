import Spp.Proto.FixedPacker
import Spp.Proto.UnPacker

/-!
# Cookies

A packet can carry a cookie behind its body: its length in two bytes, its bytes, and the end
mark again.  The low 24 bits of the reserved field are the place of the cookie in the packet,
and 0 is for none.  The functions take a pointer to the packet and change it in place.

## Main definitions

* `getPackLen`, `setPackLen`, `getCookiePos`, `setCookiePos` — the two fields.
* `Cookie` — the bytes of a cookie.
* `setCookie`, `getCookie`, `delCookie` — the operations.
* `CookieOutcome`, `CookieGotten` — what the operations leave.
* `AcceptedAt` — `CheckPack` accepts so many bytes from a pointer on.
* `putCookie` — what `SetCookie` stores behind a body.
-/

namespace Spp

/-! ## The two fields -/

/-- `GetPackLen`. -/
def getPackLen (m : ℕ → UInt8) (p : ℕ) : ℕ := htonl (ofLe (Mem.read m (p + 3) 4))

/-- `SetPackLen`. -/
def setPackLen (m : ℕ → UInt8) (p len : ℕ) : ℕ → UInt8 := Mem.write m (p + 3) (le 4 (htonl len))

/-- `SetCookiePos`. -/
def setCookiePos (m : ℕ → UInt8) (p pos : ℕ) : ℕ → UInt8 :=
  let reserve := htonl (ofLe (Mem.read m (p + msgRevPos) 4))
  let reserve := (reserve &&& 0xFF000000) ||| (pos &&& 0x00FFFFFF)
  Mem.write m (p + msgRevPos) (le 4 (htonl reserve))

/-- `GetCookiePos`. -/
def getCookiePos (m : ℕ → UInt8) (p : ℕ) : ℕ :=
  htonl (ofLe (Mem.read m (p + msgRevPos) 4)) &&& 0x00FFFFFF

/-- The word of two bytes in network order at an address. -/
def netWord (m : ℕ → UInt8) (l : ℕ) : ℕ := htons (ofLe (Mem.read m l 2))

/-- The places of the two fields. -/
def fieldPlaces (p : ℕ) : List (ℕ × ℕ) := [(p + 3, 4), (p + msgRevPos, 4)]

/-! ## The operations -/

/-- The bytes of a cookie; their number is an `unsigned short`. -/
abbrev Cookie := {ck : List UInt8 // ck.length ≤ 0xFFFF}

/-- What a call leaves: the memory, the return value, and the address and the length of every
stretch that it read or wrote. -/
structure CookieOutcome where
  mem : ℕ → UInt8
  ret : ℤ
  touched : List (ℕ × ℕ)

/-- What `GetCookie` leaves: the return value, what is in `ck` and in `ckLen` afterwards, and
the address and the length of every stretch that it read. -/
structure CookieGotten where
  ret : ℤ
  ck : List UInt8
  ckLen : ℕ
  touched : List (ℕ × ℕ)

/-- `SetCookie(p, len, ck, ckLen)`. -/
def setCookie (m : ℕ → UInt8) (p len : ℕ) (ck : Cookie) : CookieOutcome :=
  let packLen := getPackLen m p
  let ckPos := getCookiePos m p
  -- `l`, `pack_len` and what was read of `*l`, with and without an old cookie
  let (l, packLen, old) :=
    if ckPos = 0 then (p + packLen - 1, packLen, [])
    else (p + ckPos, u32sub packLen (2 + netWord m (p + ckPos)), [(p + ckPos, 2)])
  let ckLen := ck.1.length
  if len < u32 (packLen + 2 + ckLen) then ⟨m, -1, fieldPlaces p ++ old⟩
  else
    let m := Mem.write m l (le 2 (htons ckLen))
    let m := Mem.write m (l + 2) ck.1
    let m := Mem.write m (l + 2 + ckLen) [eot]
    let m := setCookiePos m p (u32sub packLen 1)
    let m := setPackLen m p (u32 (packLen + 2 + ckLen))
    ⟨m, s32 (u32 (packLen + 2 + ckLen)),
      fieldPlaces p ++ old ++ [(l, 2), (l + 2, ckLen), (l + 2 + ckLen, 1)]⟩

/-- `SetCookie(p, len, cookie)`. -/
def setCookieString (m : ℕ → UInt8) (p len : ℕ) (cookie : List UInt8) : CookieOutcome :=
  if h : cookie.length > 0xFFFF then ⟨m, -2, []⟩
  else setCookie m p len ⟨cookie, Nat.le_of_not_gt h⟩

/-- `GetCookie(p, ck, ckLen)`. -/
def getCookie (m : ℕ → UInt8) (p : ℕ) (ck : List UInt8) (ckLen : ℕ) : CookieGotten :=
  let ckPos := getCookiePos m p
  if ckPos = 0 then ⟨0, ck, 0, [(p + msgRevPos, 4)]⟩
  else
    let l := p + ckPos
    let n := netWord m l
    if ckLen < n then ⟨-1, ck, n, [(p + msgRevPos, 4), (l, 2)]⟩
    else
      ⟨0, Mem.read m (l + 2) n ++ ck.drop n, n, [(p + msgRevPos, 4), (l, 2), (l + 2, n)]⟩

/-- `GetCookie(p, ck)`. -/
def getCookieString (m : ℕ → UInt8) (p : ℕ) (ck : List UInt8) : CookieGotten :=
  let ckPos := getCookiePos m p
  if ckPos = 0 then ⟨0, ck, ck.length, [(p + msgRevPos, 4)]⟩
  else
    let l := p + ckPos
    let n := netWord m l
    if n = 0 then ⟨0, [], 0, [(p + msgRevPos, 4), (l, 2)]⟩
    else ⟨0, Mem.read m (l + 2) n, n, [(p + msgRevPos, 4), (l, 2), (l + 2, n)]⟩

/-- `DelCookie`. -/
def delCookie (m : ℕ → UInt8) (p : ℕ) : CookieOutcome :=
  let packLen := getPackLen m p
  let ckPos := getCookiePos m p
  if ckPos ≤ msgHeaderLen ∨ packLen ≤ ckPos then ⟨m, s32 packLen, fieldPlaces p⟩
  else
    let l := p + ckPos
    let packLen := u32sub packLen (2 + netWord m l)
    let m := Mem.write m l [eot]
    let m := setCookiePos m p 0
    let m := setPackLen m p packLen
    ⟨m, s32 packLen, fieldPlaces p ++ [(l, 2), (l, 1)]⟩

/-- `Init` of an unpacker accepts `len` bytes at `p`. -/
def AcceptedAt (m : ℕ → UInt8) (p len : ℕ) : Prop :=
  p ≠ 0 ∧ (UnPacker.fresh.init (fun i => m (p + i)) len).1 = retOk

/-! ## The fields as bytes -/

theorem netWord_eq (m : ℕ → UInt8) (l : ℕ) : netWord m l = ofBe (Mem.read m l 2) :=
  bswap_ofLe (Mem.length_read m l 2)

theorem netWord_lt (m : ℕ → UInt8) (l : ℕ) : netWord m l < 2 ^ 16 := by
  simpa [netWord_eq] using ofBe_lt (Mem.read m l 2)

theorem getPackLen_eq (m : ℕ → UInt8) (p : ℕ) :
    getPackLen m p = ofBe (Mem.read m (p + 3) 4) :=
  bswap_ofLe (Mem.length_read m (p + 3) 4)

theorem getPackLen_lt (m : ℕ → UInt8) (p : ℕ) : getPackLen m p < 2 ^ 32 := by
  simpa [getPackLen_eq] using ofBe_lt (Mem.read m (p + 3) 4)

theorem setPackLen_eq (m : ℕ → UInt8) (p len : ℕ) :
    setPackLen m p len = Mem.write m (p + 3) (be 4 len) := by
  rw [setPackLen, htonl, le_bswap]

/-- The mask `0xFF000000` keeps the high byte. -/
theorem and_highByte {q s : ℕ} (hq : q < 2 ^ 8) (hs : s < 2 ^ 24) :
    (2 ^ 24 * q + s) &&& 0xFF000000 = 2 ^ 24 * q := by
  have hmask : (0xFF000000 : ℕ) = 2 ^ 24 * (2 ^ 8 - 1) := rfl
  have hdiv : (2 ^ 24 * q + s) / 2 ^ 24 = q := by omega
  have hhigh : ((2 ^ 24 * q + s) &&& 0xFF000000) / 2 ^ 24 = q := by
    rw [Nat.and_div_two_pow, hdiv, hmask, Nat.mul_div_cancel_left _ (by norm_num),
      Nat.and_two_pow_sub_one_eq_mod, Nat.mod_eq_of_lt hq]
  have hlow : ((2 ^ 24 * q + s) &&& 0xFF000000) % 2 ^ 24 = 0 := by
    rw [Nat.and_mod_two_pow, hmask, Nat.mul_mod_right, Nat.and_zero]
  omega

/-- The two masks put a new place beside the high byte. -/
theorem highByte_or {q s : ℕ} (pos : ℕ) (hq : q < 2 ^ 8) (hs : s < 2 ^ 24) :
    (2 ^ 24 * q + s) &&& 0xFF000000 ||| pos &&& 0x00FFFFFF = 2 ^ 24 * q + pos % 2 ^ 24 := by
  rw [and_highByte hq hs, show 0x00FFFFFF = 2 ^ 24 - 1 from rfl, Nat.and_two_pow_sub_one_eq_mod,
    Nat.two_pow_add_eq_or_of_lt (Nat.mod_lt _ (by norm_num))]

/-- The reserved field is one byte and the place of the cookie. -/
theorem reserve_eq (m : ℕ → UInt8) (p : ℕ) :
    htonl (ofLe (Mem.read m (p + msgRevPos) 4)) =
      2 ^ 24 * ofBe (Mem.read m (p + 25) 1) + ofBe (Mem.read m (p + 26) 3) := by
  have hsplit : Mem.read m (p + msgRevPos) 4 = Mem.read m (p + 25) 1 ++ Mem.read m (p + 26) 3 :=
    Mem.read_add m (p + 25) 1 3
  rw [htonl, bswap_ofLe (Mem.length_read _ _ _), hsplit, ofBe_append, Mem.length_read]
  norm_num

theorem getCookiePos_eq (m : ℕ → UInt8) (p : ℕ) :
    getCookiePos m p = ofBe (Mem.read m (p + 26) 3) := by
  have hlt : ofBe (Mem.read m (p + 26) 3) < 2 ^ 24 := by
    simpa using ofBe_lt (Mem.read m (p + 26) 3)
  rw [getCookiePos, reserve_eq, show 0x00FFFFFF = 2 ^ 24 - 1 from rfl,
    Nat.and_two_pow_sub_one_eq_mod, Nat.mul_add_mod, Nat.mod_eq_of_lt hlt]

/-- Only the three bytes of the place are changed. -/
theorem setCookiePos_eq (m : ℕ → UInt8) (p pos : ℕ) :
    setCookiePos m p pos = Mem.write m (p + 26) (be 3 pos) := by
  have hhigh : ofBe (Mem.read m (p + 25) 1) < 2 ^ 8 := by
    simpa using ofBe_lt (Mem.read m (p + 25) 1)
  have hlow : ofBe (Mem.read m (p + 26) 3) < 2 ^ 24 := by
    simpa using ofBe_lt (Mem.read m (p + 26) 3)
  have hbyte : be 1 (ofBe (Mem.read m (p + 25) 1)) = Mem.read m (p + 25) 1 := by
    simpa using be_ofBe (Mem.read m (p + 25) 1)
  have hdiv : (2 ^ 24 * ofBe (Mem.read m (p + 25) 1) + pos % 2 ^ 24) / 256 ^ 3 =
      ofBe (Mem.read m (p + 25) 1) := by omega
  have hmod : (2 ^ 24 * ofBe (Mem.read m (p + 25) 1) + pos % 2 ^ 24) % 256 ^ 3 =
      pos % 256 ^ 3 := by omega
  have hsplit : Mem.write m (p + 25) (Mem.read m (p + 25) 1 ++ be 3 pos) =
      Mem.write m (p + 26) (be 3 pos) := by
    rw [Mem.write_append, Mem.write_read, Mem.length_read]
  rw [← hsplit]
  simp only [setCookiePos]
  rw [reserve_eq, highByte_or pos hhigh hlow, htonl, le_bswap, msgRevPos, be_add 3 1, hdiv,
    hbyte, ← be_mod 3 (_ + _), hmod, be_mod]

/-- The packer for a fixed buffer stores the two fields the same way. -/
theorem FixedPacker.buf_setCookiePos (q : FixedPacker) (pos : ℕ) :
    (q.setCookiePos pos).buf = Spp.setCookiePos q.buf 0 pos := by
  simp [FixedPacker.setCookiePos, FixedPacker.store, Spp.setCookiePos]

theorem FixedPacker.buf_setPackLen (q : FixedPacker) (len : ℕ) :
    (q.setPackLen len).buf = Spp.setPackLen q.buf 0 len := by
  simp [FixedPacker.setPackLen, FixedPacker.store, Spp.setPackLen]

/-! ## The operations in the usual case -/

/-- `CheckPack`, field by field. -/
theorem UnPacker.init_ret_iff {u : UnPacker} {data : ℕ → UInt8} {len : ℕ} :
    (u.init data len).1 = retOk ↔ msgHeaderLen + 1 ≤ len ∧ data 0 = soh ∧ data 1 = mainVer ∧
      getPackLen data 0 ≤ len ∧ data (u32sub (getPackLen data 0) 1) = eot := by
  have hlen : (UInt32.ofNat (htonl (ofLe (Mem.read data 3 4)))).toNat = getPackLen data 0 :=
    UInt32.toNat_ofNat_of_lt' (getPackLen_lt data 0)
  simp only [init, checkPack, getHeader, hlen, retOk, errProtocol, errProtocolVer]
  grind

theorem acceptedAt_iff {m : ℕ → UInt8} {p len : ℕ} :
    AcceptedAt m p len ↔ p ≠ 0 ∧ msgHeaderLen + 1 ≤ len ∧ m p = soh ∧ m (p + 1) = mainVer ∧
      getPackLen m p ≤ len ∧ m (p + u32sub (getPackLen m p) 1) = eot := by
  have hlen : getPackLen (fun i => m (p + i)) 0 = getPackLen m p := by
    rw [getPackLen, getPackLen]
    refine congrArg (fun bs => htonl (ofLe bs)) (Mem.read_congr ?_)
    intro i _
    rw [Nat.zero_add, Nat.add_assoc]
  simp only [AcceptedAt, UnPacker.init_ret_iff, hlen, Nat.add_zero]

/-- The body ends at `tail`: the cookie lies there, or the end mark where there is none. -/
def BodyEnds (m : ℕ → UInt8) (p tail : ℕ) : Prop :=
  getCookiePos m p = 0 ∧ getPackLen m p = tail + 1 ∨
    0 < tail ∧ getCookiePos m p = tail ∧ getPackLen m p = tail + 3 + netWord m (p + tail)

/-- What `SetCookie` stores behind a body that ends at `tail`. -/
def putCookie (m : ℕ → UInt8) (p tail : ℕ) (ck : Cookie) : ℕ → UInt8 :=
  let m := Mem.write m (p + tail) (be 2 ck.1.length ++ ck.1 ++ [eot])
  Mem.write (Mem.write m (p + 26) (be 3 tail)) (p + 3) (be 4 (tail + 3 + ck.1.length))

/-- The three stores of a cookie are one. -/
theorem write_cookie (m : ℕ → UInt8) (l : ℕ) (ck : List UInt8) :
    Mem.write (Mem.write (Mem.write m l (be 2 ck.length)) (l + 2) ck) (l + 2 + ck.length) [eot] =
      Mem.write m l (be 2 ck.length ++ ck ++ [eot]) := by
  simp only [Mem.write_append, length_be, List.length_append, Nat.add_assoc]

/-- `SetCookie` puts the cookie where the body ends, or finds the buffer too small. -/
theorem setCookie_cases {m : ℕ → UInt8} {p tail : ℕ} (len : ℕ) (ck : Cookie)
    (hends : BodyEnds m p tail) (hlt : tail + 3 + ck.1.length < 2 ^ 32) :
    len < tail + 3 + ck.1.length ∧ (setCookie m p len ck).mem = m ∧
        (setCookie m p len ck).ret = -1 ∨
      tail + 3 + ck.1.length ≤ len ∧ (setCookie m p len ck).mem = putCookie m p tail ck ∧
        (setCookie m p len ck).ret = s32 (tail + 3 + ck.1.length : ℕ) := by
  have htotal : u32 (tail + 1 + 2 + ck.1.length) = tail + 3 + ck.1.length := by
    rw [u32_of_lt (by omega)]
  have htail : u32sub (tail + 1) 1 = tail := by
    rw [u32sub_of_le] <;> omega
  have hless : getPackLen m p = tail + 3 + netWord m (p + tail) →
      u32sub (tail + 3 + netWord m (p + tail)) (2 + netWord m (p + tail)) = tail + 1 := by
    intro hlen
    have hword := getPackLen_lt m p
    rw [u32sub_of_le] <;> omega
  rcases Nat.lt_or_ge len (tail + 3 + ck.1.length) with hroom | hroom
  · left
    refine ⟨hroom, ?_⟩
    rcases hends with ⟨hpos, hlen⟩ | ⟨h0, hpos, hlen⟩
    · simp only [setCookie, hpos, hlen, if_true, htotal, if_pos hroom, and_self]
    · simp only [setCookie, hpos, hlen, hless hlen, if_neg h0.ne', htotal, if_pos hroom, and_self]
  · right
    refine ⟨hroom, ?_⟩
    rcases hends with ⟨hpos, hlen⟩ | ⟨h0, hpos, hlen⟩
    · have hend : p + (tail + 1) - 1 = p + tail := by omega
      simp only [setCookie, hpos, hlen, if_true, htotal, htail, hend, if_neg hroom.not_gt, htons,
        le_bswap, write_cookie, setCookiePos_eq, setPackLen_eq, putCookie, and_self]
    · simp only [setCookie, hpos, hlen, hless hlen, if_neg h0.ne', htotal, htail,
        if_neg hroom.not_gt, htons, le_bswap, write_cookie, setCookiePos_eq, setPackLen_eq, putCookie, and_self]

end Spp
