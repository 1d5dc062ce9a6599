import Spp.Proto.CookieLaws

/-!
# Cookies of a hostile packet

`CheckPack` looks at neither the place nor the length of a cookie, and the functions go where
these two lead them.  They stay inside the packet, or inside the buffer that `SetCookie` is
given, exactly when the two numbers say so.

## Main definitions

* `Within` — the stretches lie in a buffer.
* `cookieNeed`, `cookieEnd` — the room `SetCookie` asks for, and where it stops writing.
-/

namespace Spp

/-- All stretches lie in the `len` bytes from `p` on. -/
def Within (p len : ℕ) (touched : List (ℕ × ℕ)) : Prop :=
  ∀ s ∈ touched, p ≤ s.1 ∧ s.1 + s.2 ≤ p + len

instance (p len : ℕ) (touched : List (ℕ × ℕ)) : Decidable (Within p len touched) :=
  inferInstanceAs (Decidable (∀ s ∈ touched, _))

@[simp] theorem within_nil (p len : ℕ) : Within p len [] := by simp [Within]

@[simp] theorem within_cons {p len start size : ℕ} {touched : List (ℕ × ℕ)} :
    Within p len ((start, size) :: touched) ↔
      (p ≤ start ∧ start + size ≤ p + len) ∧ Within p len touched := by
  simp [Within]

variable {m : ℕ → UInt8} {p len : ℕ}

/-! ## Reading -/

/-- `GetCookie` into a buffer. -/
theorem getCookie_within_iff (hlen : msgHeaderLen ≤ len) (buf : List UInt8) (bufLen : ℕ) :
    (getCookie m p buf bufLen).ret < 0 ∨ Within p len (getCookie m p buf bufLen).touched ↔
      getCookiePos m p = 0 ∨ bufLen < netWord m (p + getCookiePos m p) ∨
        getCookiePos m p + 2 + netWord m (p + getCookiePos m p) ≤ len := by
  rw [msgHeaderLen] at hlen
  simp only [getCookie]
  split_ifs with hpos hroom
  · simp only [within_cons, within_nil, and_true, msgRevPos]
    omega
  · simp [hroom]
  · simp only [within_cons, within_nil, and_true, msgRevPos]
    omega

/-- `GetCookie` into a string. -/
theorem getCookieString_within_iff (hlen : msgHeaderLen ≤ len) (buf : List UInt8) :
    (getCookieString m p buf).ret < 0 ∨ Within p len (getCookieString m p buf).touched ↔
      getCookiePos m p = 0 ∨
        getCookiePos m p + 2 + netWord m (p + getCookiePos m p) ≤ len := by
  rw [msgHeaderLen] at hlen
  simp only [getCookieString]
  split_ifs with hpos hempty
  · simp only [within_cons, within_nil, and_true, msgRevPos]
    omega
  · simp only [within_cons, within_nil, and_true, msgRevPos]
    omega
  · simp only [within_cons, within_nil, and_true, msgRevPos]
    omega

/-! ## Writing -/

/-- `DelCookie`, which compares the place with the length of the packet. -/
theorem delCookie_within_iff (hlen : msgHeaderLen ≤ len) :
    (delCookie m p).ret ≤ 0 ∨ Within p len (delCookie m p).touched ↔
      getCookiePos m p ≤ msgHeaderLen ∨ getPackLen m p ≤ getCookiePos m p ∨
        getCookiePos m p + 2 ≤ len ∨
        getPackLen m p ≤ 2 + netWord m (p + getCookiePos m p) ∨
        2 ^ 31 ≤ getPackLen m p - (2 + netWord m (p + getCookiePos m p)) := by
  have hpack := getPackLen_lt m p
  have hword := netWord_lt m (p + getCookiePos m p)
  rw [msgHeaderLen] at hlen
  simp only [delCookie]
  split_ifs with hpos
  · simp only [fieldPlaces, within_cons, within_nil, and_true, msgRevPos]
    omega
  · rw [msgHeaderLen] at hpos ⊢
    simp only [fieldPlaces, List.cons_append, List.nil_append, within_cons, within_nil, and_true,
      msgRevPos]
    unfold s32 u32sub
    omega

/-- What `SetCookie` compares with the length of the buffer. -/
def cookieNeed (m : ℕ → UInt8) (p : ℕ) (ck : Cookie) : ℕ :=
  if getCookiePos m p = 0 then u32 (getPackLen m p + 2 + ck.1.length)
  else u32 (getPackLen m p + 2 ^ 32 + ck.1.length - netWord m (p + getCookiePos m p))

/-- Where `SetCookie` stops writing. -/
def cookieEnd (m : ℕ → UInt8) (p : ℕ) (ck : Cookie) : ℕ :=
  if getCookiePos m p = 0 then getPackLen m p + 2 + ck.1.length
  else getCookiePos m p + 3 + ck.1.length

/-- `SetCookie`, which compares a length with its buffer and writes at a place. -/
theorem setCookie_within_iff (bufLen : ℕ) (ck : Cookie) (hp : p ≠ 0) :
    (setCookie m p bufLen ck).ret < 0 ∨ Within p bufLen (setCookie m p bufLen ck).touched ↔
      bufLen < cookieNeed m p ck ∨ 2 ^ 31 ≤ cookieNeed m p ck ∨
        msgHeaderLen ≤ bufLen ∧ cookieEnd m p ck ≤ bufLen ∧
          (getCookiePos m p ≠ 0 ∨ 0 < getPackLen m p) := by
  have hpack := getPackLen_lt m p
  have hword := netWord_lt m (p + getCookiePos m p)
  by_cases hpos : getCookiePos m p = 0
  · simp only [setCookie, cookieNeed, cookieEnd, hpos, if_true]
    split
    next hsmall => simp [hsmall]
    next hroom =>
      simp only [fieldPlaces, List.cons_append, List.nil_append, List.append_nil, within_cons,
        within_nil, and_true, msgRevPos, msgHeaderLen]
      have hneed := u32_lt (getPackLen m p + 2 + ck.1.length)
      unfold s32
      omega
  · have hneed : u32 (u32sub (getPackLen m p) (2 + netWord m (p + getCookiePos m p)) + 2 +
        ck.1.length) = cookieNeed m p ck := by
      rw [cookieNeed, if_neg hpos]
      unfold u32 u32sub
      omega
    simp only [setCookie, cookieEnd, if_neg hpos, hneed]
    split
    next hsmall => simp [hsmall]
    next hroom =>
      simp only [fieldPlaces, List.cons_append, List.nil_append, within_cons, within_nil, and_true,
        msgRevPos, msgHeaderLen]
      have hlt : cookieNeed m p ck < 2 ^ 32 := hneed ▸ u32_lt _
      unfold s32
      omega

/-! ## All four functions -/

/-- On an accepted packet, with anything in its reserved field, the functions stay where they
may go, or report an error, exactly under these conditions on place and length. -/
theorem cookie_within_iff (hok : AcceptedAt m p len) :
    (∀ buf bufLen,
      (getCookie m p buf bufLen).ret < 0 ∨ Within p len (getCookie m p buf bufLen).touched ↔
        getCookiePos m p = 0 ∨ bufLen < netWord m (p + getCookiePos m p) ∨
          getCookiePos m p + 2 + netWord m (p + getCookiePos m p) ≤ len) ∧
      (∀ buf,
        (getCookieString m p buf).ret < 0 ∨ Within p len (getCookieString m p buf).touched ↔
          getCookiePos m p = 0 ∨
            getCookiePos m p + 2 + netWord m (p + getCookiePos m p) ≤ len) ∧
      (∀ bufLen ck,
        (setCookie m p bufLen ck).ret < 0 ∨ Within p bufLen (setCookie m p bufLen ck).touched ↔
          bufLen < cookieNeed m p ck ∨ 2 ^ 31 ≤ cookieNeed m p ck ∨
            msgHeaderLen ≤ bufLen ∧ cookieEnd m p ck ≤ bufLen ∧
              (getCookiePos m p ≠ 0 ∨ 0 < getPackLen m p)) ∧
      ((delCookie m p).ret ≤ 0 ∨ Within p len (delCookie m p).touched ↔
        getCookiePos m p ≤ msgHeaderLen ∨ getPackLen m p ≤ getCookiePos m p ∨
          getCookiePos m p + 2 ≤ len ∨
          getPackLen m p ≤ 2 + netWord m (p + getCookiePos m p) ∨
          2 ^ 31 ≤ getPackLen m p - (2 + netWord m (p + getCookiePos m p))) := by
  obtain ⟨hp, hlen, -⟩ := acceptedAt_iff.mp hok
  have hheader : msgHeaderLen ≤ len := by omega
  exact ⟨getCookie_within_iff hheader, getCookieString_within_iff hheader,
    fun bufLen ck => setCookie_within_iff bufLen ck hp, delCookie_within_iff hheader⟩

/-- With the place on the end mark, half of the length lies behind the packet. -/
theorem cookie_within_iff_endMark :
    ¬ ((getCookieString (samplePacket 29 []) 1 []).ret < 0 ∨
      Within 1 30 (getCookieString (samplePacket 29 []) 1 []).touched) :=
  mt ((cookie_within_iff (acceptedAt_iff.mpr (by decide))).2.1 []).mp (by decide)

/-- The place 1024 leads both `GetCookie` and `SetCookie` out of a packet of 30 bytes. -/
theorem not_cookie_within :
    let m := samplePacket 1024 []
    AcceptedAt m 1 30 ∧ (getCookieString m 1 []).ret = 0 ∧
      ¬ Within 1 30 (getCookieString m 1 []).touched ∧
      (getCookie m 1 [0, 0] 2).ret = 0 ∧ ¬ Within 1 30 (getCookie m 1 [0, 0] 2).touched ∧
      (setCookie m 1 40 ⟨[8, 9], by decide⟩).ret = 32 ∧
      ¬ Within 1 40 (setCookie m 1 40 ⟨[8, 9], by decide⟩).touched :=
  ⟨acceptedAt_iff.mpr (by decide), by decide⟩

end Spp
