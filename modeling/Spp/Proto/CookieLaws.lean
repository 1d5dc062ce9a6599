import Spp.Proto.Cookie

/-!
# Setting, reading and deleting a cookie

On a packet that has no cookie, or one that `SetCookie` placed, the operations obey the
usual laws: what was set is read back, the last cookie set is the one that stays, and a
failed call changes nothing.  `DelCookie` undoes `SetCookie` when the packet has a body.

## Main definitions

* `CookieShape` — a packet whose body ends at a known place.
* `CookiePacket` — the packets without a cookie, and those that `SetCookie` made.
-/

namespace Spp

variable {m m' : ℕ → UInt8} {p p' n tail : ℕ} {ck : Cookie}

/-! ## What was stored -/

theorem length_cookieBytes (ck : Cookie) :
    (be 2 ck.1.length ++ ck.1 ++ [eot]).length = 3 + ck.1.length := by
  simp only [List.length_append, length_be, List.length_singleton]
  omega

/-- The two fields lie before the cookie. -/
theorem read_putCookie (hheader : msgHeaderLen ≤ tail) :
    Mem.read (putCookie m p tail ck) (p + tail) (be 2 ck.1.length ++ ck.1 ++ [eot]).length =
      be 2 ck.1.length ++ ck.1 ++ [eot] := by
  rw [msgHeaderLen] at hheader
  rw [putCookie, Mem.read_write_of_disjoint _ _ (.inr (by rw [length_be]; omega)),
    Mem.read_write_of_disjoint _ _ (.inr (by rw [length_be]; omega)), Mem.read_write_self]

theorem getPackLen_putCookie (m : ℕ → UInt8) (p : ℕ) (hlt : tail + 3 + ck.1.length < 2 ^ 32) :
    getPackLen (putCookie m p tail ck) p = tail + 3 + ck.1.length := by
  have hread := Mem.read_write_self (Mem.write (Mem.write m (p + tail)
    (be 2 ck.1.length ++ ck.1 ++ [eot])) (p + 26) (be 3 tail)) (p + 3)
      (be 4 (tail + 3 + ck.1.length))
  rw [length_be] at hread
  rw [getPackLen_eq, putCookie, hread, ofBe_be_of_lt (by simpa using hlt)]

theorem getCookiePos_putCookie (m : ℕ → UInt8) (p tail : ℕ) (ck : Cookie) :
    getCookiePos (putCookie m p tail ck) p = tail % 2 ^ 24 := by
  have hread := Mem.read_write_self (Mem.write m (p + tail)
    (be 2 ck.1.length ++ ck.1 ++ [eot])) (p + 26) (be 3 tail)
  rw [length_be] at hread
  rw [getCookiePos_eq, putCookie, Mem.read_write_of_disjoint _ _ (.inr (by rw [length_be]; omega)),
    hread, ofBe_be]
  norm_num

theorem getCookiePos_putCookie_of_lt (m : ℕ → UInt8) (p : ℕ) (ck : Cookie)
    (hsmall : tail < 2 ^ 24) :
    getCookiePos (putCookie m p tail ck) p = tail := by
  rw [getCookiePos_putCookie, Nat.mod_eq_of_lt hsmall]

/-- The bytes of the packet before the cookie stay, but for the two fields. -/
theorem putCookie_of_lt {i : ℕ} (hi : i < tail) (hlen : i < 3 ∨ 7 ≤ i) (hpos : i < 26 ∨ 29 ≤ i) :
    putCookie m p tail ck (p + i) = m (p + i) := by
  have hout : ∀ (m : ℕ → UInt8) (dst : ℕ) (bs : List UInt8),
      i < dst ∨ dst + bs.length ≤ i → Mem.write m (p + dst) bs (p + i) = m (p + i) := by
    intro m dst bs h
    rcases h with h | h
    · exact Mem.write_of_lt _ _ (by omega)
    · exact Mem.write_of_ge _ _ (by omega)
  rw [putCookie, hout _ _ _ (by simpa using hlen), hout _ _ _ (by simpa using hpos),
    hout _ _ _ (.inl hi)]

/-- Where the cookie lies, its length, its bytes and the end mark can be read. -/
theorem putCookie_fields (m : ℕ → UInt8) (p : ℕ) (ck : Cookie) (hheader : msgHeaderLen ≤ tail) :
    netWord (putCookie m p tail ck) (p + tail) = ck.1.length ∧
      Mem.read (putCookie m p tail ck) (p + tail + 2) ck.1.length = ck.1 ∧
      putCookie m p tail ck (p + (tail + 2 + ck.1.length)) = eot := by
  obtain ⟨hfront, heot⟩ := Mem.read_append_iff.mp (read_putCookie (m := m) (p := p) hheader)
  obtain ⟨hword, hbytes⟩ := Mem.read_append_iff.mp hfront
  simp only [List.length_append, length_be, List.length_singleton, Mem.read_one_eq_iff]
    at hword hbytes heot
  have hck : ck.1.length < 256 ^ 2 := Nat.lt_succ_of_le ck.2
  refine ⟨?_, hbytes, ?_⟩
  · rw [netWord_eq, hword, ofBe_be_of_lt hck]
  · have hlast : p + tail + (2 + ck.1.length) = p + (tail + 2 + ck.1.length) := by omega
    rw [← hlast, heot]

/-! ## The packet as a whole -/

/-- A packet of `n` bytes whose body ends at `tail`. -/
structure CookieShape (m : ℕ → UInt8) (p n tail : ℕ) : Prop where
  addr : p ≠ 0
  soh : m p = Spp.soh
  mainVer : m (p + 1) = Spp.mainVer
  packLen : getPackLen m p = n
  eot : m (p + (n - 1)) = Spp.eot
  ends : BodyEnds m p tail
  header : msgHeaderLen ≤ tail
  small : tail < 2 ^ 24

namespace CookieShape

theorem tail_lt (h : CookieShape m p n tail) : tail < n := by
  have hlen := h.packLen
  rcases h.ends with ⟨-, hn⟩ | ⟨-, -, hn⟩ <;> omega

theorem accepted (h : CookieShape m p n tail) : AcceptedAt m p n := by
  have htail := h.tail_lt
  have hheader := h.header
  have hlt := h.packLen ▸ getPackLen_lt m p
  refine acceptedAt_iff.mpr ⟨h.addr, by omega, h.soh, h.mainVer, h.packLen.le, ?_⟩
  rw [h.packLen, u32sub_of_le (by omega) hlt]
  exact h.eot

/-- An accepted packet without a cookie is all body up to its end mark. -/
theorem plain (hok : AcceptedAt m p n) (hlen : getPackLen m p = n) (hpos : getCookiePos m p = 0)
    (hsmall : n < 2 ^ 24) : CookieShape m p n (n - 1) := by
  obtain ⟨haddr, hn, hsoh, hver, -, heot⟩ := acceptedAt_iff.mp hok
  rw [hlen, u32sub_of_le (by omega) (by omega)] at heot
  rw [msgHeaderLen] at hn
  exact ⟨haddr, hsoh, hver, hlen, heot, .inl ⟨hpos, by omega⟩,
    by rw [msgHeaderLen]; omega, by omega⟩

/-- A copy of the bytes is as good. -/
theorem copy (h : CookieShape m p n tail) (haddr : p' ≠ 0)
    (hread : Mem.read m' p' n = Mem.read m p n) : CookieShape m' p' n tail := by
  have htail := h.tail_lt
  have hheader := h.header
  rw [msgHeaderLen] at hheader
  have hsame : ∀ i < n, m' (p' + i) = m (p + i) := by
    intro i hi
    exact Mem.cell_of_read hread hi
  have hsub : ∀ k len, k + len ≤ n → Mem.read m' (p' + k) len = Mem.read m (p + k) len := by
    intro k len hk
    refine Mem.read_congr ?_
    intro i hi
    simpa only [Nat.add_assoc] using hsame (k + i) (by omega)
  have hlen : getPackLen m' p' = getPackLen m p := by
    rw [getPackLen_eq, getPackLen_eq, hsub 3 4 (by omega)]
  have hpos : getCookiePos m' p' = getCookiePos m p := by
    rw [getCookiePos_eq, getCookiePos_eq, hsub 26 3 (by omega)]
  refine ⟨haddr, (hsame 0 (by omega)).trans h.soh, (hsame 1 (by omega)).trans h.mainVer,
    hlen.trans h.packLen, (hsame _ (by omega)).trans h.eot, ?_, h.header, h.small⟩
  have hn := h.packLen
  rcases h.ends with hends | ⟨h0, hends, htotal⟩
  · exact .inl ⟨hpos.trans hends.1, hlen.trans hends.2⟩
  · have hword : netWord m' (p' + tail) = netWord m (p + tail) := by
      rw [netWord_eq, netWord_eq, hsub tail 2 (by omega)]
    exact .inr ⟨h0, hpos.trans hends, by rw [hlen, hword, htotal]⟩

/-- A packet with a new cookie has the same shape. -/
theorem put (h : CookieShape m p n tail) (ck : Cookie) :
    CookieShape (putCookie m p tail ck) p (tail + 3 + ck.1.length) tail := by
  have hheader := h.header
  have hsmall := h.small
  have hck := ck.2
  obtain ⟨hword, -, heot⟩ := putCookie_fields m p ck hheader
  rw [msgHeaderLen] at hheader
  have hlen : getPackLen (putCookie m p tail ck) p = tail + 3 + ck.1.length :=
    getPackLen_putCookie m p (by omega)
  refine ⟨h.addr, ?_, ?_, hlen, ?_, .inr ⟨by omega, ?_, ?_⟩, h.header, hsmall⟩
  · exact (putCookie_of_lt (i := 0) (by omega) (by omega) (by omega)).trans h.soh
  · exact (putCookie_of_lt (i := 1) (by omega) (by omega) (by omega)).trans h.mainVer
  · have hlast : tail + 3 + ck.1.length - 1 = tail + 2 + ck.1.length := by omega
    rw [hlast, heot]
  · exact getCookiePos_putCookie_of_lt m p ck hsmall
  · rw [hlen, hword]

/-- `SetCookie` fails and changes nothing, or the packet gets the cookie. -/
theorem setCookie (h : CookieShape m p n tail) (len : ℕ) (ck : Cookie) :
    (setCookie m p len ck).mem = m ∧ (setCookie m p len ck).ret = -1 ∨
      (setCookie m p len ck).mem = putCookie m p tail ck ∧
        (setCookie m p len ck).ret = (tail + 3 + ck.1.length : ℕ) := by
  have hsmall := h.small
  have hck := ck.2
  rcases setCookie_cases len ck h.ends (by omega) with ⟨-, hfail⟩ | ⟨-, hmem, hret⟩
  · exact .inl hfail
  · refine .inr ⟨hmem, ?_⟩
    rw [hret, s32_of_bounds] <;> omega

end CookieShape

/-- Only the old packet up to the end of its body is left in the new one. -/
theorem read_putCookie_congr (h : ∀ i < tail, i < 3 ∨ 7 ≤ i → i < 26 ∨ 29 ≤ i →
    m' (p' + i) = m (p + i)) :
    Mem.read (putCookie m' p' tail ck) p' (tail + 3 + ck.1.length) =
      Mem.read (putCookie m p tail ck) p (tail + 3 + ck.1.length) := by
  refine Mem.read_congr ?_
  intro i hi
  refine Mem.write_congr fun hlen => Mem.write_congr fun hpos => Mem.write_congr fun hck => ?_
  rw [length_cookieBytes] at hck
  rw [length_be] at hlen hpos
  exact h i (by omega) (by omega) (by omega)

/-! ## The laws -/

/-- The packets without a cookie, and those that `SetCookie` made of such a packet, wherever
they lie now. -/
inductive CookiePacket : (ℕ → UInt8) → ℕ → ℕ → Prop
  | plain {m : ℕ → UInt8} {p n : ℕ} (accepted : AcceptedAt m p n) (packLen : getPackLen m p = n)
      (pos : getCookiePos m p = 0) (small : n < 2 ^ 24) : CookiePacket m p n
  | placed {m m' : ℕ → UInt8} {p p' n n' len : ℕ} {ck : Cookie} (old : CookiePacket m p n)
      (ret : (setCookie m p len ck).ret = n') (addr : p' ≠ 0)
      (bytes : Mem.read m' p' n' = Mem.read (setCookie m p len ck).mem p n') : CookiePacket m' p' n'

theorem CookiePacket.shape (h : CookiePacket m p n) : ∃ tail, CookieShape m p n tail := by
  induction h with
  | plain hok hlen hpos hsmall => exact ⟨_, .plain hok hlen hpos hsmall⟩
  | @placed m m' p p' n n' len ck _ hret haddr hbytes ih =>
      obtain ⟨tail, h⟩ := ih
      rcases h.setCookie len ck with ⟨-, hfail⟩ | ⟨hmem, hdone⟩
      · omega
      · obtain rfl : n' = tail + 3 + ck.1.length := by omega
        rw [hmem] at hbytes
        exact ⟨tail, (h.put ck).copy haddr hbytes⟩

theorem setCookieString_of_le {cookie : List UInt8} (len : ℕ) (h : cookie.length ≤ 0xFFFF) :
    setCookieString m p len cookie = setCookie m p len ⟨cookie, h⟩ := by
  rw [setCookieString, dif_neg h.not_gt]

/-- What was put is read back. -/
theorem getCookie_putCookie {buf : List UInt8} {bufLen : ℕ} (hheader : msgHeaderLen ≤ tail)
    (hsmall : tail < 2 ^ 24) (hbuf : ck.1.length ≤ bufLen) :
    (getCookie (putCookie m p tail ck) p buf bufLen).ret = 0 ∧
      (getCookie (putCookie m p tail ck) p buf bufLen).ckLen = ck.1.length ∧
      (getCookie (putCookie m p tail ck) p buf bufLen).ck =
        ck.1 ++ buf.drop ck.1.length := by
  obtain ⟨hword, hbytes, -⟩ := putCookie_fields m p ck hheader
  have hpos := getCookiePos_putCookie_of_lt m p ck hsmall
  rw [msgHeaderLen] at hheader
  have hne : tail ≠ 0 := by omega
  simp only [getCookie, hpos, if_neg hne, hword, if_neg hbuf.not_gt, hbytes, and_self]

theorem getCookieString_putCookie (buf : List UInt8) (hheader : msgHeaderLen ≤ tail)
    (hsmall : tail < 2 ^ 24) :
    (getCookieString (putCookie m p tail ck) p buf).ret = 0 ∧
      (getCookieString (putCookie m p tail ck) p buf).ck = ck.1 := by
  obtain ⟨hword, hbytes, -⟩ := putCookie_fields m p ck hheader
  have hpos := getCookiePos_putCookie_of_lt m p ck hsmall
  rw [msgHeaderLen] at hheader
  have hne : tail ≠ 0 := by omega
  simp only [getCookieString, hpos, if_neg hne, hword]
  split
  next h0 => exact ⟨rfl, (List.length_eq_zero_iff.mp h0).symm⟩
  next => exact ⟨rfl, hbytes⟩

/-- Cookies survive: what was set is read back from a packet that is accepted and otherwise
as before, the last one set is the one that counts, and a failed call changes nothing. -/
theorem CookiePacket.cookie_survives (h : CookiePacket m p n) :
    (∀ (len : ℕ) (ck : Cookie), 0 ≤ (setCookie m p len ck).ret →
      let r := setCookie m p len ck
      (AcceptedAt r.mem p r.ret.toNat ∧ getPackLen r.mem p = r.ret.toNat) ∧
        (∀ buf bufLen, ck.1.length ≤ bufLen → (getCookie r.mem p buf bufLen).ret = 0 ∧
          (getCookie r.mem p buf bufLen).ckLen = ck.1.length ∧
          (getCookie r.mem p buf bufLen).ck.take ck.1.length = ck.1) ∧
        (∀ buf, (getCookieString r.mem p buf).ret = 0 ∧
          (getCookieString r.mem p buf).ck = ck.1) ∧
        ∀ i < getCookiePos r.mem p, i < 3 ∨ 7 ≤ i → i < 26 ∨ 29 ≤ i →
          r.mem (p + i) = m (p + i)) ∧
      (∀ (len₁ len₂ len : ℕ) (c₁ c₂ : Cookie),
        let r₁ := setCookie m p len₁ c₁
        let r₂ := setCookie r₁.mem p len₂ c₂
        let r := setCookie m p len c₂
        0 ≤ r₁.ret → 0 ≤ r₂.ret → 0 ≤ r.ret →
          r₂.ret = r.ret ∧ Mem.read r₂.mem p r.ret.toNat = Mem.read r.mem p r.ret.toNat) ∧
      (∀ (len : ℕ) (ck : Cookie), (setCookie m p len ck).ret < 0 →
        (setCookie m p len ck).mem = m) ∧
      ∀ (len : ℕ) (cookie : List UInt8), (setCookieString m p len cookie).ret < 0 →
        (setCookieString m p len cookie).mem = m := by
  obtain ⟨tail, h⟩ := h.shape
  have hfail : ∀ (len : ℕ) (ck : Cookie), (setCookie m p len ck).ret < 0 →
      (setCookie m p len ck).mem = m := by
    intro len ck hret
    rcases h.setCookie len ck with ⟨hmem, -⟩ | ⟨-, hdone⟩
    · exact hmem
    · omega
  refine ⟨?_, ?_, hfail, ?_⟩
  · intro len ck hret
    rcases h.setCookie len ck with ⟨-, hret'⟩ | ⟨hmem, hdone⟩
    · omega
    have hput := h.put ck
    simp only [hmem, hdone, Int.toNat_natCast]
    refine ⟨⟨hput.accepted, hput.packLen⟩, ?_, ?_, ?_⟩
    · intro buf bufLen hbuf
      obtain ⟨hget, hlen, hck⟩ := getCookie_putCookie (m := m) (p := p) h.header h.small hbuf
      exact ⟨hget, hlen, by rw [hck, List.take_left]⟩
    · exact fun buf => getCookieString_putCookie buf h.header h.small
    · intro i hi
      rw [getCookiePos_putCookie_of_lt m p ck h.small] at hi
      exact putCookie_of_lt hi
  · intro len₁ len₂ len c₁ c₂ r₁ r₂ r h₁ h₂ h₀
    rcases h.setCookie len₁ c₁ with ⟨-, (hret' : r₁.ret = -1)⟩ | ⟨(hmem₁ : r₁.mem = _), -⟩
    · omega
    rcases h.setCookie len c₂ with ⟨-, (hret' : r.ret = -1)⟩ | ⟨(hmem : r.mem = _), hret⟩
    · omega
    have hr₁ : CookieShape r₁.mem p (tail + 3 + c₁.1.length) tail := hmem₁ ▸ h.put c₁
    rcases hr₁.setCookie len₂ c₂ with ⟨-, (hret' : r₂.ret = -1)⟩ | ⟨(hmem₂ : r₂.mem = _), hret₂⟩
    · omega
    refine ⟨hret₂.trans hret.symm, ?_⟩
    rw [hmem, hmem₂, show r.ret = _ from hret, Int.toNat_natCast]
    refine read_putCookie_congr ?_
    intro i hi hlen hpos
    rw [hmem₁, putCookie_of_lt hi hlen hpos]
  · intro len cookie
    by_cases hle : cookie.length ≤ 0xFFFF
    · rw [setCookieString_of_le len hle]
      exact hfail len _
    · rw [setCookieString, dif_pos (Nat.lt_of_not_le hle)]
      exact fun _ => rfl

/-- A packet at address 1, with a reserved field and a body. -/
def samplePacket (rev : UInt32) (body : List UInt8) : ℕ → UInt8 :=
  let bytes := ({ rev := rev } : MsgHeader).bytes (msgHeaderLen + body.length + 1)
  Mem.write (fun _ => 0) 1 (bytes ++ body ++ [eot])

theorem CookiePacket.cookie_survives_two :
    (getCookieString (setCookie (samplePacket 0 [7]) 1 100 ⟨[8, 9], by decide⟩).mem 1 []).ck =
      [8, 9] :=
  have hok : AcceptedAt (samplePacket 0 [7]) 1 31 := acceptedAt_iff.mpr (by decide)
  ((CookiePacket.cookie_survives (.plain hok (by decide) (by decide) (by decide))).1 100
    ⟨[8, 9], by decide⟩ (by decide)).2.2.1 [] |>.2

/-! ## Deleting a cookie -/

theorem netWord_bytes (m : ℕ → UInt8) (l : ℕ) :
    netWord m l = 256 * (m l).toNat + (m (l + 1)).toNat := by
  rw [netWord_eq, Mem.read_succ, Mem.read_succ, Mem.read_zero]
  simp only [ofBe, List.reverse_cons, List.reverse_nil, List.nil_append, List.cons_append, ofLe]
  omega

theorem write_packLen (m : ℕ → UInt8) (p : ℕ) :
    Mem.write m (p + 3) (be 4 (getPackLen m p)) = m := by
  have hbytes := be_ofBe (Mem.read m (p + 3) 4)
  rw [Mem.length_read] at hbytes
  rw [getPackLen_eq, hbytes, Mem.write_read]

theorem write_cookiePos (m : ℕ → UInt8) (p : ℕ) :
    Mem.write m (p + 26) (be 3 (getCookiePos m p)) = m := by
  have hbytes := be_ofBe (Mem.read m (p + 26) 3)
  rw [Mem.length_read] at hbytes
  rw [getCookiePos_eq, hbytes, Mem.write_read]

/-- With the two fields as they were, the rest of the packet decides whether it is restored. -/
theorem read_restored (hlen : getPackLen m p = n) (hpos : getCookiePos m p = 0)
    (h : ∀ i < n, i < 3 ∨ 7 ≤ i → i < 26 ∨ 29 ≤ i → m' (p + i) = m (p + i)) :
    Mem.read (Mem.write (Mem.write m' (p + 26) (be 3 0)) (p + 3) (be 4 n)) p n =
      Mem.read m p n := by
  have hsame : Mem.write (Mem.write m (p + 26) (be 3 0)) (p + 3) (be 4 n) = m := by
    have hfirst := write_cookiePos m p
    rw [hpos] at hfirst
    rw [hfirst, ← hlen, write_packLen]
  conv_rhs => rw [← hsame]
  refine Mem.read_congr ?_
  intro i hi
  refine Mem.write_congr fun hlen => Mem.write_congr fun hpos => ?_
  rw [length_be] at hlen hpos
  exact h i hi (by omega) (by omega)

/-- A word of the body is left alone. -/
theorem netWord_putCookie {pos : ℕ} (hheader : msgHeaderLen ≤ pos) (hpos : pos + 2 ≤ tail) :
    netWord (putCookie m p tail ck) (p + pos) = netWord m (p + pos) := by
  rw [msgHeaderLen] at hheader
  rw [netWord_bytes, netWord_bytes, Nat.add_assoc,
    putCookie_of_lt (by omega) (by omega) (by omega),
    putCookie_of_lt (by omega) (by omega) (by omega)]

/-- The cookie starts with the end mark when its length starts like one. -/
theorem putCookie_tail {l : ℕ} (hheader : msgHeaderLen ≤ tail) (heot : m l = eot)
    (hword : ck.1.length = netWord m l) : putCookie m p tail ck (p + tail) = eot := by
  obtain ⟨hck, -, -⟩ := putCookie_fields m p ck hheader
  have hlow := (putCookie m p tail ck (p + tail + 1)).toNat_lt
  have hlow' := (m (l + 1)).toNat_lt
  rw [netWord_bytes] at hck hword
  refine UInt8.toNat_inj.mp ?_
  rw [← heot]
  omega

/-- `DelCookie` where it finds a cookie. -/
theorem delCookie_of_lt (hpos : msgHeaderLen < getCookiePos m p)
    (hlt : getCookiePos m p < getPackLen m p) :
    let l := p + getCookiePos m p
    let packLen := u32sub (getPackLen m p) (2 + netWord m l)
    (delCookie m p).ret = s32 packLen ∧ (delCookie m p).mem =
      Mem.write (Mem.write (Mem.write m l [eot]) (p + 26) (be 3 0)) (p + 3) (be 4 packLen) := by
  have hno : ¬ (getCookiePos m p ≤ msgHeaderLen ∨ getPackLen m p ≤ getCookiePos m p) := by omega
  simp only [delCookie, if_neg hno, setCookiePos_eq, setPackLen_eq, and_self]

/-- Where the packet seems to have its cookie after `SetCookie`, its length can only come out
as before when the word there is the length of the cookie. -/
theorem s32_u32sub_eq_iff {w c : ℕ} (hw : w < 2 ^ 16) (hc : c < 2 ^ 16) :
    s32 (u32sub (n + 2 + c) (2 + w) : ℕ) = n ↔ w = c ∧ n < 2 ^ 31 := by
  unfold s32 u32sub
  omega

/-- The end mark goes back where the cookie began. -/
theorem read_deleted_tail (hlen : getPackLen m p = tail + 1) (hnone : getCookiePos m p = 0)
    (heot : m (p + tail) = eot) :
    Mem.read (Mem.write (Mem.write (Mem.write (putCookie m p tail ck) (p + tail) [eot])
      (p + 26) (be 3 0)) (p + 3) (be 4 (tail + 1))) p (tail + 1) = Mem.read m p (tail + 1) := by
  refine read_restored hlen hnone ?_
  intro i hi hout hout'
  rcases Nat.lt_succ_iff_lt_or_eq.mp hi with hi | rfl
  · rw [Mem.write_of_lt _ _ (by omega), putCookie_of_lt hi hout hout']
  · exact (Mem.write_add _ [eot] (p + i) (i := 0) Nat.one_pos).trans heot.symm

/-- The end mark at an inner place has to be there before; what `SetCookie` left at the end of
the body is then an end mark as well. -/
theorem read_deleted_inner {pos : ℕ} (hlen : getPackLen m p = tail + 1)
    (hnone : getCookiePos m p = 0) (heot : m (p + tail) = eot) (hheader : msgHeaderLen ≤ tail)
    (hpos : pos < tail) (hinner : m (p + pos) = eot) (hword : ck.1.length = netWord m (p + pos)) :
    Mem.read (Mem.write (Mem.write (Mem.write (putCookie m p tail ck) (p + pos) [eot])
      (p + 26) (be 3 0)) (p + 3) (be 4 (tail + 1))) p (tail + 1) = Mem.read m p (tail + 1) := by
  refine read_restored hlen hnone ?_
  intro i hi hout hout'
  rcases Nat.lt_trichotomy i pos with hlt | rfl | hgt
  · rw [Mem.write_of_lt _ _ (by omega), putCookie_of_lt (by omega) hout hout']
  · exact (Mem.write_add _ [eot] (p + i) (i := 0) Nat.one_pos).trans hinner.symm
  · rw [Mem.write_of_ge _ _ (by rw [List.length_singleton]; omega)]
    rcases Nat.lt_succ_iff_lt_or_eq.mp hi with hi | rfl
    · exact putCookie_of_lt hi hout hout'
    · rw [putCookie_tail hheader hinner hword, heot]

/-- `DelCookie` undoes `SetCookie` on a packet without a cookie when the packet has a body and
its length fits the 24 bits of the place.  A longer packet has to hold, at the place that is
left of it, the end mark, and there the length of the cookie. -/
theorem delCookie_setCookie_iff {len : ℕ} (hok : AcceptedAt m p n) (hlen : getPackLen m p = n)
    (hnone : getCookiePos m p = 0) (hfit : n + 2 + ck.1.length ≤ len) (hlt : len < 2 ^ 32) :
    (delCookie (setCookie m p len ck).mem p).ret = n ∧
        Mem.read (delCookie (setCookie m p len ck).mem p).mem p n = Mem.read m p n ↔
      msgHeaderLen + 1 < n ∧ n < 2 ^ 31 ∧ (n ≤ 2 ^ 24 ∨
        msgHeaderLen < (n - 1) % 2 ^ 24 ∧ m (p + (n - 1) % 2 ^ 24) = eot ∧
          ck.1.length = netWord m (p + (n - 1) % 2 ^ 24)) := by
  obtain ⟨-, hn, -, -, -, heot⟩ := acceptedAt_iff.mp hok
  obtain ⟨tail, rfl⟩ : ∃ tail, n = tail + 1 := ⟨n - 1, by omega⟩
  have hck := ck.2
  rw [hlen, u32sub_of_le (by omega) (by omega), Nat.add_sub_cancel] at heot
  rw [Nat.add_sub_cancel]
  have hset : (setCookie m p len ck).mem = putCookie m p tail ck := by
    rcases setCookie_cases len ck (.inl ⟨hnone, hlen⟩) (by omega) with h | h
    · omega
    · exact h.2.1
  rw [hset]
  have hheader : msgHeaderLen ≤ tail := by omega
  have hpack : getPackLen (putCookie m p tail ck) p = tail + 1 + 2 + ck.1.length :=
    (getPackLen_putCookie m p (by omega)).trans (by omega)
  have hpos := getCookiePos_putCookie m p tail ck
  obtain ⟨hword, -, -⟩ := putCookie_fields m p ck hheader
  rcases Nat.lt_or_ge msgHeaderLen (tail % 2 ^ 24) with hfound | hlost
  · obtain ⟨hret, hmem⟩ := delCookie_of_lt (m := putCookie m p tail ck) (p := p)
      (by rwa [hpos]) (by rw [hpos, hpack]; omega)
    rw [hpos, hpack] at hret hmem
    rw [hret, hmem, s32_u32sub_eq_iff (netWord_lt _ _) (by omega)]
    have hless : u32sub (tail + 1 + 2 + ck.1.length) (2 + ck.1.length) = tail + 1 := by
      rw [u32sub_of_le] <;> omega
    rcases Nat.lt_or_ge tail (2 ^ 24) with hsmall | hlarge
    · rw [Nat.mod_eq_of_lt hsmall, hword, hless]
      exact ⟨fun h => ⟨by omega, h.1.2, .inl hsmall⟩,
        fun h => ⟨⟨rfl, h.2.1⟩, read_deleted_tail hlen hnone heot⟩⟩
    · -- what is left of the place is one in the body, where the word is as it was
      obtain ⟨pos, hmod⟩ : ∃ pos, pos = tail % 2 ^ 24 := ⟨_, rfl⟩
      rw [← hmod] at hfound ⊢
      have hinner : pos + 2 ≤ tail := by omega
      rw [netWord_putCookie hfound.le hinner]
      constructor
      · rintro ⟨⟨hw, hlt31⟩, hread⟩
        have hbehind : 29 < pos := hfound
        have hcell := Mem.cell_of_read hread (i := pos) (by omega)
        rw [Mem.write_of_ge _ _ (by rw [length_be]; omega),
          Mem.write_of_ge _ _ (by rw [length_be]; omega)] at hcell
        have heot' := (Mem.write_add _ [eot] (p + pos) (i := 0) Nat.one_pos).symm.trans hcell
        exact ⟨by omega, hlt31, .inr ⟨hfound, heot'.symm, hw.symm⟩⟩
      · rintro ⟨-, hlt31, hcase⟩
        obtain ⟨-, heot', hw⟩ := hcase.resolve_left (by omega)
        refine ⟨⟨hw.symm, hlt31⟩, ?_⟩
        rw [← hw, hless]
        exact read_deleted_inner hlen hnone heot hheader (by omega) heot' hw
  · -- the place is taken for one in the header, and nothing is deleted
    have hret : (delCookie (putCookie m p tail ck) p).ret =
        s32 (tail + 1 + 2 + ck.1.length : ℕ) := by
      simp only [delCookie, hpos, hpack, if_pos (Or.inl hlost)]
    rw [hret]
    unfold s32
    omega

/-- A packet with a body of one byte is restored. -/
theorem delCookie_setCookie_body :
    let m := (setCookie (samplePacket 0 [7]) 1 100 ⟨[8, 9], by decide⟩).mem
    (delCookie m 1).ret = 31 ∧
      Mem.read (delCookie m 1).mem 1 31 = Mem.read (samplePacket 0 [7]) 1 31 :=
  (delCookie_setCookie_iff (acceptedAt_iff.mpr (by decide)) (by decide) (by decide) (by decide)
    (by decide)).mpr ⟨by decide, by decide, .inl (by decide)⟩

/-- With an empty body the cookie lies right behind the header, and is not deleted. -/
theorem not_delCookie_setCookie_empty :
    let m := (setCookie (samplePacket 0 []) 1 100 ⟨[8, 9], by decide⟩).mem
    AcceptedAt (samplePacket 0 []) 1 30 ∧ getPackLen (samplePacket 0 []) 1 = 30 ∧
      getCookiePos (samplePacket 0 []) 1 = 0 ∧
      (setCookie (samplePacket 0 []) 1 100 ⟨[8, 9], by decide⟩).ret = 34 ∧
      (delCookie m 1).ret = 34 ∧ getCookiePos (delCookie m 1).mem 1 = 29 :=
  ⟨acceptedAt_iff.mpr (by decide), by decide⟩

end Spp
