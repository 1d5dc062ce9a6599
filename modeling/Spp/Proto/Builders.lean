import Spp.Proto.CookieLaws
import Spp.Proto.Encoders

/-!
# Three builders of a packet with a cookie

`Packer::GetPack` with a cookie, `SetCookie` on the packet of `GetPack`, and the packer for a
fixed buffer put the same bytes together.  The fixed packer compares the space that is left as
an `int`, and fails where the buffer is longer than an `int` can say.

## Main definitions

* `Packer.getPackCookie` — `GetPack(h, ck_len, ck)`.
* `Cookie.len`, `Cookie.at` — a cookie as the two arguments of `GetPack`.
-/

namespace Spp

/-- `GetPack(h, ck_len, ck)`.  The buffer has `pack_len` bytes; `none` if the copies would not
stay in it. -/
def Packer.getPackCookie (pk : Packer) (h : MsgHeader) (ckLen : UInt16) (ck : ℕ → UInt8) :
    Option (List UInt8) :=
  let bodySize := u32 pk.oss.length
  let packLen := u32 (msgHeaderLen + bodySize + 2 + ckLen.toNat + 1)
  if packLen < msgHeaderLen + bodySize + 2 + ckLen.toNat + 1 then none
  else
    let hbuf := packHeader (fun _ => 0) h bodySize
    let hbuf := Mem.write hbuf msgHeaderLen (pk.oss.take bodySize)
    let l := msgHeaderLen + bodySize
    let hbuf := Mem.write hbuf l (le 2 (htons ckLen.toNat))
    let hbuf := Mem.write hbuf (l + 2) (Mem.read ck 0 ckLen.toNat)
    let hbuf := Mem.write hbuf (l + 2 + ckLen.toNat) [eot]
    let hbuf := setCookiePos hbuf 0 (u32 (msgHeaderLen + bodySize))
    let hbuf := setPackLen hbuf 0 packLen
    some (Mem.read hbuf 0 packLen)

/-- The length of a cookie as an argument. -/
def Cookie.len (ck : Cookie) : UInt16 := .ofNat ck.1.length

/-- The bytes of a cookie behind a pointer. -/
def Cookie.at (ck : Cookie) : ℕ → UInt8 := fun i => ck.1.getD i 0

theorem Cookie.toNat_len (ck : Cookie) : ck.len.toNat = ck.1.length :=
  UInt16.toNat_ofNat_of_lt' (Nat.lt_succ_of_le ck.2)

theorem Cookie.read_at (ck : Cookie) : Mem.read ck.at 0 ck.1.length = ck.1 :=
  (Mem.read_getD ck.1 le_rfl).trans (List.take_length)

variable {m m' : ℕ → UInt8} {p p' : ℕ} {ck : Cookie} {body : List UInt8} {h : MsgHeader}

/-! ## Header and body -/

/-- Two places with the same header and body give the same packet. -/
theorem read_putCookie_of_read {tail : ℕ} (hread : Mem.read m' p' tail = Mem.read m p tail) :
    Mem.read (putCookie m' p' tail ck) p' (tail + 3 + ck.1.length) =
      Mem.read (putCookie m p tail ck) p (tail + 3 + ck.1.length) :=
  read_putCookie_congr fun _ hi _ _ => Mem.cell_of_read hread hi

/-- A packet without a cookie ends its body at its end mark. -/
theorem bodyEnds_of_read (hrev : h.rev.toNat % 2 ^ 24 = 0)
    (hlen : msgHeaderLen + body.length + 1 < 2 ^ 32)
    (hread : Mem.read m p (msgHeaderLen + body.length) =
      h.bytes (msgHeaderLen + body.length + 1) ++ body) :
    BodyEnds m p (msgHeaderLen + body.length) := by
  have hfields : Mem.read m p (h.bytes (msgHeaderLen + body.length + 1)).length =
      h.bytes (msgHeaderLen + body.length + 1) := by
    refine (Mem.read_append_iff.mp (Eq.trans ?_ hread)).1
    rw [List.length_append, MsgHeader.length_bytes]
  simp only [MsgHeader.bytes, Mem.read_append_iff, length_be, List.length_singleton] at hfields
  obtain ⟨-, -, -, h3, -, -, -, -, -, -, -, h25⟩ := hfields
  refine .inl ⟨?_, ?_⟩
  · have hword : htonl (ofLe (Mem.read m (p + msgRevPos) 4)) = h.rev.toNat := by
      have hplace : Mem.read m (p + msgRevPos) 4 = be 4 h.rev.toNat := h25
      rw [hplace, htonl, bswap_ofLe (length_be _ _), ofBe_be_of_lt (by simpa using h.rev.toNat_lt)]
    rw [getCookiePos, hword, show 0x00FFFFFF = 2 ^ 24 - 1 from rfl,
      Nat.and_two_pow_sub_one_eq_mod, hrev]
  · have hplace : Mem.read m (p + 3) 4 = be 4 (msgHeaderLen + body.length + 1) := h3
    rw [getPackLen_eq, hplace, ofBe_be_of_lt (by simpa using hlen)]

/-- The memory of a packet before its cookie is put. -/
def packetMem (h : MsgHeader) (body : List UInt8) : ℕ → UInt8 :=
  Mem.write (fun _ => 0) 0 (h.bytes (msgHeaderLen + body.length + 1) ++ body)

theorem read_packetMem (h : MsgHeader) (body : List UInt8) :
    Mem.read (packetMem h body) 0 (msgHeaderLen + body.length) =
      h.bytes (msgHeaderLen + body.length + 1) ++ body := by
  have hself := Mem.read_write_self (fun _ : ℕ => (0 : UInt8)) 0
    (h.bytes (msgHeaderLen + body.length + 1) ++ body)
  rwa [List.length_append, MsgHeader.length_bytes] at hself

/-! ## The growing packer -/

theorem Packer.getPackCookie_eq (pk : Packer) (h : MsgHeader) (ck : Cookie)
    (hlen : msgHeaderLen + pk.oss.length + 3 + ck.1.length < 2 ^ 32) :
    pk.getPackCookie h ck.len ck.at =
      some (Mem.read (putCookie (packetMem h pk.oss) 0 (msgHeaderLen + pk.oss.length) ck) 0
        (msgHeaderLen + pk.oss.length + 3 + ck.1.length)) := by
  have hbody : u32 pk.oss.length = pk.oss.length := u32_of_lt (by omega)
  have hpos : u32 (msgHeaderLen + pk.oss.length) = msgHeaderLen + pk.oss.length :=
    u32_of_lt (by omega)
  have hplain : u32 (msgHeaderLen + pk.oss.length + 1) = msgHeaderLen + pk.oss.length + 1 :=
    u32_of_lt (by omega)
  have hsum : msgHeaderLen + pk.oss.length + 2 + ck.1.length + 1 =
      msgHeaderLen + pk.oss.length + 3 + ck.1.length := by omega
  simp only [getPackCookie, hbody, ck.toNat_len, ck.read_at, hsum, u32_of_lt hlen, lt_irrefl,
    if_false, List.take_length, write_packHeader, hplain, hpos, htons, le_bswap, write_cookie,
    setCookiePos_eq, setPackLen_eq, putCookie, packetMem, Nat.zero_add]

/-! ## The packer for a fixed buffer -/

namespace FixedPacker

variable {R : Type} [CDouble R] {q r : FixedPacker} {c : PackCall R} {calls : List (PackCall R)}

/-- All that a call of less than `2 ^ 31` bytes can do, strings included. -/
theorem call_short (q : FixedPacker) (hprints : c.Prints) (hshort : c.bytes.length < 2 ^ 31) :
    q.leftSpace < c.bytes.length ∧ q.call c = q.fail ∨
      (c.bytes.length : ℤ) ≤ q.leftSpace ∧ q.call c = q.put c.bytes ∨
      c.bytes = [] ∧ q.call c = q := by
  have hpack : ∀ bs : List UInt8, c.bytes = bs → q.call c = q.pack bs.length bs →
      q.leftSpace < c.bytes.length ∧ q.call c = q.fail ∨
        (c.bytes.length : ℤ) ≤ q.leftSpace ∧ q.call c = q.put c.bytes ∨
        c.bytes = [] ∧ q.call c = q := by
    intro bs hbytes hcall
    rw [hcall, hbytes, pack]
    split
    next hfail => exact .inl ⟨hfail, rfl⟩
    next hroom => exact .inr (.inl ⟨by omega, rfl⟩)
  by_cases hplain : c.Plain
  · have hneed : s32 (c.bytes.length : ℤ) = c.bytes.length := s32_of_bounds (by omega) (by omega)
    rcases q.call_cases ⟨hplain, hprints⟩ with ⟨hfail, hcall⟩ | ⟨hroom, hcall | hsame⟩
    · exact .inl ⟨by omega, hcall⟩
    · exact .inr (.inl ⟨by omega, hcall⟩)
    · exact .inr (.inr hsame)
  · cases c with
    | string v =>
        rw [PackCall.bytes, List.length_append, List.length_singleton] at hshort
        refine hpack (v ++ [0]) rfl ?_
        rw [call, packString, List.length_append, List.length_singleton,
          s32_of_bounds (by omega) (by omega)]
    | cstring v =>
        cases v with
        | none => exact .inr (.inr ⟨rfl, rfl⟩)
        | some v =>
            have hidem : (v.takeWhile (· ≠ 0)).takeWhile (· ≠ 0) = v.takeWhile (· ≠ 0) :=
              List.takeWhile_idem
            have hcut : q.packCString (some v) = q.packCString (some (v.takeWhile (· ≠ 0))) := by
              simp only [packCString, hidem]
            rw [PackCall.bytes, List.length_append, List.length_singleton] at hshort
            refine hpack (v.takeWhile (· ≠ 0) ++ [0]) rfl ?_
            rw [call, hcut, packCString_eq q hidem (by omega)]
    | byte v | word v | dword v | qword v | real v | binary v len => exact absurd trivial hplain

/-- What fits a buffer of less than `2 ^ 31 + 29` bytes is put. -/
theorem wrote_short (hprints : ∀ c ∈ calls, c.Prints) (hq : q.InBuf)
    (hlen : q.bufLen.toNat < 2 ^ 31 + msgHeaderLen)
    (hshort : (calls.flatMap PackCall.bytes).length < 2 ^ 31)
    (hfits : q.tail + (calls.flatMap PackCall.bytes).length ≤ q.bufLen.toNat) :
    Wrote q (calls.flatMap PackCall.bytes) (Run.final step q calls) ∧
      (Run.final step q calls).InBuf := by
  induction calls generalizing q with
  | nil => exact ⟨wrote_nil q, hq⟩
  | cons c calls ih =>
      rw [List.forall_mem_cons] at hprints
      rw [List.flatMap_cons, List.length_append] at hfits hshort
      have hleft := leftSpace_eq hq
      have hlow := hq.le_tail
      rw [if_pos (by omega)] at hleft
      obtain ⟨hput, hin⟩ : Wrote q c.bytes (q.call c) ∧ (q.call c).InBuf := by
        rcases q.call_short hprints.1 (by omega) with ⟨hfail, -⟩ | ⟨-, hcall⟩ | ⟨hnil, hcall⟩
        · omega
        · rw [hcall]
          exact ⟨wrote_put q c.bytes, (inBuf_put_iff hq c.bytes).mpr (by omega)⟩
        · rw [hcall, hnil]
          exact ⟨wrote_nil q, hq⟩
      have hrest := ih (q := q.call c) hprints.2 hin (by rwa [hput.bufLen]) (by omega)
        (by rw [hput.bufLen, hput.tail]; omega)
      exact ⟨hput.trans hrest.1, hrest.2⟩

/-- Where the space that is left seems to be negative, nothing is ever put. -/
theorem leftSpace_neg (hprints : ∀ c ∈ calls, c.Prints)
    (hshort : (calls.flatMap PackCall.bytes).length < 2 ^ 31) (hneg : q.leftSpace < 0) :
    (Run.final step q calls).leftSpace < 0 := by
  induction calls generalizing q with
  | nil => exact hneg
  | cons c calls ih =>
      rw [List.forall_mem_cons] at hprints
      rw [List.flatMap_cons, List.length_append] at hshort
      rw [Run.final_cons, step]
      rcases q.call_short hprints.1 (by omega) with ⟨-, hcall⟩ | ⟨hroom, -⟩ | ⟨-, hcall⟩
      · rw [hcall]
        exact ih hprints.2 (by omega) (q := q.fail) hneg
      · omega
      · rw [hcall]
        exact ih hprints.2 (by omega) hneg

/-- A packer that has no space gives no packet. -/
theorem getPackCookie_of_neg (hneg : q.leftSpace < 0) (h : MsgHeader) (ckLen : UInt16)
    (ck : ℕ → UInt8) : (q.getPackCookie h ckLen ck).1 = 0 := by
  have herr : q.fail.err ≠ 0 := by simp [fail, errProtocol]
  have hfull : q.leftSpace < 2 + (ckLen.toNat : ℤ) := by omega
  simp only [getPackCookie, if_pos hfull, if_pos herr]

theorem getPackCookie_of_wrote {q₀ : FixedPacker} (hput : Wrote q₀ body q)
    (htail : q₀.tail = msgHeaderLen) (herr : q.err = 0) (ck : Cookie)
    (hlen : q.tail + 3 + ck.1.length < 2 ^ 31) (hspace : 2 + (ck.1.length : ℤ) ≤ q.leftSpace)
    (h : MsgHeader) :
    (q.getPackCookie h ck.len ck.at).1 = (q.tail + 3 + ck.1.length : ℕ) ∧
      Mem.read (q.getPackCookie h ck.len ck.at).2.buf 0 (q.tail + 3 + ck.1.length) =
        Mem.read (putCookie (packetMem h body) 0 (msgHeaderLen + body.length) ck) 0
          (q.tail + 3 + ck.1.length) := by
  have hplace : q.tail = msgHeaderLen + body.length := by rw [hput.tail, htail]
  have hheader : msgHeaderLen = 29 := rfl
  have hroom : ¬ q.leftSpace < 2 + (ck.len.toNat : ℤ) := by
    rw [ck.toNat_len]
    omega
  have hone : u32 (q.tail + 1) = q.tail + 1 := u32_of_lt (by omega)
  have hbody : u32sub (q.tail + 1) (msgHeaderLen + 1) = body.length := by
    rw [u32sub_of_le (by omega) (by omega)]
    omega
  have hpos : u32sub (q.tail + 1) 1 = q.tail := by
    rw [u32sub_of_le (by omega) (by omega), Nat.add_sub_cancel]
  have htotal : u32 (q.tail + 1 + 2 + ck.1.length) = q.tail + 3 + ck.1.length := by
    rw [u32_of_lt (by omega)]
  have hend : u32sub (q.tail + 3 + ck.1.length) 1 = q.tail + 2 + ck.1.length := by
    rw [u32sub_of_le (by omega) (by omega)]
    omega
  have hplain : u32 (msgHeaderLen + body.length + 1) = msgHeaderLen + body.length + 1 :=
    u32_of_lt (by omega)
  have hbuf : (q.getPackCookie h ck.len ck.at).2.buf =
      putCookie (Mem.write q.buf 0 (h.bytes (msgHeaderLen + body.length + 1))) 0 q.tail ck := by
    rw [getPackCookie, if_neg hroom, if_neg (by simp [herr])]
    simp only [ck.toNat_len, ck.read_at, hone, hbody, hpos, htotal, hend, buf_setPackLen,
      buf_setCookiePos, setPackLen_eq, setCookiePos_eq, store, storeHeader, Packer.packHeader_eq,
      hplain, htons, le_bswap, write_cookie, putCookie, Nat.zero_add]
  constructor
  · rw [getPackCookie, if_neg hroom, if_neg (by simp [herr])]
    simp only [ck.toNat_len, hone, htotal]
    exact s32_of_bounds (by omega) (by omega)
  · rw [hbuf, ← hplace]
    refine read_putCookie_of_read ?_
    rw [hplace, read_packetMem, hput.buf, htail]
    have hread := Mem.read_write_self (Mem.write q₀.buf msgHeaderLen body) 0
      (h.bytes (msgHeaderLen + body.length + 1))
    rw [MsgHeader.length_bytes] at hread
    rw [Mem.read_add, hread, Nat.zero_add,
      Mem.read_write_of_disjoint _ _ (.inr (by rw [MsgHeader.length_bytes]; omega)),
      Mem.read_write_self]

end FixedPacker

/-! ## All three -/

variable {R : Type} [CDouble R] {calls : List (PackCall R)} {pk : Packer}

/-- The length of the packet of a body and a cookie. -/
def totalLen (body : List UInt8) (ck : Cookie) : ℕ := msgHeaderLen + body.length + 3 + ck.1.length

/-- `SetCookie` on a copy of the packet of `GetPack(h)`, in a buffer with the room. -/
def SetAgrees (pk : Packer) (h : MsgHeader) (ck : Cookie) (pack : List UInt8) : Prop :=
  ∃ plain, pk.getPack h = some plain ∧
    ∀ (m : ℕ → UInt8) (p len : ℕ), Mem.read m p plain.length = plain → pack.length ≤ len →
      (setCookie m p len ck).ret = pack.length ∧
        Mem.read (setCookie m p len ck).mem p pack.length = pack

/-- The packer for a fixed buffer, with the same fields. -/
def FixedAgrees (calls : List (PackCall R)) (h : MsgHeader) (ck : Cookie) (buf : ℕ → UInt8)
    (bufLen : UInt32) (pack : List UInt8) : Prop :=
  ∃ q, FixedPacker.init buf bufLen = some q ∧
    let r := (Run.final FixedPacker.step q calls).getPackCookie h ck.len ck.at
    r.1 = pack.length ∧ Mem.read r.2.buf 0 pack.length = pack

theorem setAgrees (hrev : h.rev.toNat % 2 ^ 24 = 0) (hlen : totalLen pk.oss ck < 2 ^ 24) :
    SetAgrees pk h ck (Mem.read (putCookie (packetMem h pk.oss) 0
      (msgHeaderLen + pk.oss.length) ck) 0 (totalLen pk.oss ck)) := by
  rw [totalLen] at hlen ⊢
  refine ⟨_, Packer.getPack_eq (by omega), ?_⟩
  intro m p len hread hroom
  rw [Mem.length_read] at hroom ⊢
  have hfront := (Mem.read_append_iff.mp hread).1
  rw [List.length_append, MsgHeader.length_bytes] at hfront
  have hends := bodyEnds_of_read hrev (by omega) hfront
  rcases setCookie_cases len ck hends (by omega) with ⟨hshort, -⟩ | ⟨-, hmem, hret⟩
  · omega
  · rw [hmem, hret, s32_of_bounds (by omega) (by omega)]
    exact ⟨rfl, read_putCookie_of_read (hfront.trans (read_packetMem h pk.oss).symm)⟩

theorem fixedAgrees_iff (hprints : ∀ c ∈ calls, c.Prints)
    (hpk : pk.oss = calls.flatMap PackCall.bytes) (hlen : totalLen pk.oss ck < 2 ^ 24)
    (buf : ℕ → UInt8) {bufLen : UInt32} (hroom : totalLen pk.oss ck ≤ bufLen.toNat) :
    FixedAgrees calls h ck buf bufLen (Mem.read (putCookie (packetMem h pk.oss) 0
        (msgHeaderLen + pk.oss.length) ck) 0 (totalLen pk.oss ck)) ↔
      bufLen.toNat < 2 ^ 31 + msgHeaderLen := by
  have hheader : msgHeaderLen = 29 := rfl
  rw [totalLen] at hlen hroom ⊢
  obtain ⟨q, hinit⟩ : ∃ q, FixedPacker.init buf bufLen = some q := by
    rw [FixedPacker.init, if_neg (by omega)]
    exact ⟨_, rfl⟩
  have hq := FixedPacker.inBuf_init hinit
  obtain ⟨htail, hbuf, herr⟩ : q.tail = msgHeaderLen ∧ q.bufLen = bufLen ∧ q.err = 0 := by
    rw [FixedPacker.init, if_neg (by omega)] at hinit
    rw [← Option.some.inj hinit]
    exact ⟨rfl, rfl, rfl⟩
  have hleft := FixedPacker.leftSpace_eq hq
  simp only [FixedAgrees, hinit, Option.some.injEq, exists_eq_left', Mem.length_read]
  by_cases hsmall : bufLen.toNat < 2 ^ 31 + msgHeaderLen
  · obtain ⟨hput, hin⟩ := FixedPacker.wrote_short hprints hq (by rwa [hbuf])
      (by rw [← hpk]; omega) (by rw [← hpk, htail, hbuf]; omega)
    rw [← hpk] at hput
    have hend := hput.tail
    have hspace := FixedPacker.leftSpace_eq hin
    rw [htail] at hend
    rw [hput.bufLen, hend, hbuf, if_pos (by omega)] at hspace
    have hget := FixedPacker.getPackCookie_of_wrote hput htail (hput.err.trans herr) ck
      (by omega) (by omega) h
    rw [hend] at hget
    exact iff_of_true hget hsmall
  · have hlt := bufLen.toNat_lt
    have hhuge : ¬ bufLen.toNat < msgHeaderLen + 2 ^ 31 := by rwa [Nat.add_comm]
    rw [hbuf, htail, if_neg hhuge] at hleft
    have hneg := FixedPacker.leftSpace_neg hprints (by rw [← hpk]; omega) (q := q) (by omega)
    refine iff_of_false ?_ hsmall
    rintro ⟨hret, -⟩
    rw [FixedPacker.getPackCookie_of_neg hneg] at hret
    omega

/-- The three builders agree on the bytes and the length of every packet with a cookie, in every
buffer that is long enough, but for one that is longer than an `int` can say. -/
theorem builders_agree_iff (hpk : ({} : Packer).run calls = some pk)
    (hrev : h.rev.toNat % 2 ^ 24 = 0) (hlen : totalLen pk.oss ck < 2 ^ 24) (buf : ℕ → UInt8)
    {bufLen : UInt32} (hroom : totalLen pk.oss ck ≤ bufLen.toNat) :
    (∃ pack, pk.getPackCookie h ck.len ck.at = some pack ∧ pack.length = totalLen pk.oss ck ∧
        SetAgrees pk h ck pack ∧ FixedAgrees calls h ck buf bufLen pack) ↔
      bufLen.toNat < 2 ^ 31 + msgHeaderLen := by
  have hpack := Packer.getPackCookie_eq pk h ck (by rw [totalLen] at hlen; omega)
  rw [Packer.run_eq] at hpk
  split at hpk
  next hprints =>
    obtain rfl := Option.some.inj hpk
    rw [← fixedAgrees_iff hprints rfl hlen buf hroom (h := h)]
    simp only [hpack, Option.some.injEq, exists_eq_left', Mem.length_read]
    exact ⟨fun hagree => hagree.2.2, fun hfixed => ⟨rfl, setAgrees hrev hlen, hfixed⟩⟩
  next => cases hpk

theorem builders_agree_iff_byte :
    let ck : Cookie := ⟨[8, 9], by decide⟩
    ∃ pack, (⟨[7]⟩ : Packer).getPackCookie {} ck.len ck.at = some pack ∧
      pack.length = totalLen [7] ck ∧ SetAgrees ⟨[7]⟩ {} ck pack ∧
      FixedAgrees ([.byte 7] : List (PackCall Unit)) {} ck (fun _ => 0) 100 pack :=
  (builders_agree_iff rfl (by decide) (by decide) (fun _ => 0) (by decide)).mpr (by decide)

/-- A buffer of `2 ^ 31 + 29` bytes seems to have no space left. -/
theorem not_builders_agree :
    let ck : Cookie := ⟨[8, 9], by decide⟩
    totalLen [] ck ≤ (2147483677 : UInt32).toNat ∧
      ¬ ∃ pack, ({} : Packer).getPackCookie {} ck.len ck.at = some pack ∧
        pack.length = totalLen [] ck ∧ SetAgrees {} {} ck pack ∧
        FixedAgrees ([] : List (PackCall Unit)) {} ck (fun _ => 0) 2147483677 pack := by
  intro ck
  refine ⟨by decide, ?_⟩
  rintro ⟨pack, -, hlen, -, q, hinit, hret, -⟩
  obtain rfl := Option.some.inj hinit
  have hnone := FixedPacker.getPackCookie_of_neg (q := ⟨fun _ => 0, msgHeaderLen, 2147483677, 0, [],
    false⟩) (by decide) {} ck.len ck.at
  have htotal : totalLen [] ck = 34 := by decide
  have hzero := hnone.symm.trans hret
  omega

end Spp
