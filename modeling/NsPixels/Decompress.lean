import NsPixels.Lib.OffsetParser
import Mathlib.Data.UInt

/-!
# The gzip header

A payload starts with a gzip member header, whose optional fields are announced
by flag bits. `skipHeader` finds the offset of the compressed body behind it.
-/

namespace NsPixels.Decompress

open OffsetParser

/-- `u16::from_le_bytes`. -/
def u16FromLeBytes (lo hi : UInt8) : ℕ := lo.toNat + 256 * hi.toNat

/-- FEXTRA: two bytes of length, then the payload. -/
def skipExtra (buf : List UInt8) (p : ℕ) : Except Stop ℕ := do
  if buf.length < p + 2 then throw .rejected
  let lo ← index buf p
  let hi ← index buf (p + 1)
  let p := p + (2 + u16FromLeBytes lo hi)
  if buf.length < p then throw .rejected
  return p

/-- FNAME: NUL-terminated. -/
def skipName : List UInt8 → ℕ → Except Stop ℕ := skipThrough 0

/-- FCOMMENT: NUL-terminated. -/
def skipComment : List UInt8 → ℕ → Except Stop ℕ := skipThrough 0

/-- FHCRC: two bytes. -/
def skipHcrc : List UInt8 → ℕ → Except Stop ℕ := skip 2

/-- The optional fields, in their order in the header. -/
def skipFields (flags : UInt8) (buf : List UInt8) (p : ℕ) : Except Stop ℕ := do
  let p ← optional (flags &&& 0x04 ≠ 0) skipExtra buf p
  let p ← optional (flags &&& 0x08 ≠ 0) skipName buf p
  let p ← optional (flags &&& 0x10 ≠ 0) skipComment buf p
  optional (flags &&& 0x02 ≠ 0) skipHcrc buf p

/-- The length of the header. The result `None` is `.error .rejected`; an index out
of range, which would panic, is `.error .outOfRange`. -/
def skipHeader (buf : List UInt8) : Except Stop ℕ := do
  if buf.length < 10 then throw .rejected
  if (← index buf 0) ≠ 0x1f then throw .rejected
  if (← index buf 1) ≠ 0x8b then throw .rejected
  if (← index buf 2) ≠ 8 then throw .rejected
  let flags ← index buf 3
  skipFields flags buf 10

/-- What `inflateGzip` hands to the inflater: the payload without its header. -/
def body (payload : List UInt8) : Except Stop (List UInt8) := do
  let headerLen ← skipHeader payload
  sliceFrom payload headerLen

/-! ### The header grammar -/

/-- Two bytes, little-endian. -/
def leBytes (n : ℕ) : List UInt8 := [UInt8.ofNat n,UInt8.ofNat (n / 256)]

theorem u16FromLeBytes_leBytes {n : ℕ} (h : n < 65536) :
    u16FromLeBytes (UInt8.ofNat n) (UInt8.ofNat (n / 256)) = n := by
  rw [u16FromLeBytes,UInt8.toNat_ofNat',UInt8.toNat_ofNat']
  omega

theorem leBytes_u16FromLeBytes (lo hi : UInt8) : leBytes (u16FromLeBytes lo hi) = [lo,hi] := by
  have hlo := lo.toNat_lt
  have hhi := hi.toNat_lt
  rw [leBytes,List.cons.injEq,List.cons.injEq,u16FromLeBytes]
  refine ⟨UInt8.toNat_inj.mp ?_,UInt8.toNat_inj.mp ?_,rfl⟩ <;> rw [UInt8.toNat_ofNat'] <;> omega

theorem u16FromLeBytes_lt (lo hi : UInt8) : u16FromLeBytes lo hi < 65536 := by
  have hlo := lo.toNat_lt
  have hhi := hi.toNat_lt
  rw [u16FromLeBytes]
  omega

/-- The contents of a gzip member header. A field whose flag bit is clear is not
written. -/
structure MemberHeader where
  flags : UInt8
  /-- Modification time, extra flags and operating system. -/
  fixed : List UInt8
  extra : List UInt8
  name : List UInt8
  comment : List UInt8
  hcrc : List UInt8
  fixed_length : fixed.length = 6
  extra_length : extra.length < 65536
  name_nul : 0 ∉ name
  comment_nul : 0 ∉ comment
  hcrc_length : hcrc.length = 2

namespace MemberHeader

/-- The optional fields as they are written. -/
def fieldBytes (h : MemberHeader) : List UInt8 :=
  (if h.flags &&& 0x04 ≠ 0 then leBytes h.extra.length ++ h.extra else []) ++
    ((if h.flags &&& 0x08 ≠ 0 then h.name ++ [0] else []) ++
      ((if h.flags &&& 0x10 ≠ 0 then h.comment ++ [0] else []) ++
        (if h.flags &&& 0x02 ≠ 0 then h.hcrc else [])))

/-- The header as it is written. -/
def bytes (h : MemberHeader) : List UInt8 :=
  [0x1f,0x8b,8,h.flags] ++ h.fixed ++ h.fieldBytes

theorem length_bytes (h : MemberHeader) : h.bytes.length = 10 + h.fieldBytes.length := by
  rw [bytes,List.length_append,List.length_append,h.fixed_length]
  rfl

end MemberHeader

/-- An extra field with its length. -/
def extraField : Language UInt8 :=
  ({w | ∃ s : List UInt8, s.length < 65536 ∧ w = leBytes s.length ++ s} : Set (List UInt8))

/-- A NUL-terminated string. -/
def cString : Language UInt8 := ({w | ∃ s, 0 ∉ s ∧ w = s ++ [0]} : Set (List UInt8))

/-- A header checksum, of any value. -/
def hcrcField : Language UInt8 := ({w | w.length = 2} : Set (List UInt8))

/-- The optional fields that `flags` announces. -/
def fields (flags : UInt8) : Language UInt8 :=
  (if flags &&& 0x04 ≠ 0 then extraField else 1) *
    ((if flags &&& 0x08 ≠ 0 then cString else 1) *
      ((if flags &&& 0x10 ≠ 0 then cString else 1) *
        (if flags &&& 0x02 ≠ 0 then hcrcField else 1)))

theorem index_add (buf : List UInt8) (p i : ℕ) : index buf (p + i) = index (buf.drop p) i := by
  rw [index,index,List.getElem?_drop]

/-- What `skipExtra` makes of the buffer behind its offset. -/
theorem skipExtra_eq {buf : List UInt8} {p : ℕ} (hp : p ≤ buf.length) :
    skipExtra buf p =
      match buf.drop p with
      | lo :: hi :: rest =>
        if rest.length < u16FromLeBytes lo hi then .error .rejected
        else .ok (p + (2 + u16FromLeBytes lo hi))
      | _ => .error .rejected := by
  have hlen : buf.length = p + (buf.drop p).length := by rw [List.length_drop]; omega
  have h0 : index buf p = index (buf.drop p) 0 := index_add buf p 0
  rw [skipExtra,h0,index_add]
  cases hd : buf.drop p with
  | nil =>
    rw [hd] at hlen
    rw [if_pos (by rw [hlen]; simp)]
    rfl
  | cons lo tl =>
    cases tl with
    | nil =>
      rw [hd] at hlen
      rw [if_pos (by rw [hlen]; simp)]
      rfl
    | cons hi rest =>
      rw [hd,List.length_cons,List.length_cons] at hlen
      rw [if_neg (by omega)]
      change (if buf.length < p + (2 + u16FromLeBytes lo hi) then Except.error Stop.rejected
        else .ok (p + (2 + u16FromLeBytes lo hi))) = _
      have hiff : buf.length < p + (2 + u16FromLeBytes lo hi) ↔
          rest.length < u16FromLeBytes lo hi := by omega
      simp only [hiff]

theorem accepts_skipExtra : Accepts skipExtra extraField := by
  refine ⟨fun buf p hp h => ?_,fun buf p q hp => ?_⟩
  · rw [skipExtra_eq hp] at h
    split at h
    · split at h <;> cases h
    · cases h
  · rw [skipExtra_eq hp]
    constructor
    · intro h
      split at h
      · next lo hi rest hd =>
        split at h
        · cases h
        · next hle =>
          cases h
          have hlen : (rest.take (u16FromLeBytes lo hi)).length = u16FromLeBytes lo hi :=
            List.length_take_of_le (Nat.le_of_not_lt hle)
          refine ⟨[lo,hi] ++ rest.take (u16FromLeBytes lo hi),
            ⟨rest.take (u16FromLeBytes lo hi),?_,?_⟩,?_,?_⟩
          · rw [hlen]
            exact u16FromLeBytes_lt lo hi
          · rw [hlen,leBytes_u16FromLeBytes]
          · rw [hd]
            exact (List.prefix_append_right_inj [lo,hi]).mpr (List.take_prefix _ _)
          · rw [List.length_append,hlen]
            rfl
      · cases h
    · rintro ⟨w,⟨s,hs,rfl⟩,hpre,rfl⟩
      obtain ⟨rest,hrest⟩ := hpre
      rw [← hrest,leBytes]
      simp only [List.cons_append,List.nil_append,u16FromLeBytes_leBytes hs,List.length_append,
        List.length_cons]
      rw [if_neg (by omega)]
      congr 1
      omega

theorem accepts_skipFields (flags : UInt8) : Accepts (skipFields flags) (fields flags) := by
  have hname : Accepts skipName cString := accepts_skipThrough 0
  have hcomment : Accepts skipComment cString := accepts_skipThrough 0
  have hhcrc : Accepts skipHcrc hcrcField := accepts_skip 2
  exact (accepts_skipExtra.optional (flags &&& 0x04 ≠ 0)).seq
    ((hname.optional (flags &&& 0x08 ≠ 0)).seq
      ((hcomment.optional (flags &&& 0x10 ≠ 0)).seq (hhcrc.optional (flags &&& 0x02 ≠ 0))))

/-! ### Headers and the language of their fields -/

/-- A field is written from its contents when its flag bit is set. -/
theorem mem_field_iff {L : Language UInt8} {P : List UInt8 → Prop} {f : List UInt8 → List UInt8}
    {t : List UInt8} (hL : ∀ w, w ∈ L ↔ ∃ s, P s ∧ w = f s) (ht : P t) (c : Prop) [Decidable c]
    (w : List UInt8) :
    (w ∈ if c then L else (1 : Language UInt8)) ↔ ∃ s, P s ∧ w = if c then f s else [] := by
  by_cases hc : c
  · simp only [if_pos hc]
    exact hL w
  · simp only [if_neg hc]
    rw [Language.mem_one]
    exact ⟨fun hw => ⟨t,ht,hw⟩,fun ⟨_,_,hw⟩ => hw⟩

theorem mem_fields_iff {flags : UInt8} {w fixed : List UInt8} (hfixed : fixed.length = 6) :
    w ∈ fields flags ↔
      ∃ h : MemberHeader, h.flags = flags ∧ h.fixed = fixed ∧ h.fieldBytes = w := by
  have hextra := mem_field_iff (L := extraField) (t := []) (fun _ => Iff.rfl)
    (by decide : ([] : List UInt8).length < 65536) (flags &&& 0x04 ≠ 0)
  have hname := mem_field_iff (L := cString) (t := []) (fun _ => Iff.rfl)
    (List.not_mem_nil : (0 : UInt8) ∉ []) (flags &&& 0x08 ≠ 0)
  have hcomment := mem_field_iff (L := cString) (t := []) (fun _ => Iff.rfl)
    (List.not_mem_nil : (0 : UInt8) ∉ []) (flags &&& 0x10 ≠ 0)
  have hhcrc := mem_field_iff (L := hcrcField) (P := fun s => s.length = 2) (f := id)
    (t := [0,0]) (fun w => ⟨fun h => ⟨w,h,rfl⟩,fun ⟨_,h,hw⟩ => hw ▸ h⟩) rfl (flags &&& 0x02 ≠ 0)
  constructor
  · intro hw
    obtain ⟨w1,h1,w234,h234,rfl⟩ := Language.mem_mul.mp hw
    obtain ⟨w2,h2,w34,h34,rfl⟩ := Language.mem_mul.mp h234
    obtain ⟨w3,h3,w4,h4,rfl⟩ := Language.mem_mul.mp h34
    obtain ⟨extra,he,rfl⟩ := (hextra w1).mp h1
    obtain ⟨name,hn,rfl⟩ := (hname w2).mp h2
    obtain ⟨comment,hc,rfl⟩ := (hcomment w3).mp h3
    obtain ⟨hcrc,hl,rfl⟩ := (hhcrc w4).mp h4
    exact ⟨⟨flags,fixed,extra,name,comment,hcrc,hfixed,he,hn,hc,hl⟩,rfl,rfl,rfl⟩
  · rintro ⟨h,rfl,rfl,rfl⟩
    exact Language.append_mem_mul ((hextra _).mpr ⟨h.extra,h.extra_length,rfl⟩)
      (Language.append_mem_mul ((hname _).mpr ⟨h.name,h.name_nul,rfl⟩)
        (Language.append_mem_mul ((hcomment _).mpr ⟨h.comment,h.comment_nul,rfl⟩)
          ((hhcrc _).mpr ⟨h.hcrc,h.hcrc_length,rfl⟩)))

/-- What `skipHeader` makes of the fixed part of the header. -/
theorem skipHeader_eq (buf : List UInt8) :
    skipHeader buf =
      if buf.length < 10 then .error .rejected
      else if [0x1f,0x8b,8] <+: buf then skipFields (buf.getD 3 0) buf 10
      else .error .rejected := by
  rw [skipHeader]
  by_cases hlen : buf.length < 10
  · rw [if_pos hlen,if_pos hlen]
    rfl
  rw [if_neg hlen,if_neg hlen]
  match buf,hlen with
  | b0 :: b1 :: b2 :: b3 :: rest,_ =>
    simp only [List.cons_prefix_cons,List.nil_prefix,and_true,index]
    by_cases h0 : b0 = 0x1f
    · by_cases h1 : b1 = 0x8b
      · by_cases h2 : b2 = 8
        · subst h0 h1 h2
          rfl
        · subst h0 h1
          rw [if_neg fun h => h2 h.2.2.symm]
          exact (if_pos h2).trans rfl
      · subst h0
        rw [if_neg fun h => h1 h.2.1.symm]
        exact (if_pos h1).trans rfl
    · rw [if_neg fun h => h0 h.1.symm]
      exact (if_pos h0).trans rfl
  | [_,_,_],h => exact absurd (by decide : 3 < 10) h
  | [_,_],h => exact absurd (by decide : 2 < 10) h
  | [_],h => exact absurd (by decide : 1 < 10) h
  | [],h => exact absurd (by decide : 0 < 10) h

/-- The header that `skipHeader` skips, and where it ends. -/
theorem skipHeader_eq_ok_iff {buf : List UInt8} {p : ℕ} :
    skipHeader buf = .ok p ↔ ∃ h : MemberHeader, h.bytes <+: buf ∧ p = h.bytes.length := by
  rw [skipHeader_eq]
  constructor
  · intro hp
    split at hp
    · cases hp
    next hlen =>
    split at hp
    · next hmagic =>
      obtain ⟨tl,rfl⟩ := hmagic
      cases tl with
      | nil => simp at hlen
      | cons flags tl =>
        have hfixed : (tl.take 6).length = 6 := by
          simp only [List.length_append,List.length_cons,List.length_nil] at hlen
          rw [List.length_take]
          omega
        obtain ⟨w,hw,hpre,rfl⟩ := ((accepts_skipFields flags).ok_iff _ 10 p
          (Nat.le_of_not_lt hlen)).mp hp
        obtain ⟨h,rfl,hf,rfl⟩ := (mem_fields_iff hfixed).mp hw
        have hbuf : [0x1f,0x8b,8] ++ h.flags :: tl =
            [0x1f,0x8b,8,h.flags] ++ tl.take 6 ++ tl.drop 6 := by simp
        refine ⟨h,?_,h.length_bytes.symm⟩
        rw [MemberHeader.bytes,hf,hbuf,List.prefix_append_right_inj]
        exact hpre
    · cases hp
  · rintro ⟨h,⟨rest,rfl⟩,rfl⟩
    have hbytes : h.bytes ++ rest = ([0x1f,0x8b,8,h.flags] ++ h.fixed) ++ (h.fieldBytes ++ rest) :=
      List.append_assoc _ _ _
    have hlen : ([0x1f,0x8b,8,h.flags] ++ h.fixed).length = 10 := by
      rw [List.length_append,h.fixed_length]
      rfl
    have h10 : 10 ≤ (h.bytes ++ rest).length := by
      rw [hbytes,List.length_append,hlen]
      exact Nat.le_add_right _ _
    rw [if_neg (Nat.not_lt.mpr h10),if_pos (by simp [MemberHeader.bytes])]
    refine ((accepts_skipFields h.flags).ok_iff _ 10 _ h10).mpr
      ⟨h.fieldBytes,(mem_fields_iff h.fixed_length).mpr ⟨h,rfl,rfl,rfl⟩,?_,h.length_bytes⟩
    rw [hbytes,← hlen,List.drop_left]
    exact List.prefix_append _ _

theorem skipHeader_inRange (buf : List UInt8) : skipHeader buf ≠ .error .outOfRange := by
  rw [skipHeader_eq]
  split
  · nofun
  next hlen =>
  split
  · exact (accepts_skipFields _).inRange buf 10 (Nat.le_of_not_lt hlen)
  · nofun

/-- The body is what follows the header, if there is one. -/
theorem body_cases (payload : List UInt8) :
    body payload = .error .rejected ∨ ∃ p, body payload = .ok (payload.drop p) := by
  rw [body]
  cases hs : skipHeader payload with
  | error e =>
    cases e with
    | rejected => exact Or.inl rfl
    | outOfRange => exact absurd hs (skipHeader_inRange payload)
  | ok p =>
    obtain ⟨h,hpre,rfl⟩ := skipHeader_eq_ok_iff.mp hs
    exact Or.inr ⟨_,sliceFrom_of_le hpre.length_le⟩

/-- `skipHeader` accepts exactly the member headers, at their own length, and
neither it nor the slice behind it leaves the payload. -/
theorem skipHeader_grammar (buf : List UInt8) :
    (∀ p, skipHeader buf = .ok p ↔
      p ≤ buf.length ∧ ∃ h : MemberHeader, h.bytes = buf.take p) ∧
    (∀ (h : MemberHeader) (rest : List UInt8),
      skipHeader (h.bytes ++ rest) = .ok h.bytes.length) ∧
    skipHeader buf ≠ .error .outOfRange ∧ body buf ≠ .error .outOfRange := by
  refine ⟨fun p => ?_,fun h rest => ?_,skipHeader_inRange buf,?_⟩
  · rw [skipHeader_eq_ok_iff]
    constructor
    · rintro ⟨h,hpre,rfl⟩
      exact ⟨hpre.length_le,h,List.prefix_iff_eq_take.mp hpre⟩
    · rintro ⟨hp,h,hb⟩
      refine ⟨h,hb ▸ List.take_prefix p buf,?_⟩
      rw [hb,List.length_take_of_le hp]
  · exact skipHeader_eq_ok_iff.mpr ⟨h,List.prefix_append _ _,rfl⟩
  · rcases body_cases buf with hb | ⟨p,hb⟩ <;> rw [hb] <;> nofun

end NsPixels.Decompress
