import NsPixels.Zmq

/-!
# Receiving one frame

What a read delivers depends on the unread bytes alone and not on how they are cut
into chunks. From this each receive step is described on the flat byte stream.
-/

namespace NsPixels.Zmq

open BigEndian

variable {ε α β : Type} {s s' s'' : Subscriber ε}

theorem bind_ok {x : Method ε α} {f : α → Method ε β} {a : α} (h : x s = .ok a s') :
    (x >>= f) s = f a s' := by
  simp only [bind,EStateM.bind,h]

theorem bind_error {x : Method ε α} {f : α → Method ε β} {e : Error ε} (h : x s = .error e s') :
    (x >>= f) s = .error e s' := by
  simp only [bind,EStateM.bind,h]

/-! ### Reading exactly -/

/-- `s'` is `s` after `bytes` have been read, nothing else changed. -/
structure Took (s : Subscriber ε) (bytes : List UInt8) (s' : Subscriber ε) : Prop where
  unread : s.unread = bytes ++ s'.unread
  closing : s'.socket.incoming.closing = s.socket.incoming.closing
  rest : s' = s.withIncoming s'.socket.incoming

theorem Took.refl (s : Subscriber ε) : Took s [] s := ⟨rfl,rfl,rfl⟩

theorem Took.trans {bytes bytes' : List UInt8} (h : Took s bytes s') (h' : Took s' bytes' s'') :
    Took s (bytes ++ bytes') s'' := by
  refine ⟨?_,h'.closing.trans h.closing,?_⟩
  · rw [h.unread,h'.unread,List.append_assoc]
  · rw [h'.rest,h.rest]
    rfl

theorem Took.maxFrameSize {bytes : List UInt8} (h : Took s bytes s') :
    s'.maxFrameSize = s.maxFrameSize := by
  rw [h.rest]
  rfl

/-- The error of a read that finds no more bytes. -/
def endError (s : Subscriber ε) : Error ε :=
  match s.socket.incoming.closing with
  | none => .unexpectedEof
  | some e => .io e

theorem Took.endError {bytes : List UInt8} (h : Took s bytes s') : endError s' = endError s := by
  rw [Zmq.endError,Zmq.endError,h.closing]

/-- One read of the loop, while there are bytes. -/
theorem fill_read {need : ℕ} (filled : List UInt8) (hneed : 0 < need) (hne : s.unread ≠ []) :
    ∃ got s', got ≠ [] ∧ got.length ≤ need ∧ Took s got s' ∧
      fill need filled s = fill (need - got.length) (filled ++ got) s' := by
  obtain ⟨got,incoming,hread,hgot,hlen,hunread,hclosing⟩ :=
    ByteStream.read_of_unread_ne_nil hneed hne
  refine ⟨got,s.withIncoming incoming,hgot,hlen,⟨hunread,hclosing,rfl⟩,?_⟩
  rw [fill,dif_neg (Nat.ne_of_gt hneed),hread]
  exact dif_neg hgot

theorem fill_eof {need : ℕ} (filled : List UInt8) (hneed : 0 < need) (hnil : s.unread = []) :
    ∃ s', fill need filled s = .error (endError s) s' ∧ Took s [] s' := by
  refine ⟨s.withIncoming s.socket.incoming,?_,Took.refl s⟩
  rw [fill,dif_neg (Nat.ne_of_gt hneed),ByteStream.read_of_unread_eq_nil hnil,endError]
  cases s.socket.incoming.closing <;> rfl

/-- With enough unread bytes the loop takes exactly those it needs, however they are cut. -/
theorem fill_append {bytes tail : List UInt8} (filled : List UInt8)
    (h : s.unread = bytes ++ tail) :
    ∃ s', fill bytes.length filled s = .ok (filled ++ bytes) s' ∧ Took s bytes s' := by
  induction hn : bytes.length using Nat.strong_induction_on generalizing s filled bytes with
  | _ n ih =>
    rcases Nat.eq_zero_or_pos n with rfl | hpos
    · obtain rfl := List.length_eq_zero_iff.mp hn
      refine ⟨s,?_,Took.refl s⟩
      rw [fill,dif_pos rfl,List.append_nil]
    · have hne : s.unread ≠ [] := by
        rw [h]
        exact List.append_ne_nil_of_left_ne_nil (List.ne_nil_of_length_pos (hn ▸ hpos)) _
      obtain ⟨got,s₁,hgot,hlen,htook,hfill⟩ := fill_read filled hpos hne
      -- `got` is the front of `bytes`
      obtain ⟨rest,hbytes⟩ : ∃ rest, bytes = got ++ rest := by
        have hpre : got <+: bytes := by
          have hgot' : got <+: s.unread := ⟨_,htook.unread.symm⟩
          have hbytes' : bytes <+: s.unread := ⟨_,h.symm⟩
          exact List.prefix_of_prefix_length_le hgot' hbytes' (hn ▸ hlen)
        obtain ⟨rest,hrest⟩ := hpre
        exact ⟨rest,hrest.symm⟩
      subst hbytes
      have hpos' := List.length_pos_of_ne_nil hgot
      have hunread : s₁.unread = rest ++ tail := by
        have h' := htook.unread.symm.trans h
        rw [List.append_assoc] at h'
        exact List.append_cancel_left h'
      rw [List.length_append] at hn
      obtain ⟨s₂,hrun,htook'⟩ := ih rest.length (by omega) (filled ++ got) hunread rfl
      refine ⟨s₂,?_,htook.trans htook'⟩
      rw [hfill,show n - got.length = rest.length by omega,hrun,List.append_assoc]

/-- With too few unread bytes the loop takes them all and fails. -/
theorem fill_short {need : ℕ} (filled : List UInt8) (h : s.unread.length < need) :
    ∃ s', fill need filled s = .error (endError s) s' ∧ Took s s.unread s' := by
  induction hn : s.unread.length using Nat.strong_induction_on generalizing s need filled with
  | _ n ih =>
    by_cases hnil : s.unread = []
    · rw [hnil]
      exact fill_eof filled (Nat.zero_lt_of_lt h) hnil
    · obtain ⟨got,s₁,hgot,hlen,htook,hfill⟩ := fill_read filled (Nat.zero_lt_of_lt h) hnil
      have hpos := List.length_pos_of_ne_nil hgot
      have hlen' := congrArg List.length htook.unread
      rw [List.length_append] at hlen'
      obtain ⟨s₂,hrun,htook'⟩ := ih s₁.unread.length (by omega) (filled ++ got)
        (show s₁.unread.length < need - got.length by omega) rfl
      refine ⟨s₂,?_,?_⟩
      · rw [hfill,hrun,htook.endError]
      · rw [htook.unread]
        exact htook.trans htook'

theorem readExact_append {bytes tail : List UInt8} (h : s.unread = bytes ++ tail) :
    ∃ s', readExact bytes.length s = .ok bytes s' ∧ Took s bytes s' := fill_append [] h

theorem readExact_short {len : ℕ} (h : s.unread.length < len) :
    ∃ s', readExact len s = .error (endError s) s' ∧ Took s s.unread s' := fill_short [] h

theorem Took.unread_eq {bytes tail : List UInt8} (h : Took s bytes s')
    (hs : s.unread = bytes ++ tail) : s'.unread = tail :=
  List.append_cancel_left (h.unread.symm.trans hs)

/-! ### The header -/

/-- Bytes of the length field. -/
def lenWidth (flags : UInt8) : ℕ := if flags &&& flagLong ≠ 0 then 8 else 1

/-- A frame as it stands in a stream. Nothing ties the body to the declared length. -/
structure RawFrame where
  flags : UInt8
  lenBytes : List UInt8
  body : List UInt8
  width : lenBytes.length = lenWidth flags

def RawFrame.bytes (f : RawFrame) : List UInt8 := f.flags :: (f.lenBytes ++ f.body)

/-- The length in the header. -/
def RawFrame.declared (f : RawFrame) : ℕ := ofBytes f.lenBytes

theorem toNat_len_long (buf : List UInt8) :
    (UInt64.ofNat (ofBytes buf)).toUInt32.toNat = ofBytes buf % 2 ^ 32 := by
  rw [UInt64.toNat_toUInt32,UInt64.toNat_ofNat',Nat.mod_mod_of_dvd _ (by decide)]

theorem toNat_len_short (b : UInt8) : b.toUInt32.toNat = ofBytes [b] % 2 ^ 32 := by
  have hb := b.toNat_lt
  rw [UInt8.toNat_toUInt32,ofBytes,List.foldl_cons,List.foldl_nil]
  omega

theorem recvLen_append {flags : UInt8} {lenBytes tail : List UInt8}
    (hwidth : lenBytes.length = lenWidth flags) (h : s.unread = lenBytes ++ tail) :
    ∃ len s', recvLen flags s = .ok len s' ∧ len.toNat = ofBytes lenBytes % 2 ^ 32 ∧
      Took s lenBytes s' := by
  obtain ⟨s',hread,htook⟩ := readExact_append h
  rw [hwidth,lenWidth] at hread
  rw [recvLen]
  split
  · next hlong =>
    rw [if_pos hlong] at hread
    exact ⟨_,s',(bind_ok hread).trans rfl,toNat_len_long lenBytes,htook⟩
  · next hshort =>
    rw [if_neg hshort] at hread
    rw [lenWidth,if_neg hshort] at hwidth
    obtain ⟨b,rfl⟩ := List.length_eq_one_iff.mp hwidth
    exact ⟨_,s',(bind_ok hread).trans rfl,toNat_len_short b,htook⟩

theorem recvLen_short {flags : UInt8} (h : s.unread.length < lenWidth flags) :
    ∃ s', recvLen flags s = .error (endError s) s' ∧ Took s s.unread s' := by
  obtain ⟨s',hread,htook⟩ := readExact_short h
  refine ⟨s',?_,htook⟩
  rw [lenWidth] at hread
  rw [recvLen]
  split
  · next hlong =>
    rw [if_pos hlong] at hread
    exact bind_error hread
  · next hshort =>
    rw [if_neg hshort] at hread
    exact bind_error hread

/-- A complete header. The length it declares is reduced to 32 bits before it is
compared with the bound. -/
theorem recvFrame_header {flags : UInt8} {lenBytes tail : List UInt8}
    (hwidth : lenBytes.length = lenWidth flags) (h : s.unread = flags :: (lenBytes ++ tail)) :
    ∃ s', Took s (flags :: lenBytes) s' ∧ s'.unread = tail ∧
      recvFrame s =
        if ofBytes lenBytes % 2 ^ 32 > s.maxFrameSize.toNat then .error .frameTooLarge s'
        else (readExact (ofBytes lenBytes % 2 ^ 32) >>= fun body => pure (flags,body)) s' := by
  obtain ⟨s₁,hflag,htook₁⟩ := readExact_append (show s.unread = [flags] ++ (lenBytes ++ tail) from h)
  obtain ⟨len,s₂,hlen,hval,htook₂⟩ := recvLen_append hwidth (htook₁.unread_eq h)
  refine ⟨s₂,htook₁.trans htook₂,htook₂.unread_eq (htook₁.unread_eq h),?_⟩
  have hmax : s₂.maxFrameSize = s.maxFrameSize := (htook₁.trans htook₂).maxFrameSize
  have hbody : recvBody len s₂ =
      if ofBytes lenBytes % 2 ^ 32 > s.maxFrameSize.toNat then .error .frameTooLarge s₂
      else readExact (ofBytes lenBytes % 2 ^ 32) s₂ := by
    rw [recvBody,hmax,hval]
    simp only [gt_iff_lt,UInt32.lt_iff_toNat_lt,hval]
  refine (bind_ok hflag).trans ((bind_ok hlen).trans ?_)
  split
  · next hlarge =>
    rw [if_pos hlarge] at hbody
    exact bind_error hbody
  · next hfits =>
    rw [if_neg hfits] at hbody
    simp only [bind,EStateM.bind,hbody,List.headD_cons]

/-! ### The frame-size bound -/

theorem readExact_cases (len : ℕ) (s : Subscriber ε) :
    (∃ bytes s', readExact len s = .ok bytes s' ∧ bytes.length = len ∧ Took s bytes s') ∨
    ∃ s', readExact len s = .error (endError s) s' ∧ Took s s.unread s' := by
  by_cases h : len ≤ s.unread.length
  · have hlen : (s.unread.take len).length = len := List.length_take_of_le h
    obtain ⟨s',hread,htook⟩ := readExact_append (List.take_append_drop len s.unread).symm
    rw [hlen] at hread
    exact Or.inl ⟨_,s',hread,hlen,htook⟩
  · exact Or.inr (readExact_short (Nat.lt_of_not_le h))

theorem endError_ne_frameTooLarge (s : Subscriber ε) : endError s ≠ .frameTooLarge := by
  rw [endError]
  split <;> simp

/-- A frame whose declared length exceeds the bound is refused before its body is read,
and a body that is returned has the declared length: exactly for the headers whose
length fits 32 bits or exceeds the bound even when reduced to them. -/
theorem frameSize_kept_iff {flags : UInt8} {lenBytes tail : List UInt8}
    (hwidth : lenBytes.length = lenWidth flags) (h : s.unread = flags :: (lenBytes ++ tail)) :
    ((ofBytes lenBytes > s.maxFrameSize.toNat →
        ∃ s', recvFrame s = .error .frameTooLarge s' ∧ s'.unread = tail) ∧
      ∀ r s', recvFrame s = .ok r s' → r.2.length = ofBytes lenBytes) ↔
    ofBytes lenBytes < 2 ^ 32 ∨ s.maxFrameSize.toNat < ofBytes lenBytes % 2 ^ 32 := by
  obtain ⟨s₁,_,htail,hframe⟩ := recvFrame_header hwidth h
  have hmax := s.maxFrameSize.toNat_lt
  by_cases hlarge : s.maxFrameSize.toNat < ofBytes lenBytes % 2 ^ 32
  · rw [if_pos hlarge] at hframe
    refine iff_of_true ⟨fun _ => ⟨s₁,hframe,htail⟩,?_⟩ (Or.inr hlarge)
    intro r s' hr
    rw [hframe] at hr
    cases hr
  · rw [if_neg hlarge] at hframe
    -- past the check, the body is read at the reduced length
    have hbody : (∃ body s', recvFrame s = .ok (flags,body) s' ∧
        body.length = ofBytes lenBytes % 2 ^ 32) ∨ ∃ s', recvFrame s = .error (endError s₁) s' := by
      rcases readExact_cases (ofBytes lenBytes % 2 ^ 32) s₁ with ⟨body,s₂,hread,hlen,_⟩ | ⟨s₂,hread,_⟩
      · exact Or.inl ⟨body,s₂,hframe.trans (bind_ok hread),hlen⟩
      · exact Or.inr ⟨s₂,hframe.trans (bind_error hread)⟩
    constructor
    · rintro ⟨hrefused,_⟩
      refine Or.inl ?_
      by_contra hbig
      obtain ⟨s',hs',_⟩ := hrefused (by omega)
      obtain ⟨body,s₂,hok,_⟩ | ⟨s₂,herr⟩ := hbody
      · rw [hs'] at hok
        cases hok
      · rw [hs',EStateM.Result.error.injEq] at herr
        exact endError_ne_frameTooLarge s₁ herr.1.symm
    · rintro (hsmall | hlarge')
      · rw [Nat.mod_eq_of_lt hsmall] at hlarge hbody
        refine ⟨fun hbig => absurd hbig hlarge,?_⟩
        intro r s' hr
        obtain ⟨body,s₂,hok,hlen⟩ | ⟨s₂,herr⟩ := hbody
        · rw [hr,EStateM.Result.ok.injEq] at hok
          rw [hok.1]
          exact hlen
        · rw [hr] at herr
          cases herr
      · exact absurd hlarge' hlarge

/-- A subscriber to which `bytes` arrive in one chunk. -/
def overBytes (maxFrameSize : UInt32) (bytes : List UInt8) (h : bytes ≠ []) : Subscriber Unit where
  socket := { incoming := ⟨[⟨bytes,h⟩],none⟩, outgoing := [], outcomes := [] }
  maxFrameSize := maxFrameSize

/-- A short frame of three bytes, and a long one that declares more than the bound. -/
theorem frameSize_kept_headers :
    let short := overBytes 65536 [0,3,1,2,3] (by decide)
    let long := overBytes 65536 (2 :: (toBytes 8 70000 ++ [1,2,3])) (by simp)
    (∀ r s', recvFrame short = .ok r s' → r.2.length = 3) ∧
      ∃ s', recvFrame long = .error .frameTooLarge s' ∧ s'.unread = [1,2,3] := by
  intro short long
  have hshort := frameSize_kept_iff (s := short) (show [3].length = lenWidth 0 from rfl)
    (show short.unread = 0 :: ([3] ++ [1,2,3]) from rfl)
  have hlong := frameSize_kept_iff (s := long) (show (toBytes 8 70000).length = lenWidth 2 from rfl)
    (show long.unread = 2 :: (toBytes 8 70000 ++ [1,2,3]) by decide)
  exact ⟨(hshort.mpr (by decide)).2,(hlong.mpr (by decide)).1 (by decide)⟩

/-- A frame that declares 2^32 + 3 bytes: it is not refused, and three bytes are taken
for its body. -/
theorem not_frameSize_kept_long :
    let s := overBytes 65536 (2 :: (toBytes 8 (2 ^ 32 + 3) ++ [1,2,3])) (by simp)
    ofBytes (toBytes 8 (2 ^ 32 + 3)) > s.maxFrameSize.toNat ∧
      ∃ r s', recvFrame s = .ok r s' ∧ r.2.length = 3 ∧
        r.2.length ≠ ofBytes (toBytes 8 (2 ^ 32 + 3)) := by
  intro s
  refine ⟨by decide,?_⟩
  have hrun : (match recvFrame s with
      | .ok r _ => some r
      | .error _ _ => none) = some (2,[1,2,3]) := by decide +kernel
  cases hs : recvFrame s with
  | ok r s' =>
    rw [hs] at hrun
    obtain rfl := Option.some.inj hrun
    exact ⟨_,s',rfl,rfl,by decide⟩
  | error e s' =>
    rw [hs] at hrun
    cases hrun

end NsPixels.Zmq
