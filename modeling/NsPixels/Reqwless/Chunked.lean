import NsPixels.Reqwless
import NsPixels.Lib.BigEndian
import NsPixels.Lib.Hex

/-!
# Chunk boundaries

The chunked body reader up to the data of a chunk: size lines, the ends of chunks and
the last one. The coding it accepts is `Coded`.
-/

namespace NsPixels.Reqwless

open Source BigEndian

inductive ChunkState
  | noChunk
  | notEmpty (remaining : ℕ)
  | empty
deriving DecidableEq

namespace ChunkState

/-- Use up at most `amt` bytes of the chunk; how many is returned. -/
def consume (amt : ℕ) : ChunkState → ChunkState × ℕ
  | notEmpty remaining => (notEmpty (remaining - min amt remaining),min amt remaining)
  | s => (s,0)

def len : ChunkState → ℕ
  | notEmpty remaining => remaining
  | _ => 0

/-- The state at the start of a chunk of `n` bytes. -/
def ofLen (n : ℕ) : ChunkState := if n = 0 then empty else notEmpty n

end ChunkState

structure ChunkedBodyReader (β : Type) where
  rawBody : β
  chunkRemaining : ChunkState

namespace ChunkedBodyReader

variable {β α : Type}

abbrev Method (β α : Type) := EStateM Error (ChunkedBodyReader β) α

def new (rawBody : β) : ChunkedBodyReader β := ⟨rawBody,.noChunk⟩

def isDone (r : ChunkedBodyReader β) : Bool := r.chunkRemaining = .empty

/-- An operation of the reader beneath, its errors converted. -/
def onRawBody {ε : Type} (conv : ε → Error) (m : EStateM ε β α) : Method β α := fun r =>
  match m r.rawBody with
  | .ok a rawBody => .ok a { r with rawBody := rawBody }
  | .error e rawBody => .error (conv e) { r with rawBody := rawBody }

section Boundary

variable [Source β UInt8 ErrorKind] (hex : Hex.Codec)

/-- The bytes before the next `\n`, with room for `room` of them less one. -/
def readSizeLine : ℕ → List UInt8 → Method β (List UInt8)
  | 0,_ => throw .codec
  | room + 1,line => do
    let byte ← onRawBody (fun e => .network (Error.ofReadExact e).kind) (readExact 1)
    if byte.headD 0 ≠ 10 then readSizeLine room (line ++ [byte.headD 0])
    else if line.getLast? ≠ some 13 then throw .codec
    else pure line

/-- Digits with zeros before them, eight in all. -/
def padded (digits : List UInt8) : List UInt8 := List.replicate (8 - digits.length) 48 ++ digits

/-- Eight digits for the size, then `\r`. -/
def readNextChunkLength : Method β Unit := do
  let line ← readSizeLine 10 []
  match hex.decode (padded line.dropLast) with
  | none => throw .codec
  | some bytes => modify fun r => { r with chunkRemaining := .ofLen (ofBytes bytes) }

def readChunkEnd : Method β Unit := do
  let newlineBuf ← onRawBody Error.ofReadExact (readExact 2)
  if newlineBuf ≠ newline then throw .codec

/-- The tail of `handleChunkBoundary`: the last chunk is followed by one more line end. -/
def enterChunk : Method β ℕ := fun r =>
  if r.chunkRemaining = .empty then (readChunkEnd >>= fun _ r => .ok r.chunkRemaining.len r) r
  else .ok r.chunkRemaining.len r

/-- Advance into a chunk with data left, or past the last one. -/
def handleChunkBoundary : Method β ℕ := fun r =>
  match r.chunkRemaining with
  | .noChunk => (do readNextChunkLength hex; enterChunk) r
  | .notEmpty 0 => (do readChunkEnd; readNextChunkLength hex; enterChunk) r
  | .notEmpty (_ + 1) => enterChunk r
  | .empty => .ok 0 r

def read (cap : ℕ) : Method β (List UInt8) := do
  let remaining ← handleChunkBoundary hex
  let got ← onRawBody .network (Source.read (min cap remaining))
  modify fun r => { r with chunkRemaining := (r.chunkRemaining.consume got.length).1 }
  return got

end Boundary

end ChunkedBodyReader

/-! ### The coding -/

/-- A size line, as the reader takes it. A line without digits stands for zero. -/
def SizeLine (hex : Hex.Codec) (digits : List UInt8) (n : ℕ) : Prop :=
  digits.length ≤ 8 ∧
    ∃ bytes, hex.decode (ChunkedBodyReader.padded digits) = some bytes ∧ ofBytes bytes = n

/-- A body and its chunks on the wire, up to the end of the last chunk. It is the coding that
the reader knows: without chunk extensions, without trailers behind the last chunk, and with
size lines of at most eight digits. -/
inductive Coded (hex : Hex.Codec) : List UInt8 → List UInt8 → Prop
  | last {digits : List UInt8} (h : SizeLine hex digits 0) :
    Coded hex [] (digits ++ newline ++ newline)
  | chunk {digits data body wire : List UInt8} (h : SizeLine hex digits data.length)
      (hdata : data ≠ []) (hrest : Coded hex body wire) :
    Coded hex (data ++ body) (digits ++ newline ++ (data ++ newline ++ wire))

/-- `ab` in one chunk. -/
theorem coded_ab : Coded Hex.ascii [97,98] [50,13,10,97,98,13,10,48,13,10,13,10] :=
  .chunk (show SizeLine Hex.ascii [50] [97,98].length from ⟨by decide,[0,0,0,2],by decide,by decide⟩)
    (by decide) (.last (show SizeLine Hex.ascii [48] 0 from ⟨by decide,[0,0,0,0],by decide,by decide⟩))

/-- What is left of a body and its coding in a state of the reader. -/
inductive Rest (hex : Hex.Codec) : ChunkState → List UInt8 → List UInt8 → Prop
  | noChunk {body wire : List UInt8} (h : Coded hex body wire) : Rest hex .noChunk body wire
  | notEmpty {data body wire : List UInt8} {n : ℕ} (hlen : data.length = n) (h : Coded hex body wire) :
    Rest hex (.notEmpty n) (data ++ body) (data ++ newline ++ wire)
  | empty : Rest hex .empty [] []

theorem SizeLine.notMem_newline {hex : Hex.Codec} {digits : List UInt8} {n : ℕ}
    (h : SizeLine hex digits n) : 10 ∉ digits := by
  obtain ⟨_,bytes,hdecode,_⟩ := h
  intro hmem
  have hdigit := hex.isDigit_of_decode _ _ hdecode 10 (List.mem_append_right _ hmem)
  exact absurd hdigit (by decide)

/-! ### The coding is unambiguous -/

section Unique

variable {hex : Hex.Codec} {digits digits' tail tail' body body' wire wire' : List UInt8} {n n' : ℕ}

theorem SizeLine.unique (h : SizeLine hex digits n) (h' : SizeLine hex digits n') : n = n' := by
  obtain ⟨_,bytes,hdecode,rfl⟩ := h
  obtain ⟨_,bytes',hdecode',rfl⟩ := h'
  rw [hdecode,Option.some.injEq] at hdecode'
  rw [hdecode']

theorem takeWhile_line (h : 10 ∉ digits) :
    (digits ++ (newline ++ tail)).takeWhile (· ≠ 10) = digits ++ [13] := by
  have hall : ∀ c ∈ digits ++ [13], decide (c ≠ 10) = true := by
    intro c hc
    rw [decide_eq_true_eq]
    rintro rfl
    simp [h] at hc
  have hsplit : digits ++ (newline ++ tail) = (digits ++ [13]) ++ 10 :: tail := by
    simp [newline]
  rw [hsplit,List.takeWhile_append_of_pos hall]
  simp

/-- The end of a line is the first one. -/
theorem line_unique (h : 10 ∉ digits) (h' : 10 ∉ digits')
    (heq : digits ++ (newline ++ tail) = digits' ++ (newline ++ tail')) :
    digits = digits' ∧ tail = tail' := by
  have hline := congrArg (List.takeWhile (· ≠ 10)) heq
  rw [takeWhile_line h,takeWhile_line h'] at hline
  obtain rfl := List.append_cancel_right hline
  exact ⟨rfl,List.append_cancel_left (List.append_cancel_left heq)⟩

/-- Where a coded body ends, and what it is, is determined by the bytes. -/
theorem Coded.unique (h : Coded hex body wire) (h' : Coded hex body' wire')
    (heq : wire ++ tail = wire' ++ tail') : body = body' ∧ wire = wire' ∧ tail = tail' := by
  induction h generalizing body' wire' with
  | @last digits hsize =>
    cases h' with
    | @last digits' hsize' =>
      simp only [List.append_assoc] at heq
      obtain ⟨rfl,htail⟩ := line_unique hsize.notMem_newline hsize'.notMem_newline heq
      exact ⟨rfl,rfl,List.append_cancel_left htail⟩
    | @chunk digits' data _ _ hsize' hdata _ =>
      simp only [List.append_assoc] at heq
      obtain ⟨rfl,-⟩ := line_unique hsize.notMem_newline hsize'.notMem_newline heq
      exact absurd (hsize.unique hsize').symm (Nat.ne_of_gt (List.length_pos_of_ne_nil hdata))
  | @chunk digits data body wire hsize hdata hrest ih =>
    cases h' with
    | @last digits' hsize' =>
      simp only [List.append_assoc] at heq
      obtain ⟨rfl,-⟩ := line_unique hsize.notMem_newline hsize'.notMem_newline heq
      exact absurd (hsize.unique hsize') (Nat.ne_of_gt (List.length_pos_of_ne_nil hdata))
    | @chunk digits' data' body' wire' hsize' hdata' hrest' =>
      simp only [List.append_assoc] at heq
      obtain ⟨rfl,hrest_eq⟩ := line_unique hsize.notMem_newline hsize'.notMem_newline heq
      obtain ⟨rfl,hnext⟩ := List.append_inj hrest_eq (hsize.unique hsize')
      obtain ⟨rfl,rfl,htail⟩ := ih hrest' (List.append_cancel_left hnext)
      exact ⟨rfl,rfl,htail⟩

end Unique

namespace ChunkedBodyReader

variable {β α : Type} {hex : Hex.Codec} {r r' r'' : ChunkedBodyReader β} {l l' tail : List UInt8}

theorem onRawBody_ok {ε : Type} {conv : ε → Error} {m : EStateM ε β α} {a : α} {s : β}
    (h : m r.rawBody = .ok a s) : onRawBody conv m r = .ok a { r with rawBody := s } := by
  rw [onRawBody,h]

theorem onRawBody_error {ε : Type} {conv : ε → Error} {m : EStateM ε β α} {e : ε} {s : β}
    (h : m r.rawBody = .error e s) :
    onRawBody conv m r = .error (conv e) { r with rawBody := s } := by
  rw [onRawBody,h]

theorem of_onRawBody_ok {ε : Type} {conv : ε → Error} {m : EStateM ε β α} {a : α}
    (h : onRawBody conv m r = .ok a r') :
    m r.rawBody = .ok a r'.rawBody ∧ r'.chunkRemaining = r.chunkRemaining := by
  rw [onRawBody] at h
  split at h
  · next hm =>
    obtain ⟨rfl,rfl⟩ := EStateM.Result.ok.inj h
    exact ⟨hm,rfl⟩
  · cases h

variable [Source β UInt8 ErrorKind]

/-- `r'` is `r` after `l` has been taken from beneath it. -/
structure Moved (r : ChunkedBodyReader β) (l : List UInt8) (r' : ChunkedBodyReader β) : Prop where
  took : Took r.rawBody l r'.rawBody
  chunkRemaining : r'.chunkRemaining = r.chunkRemaining

/-! ### Size lines -/

theorem readSizeLine_ok {room : ℕ} {line : List UInt8} (acc : List UInt8)
    (h : readSizeLine room acc r = .ok line r') :
    ∃ got, line = acc ++ got ∧ got.length < room ∧ line.getLast? = some 13 ∧
      Moved r (got ++ [10]) r' := by
  induction room generalizing r acc with
  | zero => cases h
  | succ room ih =>
    obtain ⟨byte,r₁,hread,h⟩ := EStateM.exists_of_bind_eq_ok h
    obtain ⟨hread,hstate⟩ := of_onRawBody_ok hread
    obtain ⟨hone,htook⟩ := took_of_readExact_ok hread
    obtain ⟨b,rfl⟩ := List.length_eq_one_iff.mp hone
    rw [List.headD_cons] at h
    split at h
    · obtain ⟨got,hline,hlen,hlast,hmoved⟩ := ih _ h
      refine ⟨b :: got,by rw [hline,List.append_assoc]; rfl,?_,hlast,htook.trans hmoved.took,
        hmoved.chunkRemaining.trans hstate⟩
      rw [List.length_cons]
      omega
    · next hb =>
      obtain rfl : b = 10 := not_not.mp hb
      split at h
      · cases h
      · next hlast =>
        obtain ⟨rfl,rfl⟩ := EStateM.Result.ok.inj h
        exact ⟨[],(List.append_nil acc).symm,Nat.succ_pos room,not_not.mp hlast,htook,hstate⟩

theorem readSizeLine_append {room : ℕ} {got : List UInt8} (acc : List UInt8)
    (hroom : got.length < room) (hlast : (acc ++ got).getLast? = some 13) (hnl : 10 ∉ got)
    (h : unread r.rawBody = got ++ 10 :: tail) :
    ∃ r', readSizeLine room acc r = .ok (acc ++ got) r' ∧ Moved r (got ++ [10]) r' := by
  induction got generalizing r acc room with
  | nil =>
    obtain ⟨room,rfl⟩ := Nat.exists_eq_succ_of_ne_zero (Nat.ne_of_gt hroom)
    obtain ⟨s,hread,htook⟩ := readExact_one (by simpa using h)
    refine ⟨{ r with rawBody := s },?_,htook,rfl⟩
    rw [readSizeLine,EStateM.bind_of_ok (onRawBody_ok hread)]
    rw [List.append_nil] at hlast ⊢
    rw [List.headD_cons,if_neg (not_not_intro rfl),if_neg (not_not_intro hlast)]
    rfl
  | cons b got ih =>
    obtain ⟨room,rfl⟩ := Nat.exists_eq_succ_of_ne_zero (Nat.ne_of_gt (Nat.zero_lt_of_lt hroom))
    obtain ⟨s,hread,htook⟩ := readExact_one h
    have hroom' : got.length < room := by
      rw [List.length_cons] at hroom
      omega
    have hacc : acc ++ b :: got = (acc ++ [b]) ++ got := by rw [List.append_assoc]; rfl
    rw [List.mem_cons,not_or] at hnl
    obtain ⟨r',hrun,hmoved⟩ := ih (r := { r with rawBody := s }) (acc ++ [b]) hroom'
      (hacc ▸ hlast) hnl.2 (htook.unread_eq (l := [b]) h)
    refine ⟨r',?_,htook.trans hmoved.took,hmoved.chunkRemaining⟩
    rw [readSizeLine,EStateM.bind_of_ok (onRawBody_ok hread),List.headD_cons,
      if_pos (Ne.symm hnl.1),hrun,hacc]

/-! ### Chunk lengths and ends -/

theorem dropLast_eq_of_getLast? {line : List UInt8} (h : line.getLast? = some 13) :
    line = line.dropLast ++ [13] := by
  obtain ⟨ys,rfl⟩ := List.getLast?_eq_some_iff.mp h
  rw [List.dropLast_concat]

/-- A chunk length that is accepted stands in a size line. -/
theorem readNextChunkLength_ok (h : readNextChunkLength hex r = .ok () r') :
    ∃ digits n, SizeLine hex digits n ∧ Took r.rawBody (digits ++ newline) r'.rawBody ∧
      r'.chunkRemaining = .ofLen n := by
  obtain ⟨line,r₁,hread,h⟩ := EStateM.exists_of_bind_eq_ok h
  obtain ⟨got,hline,hlen,hlast,hmoved⟩ := readSizeLine_ok [] hread
  rw [List.nil_append] at hline
  subst hline
  have hsplit := dropLast_eq_of_getLast? hlast
  have htook : Took r.rawBody (line.dropLast ++ newline) r₁.rawBody := by
    have hmoved := hmoved.took
    rw [hsplit,List.append_assoc] at hmoved
    exact hmoved
  cases hdecode : hex.decode (padded line.dropLast) with
  | none =>
    rw [hdecode] at h
    cases h
  | some bytes =>
    rw [hdecode] at h
    obtain ⟨-,rfl⟩ := EStateM.Result.ok.inj h
    refine ⟨_,_,⟨?_,bytes,hdecode,rfl⟩,htook,rfl⟩
    rw [List.length_dropLast]
    omega

/-- A size line is accepted. -/
theorem readNextChunkLength_append {digits : List UInt8} {n : ℕ} (hsize : SizeLine hex digits n)
    (h : unread r.rawBody = digits ++ newline ++ tail) :
    ∃ r', readNextChunkLength hex r = .ok () r' ∧ Took r.rawBody (digits ++ newline) r'.rawBody ∧
      r'.chunkRemaining = .ofLen n := by
  have hnl := hsize.notMem_newline
  obtain ⟨hlen,bytes,hdecode,rfl⟩ := hsize
  have hline : unread r.rawBody = (digits ++ [13]) ++ 10 :: tail := by
    rw [h,newline,List.append_assoc,List.append_assoc]
    rfl
  have hroom : (digits ++ [13]).length < 10 := by
    rw [List.length_append,List.length_singleton]
    omega
  obtain ⟨r₁,hread,hmoved⟩ := readSizeLine_append [] hroom
    (by rw [List.nil_append,List.getLast?_concat]) (by simpa using hnl) hline
  refine ⟨{ r₁ with chunkRemaining := .ofLen (ofBytes bytes) },?_,?_,rfl⟩
  · rw [readNextChunkLength,EStateM.bind_of_ok hread,List.nil_append,List.dropLast_concat,hdecode]
    rfl
  · have htook := hmoved.took
    rw [List.append_assoc] at htook
    exact htook

theorem readChunkEnd_ok (h : readChunkEnd r = .ok () r') : Moved r newline r' := by
  obtain ⟨buf,r₁,hread,h⟩ := EStateM.exists_of_bind_eq_ok h
  obtain ⟨hread,hstate⟩ := of_onRawBody_ok hread
  obtain ⟨-,htook⟩ := took_of_readExact_ok hread
  split at h
  · cases h
  · next hbuf =>
    obtain ⟨-,rfl⟩ := EStateM.Result.ok.inj h
    rw [not_not.mp hbuf] at htook
    exact ⟨htook,hstate⟩

theorem readChunkEnd_append (h : unread r.rawBody = newline ++ tail) :
    ∃ r', readChunkEnd r = .ok () r' ∧ Moved r newline r' := by
  obtain ⟨s,hread,htook⟩ := readExact_append h
  rw [show newline.length = 2 from rfl] at hread
  refine ⟨{ r with rawBody := s },?_,htook,rfl⟩
  rw [readChunkEnd,EStateM.bind_of_ok (onRawBody_ok hread),if_neg (not_not_intro rfl)]
  rfl

/-! ### Boundaries -/

theorem enterChunk_of_ne (h : r.chunkRemaining ≠ .empty) :
    enterChunk r = .ok r.chunkRemaining.len r := by
  rw [enterChunk,if_neg h]

theorem enterChunk_of_empty (h : r.chunkRemaining = .empty) :
    enterChunk r = (readChunkEnd >>= fun _ r => .ok r.chunkRemaining.len r) r := by
  rw [enterChunk,if_pos h]

omit [Source β UInt8 ErrorKind] in
theorem ofLen_ne_empty {n : ℕ} (h : n ≠ 0) : ChunkState.ofLen n ≠ .empty := by
  rw [ChunkState.ofLen,if_neg h]
  exact fun h' => by cases h'

omit [Source β UInt8 ErrorKind] in
theorem len_ofLen (n : ℕ) : (ChunkState.ofLen n).len = n := by
  rw [ChunkState.ofLen]
  split
  · next h => exact h.symm
  · rfl

/-- What follows a size line on the wire before the data: the end of the last chunk. -/
def lastEnd (n : ℕ) : List UInt8 := if n = 0 then newline else []

omit [Source β UInt8 ErrorKind] in
theorem coded_of_rest {digits body wire : List UInt8} {n : ℕ} (hsize : SizeLine hex digits n)
    (h : Rest hex (.ofLen n) body wire) : Coded hex body (digits ++ newline ++ (lastEnd n ++ wire)) := by
  rcases Nat.eq_zero_or_pos n with rfl | hpos
  · cases h
    exact .last hsize
  · rw [ChunkState.ofLen,if_neg (Nat.ne_of_gt hpos)] at h
    cases h with
    | notEmpty hlen hcoded =>
      subst hlen
      rw [lastEnd,if_neg (Nat.ne_of_gt hpos)]
      exact .chunk hsize (List.ne_nil_of_length_pos hpos) hcoded

omit [Source β UInt8 ErrorKind] in
theorem exists_rest_of_coded {body wire : List UInt8} (h : Coded hex body wire) :
    ∃ digits n wire', SizeLine hex digits n ∧ wire = digits ++ newline ++ (lastEnd n ++ wire') ∧
      Rest hex (.ofLen n) body wire' := by
  cases h with
  | last h => exact ⟨_,0,[],h,rfl,.empty⟩
  | @chunk digits data body wire h hdata hrest =>
    have hpos : data.length ≠ 0 := Nat.ne_of_gt (List.length_pos_of_ne_nil hdata)
    refine ⟨_,_,data ++ newline ++ wire,h,?_,?_⟩
    · rw [lastEnd,if_neg hpos]
      rfl
    · rw [ChunkState.ofLen,if_neg hpos]
      exact .notEmpty rfl hrest

/-- The start of a chunk that is accepted. -/
theorem startChunk_ok {n : ℕ} (h : (readNextChunkLength hex >>= fun _ => enterChunk) r = .ok n r') :
    ∃ head, Took r.rawBody head r'.rawBody ∧ r'.chunkRemaining = .ofLen n ∧
      ∀ body wire, Rest hex (.ofLen n) body wire → Coded hex body (head ++ wire) := by
  obtain ⟨_,r₁,hlen,h⟩ := EStateM.exists_of_bind_eq_ok h
  obtain ⟨digits,m,hsize,htook,hstate⟩ := readNextChunkLength_ok hlen
  rcases Nat.eq_zero_or_pos m with rfl | hpos
  · rw [enterChunk_of_empty hstate] at h
    obtain ⟨_,r₂,hend,h⟩ := EStateM.exists_of_bind_eq_ok h
    have hmoved := readChunkEnd_ok hend
    have hstate' : r₂.chunkRemaining = .empty := hmoved.chunkRemaining.trans hstate
    obtain ⟨hn,rfl⟩ := EStateM.Result.ok.inj h
    obtain rfl : 0 = n := (congrArg ChunkState.len hstate').symm.trans hn
    refine ⟨_,htook.trans hmoved.took,hstate',fun body wire hrest => ?_⟩
    rw [List.append_assoc]
    exact coded_of_rest hsize hrest
  · rw [enterChunk_of_ne (hstate ▸ ofLen_ne_empty (Nat.ne_of_gt hpos)),hstate,len_ofLen] at h
    obtain ⟨rfl,rfl⟩ := EStateM.Result.ok.inj h
    refine ⟨_,htook,hstate,fun body wire hrest => ?_⟩
    have hcoded := coded_of_rest hsize hrest
    rwa [lastEnd,if_neg (Nat.ne_of_gt hpos)] at hcoded

/-- The start of a chunk of a coded body. -/
theorem startChunk_append {body wire : List UInt8} (hcoded : Coded hex body wire)
    (h : unread r.rawBody = wire ++ tail) :
    ∃ n r' head wire', (readNextChunkLength hex >>= fun _ => enterChunk) r = .ok n r' ∧
      wire = head ++ wire' ∧ Took r.rawBody head r'.rawBody ∧ r'.chunkRemaining = .ofLen n ∧
      Rest hex (.ofLen n) body wire' := by
  obtain ⟨digits,n,wire',hsize,rfl,hrest⟩ := exists_rest_of_coded hcoded
  rw [List.append_assoc] at h
  obtain ⟨r₁,hlen,htook,hstate⟩ := readNextChunkLength_append hsize h
  rcases Nat.eq_zero_or_pos n with rfl | hpos
  · have hunread := htook.unread_eq h
    rw [lastEnd,if_pos rfl,List.append_assoc] at hunread
    obtain ⟨r₂,hend,hmoved⟩ := readChunkEnd_append hunread
    have hstate' : r₂.chunkRemaining = .empty := hmoved.chunkRemaining.trans hstate
    refine ⟨0,r₂,_,wire',?_,(List.append_assoc _ _ _).symm,htook.trans hmoved.took,hstate',hrest⟩
    rw [EStateM.bind_of_ok hlen,enterChunk_of_empty hstate]
    apply (EStateM.bind_of_ok hend).trans
    rw [hstate']
    rfl
  · refine ⟨n,r₁,_,wire',?_,?_,htook,hstate,hrest⟩
    · rw [EStateM.bind_of_ok hlen,
        enterChunk_of_ne (hstate ▸ ofLen_ne_empty (Nat.ne_of_gt hpos)),hstate,len_ofLen]
    · rw [lastEnd,if_neg (Nat.ne_of_gt hpos)]
      rfl

/-- A boundary that is accepted: the bytes taken belong to the coding. -/
theorem handleChunkBoundary_ok {n : ℕ} (h : handleChunkBoundary hex r = .ok n r') :
    ∃ head, Took r.rawBody head r'.rawBody ∧ r'.chunkRemaining = .ofLen n ∧
      ∀ body wire, Rest hex (.ofLen n) body wire → Rest hex r.chunkRemaining body (head ++ wire) := by
  unfold handleChunkBoundary at h
  cases hstate : r.chunkRemaining with
  | noChunk =>
    rw [hstate] at h
    obtain ⟨head,htook,hstate',hcoded⟩ := startChunk_ok h
    exact ⟨head,htook,hstate',fun body wire hrest => .noChunk (hcoded body wire hrest)⟩
  | empty =>
    rw [hstate] at h
    obtain ⟨rfl,rfl⟩ := EStateM.Result.ok.inj h
    exact ⟨[],.refl _,hstate,fun body wire hrest => hrest⟩
  | notEmpty k =>
    rw [hstate] at h
    cases k with
    | zero =>
      obtain ⟨_,r₁,hend,h⟩ := EStateM.exists_of_bind_eq_ok h
      have hmoved := readChunkEnd_ok hend
      obtain ⟨head,htook,hstate',hcoded⟩ := startChunk_ok h
      refine ⟨_,hmoved.took.trans htook,hstate',fun body wire hrest => ?_⟩
      have hnext := Rest.notEmpty List.length_nil (hcoded body wire hrest)
      rwa [List.nil_append,List.nil_append,← List.append_assoc] at hnext
    | succ k =>
      change enterChunk r = _ at h
      rw [enterChunk_of_ne (by rw [hstate]; exact fun h' => by cases h'),hstate] at h
      obtain ⟨rfl,rfl⟩ := EStateM.Result.ok.inj h
      exact ⟨[],.refl _,hstate,fun body wire hrest => hrest⟩

/-- The boundary of a coded body. -/
theorem handleChunkBoundary_append {body wire : List UInt8}
    (hrest : Rest hex r.chunkRemaining body wire) (h : unread r.rawBody = wire ++ tail) :
    ∃ n r' head wire', handleChunkBoundary hex r = .ok n r' ∧ wire = head ++ wire' ∧
      Took r.rawBody head r'.rawBody ∧ r'.chunkRemaining = .ofLen n ∧
      Rest hex (.ofLen n) body wire' := by
  unfold handleChunkBoundary
  cases hstate : r.chunkRemaining with
  | noChunk =>
    rw [hstate] at hrest
    obtain ⟨hcoded⟩ := hrest
    exact startChunk_append hcoded h
  | empty =>
    rw [hstate] at hrest
    exact ⟨0,r,[],wire,rfl,rfl,.refl _,hstate,hrest⟩
  | notEmpty k =>
    rw [hstate] at hrest
    cases k with
    | zero =>
      cases hrest with
      | notEmpty hlen hcoded =>
        obtain rfl := List.length_eq_zero_iff.mp hlen
        rw [List.nil_append,List.append_assoc] at h
        obtain ⟨r₁,hend,hmoved⟩ := readChunkEnd_append h
        obtain ⟨n,r₂,head,wire',hstart,rfl,htook,hstate',hrest⟩ :=
          startChunk_append hcoded (hmoved.took.unread_eq h)
        refine ⟨n,r₂,newline ++ head,wire',?_,?_,hmoved.took.trans htook,hstate',hrest⟩
        · exact (EStateM.bind_of_ok hend).trans hstart
        · rw [List.nil_append,List.append_assoc]
    | succ k =>
      refine ⟨k + 1,r,[],wire,?_,rfl,.refl _,hstate,hrest⟩
      change enterChunk r = _
      rw [enterChunk_of_ne (by rw [hstate]; exact fun h' => by cases h'),hstate]
      rfl

/-! ### Within a chunk -/

section Data

variable {body wire got u : List UInt8} {n : ℕ}

omit [Source β UInt8 ErrorKind] in
theorem ofLen_of_pos (h : 0 < n) : ChunkState.ofLen n = .notEmpty n := by
  rw [ChunkState.ofLen,if_neg (Nat.ne_of_gt h)]

omit [Source β UInt8 ErrorKind] in
/-- The data taken from a chunk goes before what is left. -/
theorem rest_of_consume (hlen : got.length ≤ n)
    (h : Rest hex (.notEmpty (n - got.length)) body wire) :
    Rest hex (.notEmpty n) (got ++ body) (got ++ wire) := by
  generalize hm : n - got.length = m at h
  cases h with
  | @notEmpty data body wire _ hdata hcoded =>
    have hnext := Rest.notEmpty (show (got ++ data).length = n by rw [List.length_append]; omega)
      hcoded
    simpa only [List.append_assoc] using hnext

omit [Source β UInt8 ErrorKind] in
/-- The front of the bytes to come, within a chunk, is the front of the body. -/
theorem exists_rest_of_front (hrest : Rest hex (.notEmpty n) body wire) (hlen : got.length ≤ n)
    (h : wire ++ tail = got ++ u) : ∃ body' wire', body = got ++ body' ∧ wire = got ++ wire' ∧
      Rest hex (.notEmpty (n - got.length)) body' wire' := by
  cases hrest with
  | @notEmpty data body wire _ hdata hcoded =>
    have hfront : got <+: data := by
      refine List.prefix_of_prefix_length_le ⟨u,h.symm⟩ ?_ (hlen.trans_eq hdata.symm)
      exact ⟨newline ++ (wire ++ tail),by simp only [List.append_assoc]⟩
    obtain ⟨data,rfl⟩ := hfront
    refine ⟨data ++ body,data ++ newline ++ wire,by rw [List.append_assoc],
      by simp only [List.append_assoc],.notEmpty ?_ hcoded⟩
    rw [List.length_append] at hdata
    omega

end Data

end ChunkedBodyReader

end NsPixels.Reqwless
