import NsPixels.Decompress.Independence

/-!
# What a payload decodes to

With an inflater that decodes a stream call by call, in pieces of any size, a gzip member
comes to the data its stream stands for.
-/

namespace NsPixels.Decompress

open OffsetParser

variable {σ ε : Type} {inflate : Inflater σ ε} {reset : σ → σ}
  {Left : σ → List UInt8 → List UInt8 → Prop}

/-- A call with more than the rest `z` of a stream, which stands for `data`, takes some of
the one and writes some of the other, until all is written. -/
structure Answers (Left : σ → List UInt8 → List UInt8 → Prop) (z data : List UInt8)
    (r : StreamResult ε × σ × List UInt8) : Prop where
  consumed : r.1.bytesConsumed ≤ z.length
  wrote : r.2.2.take r.1.bytesWritten = data.take r.1.bytesWritten
  left : Left r.2.1 (z.drop r.1.bytesConsumed) (data.drop r.1.bytesWritten)
  status : r.1.status = .ok .streamEnd ∧ data.length ≤ r.1.bytesWritten ∨
    r.1.status = .ok .ok ∧ 0 < r.1.bytesWritten + r.1.bytesConsumed

/-- `Left state z data`: the stream goes on with `z`, which stands for `data`. -/
def Streams (inflate : Inflater σ ε) (Left : σ → List UInt8 → List UInt8 → Prop) : Prop :=
  ∀ state z data tail out, Left state z data → tail ≠ [] → out ≠ [] →
    Answers Left z data (inflate state (z ++ tail) out .none)

/-- The loop has written the front of `data`, and the rest of the stream stands for the rest. -/
structure Decoding (Left : σ → List UInt8 → List UInt8 → Prop) (tail data : List UInt8) (n : ℕ)
    (s : LoopState σ) : Prop where
  within : s.Within
  length_buf : s.buf.length = n
  left : ∃ z rest, s.input = z ++ tail ∧ Left s.state z rest ∧ s.buf.take s.written ++ rest = data

/-- How the loop is left: with all the data, or with a full buffer. -/
inductive Decoded (data : List UInt8) (n : ℕ) : Exit ε × LoopState σ → Prop
  | finished {s : LoopState σ} (within : s.Within) (length_buf : s.buf.length = n)
      (all : s.buf.take s.written = data) : Decoded data n (.finished,s)
  | overflow {s : LoopState σ} (length_buf : s.buf.length = n) (full : n ≤ data.length) :
      Decoded data n (.overflow,s)

variable {tail data : List UInt8} {n : ℕ} {s : LoopState σ}

/-- One turn: the loop goes on decoding or has decoded. -/
theorem Decoding.loopBody (hl : Lawful inflate) (hs : Streams inflate Left) (htail : tail ≠ [])
    (h : Decoding Left tail data n s) :
    (∃ calls s', Decompress.loopBody inflate s = (calls,.inl s') ∧ Decoding Left tail data n s') ∨
      ∃ calls left, Decompress.loopBody inflate s = (calls,.inr left) ∧ Decoded data n left := by
  obtain ⟨z,rest,hinput,hleft,hdata⟩ := h.left
  have hpre : (s.buf.take s.written).length = s.written := List.length_take_of_le h.within
  have hlen : s.written + rest.length = data.length := by
    rw [← hdata,List.length_append,hpre]
  rw [Decompress.loopBody]
  by_cases hfull : s.written = s.buf.length
  · rw [if_pos hfull]
    refine .inr ⟨_,_,rfl,.overflow h.length_buf ?_⟩
    rw [← h.length_buf]
    omega
  have hout : s.buf.drop s.written ≠ [] := by
    intro hnil
    have hwithin := h.within
    rw [LoopState.Within] at hwithin
    have hle := List.drop_eq_nil_iff.mp hnil
    omega
  have hflush : MZFlush.none = if s.input.isEmpty then .finish else .none := by
    rw [hinput]
    cases z with
    | nil => cases tail with
      | nil => exact absurd rfl htail
      | cons c tail => rfl
    | cons c z => rfl
  have hturn := turn_eq hl h.within hflush rfl
  have hanswer := hs s.state z rest tail (s.buf.drop s.written) hleft htail hout
  have hbuf := LoopState.behind_buf h.within
    (hl.written_le s.state s.input (s.buf.drop s.written) .none) (hl.length_out _ _ _ _)
  rw [if_neg hfull,hturn]
  rw [← hinput] at hanswer
  generalize inflate s.state s.input (s.buf.drop s.written) .none = r at *
  dsimp only [LoopState.callOf]
  obtain ⟨hstatus,hall⟩ | ⟨hstatus,hprogress⟩ := hanswer.status
  · rw [hstatus]
    refine .inr ⟨_,_,rfl,.finished hbuf.2.1 (hbuf.1.trans h.length_buf) ?_⟩
    rw [hbuf.2.2,hanswer.wrote,List.take_of_length_le hall,hdata]
  · rw [hstatus]
    dsimp only
    rw [if_neg (by omega)]
    refine .inl ⟨_,_,rfl,hbuf.2.1,hbuf.1.trans h.length_buf,z.drop r.1.bytesConsumed,
      rest.drop r.1.bytesWritten,?_,hanswer.left,?_⟩
    · rw [LoopState.behind,hinput,List.drop_append_of_le_length hanswer.consumed]
    · rw [hbuf.2.2,hanswer.wrote,List.append_assoc,List.take_append_drop,hdata]

theorem Decoding.run (hl : Lawful inflate) (hs : Streams inflate Left) (htail : tail ≠ [])
    (h : Decoding Left tail data n s) (fuel : ℕ) :
    ∀ left, (Loop.run (Decompress.loopBody inflate) fuel s).2 = some left → Decoded data n left := by
  refine Loop.run_rule (Decoding Left tail data n)
    (fun _ _ left => ∀ l, left = some l → Decoded data n l) (fun _ _ l hl' => by cases hl')
    ?_ ?_ fuel h
  · intro s calls left hdec hbody l hl'
    obtain ⟨_,_,hnext,-⟩ | ⟨_,left',hexit,hdecoded⟩ := hdec.loopBody hl hs htail
    · rw [hbody] at hnext
      cases hnext
    · rw [hbody] at hexit
      cases hexit
      cases hl'
      exact hdecoded
  · intro s calls s' hdec hbody
    obtain ⟨_,_,hnext,hdec'⟩ | ⟨_,_,hexit,-⟩ := hdec.loopBody hl hs htail
    · rw [hbody] at hnext
      cases hnext
      exact ⟨hdec',fun _ _ hP => hP⟩
    · rw [hbody] at hexit
      cases hexit

/-- What data in the buffer comes to. -/
def ofData (data : List UInt8) : Outcome ε :=
  match String.fromUTF8? ⟨data.toArray⟩ with
  | some text => .returned (.ok text)
  | none => .returned (.error .notUtf8)

theorem ofData_toUTF8 (text : String) :
    ofData text.toUTF8.data.toList = (.returned (.ok text) : Outcome ε) := by
  have htext : String.fromUTF8? ⟨text.toUTF8.data.toList.toArray⟩ = some text :=
    dif_pos text.isValidUTF8
  rw [ofData,htext]

theorem Decoded.length_buf {exit : Exit ε} (h : Decoded data n (exit,s)) : s.buf.length = n := by
  cases h with
  | finished _ length_buf _ => exact length_buf
  | overflow length_buf _ => exact length_buf

theorem Decoded.conclude {exit : Exit ε} (h : Decoded data n (exit,s)) :
    Decompress.conclude s exit = ofData data ∧ data.length ≤ n ∨
      Decompress.conclude s exit = .returned (.error .overflow) ∧ n ≤ data.length := by
  cases h with
  | finished within length_buf all =>
    refine .inl ⟨?_,?_⟩
    · have hslice : sliceTo s.buf s.written = .ok (s.buf.take s.written) := if_pos within
      rw [Decompress.conclude,hslice,all]
      rfl
    · rw [← all,← length_buf]
      exact List.length_take_le' _ _
  | overflow _ full => exact .inr ⟨rfl,full⟩

/-- What a gzip member makes of the loop. -/
theorem decoded_member (hl : Lawful inflate) (hs : Streams inflate Left) {z : List UInt8}
    (hz : ∀ state, Left (reset state) z data) (htail : tail ≠ []) (header : MemberHeader)
    (d : Decompressor σ) :
    ∃ exit s, (inflateGzip inflate reset (fuelFor d (header.bytes ++ (z ++ tail))) d
        (header.bytes ++ (z ++ tail))).2 = some (conclude s exit,⟨s.state,s.buf⟩) ∧
      Decoded data d.buf.length (exit,s) := by
  obtain ⟨r,d',hrun⟩ := inflateGzip_returns hl reset d (header.bytes ++ (z ++ tail))
  have hbody : body (header.bytes ++ (z ++ tail)) = .ok (z ++ tail) := by
    rw [body,skipHeader_eq_ok_iff.mpr ⟨header,List.prefix_append _ _,rfl⟩]
    exact (sliceFrom_of_le (by simp)).trans (congrArg Except.ok List.drop_left)
  rw [inflateGzip,hbody] at hrun ⊢
  obtain ⟨⟨exit,s⟩,hleft,heq⟩ := Option.map_eq_some_iff.mp hrun
  have hstart : Decoding Left tail data d.buf.length ⟨reset d.state,d.buf,z ++ tail,0⟩ :=
    ⟨Nat.zero_le _,rfl,z,data,rfl,hz d.state,rfl⟩
  exact ⟨exit,s,hrun.trans (congrArg some heq.symm),hstart.run hl hs htail _ _ hleft⟩

/-- A text that leaves room in the buffer is read. -/
theorem inflateGzip_text (hl : Lawful inflate) (hs : Streams inflate Left) {z : List UInt8}
    {text : String} (hz : ∀ state, Left (reset state) z text.toUTF8.data.toList) (htail : tail ≠ [])
    (header : MemberHeader) {d : Decompressor σ}
    (hfit : text.toUTF8.data.toList.length < d.buf.length) :
    ∃ d', (inflateGzip inflate reset (fuelFor d (header.bytes ++ (z ++ tail))) d
      (header.bytes ++ (z ++ tail))).2 = some (.returned (.ok text),d') ∧
        d'.buf.length = d.buf.length := by
  obtain ⟨exit,s,hrun,hdecoded⟩ := decoded_member hl hs hz htail header d
  obtain ⟨hout,-⟩ | ⟨-,hfull⟩ := hdecoded.conclude
  · rw [hout,ofData_toUTF8] at hrun
    exact ⟨_,hrun,hdecoded.length_buf⟩
  · omega

/-- A gzip member whose stream stands for `data` comes to `data`, whatever pieces the
inflater makes of it, or to an overflow; to the one if the buffer is longer than the data
and to the other if it is shorter. -/
theorem inflateGzip_decodes (hl : Lawful inflate) (hs : Streams inflate Left) {z : List UInt8}
    (hz : ∀ state, Left (reset state) z data) (htail : tail ≠ []) (header : MemberHeader)
    (d : Decompressor σ) :
    ∃ outcome d', (inflateGzip inflate reset (fuelFor d (header.bytes ++ (z ++ tail))) d
        (header.bytes ++ (z ++ tail))).2 = some (outcome,d') ∧
      (outcome = ofData data ∧ data.length ≤ d.buf.length ∨
        outcome = .returned (.error .overflow) ∧ d.buf.length ≤ data.length) := by
  obtain ⟨exit,s,hrun,hdecoded⟩ := decoded_member hl hs hz htail header d
  exact ⟨_,_,hrun,hdecoded.conclude⟩

/-! ### An inflater that goes on -/

/-- The block header, if it has not been read, and the number of bytes behind it. -/
def blockStart (state : Option ℕ) (input : List UInt8) : Option (ℕ × ℕ) :=
  match state with
  | some n => some (0,n)
  | none =>
    match input with
    | 1 :: lo :: hi :: _ :: _ :: _ => some (5,u16FromLeBytes lo hi)
    | _ => none

/-- An inflater for one stored block that is the last of its stream, which writes as much
as there is input and room for and goes on from there. -/
def inflateBlock : Inflater (Option ℕ) Unit := fun state input out _ =>
  match blockStart state input with
  | none => (⟨0,0,.error ()⟩,state,out)
  | some (skipped,n) =>
    let w := min n (min out.length (input.length - skipped))
    (⟨skipped + w,w,.ok (if w = n then .streamEnd else .ok)⟩,some (n - w),
      (input.drop skipped).take w ++ out.drop w)

/-- A stored block, or what is left of it. -/
def BlockLeft (state : Option ℕ) (z data : List UInt8) : Prop :=
  match state with
  | some n => z = data ∧ data.length = n
  | none => ∃ lo hi a b, z = 1 :: lo :: hi :: a :: b :: data ∧ data.length = u16FromLeBytes lo hi

theorem blockStart_le {state : Option ℕ} {input : List UInt8} {skipped n : ℕ}
    (h : blockStart state input = some (skipped,n)) : skipped ≤ input.length := by
  cases state with
  | some m =>
    cases h
    exact Nat.zero_le _
  | none =>
    simp only [blockStart] at h
    split at h <;> cases h
    simp

theorem BlockLeft.start {state : Option ℕ} {z data : List UInt8} (h : BlockLeft state z data)
    (tail : List UInt8) :
    ∃ skipped, blockStart state (z ++ tail) = some (skipped,data.length) ∧ z.drop skipped = data ∧
      z.length = skipped + data.length := by
  cases state with
  | some n =>
    obtain ⟨rfl,rfl⟩ := h
    exact ⟨0,rfl,rfl,(Nat.zero_add _).symm⟩
  | none =>
    obtain ⟨lo,hi,a,b,rfl,hlen⟩ := h
    refine ⟨5,?_,rfl,?_⟩
    · rw [hlen]
      rfl
    · simp only [List.length_cons]
      omega

theorem lawful_inflateBlock : Lawful inflateBlock := by
  have hall : ∀ state input out flush,
      (inflateBlock state input out flush).1.bytesConsumed ≤ input.length ∧
        (inflateBlock state input out flush).1.bytesWritten ≤ out.length ∧
        (inflateBlock state input out flush).2.2.length = out.length := by
    intro state input out flush
    unfold inflateBlock
    split
    · exact ⟨Nat.zero_le _,Nat.zero_le _,rfl⟩
    · next skipped n hstart =>
      have hle := blockStart_le hstart
      refine ⟨?_,?_,?_⟩
      · dsimp only
        omega
      · dsimp only
        omega
      · simp only [List.length_append,List.length_take,List.length_drop]
        omega
  exact ⟨fun st i o f => (hall st i o f).1,fun st i o f => (hall st i o f).2.1,
    fun st i o f => (hall st i o f).2.2⟩

theorem streams_inflateBlock : Streams inflateBlock BlockLeft := by
  intro state z data tail out hleft htail hout
  obtain ⟨skipped,hstart,hdrop,hlen⟩ := hleft.start tail
  have hpos := List.length_pos_of_ne_nil hout
  obtain ⟨w,hw⟩ : ∃ w, w = min data.length (min out.length ((z ++ tail).length - skipped)) := ⟨_,rfl⟩
  have hroom : w = min data.length out.length := by
    rw [hw,List.length_append]
    omega
  have hdata : (z ++ tail).drop skipped = data ++ tail := by
    rw [List.drop_append_of_le_length (by omega),hdrop]
  simp only [inflateBlock,hstart,← hw,hdata]
  refine ⟨?_,?_,?_,?_⟩
  · dsimp only
    omega
  · dsimp only
    have htake : ((data ++ tail).take w).length = w := by
      rw [List.length_take,List.length_append]
      omega
    rw [List.take_left' htake,List.take_append_of_le_length (by omega)]
  · refine ⟨?_,?_⟩
    · rw [← List.drop_drop,hdrop]
    · rw [List.length_drop]
  · dsimp only
    split
    · next hall => exact .inl ⟨rfl,hall.ge⟩
    · exact .inr ⟨rfl,by omega⟩

/-- A header without optional fields. -/
def plainHeader : MemberHeader :=
  ⟨0,[0,0,0,0,0,3],[],[],[],[0,0],rfl,by decide,by decide,by decide,rfl⟩

/-- The text `hoi` in one block. -/
def hoiBlock : List UInt8 := [1,3,0,252,255,0x68,0x6f,0x69]

theorem inflateGzip_decodes_hoi :
    ∃ outcome d', (inflateGzip inflateBlock (fun _ => none)
        (fuelFor ⟨some 9,[7,7,7,7]⟩ (plainHeader.bytes ++ (hoiBlock ++ [1,2,3,4,3,0,0,0])))
        ⟨some 9,[7,7,7,7]⟩ (plainHeader.bytes ++ (hoiBlock ++ [1,2,3,4,3,0,0,0]))).2 =
          some (outcome,d') ∧
      (outcome = ofData [0x68,0x6f,0x69] ∧ [0x68,0x6f,0x69].length ≤ [7,7,7,7].length ∨
        outcome = .returned (.error .overflow) ∧ [7,7,7,7].length ≤ [0x68,0x6f,0x69].length) :=
  inflateGzip_decodes lawful_inflateBlock streams_inflateBlock
    (fun _ => show BlockLeft none hoiBlock _ from ⟨3,0,252,255,rfl,rfl⟩) (by decide) plainHeader
    ⟨some 9,[7,7,7,7]⟩

end NsPixels.Decompress
