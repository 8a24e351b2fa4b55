import NsPixels.Reqwless.InPlace

/-!
# Bodies cut short within a chunk

A connection that ends before the data of a chunk is complete. The reader in place asks
it for the rest over and over.
-/

namespace NsPixels.Reqwless

open Source

/-- A coding that breaks off within the data of a chunk, and the body up to there. -/
inductive CutInData (hex : Hex.Codec) : List UInt8 → List UInt8 → Prop
  | here {digits data : List UInt8} {n : ℕ} (h : SizeLine hex digits n) (hdata : data.length < n) :
    CutInData hex data (digits ++ newline ++ data)
  | later {digits data body wire : List UInt8} (h : SizeLine hex digits data.length)
      (hdata : data ≠ []) (hrest : CutInData hex body wire) :
    CutInData hex (data ++ body) (digits ++ newline ++ (data ++ newline ++ wire))

/-- What is left of such a coding in a state of the reader. -/
inductive RestCut (hex : Hex.Codec) : ChunkState → List UInt8 → List UInt8 → Prop
  | noChunk {body wire : List UInt8} (h : CutInData hex body wire) : RestCut hex .noChunk body wire
  | within {data : List UInt8} {n : ℕ} (h : data.length < n) : RestCut hex (.notEmpty n) data data
  | before {data body wire : List UInt8} {n : ℕ} (hlen : data.length = n)
      (h : CutInData hex body wire) :
    RestCut hex (.notEmpty n) (data ++ body) (data ++ newline ++ wire)

namespace ChunkedBodyReader

section Boundary

variable {β : Type} [Source β UInt8 ErrorKind] {hex : Hex.Codec} {r : ChunkedBodyReader β}
  {digits body wire tail : List UInt8} {n : ℕ}

/-- The start of a chunk with data. -/
theorem startChunk_of_size (hsize : SizeLine hex digits n) (hpos : 0 < n)
    (h : unread r.rawBody = digits ++ newline ++ tail) :
    ∃ r', (readNextChunkLength hex >>= fun _ => enterChunk) r = .ok n r' ∧
      Took r.rawBody (digits ++ newline) r'.rawBody ∧ r'.chunkRemaining = .notEmpty n := by
  obtain ⟨r',hlen,htook,hstate⟩ := readNextChunkLength_append hsize h
  rw [ofLen_of_pos hpos] at hstate
  refine ⟨r',?_,htook,hstate⟩
  rw [EStateM.bind_of_ok hlen,enterChunk_of_ne (by rw [hstate]; exact fun h => by cases h),hstate]
  rfl

theorem startChunk_cut (hcut : CutInData hex body wire) (h : unread r.rawBody = wire) :
    ∃ n r' head wire', (readNextChunkLength hex >>= fun _ => enterChunk) r = .ok n r' ∧ 0 < n ∧
      wire = head ++ wire' ∧ Took r.rawBody head r'.rawBody ∧ r'.chunkRemaining = .notEmpty n ∧
      RestCut hex (.notEmpty n) body wire' := by
  cases hcut with
  | here hsize hdata =>
    obtain ⟨r',hstart,htook,hstate⟩ := startChunk_of_size hsize (Nat.zero_lt_of_lt hdata) h
    exact ⟨_,r',_,_,hstart,Nat.zero_lt_of_lt hdata,rfl,htook,hstate,.within hdata⟩
  | later hsize hdata hrest =>
    have hpos := List.length_pos_of_ne_nil hdata
    obtain ⟨r',hstart,htook,hstate⟩ := startChunk_of_size hsize hpos h
    exact ⟨_,r',_,_,hstart,hpos,rfl,htook,hstate,.before rfl hrest⟩

theorem handleChunkBoundary_cut (hcut : RestCut hex r.chunkRemaining body wire)
    (h : unread r.rawBody = wire) :
    ∃ n r' head wire', handleChunkBoundary hex r = .ok n r' ∧ 0 < n ∧ wire = head ++ wire' ∧
      Took r.rawBody head r'.rawBody ∧ r'.chunkRemaining = .notEmpty n ∧
      RestCut hex (.notEmpty n) body wire' := by
  have hwithin : ∀ n, 0 < n → r.chunkRemaining = .notEmpty n → handleChunkBoundary hex r = .ok n r := by
    intro n hpos hstate
    obtain ⟨n,rfl⟩ := Nat.exists_eq_succ_of_ne_zero (Nat.ne_of_gt hpos)
    unfold handleChunkBoundary
    rw [hstate]
    change enterChunk r = _
    rw [enterChunk_of_ne (by rw [hstate]; exact fun h => by cases h),hstate]
    rfl
  cases hstate : r.chunkRemaining with
  | noChunk =>
    rw [hstate] at hcut
    cases hcut with
    | noChunk hcut =>
      unfold handleChunkBoundary
      rw [hstate]
      exact startChunk_cut hcut h
  | empty =>
    rw [hstate] at hcut
    cases hcut
  | notEmpty n =>
    rw [hstate] at hcut
    cases hcut with
    | within hlt =>
      have hpos := Nat.zero_lt_of_lt hlt
      exact ⟨n,r,[],_,hwithin n hpos hstate,hpos,rfl,.refl _,hstate,.within hlt⟩
    | before hlen hcut =>
      rcases Nat.eq_zero_or_pos n with rfl | hpos
      · obtain rfl := List.length_eq_zero_iff.mp hlen
        rw [List.nil_append] at h
        obtain ⟨r₁,hend,hmoved⟩ := readChunkEnd_append h
        obtain ⟨n,r₂,head,wire',hstart,hpos,rfl,htook,hstate',hrest⟩ :=
          startChunk_cut hcut (hmoved.took.unread_eq h)
        refine ⟨n,r₂,newline ++ head,wire',?_,hpos,?_,hmoved.took.trans htook,hstate',hrest⟩
        · unfold handleChunkBoundary
          rw [hstate]
          exact (EStateM.bind_of_ok hend).trans hstart
        · rw [List.nil_append,List.append_assoc]
      · exact ⟨n,r,[],_,hwithin n hpos hstate,hpos,rfl,.refl _,hstate,.before hlen hcut⟩

end Boundary

/-- The front of the bytes to come, within a chunk. -/
theorem exists_restCut_of_front {hex : Hex.Codec} {body got u : List UInt8} {n : ℕ}
    (hcut : RestCut hex (.notEmpty n) body (got ++ u)) (hlen : got.length ≤ n) :
    ∃ body', body = got ++ body' ∧ RestCut hex (.notEmpty (n - got.length)) body' u := by
  generalize hwire : got ++ u = wire at hcut
  cases hcut with
  | within hlt =>
    subst hwire
    refine ⟨u,rfl,.within ?_⟩
    rw [List.length_append] at hlt
    omega
  | @before data body wire _ hdata hcut =>
    have hfront : got <+: data := by
      refine List.prefix_of_prefix_length_le ⟨u,hwire⟩ ?_ (hlen.trans_eq hdata.symm)
      exact ⟨newline ++ wire,by rw [List.append_assoc]⟩
    obtain ⟨data,rfl⟩ := hfront
    simp only [List.append_assoc] at hwire ⊢
    refine ⟨data ++ body,rfl,?_⟩
    rw [List.append_cancel_left hwire,← List.append_assoc]
    refine .before ?_ hcut
    rw [List.length_append] at hdata
    omega

section Turn

variable {σ : Type} [TryBufRead σ] {hex : Hex.Codec} {r : ChunkedBodyReader (BufferingReader σ)}
  {body wire : List UInt8} {t : InPlace σ}

/-- On a coding cut short `fillBuf` hands out data while there is some; then it hands
out nothing or fails, as the connection does. -/
theorem fillBuf_cut (hroom : r.rawBody.buffer.buffer ≠ [])
    (hcut : RestCut hex r.chunkRemaining body wire) (h : r.rawBody.toCome = wire) :
    (∃ n read r' head wire', fillBuf hex r = .ok read r' ∧ wire = head ++ wire' ∧
      BufferingReader.Ahead r.rawBody head r'.rawBody ∧ r'.chunkRemaining = .notEmpty n ∧
      read = r'.rawBody.buffer.ready.take n ∧ RestCut hex (.notEmpty n) body wire' ∧
      (read = [] → wire' = [] ∧ closing r.rawBody.stream = none)) ∨
    ∃ e r', closing r.rawBody.stream = some e ∧ fillBuf hex r = .error (.network e) r' ∧
      ∃ n, RestCut hex (.notEmpty n) body [] := by
  obtain ⟨n,r₁,head,wire',hboundary,hpos,rfl,htook,hstate,hrest⟩ := handleChunkBoundary_cut hcut h
  have hahead := BufferingReader.Ahead.of_took htook
  have hcome : r₁.rawBody.toCome = wire' := htook.unread_eq h
  -- the data, whatever the connection hands out
  have hok : ∀ got r₂, BufferingReader.fillBuf r₁.rawBody = .ok got r₂ →
      (got = [] → wire' = [] ∧ closing r.rawBody.stream = none) →
      ∃ n read r' head₁ wire₁, fillBuf hex r = .ok read r' ∧ head ++ wire' = head₁ ++ wire₁ ∧
        BufferingReader.Ahead r.rawBody head₁ r'.rawBody ∧ r'.chunkRemaining = .notEmpty n ∧
        read = r'.rawBody.buffer.ready.take n ∧ RestCut hex (.notEmpty n) body wire₁ ∧
        (read = [] → wire₁ = [] ∧ closing r.rawBody.stream = none) := by
    intro got r₂ hfill hgot
    obtain ⟨rfl,hahead'⟩ := BufferingReader.fillBuf_ok hfill
    have hall := hahead.trans hahead'
    rw [List.append_nil] at hall
    refine ⟨n,_,⟨r₂,r₁.chunkRemaining⟩,head,wire',?_,rfl,hall,hstate,rfl,hrest,fun hnil => hgot ?_⟩
    · apply (EStateM.bind_of_ok hboundary).trans
      rw [if_neg (Nat.ne_of_gt hpos)]
      exact (EStateM.bind_of_ok (onRawBody_ok hfill)).trans rfl
    · exact (List.take_eq_nil_iff.mp hnil).resolve_left (Nat.ne_of_gt hpos)
  by_cases hnil : wire' = []
  · subst hnil
    obtain ⟨r₂,hfill⟩ := BufferingReader.fillBuf_end hcome
    cases hclosing : closing r₁.rawBody.stream with
    | none =>
      rw [hclosing] at hfill
      exact .inl (hok [] r₂ hfill fun _ => ⟨rfl,hahead.closing.symm.trans hclosing⟩)
    | some e =>
      rw [hclosing] at hfill
      refine .inr ⟨e,⟨r₂,r₁.chunkRemaining⟩,hahead.closing.symm.trans hclosing,?_,n,hrest⟩
      apply (EStateM.bind_of_ok hboundary).trans
      rw [if_neg (Nat.ne_of_gt hpos)]
      exact EStateM.bind_of_error (onRawBody_error hfill)
  · have hroom' : r₁.rawBody.buffer.buffer ≠ [] := by
      rw [← List.length_pos_iff,hahead.length,List.length_pos_iff]
      exact hroom
    obtain ⟨got,r₂,hfill,hgot⟩ := BufferingReader.fillBuf_of_ne_nil hroom' (hcome ▸ hnil)
    exact .inl (hok got r₂ hfill fun h => absurd h hgot)

/-- A turn on a coding cut short, when the connection has ended: the loop goes on. -/
theorem turn_cut (hroom : body.length < t.reader.rawBody.buffer.buffer.length)
    (hcut : RestCut hex t.reader.chunkRemaining body wire) (h : t.reader.rawBody.toCome = wire) :
    (∃ t' read body' wire', turn hex t = ([],.inl t') ∧ body = read ++ body' ∧
      body'.length < t'.reader.rawBody.buffer.buffer.length ∧
      RestCut hex t'.reader.chunkRemaining body' wire' ∧ t'.reader.rawBody.toCome = wire' ∧
      closing t'.reader.rawBody.stream = closing t.reader.rawBody.stream ∧
      (read = [] → closing t.reader.rawBody.stream = none)) ∨
    ∃ e r', closing t.reader.rawBody.stream = some e ∧
      turn hex t = ([],.inr (.error (.network e) r')) := by
  have hroom' : t.reader.rawBody.buffer.buffer ≠ [] :=
    List.ne_nil_of_length_pos (Nat.zero_lt_of_lt hroom)
  rcases fillBuf_cut hroom' hcut h with
    ⟨n,read,r,head,wire',hfill,rfl,hahead,hstate,hread,hrest,hnil⟩ | ⟨e,r,hclosing,hfill,-⟩
  · obtain ⟨t',hturn,-,-,hstate',hcome,hstream,hroom₁⟩ := turn_next hroom' hfill hstate hread
    have hle : read.length ≤ n := by
      rw [hread,List.length_take]
      exact Nat.min_le_left _ _
    have hcome' : wire' = read ++ t'.reader.rawBody.toCome := by
      rw [← hcome]
      exact List.append_cancel_left (h.symm.trans hahead.toCome)
    rw [hcome'] at hrest
    obtain ⟨body',rfl,hrest'⟩ := exists_restCut_of_front hrest hle
    refine .inl ⟨t',read,body',_,hturn,rfl,?_,hstate' ▸ hrest',rfl,?_,fun h => (hnil h).2⟩
    · rw [List.length_append] at hroom
      have := hahead.length
      omega
    · rw [hstream,hahead.closing]
  · exact .inr ⟨e,r,hclosing,turn_error hroom' hfill⟩

/-- With the connection at its end, no number of turns leaves the loop. -/
theorem run_cut_none {fuel : ℕ} (hclosing : closing t.reader.rawBody.stream = none)
    (hroom : body.length < t.reader.rawBody.buffer.buffer.length)
    (hcut : RestCut hex t.reader.chunkRemaining body wire) (h : t.reader.rawBody.toCome = wire) :
    (Loop.run (turn hex) fuel t).2 = none := by
  induction fuel generalizing t body wire with
  | zero => rfl
  | succ fuel ih =>
    rcases turn_cut hroom hcut h with ⟨t',read,body',wire',hturn,-,hroom',hcut',hcome,hclosing',-⟩ |
      ⟨e,r',he,-⟩
    · rw [Loop.run_of_next hturn]
      exact ih (hclosing'.trans hclosing) hroom' hcut' hcome
    · rw [hclosing] at he
      cases he

/-- With the connection broken, its error is returned. -/
theorem run_cut_error {fuel : ℕ} {e : ErrorKind}
    (hclosing : closing t.reader.rawBody.stream = some e)
    (hroom : body.length < t.reader.rawBody.buffer.buffer.length)
    (hcut : RestCut hex t.reader.chunkRemaining body wire) (h : t.reader.rawBody.toCome = wire)
    (hfuel : body.length < fuel) :
    ∃ r', (Loop.run (turn hex) fuel t).2 = some (.error (.network e) r') := by
  induction fuel generalizing t body wire with
  | zero => omega
  | succ fuel ih =>
    rcases turn_cut hroom hcut h with
      ⟨t',read,body',wire',hturn,rfl,hroom',hcut',hcome,hclosing',hnil⟩ | ⟨e',r',he,hturn⟩
    · have hread : read ≠ [] := by
        intro hread
        rw [hnil hread] at hclosing
        cases hclosing
      have hpos := List.length_pos_of_ne_nil hread
      rw [List.length_append] at hfuel
      rw [Loop.run_of_next hturn]
      exact ih (hclosing'.trans hclosing) hroom' hcut' hcome (by omega)
    · rw [hclosing,Option.some.injEq] at he
      rw [he]
      exact ⟨r',by rw [Loop.run_of_exit hturn]⟩

end Turn

/-- A body cut short within the data of a chunk, by a connection that has ended: the
reader in place never returns. By a broken one: it returns the error. -/
theorem readToEnd_cutInData {σ : Type} [TryBufRead σ] {hex : Hex.Codec} {r : BufferingReader σ}
    {body wire : List UInt8} (hcut : CutInData hex body wire) (h : r.toCome = wire)
    (hroom : body.length < r.buffer.buffer.length) :
    (closing r.stream = none → ∀ fuel, readToEnd hex fuel (new r) = none) ∧
    ∀ e, closing r.stream = some e → ∀ fuel, body.length < fuel →
      ∃ r', readToEnd hex fuel (new r) = some (.error (.network e) r') := by
  constructor
  · exact fun hclosing fuel =>
      run_cut_none (t := ⟨[],new r,0⟩) hclosing hroom (.noChunk hcut) h
  · exact fun e hclosing fuel hfuel =>
      run_cut_error (t := ⟨[],new r,0⟩) hclosing hroom (.noChunk hcut) h hfuel

/-- Two of five bytes. -/
theorem readToEnd_cutInData_ab :
    let r (e : Option ErrorKind) : BufferingReader (ByteStream UInt8 ErrorKind) :=
      ⟨⟨[0,0,0],0,Nat.zero_le _⟩,⟨[⟨[53,13,10,97,98],by decide⟩],e⟩⟩
    (∀ fuel, readToEnd Hex.ascii fuel (new (r none)) = none) ∧
      ∃ r', readToEnd Hex.ascii 3 (new (r (some .connectionReset))) =
        some (.error (.network .connectionReset) r') :=
  have hcut : CutInData Hex.ascii [97,98] [53,13,10,97,98] :=
    .here (show SizeLine Hex.ascii [53] 5 from ⟨by decide,[0,0,0,5],by decide,by decide⟩) (by decide)
  ⟨(readToEnd_cutInData hcut (by decide) (by decide)).1 rfl,
    (readToEnd_cutInData hcut (by decide) (by decide)).2 _ rfl 3 (by decide)⟩

end ChunkedBodyReader

end NsPixels.Reqwless
