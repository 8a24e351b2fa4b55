import NsPixels.Reqwless.InPlace

/-!
# Body readers over another buffer

The readers of the other framings, and `read_to_end` of a body reader into a buffer of
its own, which is how bodies of a known length and bodies up to the end of the
connection are read.
-/

namespace NsPixels.Reqwless

open Source

/-- The count of bytes wraps around in 32 bits. -/
structure FixedLengthBodyReader (β : Type) where
  rawBody : β
  remaining : UInt32

inductive BodyReader (β : Type)
  | empty
  | fixedLength (reader : FixedLengthBodyReader β)
  | chunked (reader : ChunkedBodyReader β)
  | toEnd (rawBody : β)

namespace BodyReader

variable {β : Type} [Source β UInt8 ErrorKind] (hex : Hex.Codec)

def readFixedLength (cap : ℕ) : EStateM Error (FixedLengthBodyReader β) (List UInt8) := fun r =>
  if r.remaining = 0 then .ok [] r
  else
    match Source.read cap r.rawBody with
    | .ok got rawBody => .ok got ⟨rawBody,r.remaining - UInt32.ofNat got.length⟩
    | .error e rawBody => .error (.network e) { r with rawBody := rawBody }

def read (cap : ℕ) : EStateM Error (BodyReader β) (List UInt8)
  | .empty => .ok [] .empty
  | .fixedLength r =>
    match readFixedLength cap r with
    | .ok got r => .ok got (.fixedLength r)
    | .error e r => .error e (.fixedLength r)
  | .chunked r =>
    match r.read hex cap with
    | .ok got r => .ok got (.chunked r)
    | .error e r => .error e (.chunked r)
  | .toEnd rawBody =>
    match Source.read cap rawBody with
    | .ok got rawBody => .ok got (.toEnd rawBody)
    | .error e rawBody => .error (.network e) (.toEnd rawBody)

omit [Source β UInt8 ErrorKind] in
def isDone : BodyReader β → Bool
  | .empty => true
  | .fixedLength r => r.remaining = 0
  | .chunked r => r.isDone
  | .toEnd _ => false

/-- Read on until the buffer of `cap` bytes is full or a read returns nothing. -/
def readAll (cap : ℕ) (filled : List UInt8) : EStateM Error (BodyReader β) (List UInt8) := fun s =>
  if _hlt : filled.length < cap then
    match read hex (cap - filled.length) s with
    | .error e s' => .error e s'
    | .ok got s' => if _hgot : got = [] then .ok filled s' else readAll cap (filled ++ got) s'
  else .ok filled s
termination_by cap - filled.length
decreasing_by
  have := List.length_pos_of_ne_nil _hgot
  rw [List.length_append]
  omega

/-- A full buffer may hold the whole body; one more read tells. -/
def probe (filled : List UInt8) (rawBody : β) :
    EStateM.Result Error (BodyReader β) (List UInt8) :=
  match Source.read 1 rawBody with
  | .ok [_] rawBody => .error .bufferTooSmall (.toEnd rawBody)
  | .ok _ rawBody => .ok filled (.toEnd rawBody)
  | .error _ rawBody => .ok filled (.toEnd rawBody)

def checkDone (cap : ℕ) (filled : List UInt8) : EStateM Error (BodyReader β) (List UInt8) := fun s =>
  if s.isDone then .ok filled s
  else
    match s with
    | .toEnd rawBody => if filled.length = cap then probe filled rawBody else .ok filled s
    | _ => .error .bufferTooSmall s

/-- Read the entire body into a buffer of `cap` bytes. -/
def readToEnd (cap : ℕ) : EStateM Error (BodyReader β) (List UInt8) := do
  let filled ← readAll hex cap []
  checkDone cap filled

/-! ### Reading on -/

section ReadAll

variable {hex} {s s' : BodyReader β} {cap : ℕ} {filled got : List UInt8}

theorem readAll_full (h : cap ≤ filled.length) : readAll hex cap filled s = .ok filled s := by
  rw [readAll,dif_neg (Nat.not_lt.mpr h)]

theorem readAll_error {e : Error} (hlt : filled.length < cap)
    (h : read hex (cap - filled.length) s = .error e s') :
    readAll hex cap filled s = .error e s' := by
  rw [readAll,dif_pos hlt,h]

theorem readAll_nil (hlt : filled.length < cap) (h : read hex (cap - filled.length) s = .ok [] s') :
    readAll hex cap filled s = .ok filled s' := by
  rw [readAll,dif_pos hlt,h]
  rfl

theorem readAll_next (hlt : filled.length < cap)
    (h : read hex (cap - filled.length) s = .ok got s') (hgot : got ≠ []) :
    readAll hex cap filled s = readAll hex cap (filled ++ got) s' := by
  rw [readAll,dif_pos hlt,h]
  exact dif_neg hgot

/-- What one read keeps, given what it returned, holds when reading on has ended. -/
theorem readAll_invariant {P : List UInt8 → BodyReader β → Prop} {out : List UInt8}
    (hread : ∀ filled s n got s', P filled s → filled.length + n ≤ cap → read hex n s = .ok got s' →
      P (filled ++ got) s')
    (hinit : P filled s) (h : readAll hex cap filled s = .ok out s') : P out s' := by
  induction hn : cap - filled.length using Nat.strongRecOn generalizing filled s with
  | ind n ih =>
    rcases Nat.lt_or_ge filled.length cap with hlt | hle
    · cases hr : read hex (cap - filled.length) s with
      | error e s₁ =>
        rw [readAll_error hlt hr] at h
        cases h
      | ok got s₁ =>
        have hnext := hread filled s _ got s₁ hinit (by omega) hr
        by_cases hgot : got = []
        · subst hgot
          rw [readAll_nil hlt hr] at h
          obtain ⟨rfl,rfl⟩ := EStateM.Result.ok.inj h
          rwa [List.append_nil] at hnext
        · rw [readAll_next hlt hr hgot] at h
          have := List.length_pos_of_ne_nil hgot
          refine ih _ ?_ hnext h rfl
          rw [List.length_append]
          omega
    · rw [readAll_full hle] at h
      obtain ⟨rfl,rfl⟩ := EStateM.Result.ok.inj h
      exact hinit

end ReadAll

/-! ### A known length -/

section FixedLength

variable {hex} {r : FixedLengthBodyReader β} {s' : BodyReader β} {cap : ℕ} {filled body : List UInt8}

omit [Source β UInt8 ErrorKind] in
theorem remaining_eq_zero_iff (hlen : body.length = r.remaining.toNat) :
    r.remaining = 0 ↔ body = [] := by
  rw [← UInt32.toNat_inj,← hlen,← List.length_eq_zero_iff]
  rfl

theorem checkDone_fixedLength : checkDone cap filled (.fixedLength r) =
    if r.remaining = 0 then .ok filled (.fixedLength r)
    else .error .bufferTooSmall (.fixedLength r) := by
  simp only [checkDone,isDone,decide_eq_true_eq]

theorem read_fixedLength_of_zero (h : r.remaining = 0) :
    read hex cap (.fixedLength r) = .ok [] (.fixedLength r) := by
  rw [read,readFixedLength,if_pos h]

theorem read_fixedLength_ok {got : List UInt8} {rawBody : β} (hpos : r.remaining ≠ 0)
    (h : Source.read cap r.rawBody = .ok got rawBody) :
    read hex cap (.fixedLength r) =
      .ok got (.fixedLength ⟨rawBody,r.remaining - UInt32.ofNat got.length⟩) := by
  rw [read,readFixedLength,if_neg hpos,h]

/-- What has been taken and what remains add up to the length. -/
def Counted (r : FixedLengthBodyReader β) (cap : ℕ) (filled : List UInt8) (s : BodyReader β) : Prop :=
  ∃ r', s = .fixedLength r' ∧ Took r.rawBody filled r'.rawBody ∧
    r'.remaining + UInt32.ofNat filled.length = r.remaining ∧ filled.length ≤ cap

theorem Counted.read {s : BodyReader β} {n : ℕ} {got : List UInt8} (h : Counted r cap filled s)
    (hn : filled.length + n ≤ cap) (hread : read hex n s = .ok got s') :
    Counted r cap (filled ++ got) s' := by
  obtain ⟨r₁,rfl,htook,hcount,hle⟩ := h
  by_cases hzero : r₁.remaining = 0
  · rw [read_fixedLength_of_zero hzero] at hread
    obtain ⟨rfl,rfl⟩ := EStateM.Result.ok.inj hread
    rw [List.append_nil]
    exact ⟨r₁,rfl,htook,hcount,hle⟩
  · cases hraw : Source.read n r₁.rawBody with
    | error e rawBody =>
      rw [BodyReader.read,readFixedLength,if_neg hzero,hraw] at hread
      cases hread
    | ok got' rawBody =>
      rw [read_fixedLength_ok hzero hraw] at hread
      obtain ⟨rfl,rfl⟩ := EStateM.Result.ok.inj hread
      obtain ⟨hlen,htook'⟩ := took_of_read_ok hraw
      refine ⟨_,rfl,htook.trans htook',?_,by rw [List.length_append]; omega⟩
      rw [List.length_append,UInt32.ofNat_add,UInt32.add_comm (UInt32.ofNat filled.length),
        ← UInt32.add_assoc,UInt32.sub_add_cancel]
      exact hcount

/-- A body that is returned has the declared length and is what came next, whatever the
connection delivers. -/
theorem readToEnd_fixedLength_ok (hcap : cap < 2 ^ 32)
    (h : readToEnd hex cap (.fixedLength r) = .ok body s') :
    body.length = r.remaining.toNat ∧
      ∃ r', s' = .fixedLength r' ∧ unread r.rawBody = body ++ unread r'.rawBody := by
  obtain ⟨filled,s₁,hall,h⟩ := EStateM.exists_of_bind_eq_ok h
  have hinit : Counted r cap [] (.fixedLength r) := ⟨r,rfl,.refl _,by simp,Nat.zero_le cap⟩
  obtain ⟨r',rfl,htook,hcount,hle⟩ := readAll_invariant
    (P := Counted r cap) (fun _ _ _ _ _ hs hn hr => hs.read hn hr) hinit hall
  rw [checkDone_fixedLength] at h
  split at h
  · next hzero =>
    obtain ⟨rfl,rfl⟩ := EStateM.Result.ok.inj h
    rw [hzero,UInt32.zero_add] at hcount
    refine ⟨?_,r',rfl,htook.unread⟩
    rw [← hcount,UInt32.toNat_ofNat_of_lt' (lt_of_le_of_lt hle hcap)]
  · cases h

theorem readToEnd_fixedLength_ok_ab :
    let conn : ByteStream UInt8 ErrorKind := ⟨[⟨[97],by decide⟩,⟨[98],by decide⟩,⟨[99],by decide⟩],none⟩
    readToEnd Hex.ascii 5 (.fixedLength ⟨conn,2⟩) =
        .ok [97,98] (.fixedLength ⟨⟨[⟨[99],by decide⟩],none⟩,0⟩) ∧
      ([97,98] : List UInt8).length = (2 : UInt32).toNat :=
  let conn : ByteStream UInt8 ErrorKind := ⟨[⟨[97],by decide⟩,⟨[98],by decide⟩,⟨[99],by decide⟩],none⟩
  have h : readToEnd Hex.ascii 5 (.fixedLength ⟨conn,2⟩) =
      .ok [97,98] (.fixedLength ⟨⟨[⟨[99],by decide⟩],none⟩,0⟩) :=
    (EStateM.bind_of_ok ((readAll_next (by decide) rfl (by decide)).trans
      ((readAll_next (by decide) rfl (by decide)).trans (readAll_nil (by decide) rfl)))).trans rfl
  ⟨h,(readToEnd_fixedLength_ok (by decide) h).1⟩

variable (hex cap filled) in
/-- When the connection has just the body to deliver, it is returned if there is room. -/
theorem readAll_fixedLength (hunread : unread r.rawBody = body)
    (hlen : body.length = r.remaining.toNat) :
    (filled.length + body.length ≤ cap → ∃ r', readAll hex cap filled (.fixedLength r) =
      .ok (filled ++ body) (.fixedLength r') ∧ r'.remaining = 0 ∧ unread r'.rawBody = []) ∧
    (filled.length ≤ cap → cap < filled.length + body.length → ∃ out r',
      readAll hex cap filled (.fixedLength r) = .ok out (.fixedLength r') ∧ r'.remaining ≠ 0) := by
  induction hn : body.length using Nat.strongRecOn generalizing filled r body with
  | ind n ih =>
    have hlt := r.remaining.toNat_lt
    rcases Nat.lt_or_ge filled.length cap with hroom | hfull
    · by_cases hbody : body = []
      · subst hbody
        have hzero := (remaining_eq_zero_iff hlen).mpr rfl
        rw [readAll_nil hroom (read_fixedLength_of_zero hzero),List.append_nil]
        exact ⟨fun _ => ⟨r,rfl,hzero,hunread⟩,fun _ h => by rw [← hn,List.length_nil] at h; omega⟩
      · have hpos := List.length_pos_of_ne_nil hbody
        have hne := mt (remaining_eq_zero_iff hlen).mp hbody
        obtain ⟨got,s₁,hread,hgot,hgotlen,htook⟩ :=
          read_took (show 0 < cap - filled.length by omega) (hunread ▸ hbody)
        obtain ⟨rest,rfl⟩ : ∃ rest, body = got ++ rest := ⟨_,hunread.symm.trans htook.unread⟩
        have hgotpos := List.length_pos_of_ne_nil hgot
        rw [List.length_append] at hlen hn
        have hsub : (r.remaining - UInt32.ofNat got.length).toNat = rest.length := by
          have hgot32 : (UInt32.ofNat got.length).toNat = got.length :=
            UInt32.toNat_ofNat_of_lt' (lt_of_le_of_lt (show _ ≤ r.remaining.toNat by omega) hlt)
          rw [UInt32.toNat_sub_of_le _ _ (UInt32.le_iff_toNat_le.mpr (by omega)),hgot32]
          omega
        rw [readAll_next hroom (read_fixedLength_ok hne hread) hgot]
        have hrec := ih rest.length (by omega) (filled ++ got)
          (r := ⟨s₁,r.remaining - UInt32.ofNat got.length⟩) (htook.unread_eq hunread) hsub.symm rfl
        rw [List.length_append,List.append_assoc] at hrec
        exact ⟨fun h => hrec.1 (by omega),fun _ h => hrec.2 (by omega) (by omega)⟩
    · rw [readAll_full hfull]
      constructor
      · intro h
        obtain rfl := List.length_eq_zero_iff.mp (show body.length = 0 by omega)
        rw [List.append_nil]
        exact ⟨r,rfl,(remaining_eq_zero_iff hlen).mpr rfl,hunread⟩
      · intro hle h
        refine ⟨filled,r,rfl,mt (remaining_eq_zero_iff hlen).mp ?_⟩
        exact List.ne_nil_of_length_pos (by omega)

variable (hex cap) in
theorem readToEnd_fixedLength (hunread : unread r.rawBody = body)
    (hlen : body.length = r.remaining.toNat) :
    (body.length ≤ cap → ∃ r', readToEnd hex cap (.fixedLength r) = .ok body (.fixedLength r') ∧
      unread r'.rawBody = []) ∧
    (cap < body.length → ∃ s', readToEnd hex cap (.fixedLength r) = .error .bufferTooSmall s') := by
  obtain ⟨hok,hsmall⟩ := readAll_fixedLength hex cap [] hunread hlen
  rw [List.length_nil,Nat.zero_add] at hok hsmall
  constructor
  · intro h
    obtain ⟨r',hall,hzero,hrest⟩ := hok h
    refine ⟨r',?_,hrest⟩
    rw [readToEnd,EStateM.bind_of_ok hall,checkDone_fixedLength,if_pos hzero]
    rfl
  · intro h
    obtain ⟨out,r',hall,hzero⟩ := hsmall (Nat.zero_le cap) h
    refine ⟨.fixedLength r',?_⟩
    rw [readToEnd,EStateM.bind_of_ok hall,checkDone_fixedLength,if_neg hzero]

end FixedLength

end BodyReader

/-! ### Chunks -/

namespace ChunkedBodyReader

variable {β : Type} [Source β UInt8 ErrorKind] {hex : Hex.Codec} {r : ChunkedBodyReader β} {cap : ℕ}
  {body wire tail : List UInt8}

/-- A read of a coded body returns some of it, until there is none. -/
theorem read_append (hcap : 0 < cap) (hclosing : closing r.rawBody = none)
    (hrest : Rest hex r.chunkRemaining body wire) (h : unread r.rawBody = wire ++ tail) :
    ∃ got r' body' wire', read hex cap r = .ok got r' ∧ body = got ++ body' ∧
      Rest hex r'.chunkRemaining body' wire' ∧ unread r'.rawBody = wire' ++ tail ∧
      closing r'.rawBody = none ∧ got.length ≤ cap ∧
      (got = [] ↔ r'.chunkRemaining = .empty) := by
  obtain ⟨n,r₁,head,wire',hboundary,rfl,htook,hstate,hrest⟩ := handleChunkBoundary_append hrest h
  rw [List.append_assoc] at h
  have hunread := htook.unread_eq h
  have hclosing₁ := htook.closing.trans hclosing
  have hread : ∀ got s, Source.read (min cap n) r₁.rawBody = .ok got s → read hex cap r =
      .ok got ⟨s,(r₁.chunkRemaining.consume got.length).1⟩ := by
    intro got s hgot
    rw [read,EStateM.bind_of_ok hboundary]
    exact (EStateM.bind_of_ok (onRawBody_ok hgot)).trans rfl
  rcases Nat.eq_zero_or_pos n with rfl | hpos
  · -- nothing is asked for past the last chunk
    have hzero : Source.read (min cap 0) r₁.rawBody = .ok [] r₁.rawBody := by
      rw [Nat.min_zero]
      by_cases hnil : unread r₁.rawBody = []
      · rw [read_end hnil,hclosing₁]
        rfl
      · exact read_zero hnil
    cases hrest
    have hempty : (r₁.chunkRemaining.consume 0).1 = .empty := by
      rw [hstate]
      rfl
    refine ⟨[],_,[],[],hread _ _ hzero,rfl,?_,hunread,hclosing₁,Nat.zero_le cap,?_⟩
    · exact hempty ▸ .empty
    · exact iff_of_true rfl hempty
  · rw [ofLen_of_pos hpos] at hstate hrest
    have hne : unread r₁.rawBody ≠ [] := by
      rw [hunread]
      cases hrest with
      | notEmpty hdata _ =>
        exact List.append_ne_nil_of_left_ne_nil (List.append_ne_nil_of_left_ne_nil
          (List.append_ne_nil_of_left_ne_nil (List.ne_nil_of_length_pos (hdata ▸ hpos)) _) _) _
    obtain ⟨got,s,hgot,hgotne,hgotlen,htook'⟩ := read_took (show 0 < min cap n by omega) hne
    obtain ⟨body',wire',rfl,rfl,hrest'⟩ :=
      exists_rest_of_front hrest (by omega) (hunread.symm.trans htook'.unread)
    have hstate' : (r₁.chunkRemaining.consume got.length).1 = .notEmpty (n - got.length) := by
      rw [hstate,ChunkState.consume,Nat.min_eq_left (by omega)]
    rw [List.append_assoc] at hunread
    refine ⟨got,_,body',wire',hread got s hgot,rfl,?_,htook'.unread_eq hunread,
      htook'.closing.trans hclosing₁,by omega,?_⟩
    · exact hstate' ▸ hrest'
    · apply iff_of_false hgotne
      rw [hstate']
      exact fun h => by cases h

end ChunkedBodyReader

namespace BodyReader

section Chunked

variable {β : Type} [Source β UInt8 ErrorKind] {hex : Hex.Codec} {r : ChunkedBodyReader β} {cap : ℕ}
  {filled body wire tail : List UInt8}

variable (cap filled) in
theorem readAll_chunked (hgoing : r.chunkRemaining ≠ .empty) (hclosing : closing r.rawBody = none)
    (hrest : Rest hex r.chunkRemaining body wire) (h : unread r.rawBody = wire ++ tail) :
    (filled.length + body.length < cap → ∃ r', readAll hex cap filled (.chunked r) =
      .ok (filled ++ body) (.chunked r') ∧ r'.chunkRemaining = .empty ∧ unread r'.rawBody = tail) ∧
    (cap ≤ filled.length + body.length → ∃ out r', readAll hex cap filled (.chunked r) =
      .ok out (.chunked r') ∧ r'.chunkRemaining ≠ .empty) := by
  induction hn : body.length using Nat.strongRecOn generalizing filled r body wire with
  | ind n ih =>
    rcases Nat.lt_or_ge filled.length cap with hroom | hfull
    · obtain ⟨got,r₁,body',wire',hread,rfl,hrest',h',hclosing',hlen,hdone⟩ :=
        ChunkedBodyReader.read_append (show 0 < cap - filled.length by omega) hclosing hrest h
      have hread' : read hex (cap - filled.length) (.chunked r) = .ok got (.chunked r₁) := by
        rw [read,hread]
      rw [List.length_append] at hn
      by_cases hgot : got = []
      · have hempty := hdone.mp hgot
        rw [hempty] at hrest'
        subst hgot
        cases hrest'
        rw [readAll_nil hroom hread',← hn,List.append_nil,List.append_nil]
        exact ⟨fun _ => ⟨r₁,rfl,hempty,h'⟩,fun hle => by simp only [List.length_nil] at hle; omega⟩
      · have hpos := List.length_pos_of_ne_nil hgot
        have hrec := ih body'.length (by omega) (filled ++ got) (mt hdone.mpr hgot) hclosing'
          hrest' h' rfl
        rw [List.length_append,List.append_assoc] at hrec
        rw [readAll_next hroom hread' hgot]
        exact ⟨fun hlt => hrec.1 (by omega),fun hle => hrec.2 (by omega)⟩
    · rw [readAll_full hfull]
      exact ⟨fun hlt => by omega,fun _ => ⟨filled,r,rfl,hgoing⟩⟩

theorem checkDone_chunked : checkDone cap filled (.chunked r) =
    if r.chunkRemaining = .empty then .ok filled (.chunked r)
    else .error .bufferTooSmall (.chunked r) := by
  simp only [checkDone,isDone,ChunkedBodyReader.isDone,decide_eq_true_eq]

variable (cap) in
/-- The plain reader of a chunked body. -/
theorem readToEnd_chunked {rawBody : β} (hclosing : closing rawBody = none)
    (hcoded : Coded hex body wire) (h : unread rawBody = wire ++ tail) :
    (body.length < cap → ∃ r', readToEnd hex cap (.chunked (.new rawBody)) =
      .ok body (.chunked r') ∧ unread r'.rawBody = tail) ∧
    (cap ≤ body.length → ∃ s', readToEnd hex cap (.chunked (.new rawBody)) =
      .error .bufferTooSmall s') := by
  obtain ⟨hok,hsmall⟩ := readAll_chunked (r := .new rawBody) cap []
    (fun h => by cases h) hclosing (.noChunk hcoded) h
  rw [List.length_nil,Nat.zero_add] at hok hsmall
  constructor
  · intro hlt
    obtain ⟨r',hall,hempty,htail⟩ := hok hlt
    refine ⟨r',?_,htail⟩
    rw [readToEnd,EStateM.bind_of_ok hall,checkDone_chunked,if_pos hempty]
    rfl
  · intro hle
    obtain ⟨out,r',hall,hgoing⟩ := hsmall hle
    refine ⟨.chunked r',?_⟩
    rw [readToEnd,EStateM.bind_of_ok hall,checkDone_chunked,if_neg hgoing]

/-- Decoding a body in place gives what reading it into a second buffer of the same size
gives: the body if it is shorter than the buffer, and else the error that the buffer is too small. -/
theorem readToEnd_inPlace_eq {σ : Type} [TryBufRead σ] {r : BufferingReader σ} {fuel : ℕ}
    (hclosing : closing r.stream = none) (hcoded : Coded hex body wire) (h : r.toCome = wire ++ tail)
    (hfuel : body.length < fuel) :
    let outcome : Except Error (List UInt8) :=
      if body.length < r.buffer.buffer.length then .ok body else .error .bufferTooSmall
    (ChunkedBodyReader.readToEnd hex fuel (.new r)).map EStateM.Result.value = some outcome ∧
      (readToEnd hex r.buffer.buffer.length (.chunked (.new r))).value = outcome := by
  intro outcome
  obtain ⟨hfit,hsmall⟩ := readToEnd_chunked r.buffer.buffer.length
    (show closing r = none from hclosing) hcoded h
  obtain ⟨hfit',hsmall'⟩ := ChunkedBodyReader.readToEnd_coded hcoded h hfuel
  rcases Nat.lt_or_ge body.length r.buffer.buffer.length with hlt | hge
  · have houtcome : outcome = .ok body := if_pos hlt
    obtain ⟨s,hplain,-⟩ := hfit hlt
    obtain ⟨r',hinPlace⟩ := hfit' hlt
    rw [hplain,hinPlace,houtcome]
    exact ⟨rfl,rfl⟩
  · have houtcome : outcome = .error .bufferTooSmall := if_neg (Nat.not_lt_of_le hge)
    obtain ⟨s,hplain⟩ := hsmall hge
    obtain ⟨r',hinPlace⟩ := hsmall' hge
    rw [hplain,hinPlace,houtcome]
    exact ⟨rfl,rfl⟩

/-- `ab` as one chunk, in two reads of the connection, into a buffer of three bytes and into one
of two. -/
theorem readToEnd_inPlace_eq_ab :
    let incoming : ByteStream UInt8 ErrorKind :=
      ⟨[⟨[50,13,10,97],by decide⟩,⟨[98,13,10,48,13,10,13,10],by decide⟩],none⟩
    let r : BufferingReader (ByteStream UInt8 ErrorKind) := ⟨⟨[0,0,0],0,Nat.zero_le _⟩,incoming⟩
    let r' : BufferingReader (ByteStream UInt8 ErrorKind) := ⟨⟨[0,0],0,Nat.zero_le _⟩,incoming⟩
    ((ChunkedBodyReader.readToEnd Hex.ascii 3 (.new r)).map EStateM.Result.value =
        some (.ok [97,98]) ∧ (readToEnd Hex.ascii 3 (.chunked (.new r))).value = .ok [97,98]) ∧
      (ChunkedBodyReader.readToEnd Hex.ascii 3 (.new r')).map EStateM.Result.value =
        some (.error .bufferTooSmall) ∧
      (readToEnd Hex.ascii 2 (.chunked (.new r'))).value = .error .bufferTooSmall :=
  ⟨readToEnd_inPlace_eq rfl coded_ab (show _ = _ ++ [] by decide) (by decide),
    readToEnd_inPlace_eq rfl coded_ab (show _ = _ ++ [] by decide) (by decide)⟩

end Chunked

end BodyReader

end NsPixels.Reqwless
