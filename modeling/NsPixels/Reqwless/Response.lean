import NsPixels.Lib.FixedCap
import NsPixels.Reqwless.BodyReader
import NsPixels.Text

/-!
# Responses

`Response::read` and the choice of the body reader. The parser of response headers is a
parameter: it tells whether the bytes so far are malformed, a part of a header, or
begin with a whole one.
-/

namespace NsPixels.Reqwless

open Source FixedCap

/-- What the header parser finds: the status code and the fields in order. -/
structure ParsedResponse where
  code : UInt16
  headers : List (List UInt8 × List UInt8)

/-- `httparse::Response::parse`; with a whole header comes its length. -/
abbrev HeaderParser := List UInt8 → Except Unit (Option (ℕ × ParsedResponse))

/-! ### Header fields -/

def ascii (s : String) : List UInt8 := s.toList.map fun c => UInt8.ofNat c.toNat

def asciiLowercase (b : UInt8) : UInt8 := if 65 ≤ b && b ≤ 90 then b + 32 else b

def eqIgnoreAsciiCase (a b : List UInt8) : Bool := a.map asciiLowercase = b.map asciiLowercase

inductive ContentType
  | textHtml
  | textPlain
  | applicationJson
  | applicationCbor
  | applicationOctetStream
deriving DecidableEq

def ContentType.ofBytes (value : List UInt8) : ContentType :=
  if value = ascii "application/json" then applicationJson
  else if value = ascii "application/cbor" then applicationCbor
  else if value = ascii "text/html" then textHtml
  else if value = ascii "text/plain" then textPlain
  else applicationOctetStream

inductive TransferEncoding
  | chunked
  | compress
  | deflate
  | gzip
deriving DecidableEq

def TransferEncoding.ofBytes? (value : List UInt8) : Option TransferEncoding :=
  if value = ascii "chunked" then some chunked
  else if value = ascii "compress" then some compress
  else if value = ascii "deflate" then some deflate
  else if value = ascii "gzip" then some gzip
  else none

structure KeepAlive where
  timeout : Option UInt8
  max : Option UInt8
deriving DecidableEq

def fromUtf8 (value : List UInt8) : Option (List Char) :=
  (String.fromUTF8? ⟨value.toArray⟩).map String.toList

/-- `str::parse` of a `u8`. -/
def parseU8 (s : List Char) : Option UInt8 :=
  (parseU32 s).bind fun n => if n < 256 then some n.toUInt8 else none

/-- One part of the field, a key and a value; of two parts with one key the last counts. -/
def KeepAlive.part (k : KeepAlive) (part : List Char) : KeepAlive :=
  match (part.splitOn '=').map trim with
  | key :: value :: _ =>
    if eqIgnoreAsciiCase (key.flatMap String.utf8EncodeChar) (ascii "timeout") then
      { k with timeout := parseU8 value }
    else if eqIgnoreAsciiCase (key.flatMap String.utf8EncodeChar) (ascii "max") then
      { k with max := parseU8 value }
    else k
  | _ => k

def KeepAlive.ofBytes? (value : List UInt8) : Option KeepAlive :=
  (fromUtf8 value).map fun s => (s.splitOn ',').foldl KeepAlive.part ⟨none,none⟩

/-- The known fields of a header. -/
structure Fields where
  contentType : Option ContentType
  contentLength : Option UInt32
  transferEncoding : Vec TransferEncoding 4
  keepAlive : Option KeepAlive
deriving DecidableEq

def Fields.empty : Fields := ⟨none,none,.empty,none⟩

/-- Take in one field. -/
def Fields.header (f : Fields) (h : List UInt8 × List UInt8) : Option Fields :=
  if eqIgnoreAsciiCase h.1 (ascii "content-type") then
    some { f with contentType := some (.ofBytes h.2) }
  else if eqIgnoreAsciiCase h.1 (ascii "content-length") then
    ((fromUtf8 h.2).bind parseU32).map fun n => { f with contentLength := some n }
  else if eqIgnoreAsciiCase h.1 (ascii "transfer-encoding") then
    ((TransferEncoding.ofBytes? h.2).bind f.transferEncoding.push).map fun v =>
      { f with transferEncoding := v }
  else if eqIgnoreAsciiCase h.1 (ascii "keep-alive") then
    (KeepAlive.ofBytes? h.2).map fun k => { f with keepAlive := some k }
  else some f

/-! ### Reading the header -/

inductive Method
  | get
  | put
  | post
  | delete
  | head
  | patch
  | options
  | connect
  | trace
deriving DecidableEq

/-- A response with the buffer of its header, into which the start of the body may have
been read too. -/
structure Response where
  method : Method
  status : UInt16
  fields : Fields
  headerBuf : ReadBuffer
  headerLen : ℕ

namespace ReadBuffer

/-- The buffer after a read into the part behind the loaded bytes. -/
def append (b : ReadBuffer) (got : List UInt8) : ReadBuffer where
  buffer := b.ready ++ got ++ b.buffer.drop (b.loaded + got.length)
  loaded := b.loaded + got.length
  loaded_le := by
    rw [List.length_append,List.length_append,length_ready]
    exact Nat.le_add_right _ _

theorem ready_append (b : ReadBuffer) (got : List UInt8) : (b.append got).ready = b.ready ++ got := by
  have hlen : (b.ready ++ got).length = b.loaded + got.length := by
    rw [List.length_append,length_ready]
  exact (congrArg (fun n => (b.ready ++ got ++ b.buffer.drop (b.loaded + got.length)).take n)
    hlen.symm).trans List.take_left

theorem length_append {b : ReadBuffer} {got : List UInt8}
    (h : got.length ≤ b.buffer.length - b.loaded) :
    (b.append got).buffer.length = b.buffer.length := by
  have hle := b.loaded_le
  simp only [append,List.length_append,List.length_drop,length_ready]
  omega

end ReadBuffer

section Read

variable {σ : Type} [Source σ UInt8 ErrorKind] (parse : HeaderParser)

/-- Read until the header is whole or the buffer is full; the length of the header is 0
in the latter case. -/
def readHead (b : ReadBuffer) : EStateM Error σ (ReadBuffer × ℕ) := fun s =>
  if _hlt : b.loaded < b.buffer.length then
    match Source.read (b.buffer.length - b.loaded) s with
    | .error e s' => .error (.network e) s'
    | .ok got s' =>
      if _hgot : got = [] then .error .connectionAborted s'
      else
        match parse (b.append got).ready with
        | .error _ => .error .codec s'
        | .ok (some (n,_)) => .ok (b.append got,n) s'
        | .ok none => readHead (b.append got) s'
  else .ok (b,0) s
termination_by b.buffer.length - b.loaded
decreasing_by
  have := List.length_pos_of_ne_nil _hgot
  simp only [ReadBuffer.append,List.length_append,List.length_drop,ReadBuffer.length_ready]
  omega

def isInformational (status : UInt16) : Bool := 100 ≤ status && status ≤ 199

def noContent : UInt16 := 204

/-- Responses of these kinds have no body. -/
def bodyless (status : UInt16) : Bool := isInformational status || status = noContent

/-- The fields of a header; `none` when one of them is malformed or the declared length is
not possible, with `raw` bytes of the body already there. -/
def readFields (parsed : ParsedResponse) (raw : ℕ) : Option Fields := do
  let fields ← parsed.headers.foldlM Fields.header Fields.empty
  if bodyless parsed.code ∧ fields.contentLength.getD 0 ≠ 0 then none
  else
    let fields := if bodyless parsed.code then { fields with contentLength := some 0 } else fields
    if fields.contentLength.any (·.toNat < raw) then none else some fields

/-- Read the header, and what comes with it, into the buffer. -/
def Response.read (method : Method) (b : ReadBuffer) : EStateM Error σ Response := do
  let (b,headerLen) ← readHead parse b
  if headerLen = 0 then throw .bufferTooSmall
  else
    match parse (b.ready.take headerLen) with
    | .ok (some (_,parsed)) =>
      match readFields parsed (b.loaded - headerLen) with
      | none => throw .codec
      | some fields => return ⟨method,parsed.code,fields,b,headerLen⟩
    | _ => throw .panicked

end Read

/-! ### The body -/

inductive ReaderHint
  | empty
  | fixedLength (contentLength : UInt32)
  | chunked
  | toEnd
deriving DecidableEq

/-- A declared length counts before a transfer encoding. -/
def Response.hint (resp : Response) : ReaderHint :=
  if resp.method = .head then .empty
  else
    match resp.fields.contentLength with
    | some n => .fixedLength n
    | none => if .chunked ∈ resp.fields.transferEncoding.toList then .chunked else .toEnd

/-- The buffer with the start of the body moved to the front. -/
def Response.bodyBuf (resp : Response) : ReadBuffer := resp.headerBuf.shift resp.headerLen

section Body

variable {σ : Type}

/-- The connection under a body reader; the empty reader has let go of `conn`. -/
def BodyReader.connection (conn : σ) : BodyReader σ → σ
  | .empty => conn
  | .fixedLength r => r.rawBody
  | .chunked r => r.rawBody
  | .toEnd rawBody => rawBody

/-- The bytes in the buffer and the ones read into the part behind them. -/
def ReadBuffer.followedBy (b : ReadBuffer) (conn : σ) :
    EStateM.Result Error (BodyReader σ) (List UInt8) → EStateM.Result Error σ (List UInt8)
  | .ok got s => .ok (b.ready ++ got) (s.connection conn)
  | .error e s => .error e (s.connection conn)

variable [TryBufRead σ] (hex : Hex.Codec)

/-- `ResponseBody::read_to_end`, its loop over chunks cut off after `fuel` turns. -/
def Response.readToEnd (resp : Response) (fuel : ℕ) (conn : σ) :
    Option (EStateM.Result Error σ (List UInt8)) :=
  let b := resp.bodyBuf
  let room := b.buffer.length - b.loaded
  match resp.hint with
  | .empty => some (.ok [] conn)
  | .fixedLength n => some (b.followedBy conn (BodyReader.readToEnd hex room
      (.fixedLength ⟨conn,n - UInt32.ofNat b.loaded⟩)))
  | .chunked => (ChunkedBodyReader.readToEnd hex fuel (.new ⟨b,conn⟩)).map
      (EStateM.Result.mapState fun r => r.rawBody.stream)
  | .toEnd => some (b.followedBy conn (BodyReader.readToEnd hex room (.toEnd conn)))

end Body

/-! ### One exchange -/

/-- The bytes of a whole header, no shorter part of which is one. -/
structure IsHead (parse : HeaderParser) (head : List UInt8) (parsed : ParsedResponse) : Prop where
  ne_nil : head ≠ []
  whole : ∀ tail, parse (head ++ tail) = .ok (some (head.length,parsed))
  cut : ∀ k < head.length, parse (head.take k) = .ok none

/-- A body on the wire, framed as the header says. -/
inductive Framed (hex : Hex.Codec) (parsed : ParsedResponse) : List UInt8 → List UInt8 → Prop
  | bodyless {fields : Fields} (h : parsed.headers.foldlM Fields.header .empty = some fields)
      (hcode : bodyless parsed.code = true) (hlen : fields.contentLength.getD 0 = 0) :
    Framed hex parsed [] []
  | fixed {fields : Fields} {n : UInt32} {body : List UInt8}
      (h : parsed.headers.foldlM Fields.header .empty = some fields)
      (hcode : bodyless parsed.code = false) (hlen : fields.contentLength = some n)
      (hbody : body.length = n.toNat) :
    Framed hex parsed body body
  | chunked {fields : Fields} {body wire : List UInt8}
      (h : parsed.headers.foldlM Fields.header .empty = some fields)
      (hcode : bodyless parsed.code = false) (hlen : fields.contentLength = none)
      (hchunked : .chunked ∈ fields.transferEncoding.toList) (hcoded : Coded hex body wire) :
    Framed hex parsed body wire

section Exchange

variable {σ : Type} [Source σ UInt8 ErrorKind] {parse : HeaderParser} {parsed : ParsedResponse}
  {b : ReadBuffer} {s : σ} {head wire : List UInt8}

/-- However the bytes arrive, the header is found, and what came with it is the start of
the body. -/
theorem readHead_append (hhead : IsHead parse head parsed) (hunread : b.ready ++ unread s = head ++ wire)
    (hload : b.loaded < head.length) (hroom : head.length ≤ b.buffer.length) :
    ∃ b' s' raw, readHead parse b s = .ok (b',head.length) s' ∧ b'.ready = head ++ raw ∧
      wire = raw ++ unread s' ∧ b'.buffer.length = b.buffer.length := by
  induction hn : head.length - b.loaded using Nat.strongRecOn generalizing b s with
  | ind n ih =>
    have hne : unread s ≠ [] := by
      intro hnil
      have := congrArg List.length hunread
      rw [hnil,List.append_nil,List.length_append,ReadBuffer.length_ready] at this
      omega
    obtain ⟨got,s',hread,hgot,hgotlen,htook⟩ :=
      read_took (show 0 < b.buffer.length - b.loaded by omega) hne
    have hpos := List.length_pos_of_ne_nil hgot
    have hready := ReadBuffer.ready_append b got
    have hloaded : (b.append got).loaded = b.loaded + got.length := rfl
    have hlength := ReadBuffer.length_append hgotlen
    have hall : (b.append got).ready ++ unread s' = head ++ wire := by
      rw [hready,List.append_assoc,← htook.unread,hunread]
    rw [readHead,dif_pos (by omega),hread]
    simp only [dif_neg hgot]
    rcases Nat.lt_or_ge (b.append got).loaded head.length with hlt | hge
    · -- the header is not whole yet
      have htake : (b.append got).ready = head.take (b.append got).loaded := by
        have hpre : (b.append got).ready <+: head :=
          List.prefix_of_prefix_length_le ⟨_,hall⟩ ⟨wire,rfl⟩
            (by rw [ReadBuffer.length_ready]; omega)
        rw [List.prefix_iff_eq_take.mp hpre,ReadBuffer.length_ready]
      rw [htake,hhead.cut _ hlt]
      obtain ⟨b',s'',raw,hrun,hb',hwire,hlen'⟩ := ih _ (by omega) hall hlt (by omega) rfl
      exact ⟨b',s'',raw,hrun,hb',hwire,hlen'.trans hlength⟩
    · have hpre : head <+: (b.append got).ready :=
        List.prefix_of_prefix_length_le ⟨wire,rfl⟩ ⟨_,hall⟩
          (by rw [ReadBuffer.length_ready]; exact hge)
      obtain ⟨raw,hraw⟩ := hpre
      rw [← hraw,hhead.whole raw]
      refine ⟨_,s',raw,rfl,hraw.symm,?_,hlength⟩
      rw [← hraw,List.append_assoc] at hall
      exact (List.append_cancel_left hall).symm

/-- The header of a framed answer is accepted. -/
theorem readFields_framed {hex : Hex.Codec} {body raw rest : List UInt8}
    (hframed : Framed hex parsed body wire) (hwire : wire = raw ++ rest) :
    ∃ fields, readFields parsed raw.length = some fields ∧
      ((fields.contentLength = some (UInt32.ofNat body.length) ∧ body.length < 2 ^ 32 ∧ wire = body) ∨
        fields.contentLength = none ∧ .chunked ∈ fields.transferEncoding.toList ∧
          Coded hex body wire) := by
  cases hframed with
  | @bodyless fields h hcode hlen =>
    obtain ⟨rfl,-⟩ := List.append_eq_nil_iff.mp hwire.symm
    refine ⟨{ fields with contentLength := some 0 },?_,.inl ⟨rfl,by decide,rfl⟩⟩
    simp only [readFields,h,Option.bind_eq_bind,Option.bind_some,hcode,hlen]
    rfl
  | @fixed fields n _ h hcode hlen hbody =>
    have hraw : ¬ (fields.contentLength.any (·.toNat < raw.length)) = true := by
      have := congrArg List.length hwire
      rw [List.length_append] at this
      rw [hlen,Option.any_some,decide_eq_true_eq]
      omega
    refine ⟨fields,?_,.inl ⟨?_,?_,rfl⟩⟩
    · simp only [readFields,h,Option.bind_eq_bind,Option.bind_some,hcode,Bool.false_eq_true,
        false_and,if_false]
      exact if_neg hraw
    · rw [hlen,hbody,UInt32.ofNat_toNat]
    · rw [hbody]
      exact n.toNat_lt
  | @chunked fields _ _ h hcode hlen hchunked hcoded =>
    refine ⟨fields,?_,.inr ⟨hlen,hchunked,hcoded⟩⟩
    simp only [readFields,h,Option.bind_eq_bind,Option.bind_some,hcode,Bool.false_eq_true,
      false_and,if_false,hlen]
    rfl

/-- The header of an answer is read, however it arrives; `raw` of its body came with it. -/
theorem read_answer {hex : Hex.Codec} {body : List UInt8} (hhead : IsHead parse head parsed)
    (hframed : Framed hex parsed body wire) (hstart : b.loaded = 0)
    (hunread : unread s = head ++ wire) (hroom : head.length ≤ b.buffer.length) (method : Method) :
    ∃ resp s', Response.read parse method b s = .ok resp s' ∧ resp.status = parsed.code ∧
      resp.method = method ∧ resp.bodyBuf.buffer.length = b.buffer.length ∧
      wire = resp.bodyBuf.ready ++ unread s' ∧
      ((resp.fields.contentLength = some (UInt32.ofNat body.length) ∧ body.length < 2 ^ 32 ∧
          wire = body) ∨
        resp.fields.contentLength = none ∧ .chunked ∈ resp.fields.transferEncoding.toList ∧
          Coded hex body wire) := by
  have hpos := List.length_pos_of_ne_nil hhead.ne_nil
  have hready : b.ready ++ unread s = head ++ wire := by
    rw [ReadBuffer.ready_eq_nil_iff.mpr hstart,List.nil_append,hunread]
  obtain ⟨b',s',raw,hread,hb',hwire,hlength⟩ := readHead_append hhead hready (by omega) hroom
  obtain ⟨fields,hfields,hframe⟩ := readFields_framed hframed hwire
  have hloaded : b'.loaded - head.length = raw.length := by
    rw [← ReadBuffer.length_ready,hb',List.length_append,Nat.add_sub_cancel_left]
  refine ⟨⟨method,parsed.code,fields,b',head.length⟩,s',?_,rfl,rfl,?_,?_,hframe⟩
  · have htake : parse (b'.ready.take head.length) = .ok (some (head.length,parsed)) := by
      rw [hb',List.take_left]
      simpa using hhead.whole []
    rw [Response.read,EStateM.bind_of_ok hread]
    simp only [if_neg (Nat.ne_of_gt hpos),htake,hloaded,hfields]
    rfl
  · exact ReadBuffer.length_shift.trans hlength
  · rw [Response.bodyBuf,ReadBuffer.ready_shift,hb',List.drop_left]
    exact hwire

end Exchange

/-- An answer that arrives on a connection with nothing else unread is read as it was
meant, and nothing of it is left: the connection stays framed. -/
theorem readToEnd_answer {σ : Type} [TryBufRead σ] {parse : HeaderParser} {hex : Hex.Codec}
    {parsed : ParsedResponse} {b : ReadBuffer} {s : σ} {head body wire : List UInt8}
    {method : Method} {fuel : ℕ} (hmethod : method ≠ .head) (hhead : IsHead parse head parsed)
    (hframed : Framed hex parsed body wire) (hstart : b.loaded = 0)
    (hunread : unread s = head ++ wire) (hroom : head.length ≤ b.buffer.length)
    (hbody : body.length < b.buffer.length) (hfuel : body.length < fuel) :
    ∃ resp s₁ s₂, Response.read parse method b s = .ok resp s₁ ∧ resp.status = parsed.code ∧
      resp.readToEnd hex fuel s₁ = some (.ok body s₂) ∧ unread s₂ = [] := by
  obtain ⟨resp,s₁,hread,hstatus,hm,hlength,hwire,hframe⟩ :=
    read_answer hhead hframed hstart hunread hroom method
  obtain ⟨hlen,h32,hwb⟩ | ⟨hlen,hchunked,hcoded⟩ := hframe
  · have hhint : resp.hint = .fixedLength (UInt32.ofNat body.length) := by
      rw [Response.hint,if_neg (hm ▸ hmethod),hlen]
    rw [hwb] at hwire
    have hparts := congrArg List.length hwire
    rw [List.length_append,ReadBuffer.length_ready] at hparts
    have hrest : (unread s₁).length =
        (UInt32.ofNat body.length - UInt32.ofNat resp.bodyBuf.loaded).toNat := by
      have h₁ : (UInt32.ofNat body.length).toNat = body.length := UInt32.toNat_ofNat_of_lt' h32
      have h₂ : (UInt32.ofNat resp.bodyBuf.loaded).toNat = resp.bodyBuf.loaded :=
        UInt32.toNat_ofNat_of_lt' (show _ < 2 ^ 32 by omega)
      rw [UInt32.toNat_sub_of_le _ _ (UInt32.le_iff_toNat_le.mpr (by omega)),h₁,h₂]
      omega
    obtain ⟨r',hbehind,hend⟩ := (BodyReader.readToEnd_fixedLength hex
      (resp.bodyBuf.buffer.length - resp.bodyBuf.loaded)
      (r := ⟨s₁,UInt32.ofNat body.length - UInt32.ofNat resp.bodyBuf.loaded⟩)
      (show unread s₁ = unread s₁ from rfl) hrest).1 (by omega)
    refine ⟨resp,s₁,r'.rawBody,hread,hstatus,?_,hend⟩
    rw [Response.readToEnd,hhint]
    simp only [hbehind,ReadBuffer.followedBy,← hwire]
    rfl
  · have hhint : resp.hint = .chunked := by
      rw [Response.hint,if_neg (hm ▸ hmethod),hlen]
      exact if_pos hchunked
    have hcome : (⟨resp.bodyBuf,s₁⟩ : BufferingReader σ).toCome = wire ++ [] := by
      rw [List.append_nil,hwire]
      rfl
    obtain ⟨r',hinplace⟩ := (ChunkedBodyReader.readToEnd_coded hcoded hcome hfuel).1
      (by rw [hlength]; exact hbody)
    obtain ⟨wire',lost,hcoded',hcome',-⟩ := ChunkedBodyReader.readToEnd_ok hinplace
    -- the coding ends where the reader stopped
    obtain ⟨-,-,htail⟩ := hcoded.unique hcoded' (hcome.symm.trans hcome')
    refine ⟨resp,s₁,r'.rawBody.stream,hread,hstatus,?_,
      (List.append_eq_nil_iff.mp htail.symm).2⟩
    rw [Response.readToEnd,hhint]
    simp only [hinplace,Option.map_some,EStateM.Result.mapState]

end NsPixels.Reqwless
