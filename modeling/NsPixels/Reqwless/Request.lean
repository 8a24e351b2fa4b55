import NsPixels.Reqwless.Response

/-!
# Requests

The bytes of a request header, and a request over a connection that is kept alive.
-/

namespace NsPixels.Reqwless

open Source

def Method.asStr : Method → String
  | .get => "GET"
  | .put => "PUT"
  | .post => "POST"
  | .delete => "DELETE"
  | .head => "HEAD"
  | .patch => "PATCH"
  | .options => "OPTIONS"
  | .connect => "CONNECT"
  | .trace => "TRACE"

def ContentType.asStr : ContentType → String
  | .textHtml => "text/html"
  | .textPlain => "text/plain"
  | .applicationJson => "application/json"
  | .applicationCbor => "application/cbor"
  | .applicationOctetStream => "application/octet-stream"

structure BasicAuth where
  username : List Char
  password : List Char

/-- A request without its body; `bodyLen` is `none` without one, and `some none` when the
length of the body is not known. -/
structure Request where
  method : Method
  basePath : Option (List Char)
  path : List Char
  auth : Option BasicAuth
  host : Option (List Char)
  bodyLen : Option (Option ℕ)
  contentType : Option ContentType
  accept : Option ContentType
  extraHeaders : Option (List (List Char × List Char))

/-- `str::as_bytes`. -/
def asBytes (s : List Char) : List UInt8 := s.flatMap String.utf8EncodeChar

/-- `str::trim_end_matches` of slashes. -/
def trimEndSlashes (s : List Char) : List Char := (s.reverse.dropWhile (· = '/')).reverse

/-- What stands before the path: the base path, and a slash if the path has none. -/
def Request.base (req : Request) : List Char :=
  match req.basePath with
  | none => []
  | some basePath => trimEndSlashes basePath ++ (if req.path.head? ≠ some '/' then ['/'] else [])

/-! ### Writing -/

/-- A connection: what it will deliver, what has been written to it, and the outcomes of
the writes to come, which succeed once the list is used up. -/
structure Connection (σ : Type) where
  incoming : σ
  outgoing : List UInt8
  outcomes : List (Option ErrorKind)

variable {σ : Type}

/-- One write or flush. -/
def writeAll (bytes : List UInt8) : EStateM Error (Connection σ) Unit := fun c =>
  match c.outcomes with
  | some e :: _ => .error (.network e) c
  | none :: outcomes => .ok () { c with outgoing := c.outgoing ++ bytes, outcomes := outcomes }
  | [] => .ok () { c with outgoing := c.outgoing ++ bytes }

def writeStr (s : List Char) : EStateM Error (Connection σ) Unit := writeAll (asBytes s)

def writeHeader (header : List Char × List Char) : EStateM Error (Connection σ) Unit := do
  writeStr header.1
  writeStr ": ".toList
  writeStr header.2
  writeStr "\r\n".toList

def Request.writeBase (req : Request) : EStateM Error (Connection σ) Unit :=
  match req.basePath with
  | none => pure ()
  | some basePath => do
    writeStr (trimEndSlashes basePath)
    if req.path.head? ≠ some '/' then writeStr ['/']

/-- The credentials, which must fit into 128 bytes; `base64` is the encoder. -/
def Request.writeAuth (base64 : List UInt8 → List Char) (req : Request) :
    EStateM Error (Connection σ) Unit :=
  match req.auth with
  | none => pure ()
  | some auth => do
    let combined := asBytes (auth.username ++ [':'] ++ auth.password)
    if combined.length > 128 then throw .codec
    writeStr "Authorization: Basic ".toList
    writeStr (base64 combined)
    writeStr "\r\n".toList

/-- The fields before the extra ones, in the order they are written. -/
def Request.headers (req : Request) : List (List Char × List Char) :=
  (req.host.toList.map fun host => ("Host".toList,host)) ++
  (req.contentType.toList.map fun c => ("Content-Type".toList,c.asStr.toList)) ++
  (req.accept.toList.map fun c => ("Accept".toList,c.asStr.toList)) ++
  (req.bodyLen.toList.map fun
    | some len => ("Content-Length".toList,Nat.toDigits 10 len)
    | none => ("Transfer-Encoding".toList,"chunked".toList))

/-- Write the header of a request. -/
def Request.writeHeader (base64 : List UInt8 → List Char) (req : Request) :
    EStateM Error (Connection σ) Unit := do
  writeStr req.method.asStr.toList
  writeStr " ".toList
  req.writeBase
  writeStr req.path
  writeStr " HTTP/1.1\r\n".toList
  req.writeAuth base64
  (req.headers ++ req.extraHeaders.getD []).forM Reqwless.writeHeader
  writeStr "\r\n".toList

/-- A header field as it stands on the wire. -/
def line (h : List Char × List Char) : List Char := h.1 ++ ": ".toList ++ h.2 ++ "\r\n".toList

/-- The text of a request without credentials. -/
def Request.text (req : Request) : List Char :=
  req.method.asStr.toList ++ (" ".toList ++ (req.base ++ (req.path ++ (" HTTP/1.1\r\n".toList ++
    ((req.headers ++ req.extraHeaders.getD []).flatMap line ++ "\r\n".toList)))))

/-! ### What is written -/

section Written

variable {c : Connection σ}

theorem asBytes_append (s t : List Char) : asBytes (s ++ t) = asBytes s ++ asBytes t :=
  List.flatMap_append

/-- The connection after bytes have been written. -/
def Connection.wrote (c : Connection σ) (bytes : List UInt8) : Connection σ :=
  { c with outgoing := c.outgoing ++ bytes }

theorem writeAll_ok (h : c.outcomes = []) (bytes : List UInt8) :
    writeAll bytes c = .ok () (c.wrote bytes) := by
  obtain ⟨incoming,outgoing,outcomes⟩ := c
  obtain rfl : outcomes = [] := h
  rfl

theorem wrote_wrote (a b : List UInt8) : (c.wrote a).wrote b = c.wrote (a ++ b) := by
  rw [Connection.wrote,Connection.wrote,Connection.wrote,List.append_assoc]

/-- Programs that write, on a connection that takes everything. -/
def Writes (m : EStateM Error (Connection σ) Unit) (s : List Char) : Prop :=
  ∀ c : Connection σ, c.outcomes = [] → m c = .ok () (c.wrote (asBytes s))

theorem writes_str (s : List Char) : Writes (σ := σ) (writeStr s) s := fun _ h => writeAll_ok h _

theorem Writes.bind {m k : EStateM Error (Connection σ) Unit} {s t : List Char} (hm : Writes m s)
    (hk : Writes k t) : Writes (m >>= fun _ => k) (s ++ t) := by
  intro c h
  refine (EStateM.bind_of_ok (hm c h)).trans ((hk (c.wrote (asBytes s)) h).trans ?_)
  rw [wrote_wrote,asBytes_append]

theorem writes_pure : Writes (σ := σ) (pure ()) [] := by
  intro c _
  change EStateM.Result.ok () c = _
  rw [Connection.wrote,asBytes,List.flatMap_nil,List.append_nil]

theorem writes_header (h : List Char × List Char) :
    Writes (σ := σ) (Reqwless.writeHeader h) (line h) := by
  have hall := (writes_str (σ := σ) h.1).bind ((writes_str ": ".toList).bind
    ((writes_str h.2).bind (writes_str "\r\n".toList)))
  rw [line,List.append_assoc,List.append_assoc]
  exact hall

theorem writes_headers (hs : List (List Char × List Char)) :
    Writes (σ := σ) (hs.forM Reqwless.writeHeader) (hs.flatMap line) := by
  induction hs with
  | nil => exact writes_pure
  | cons h hs ih =>
    rw [List.flatMap_cons]
    exact (writes_header h).bind ih

theorem Request.writes_base (req : Request) : Writes (σ := σ) req.writeBase req.base := by
  rw [Request.writeBase,Request.base]
  cases req.basePath with
  | none => exact writes_pure
  | some basePath =>
    apply (writes_str (trimEndSlashes basePath)).bind
    split
    · exact writes_str ['/']
    · exact writes_pure

/-- Without credentials the header is written in full. -/
theorem Request.writes_writeHeader (base64 : List UInt8 → List Char) {req : Request}
    (hauth : req.auth = none) : Writes (σ := σ) (req.writeHeader base64) req.text := by
  have hnone : Writes (σ := σ) (req.writeAuth base64) [] := by
    rw [Request.writeAuth,hauth]
    exact writes_pure
  exact (writes_str _).bind ((writes_str _).bind (req.writes_base.bind ((writes_str _).bind
    ((writes_str _).bind (hnone.bind ((writes_headers _).bind (writes_str _)))))))

end Written

/-! ### Sending -/

section Send

variable (parse : HeaderParser) (base64 : List UInt8 → List Char)

/-- Read from a connection. -/
def onIncoming {α : Type} (m : EStateM Error σ α) : EStateM Error (Connection σ) α := fun c =>
  (m c.incoming).mapState fun s => { c with incoming := s }

/-- Send a request that has no body and read the header of the response. -/
def send [Source σ UInt8 ErrorKind] (req : Request) (b : ReadBuffer) :
    EStateM Error (Connection σ) Response := do
  req.writeHeader base64
  writeAll []
  onIncoming (Response.read parse req.method b)

theorem send_ok [Source σ UInt8 ErrorKind] {req : Request} {b : ReadBuffer} {c : Connection σ}
    {resp : Response} {s : σ} (hauth : req.auth = none) (hout : c.outcomes = [])
    (hread : Response.read parse req.method b c.incoming = .ok resp s) :
    send parse base64 req b c = .ok resp { c.wrote (asBytes req.text) with incoming := s } := by
  have hwrite := Request.writes_writeHeader base64 hauth c hout
  have hflush : writeAll [] (c.wrote (asBytes req.text)) = .ok () (c.wrote (asBytes req.text)) := by
    apply (writeAll_ok (c := c.wrote (asBytes req.text)) hout []).trans
    rw [wrote_wrote,List.append_nil]
  refine (EStateM.bind_of_ok hwrite).trans ((EStateM.bind_of_ok hflush).trans ?_)
  rw [onIncoming]
  change EStateM.Result.mapState _ (Response.read parse req.method b c.incoming) = _
  rw [hread]
  rfl

end Send

end NsPixels.Reqwless
