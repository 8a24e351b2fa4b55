import NsPixels.NsApi.Paths
import NsPixels.Reqwless.Request

/-!
# A session over the wire

The calls of an iteration share one connection, which is kept alive: what one answer
leaves unread would be taken for the next. The calls over bytes are compared with the
calls as if the meaning of every answer were handed to them.
-/

namespace NsPixels.NsApi

open Reqwless Source

section Wire

variable [TickRate] (json : Json) (headers : List (String × String)) (parse : HeaderParser)
  (hex : Hex.Codec) (base64 : List UInt8 → List Char) (host basePath : List Char)

/-- The `GET` request for a path of the resource. -/
def httpRequest (req : Request) : Reqwless.Request where
  method := .get
  basePath := some basePath
  path := req.path
  auth := none
  host := some host
  bodyLen := none
  contentType := none
  accept := none
  extraHeaders := some (req.headers.map fun h => (h.1.toList,h.2.toList))

/-- Bytes that arrive on the connection, cut into reads. -/
abbrev Arrival := List { c : List UInt8 // c ≠ [] }

abbrev TcpStream := ByteStream UInt8 ErrorKind

/-- The connection with more bytes to deliver, after those it still has. -/
def deliver (c : Connection TcpStream) (arrival : Arrival) : Connection TcpStream :=
  { c with incoming := { c.incoming with chunks := c.incoming.chunks ++ arrival } }

/-- One request and its response, the body read to its end. The loop over chunks is cut
off after `fuel` turns. -/
def exchange (fuel : ℕ) (buf : ReadBuffer) (req : Request) (c : Connection TcpStream) :
    Option (Except Error (Response Error) × Connection TcpStream) :=
  match send parse base64 (httpRequest host basePath req) buf c with
  | .error e c => some (.error e,c)
  | .ok resp c =>
    (resp.readToEnd hex fuel c.incoming).map fun res =>
      (.ok ⟨resp.status,res.value⟩,{ c with incoming := res.state })

/-- A call, when its answer is recorded, and what arrives while it waits for it. The
buffer is whatever the call before left behind. -/
structure WireTurn where
  call : Call
  now : ℕ
  arrival : Arrival
  buffer : List UInt8

/-- `http_buf` with nothing loaded. -/
def WireTurn.buf (t : WireTurn) : ReadBuffer := ⟨t.buffer,0,Nat.zero_le _⟩

/-- Make the calls in order, up to the first that fails: each is sent as the exchange that
its turn has on the connection. -/
def callsOverWire (fuel : ℕ) : List WireTurn → Registry × Connection TcpStream →
    Option ((Registry × Bool) × Connection TcpStream)
  | [],(reg,c) => some ((reg,true),c)
  | t :: rest,(reg,c) =>
    let sent := fun req => exchange parse hex base64 host basePath fuel t.buf req (deliver c t.arrival)
    (sent (t.call.request headers)).bind fun res =>
      let next := t.call.perform json (fun req => ((sent req).map Prod.fst).getD res.1) headers
        t.now reg
      if next.2 then callsOverWire fuel rest (next.1,res.2) else some ((next.1,false),res.2)

/-- A call and the answer meant for it. -/
structure MeantTurn where
  call : Call
  now : ℕ
  status : UInt16
  body : List UInt8

/-- The calls with their answers handed to them, and the calls that were made. -/
def callsAsMeant : List MeantTurn → Registry → (Registry × Bool) × List Call
  | [],reg => ((reg,true),[])
  | t :: rest,reg =>
    let next := t.call.perform json (fun _ => .ok ⟨t.status,.ok t.body⟩ :
      Request → Except Error (Response Error)) headers t.now reg
    if next.2 then
      ((callsAsMeant rest next.1).1,t.call :: (callsAsMeant rest next.1).2)
    else ((next.1,false),[t.call])

/-- The bytes that arrive are a header and a body framed as the header says, and both fit
the buffer. -/
structure Delivers (fuel : ℕ) (t : WireTurn) (m : MeantTurn) : Prop where
  call : t.call = m.call
  now : t.now = m.now
  answer : ∃ head parsed wire, t.arrival.flatMap Subtype.val = head ++ wire ∧
    IsHead parse head parsed ∧ parsed.code = m.status ∧ Framed hex parsed m.body wire ∧
    head.length ≤ t.buffer.length
  room : m.body.length < t.buffer.length
  fuel : m.body.length < fuel

/-- The bytes of the request for a call. -/
def callBytes (call : Call) : List UInt8 :=
  asBytes (httpRequest host basePath (call.request headers)).text

variable {json headers parse hex base64 host basePath}

variable (base64 headers host basePath) in
omit [TickRate] in
/-- One exchange on a connection without unread bytes. -/
theorem exchange_delivers {fuel : ℕ} {t : WireTurn} {m : MeantTurn} {c : Connection TcpStream}
    (h : Delivers parse hex fuel t m) (hunread : c.incoming.unread = []) (hout : c.outcomes = []) :
    ∃ c', exchange parse hex base64 host basePath fuel t.buf (t.call.request headers)
        (deliver c t.arrival) = some (.ok ⟨m.status,.ok m.body⟩,c') ∧
      c'.incoming.unread = [] ∧ c'.outcomes = [] ∧
      c'.outgoing = c.outgoing ++ callBytes headers host basePath t.call := by
  obtain ⟨head,parsed,wire,hbytes,hhead,hcode,hframed,hroom⟩ := h.answer
  have hcome : unread (deliver c t.arrival).incoming = head ++ wire := by
    change (deliver c t.arrival).incoming.unread = _
    rw [ByteStream.unread] at hunread
    rw [deliver,ByteStream.unread,List.flatMap_append,hunread,List.nil_append,hbytes]
  obtain ⟨resp,s₁,s₂,hread,hstatus,hbody,hend⟩ := readToEnd_answer
    (show Method.get ≠ .head from fun h => by cases h) hhead hframed
    (show t.buf.loaded = 0 from rfl) hcome hroom h.room h.fuel
  have hsend := send_ok parse base64
    (show (httpRequest host basePath (t.call.request headers)).auth = none from rfl)
    (show (deliver c t.arrival).outcomes = [] from hout) hread
  refine ⟨{ (deliver c t.arrival).wrote (callBytes headers host basePath t.call) with
    incoming := s₂ },?_,hend,hout,rfl⟩
  rw [exchange,hsend]
  simp only [hbody,Option.map_some,EStateM.Result.value,EStateM.Result.state,hstatus,hcode]
  rfl

/-- The calls over the wire do what the calls with the answers handed to them do, however
the bytes arrive, and the requests written are those of the calls made. -/
theorem callsOverWire_eq {fuel : ℕ} {ts : List WireTurn} {ms : List MeantTurn} {reg : Registry}
    {c : Connection TcpStream} (h : List.Forall₂ (Delivers parse hex fuel) ts ms)
    (hunread : c.incoming.unread = []) (hout : c.outcomes = []) :
    ∃ c', callsOverWire json headers parse hex base64 host basePath fuel ts (reg,c) =
        some ((callsAsMeant json headers ms reg).1,c') ∧
      c'.incoming.unread = [] ∧
      c'.outgoing = c.outgoing ++
        (callsAsMeant json headers ms reg).2.flatMap (callBytes headers host basePath) := by
  induction h generalizing reg c with
  | nil =>
    refine ⟨c,rfl,hunread,?_⟩
    rw [callsAsMeant,List.flatMap_nil,List.append_nil]
  | @cons t m ts ms hturn _ ih =>
    obtain ⟨c₁,hexchange,hunread₁,hout₁,hwritten⟩ := exchange_delivers headers base64 host basePath
      hturn hunread hout
    let sent := fun req => exchange parse hex base64 host basePath fuel t.buf req (deliver c t.arrival)
    have hperform : t.call.perform json
        (fun req => ((sent req).map Prod.fst).getD (.ok ⟨m.status,.ok m.body⟩)) headers t.now reg =
          t.call.perform json (fun _ => .ok ⟨m.status,.ok m.body⟩) headers t.now reg :=
      Call.perform_congr json headers (by simp only [sent,hexchange]; rfl) t.now reg
    rw [callsOverWire]
    simp only [hexchange,Option.bind_some]
    rw [hperform,callsAsMeant]
    simp only [hturn.call,hturn.now] at hwritten ⊢
    split
    · obtain ⟨c₂,hrest,hunread₂,hwritten₂⟩ := ih hunread₁ hout₁
      refine ⟨c₂,hrest,hunread₂,?_⟩
      rw [hwritten₂,hwritten,List.flatMap_cons,List.append_assoc]
    · refine ⟨c₁,rfl,hunread₁,?_⟩
      rw [hwritten,List.flatMap_cons,List.flatMap_nil,List.append_nil]

end Wire

/-- A parser that knows one header. -/
def onlyHead (head : List UInt8) (parsed : ParsedResponse) : HeaderParser := fun bytes =>
  if head <+: bytes then .ok (some (head.length,parsed))
  else if bytes <+: head then .ok none
  else .error ()

theorem isHead_onlyHead {head : List UInt8} (parsed : ParsedResponse) (h : head ≠ []) :
    IsHead (onlyHead head parsed) head parsed where
  ne_nil := h
  whole tail := if_pos (List.prefix_append head tail)
  cut k hk := by
    have hnot : ¬ head <+: head.take k := by
      intro hle
      have := hle.length_le
      rw [List.length_take] at this
      omega
    rw [onlyHead,if_neg hnot,if_pos (List.take_prefix k head)]

def chunkedHead : List UInt8 :=
  ascii "HTTP/1.1 200 OK\r\nTransfer-Encoding: chunked\r\n\r\n"

def chunkedParsed : ParsedResponse := ⟨200,[(ascii "Transfer-Encoding",ascii "chunked")]⟩

/-- A reader of the empty list. -/
def emptyListJson : Json where
  trainInfos := fun s => if s = "[]" then some [] else none
  journey := fun _ => none

/-- A type request, answered in two reads with the two bytes of an empty list. -/
def emptyListTurn (n : UInt32) : WireTurn where
  call := .types [n]
  now := 5
  arrival := [⟨chunkedHead ++ [50],by decide⟩,⟨[13,10,91,93,13,10,48,13,10,13,10],by decide⟩]
  buffer := List.replicate 64 0

def emptyListMeant (n : UInt32) : MeantTurn := ⟨.types [n],5,200,[91,93]⟩

theorem delivers_emptyList (n : UInt32) :
    Delivers (onlyHead chunkedHead chunkedParsed) Hex.ascii 3 (emptyListTurn n) (emptyListMeant n) where
  call := rfl
  now := rfl
  answer := by
    have hcoded : Coded Hex.ascii [91,93] [50,13,10,91,93,13,10,48,13,10,13,10] :=
      .chunk (show SizeLine Hex.ascii [50] [91,93].length from
        ⟨by decide,[0,0,0,2],by decide,by decide⟩) (by decide)
        (.last (show SizeLine Hex.ascii [48] 0 from ⟨by decide,[0,0,0,0],by decide,by decide⟩))
    exact ⟨chunkedHead,chunkedParsed,_,rfl,isHead_onlyHead _ (by decide),rfl,
      .chunked (show chunkedParsed.headers.foldlM Fields.header .empty =
        some { Fields.empty with transferEncoding := ⟨[TransferEncoding.chunked],by decide⟩ }
          by decide +kernel) (by decide) rfl (List.mem_singleton_self _) hcoded,
      show chunkedHead.length ≤ 64 by decide +kernel⟩
  room := show 2 < 64 by decide
  fuel := show 2 < 3 by decide

/-- Two requests over one connection. -/
theorem callsOverWire_eq_two : letI := microTicks
    ∃ c', callsOverWire emptyListJson [] (onlyHead chunkedHead chunkedParsed) Hex.ascii (fun _ => [])
        "h".toList "/".toList 3 [emptyListTurn 7,emptyListTurn 9] (Registry.new,⟨⟨[],none⟩,[],[]⟩) =
          some ((callsAsMeant emptyListJson [] [emptyListMeant 7,emptyListMeant 9] Registry.new).1,c') ∧
      c'.incoming.unread = [] ∧
      c'.outgoing = [] ++
        (callsAsMeant emptyListJson [] [emptyListMeant 7,emptyListMeant 9] Registry.new).2.flatMap
          (callBytes [] "h".toList "/".toList) := by
  let _ := microTicks
  exact callsOverWire_eq (.cons (delivers_emptyList 7) (.cons (delivers_emptyList 9) .nil)) rfl rfl

end NsPixels.NsApi
