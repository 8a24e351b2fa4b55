import NsPixels.Registry.Trace
import NsPixels.Text

/-!
# The enrichment requests

One call of each kind over an open connection: the request path, the answer, and
what it does to the registry. The HTTP exchange and the JSON reader are parameters.
-/

namespace NsPixels.NsApi

open FixedCap

/-- Capacity of the channel of newly seen trains. -/
def queueCapacity : ℕ := 64

/-- Sizes of the pending-work buffers. -/
def typeBufferCap : ℕ := 32

def serviceBufferCap : ℕ := 4

/-- Most train numbers in one type request. -/
def batchMax : ℕ := 8

/-- Bounds of the parsed journey. -/
def maxStops : ℕ := 64

def maxEvents : ℕ := 4

/-- Seconds of `RETRY_COOLDOWN`. -/
def retryCooldownS : ℕ := 120

/-! ### Requests -/

structure Request where
  path : List Char
  headers : List (String × String)
deriving DecidableEq

/-- Decimal digits of a train number. -/
def digits (n : UInt32) : List Char := Nat.toDigits 10 n.toNat

/-- Path of the type request for `batch`; a write that does not fit is dropped. All
characters are ASCII, so the capacity in bytes is one in characters. -/
def typesPath (batch : List UInt32) : Vec Char 160 :=
  batch.zipIdx.foldl
    (fun path p => (if p.2 > 0 then path.pushOrDrop ',' else path).extendOrDrop (digits p.1))
    (Vec.empty.extendOrDrop "/virtual-train-api/v1/trein?ids=".toList)

example : (typesPath [7,12]).toList = "/virtual-train-api/v1/trein?ids=7,12".toList := by
  decide +kernel

/-- Path of the journey request for `number`. -/
def servicePath (number : UInt32) : Vec Char 128 :=
  (Vec.empty.extendOrDrop "/reisinformatie-api/api/v2/journey?train=".toList).extendOrDrop
    (digits number)

/-! ### Answers -/

/-- Status line and the outcome of reading the body to its end. -/
structure Response (ε : Type) where
  status : UInt16
  body : Except ε (List UInt8)

/-- `StatusCode::is_successful`. -/
def isSuccessful (status : UInt16) : Bool := 200 ≤ status && status ≤ 299

inductive FetchError (ε : Type)
  | http (e : ε)
  | httpStatus (status : UInt16)
  | invalidUtf8
  | json
deriving DecidableEq

/-- One record of the type response. -/
structure TrainInfo where
  number : UInt32
  trainType : Option String
deriving DecidableEq

structure JourneyProduct where
  categoryCode : Option String

structure JourneyEvent where
  product : Option JourneyProduct

structure JourneyStop where
  departures : Vec JourneyEvent maxEvents
  arrivals : Vec JourneyEvent maxEvents

structure JourneyResp where
  stops : Vec JourneyStop maxStops

/-- The JSON reader. It yields the records a document holds, before they are stored
in vectors of fixed capacity; `none` when the document does not parse. -/
structure Json where
  trainInfos : String → Option (List TrainInfo)
  journey : String → Option (List (List JourneyEvent × List JourneyEvent))

/-- The first failing conversion decides the error. -/
def parseBody {ε α : Type} (body : Except ε (List UInt8)) (read : String → Option α) :
    Except (FetchError ε) α :=
  match body with
  | .error e => .error (.http e)
  | .ok bytes =>
    match String.fromUTF8? ⟨bytes.toArray⟩ with
    | none => .error .invalidUtf8
    | some bodyStr =>
      match read bodyStr with
      | none => .error .json
      | some parsed => .ok parsed

/-- The records of a type response; more than the vector holds is an error. -/
def readTypes (json : Json) (bodyStr : String) : Option (Vec TrainInfo (batchMax * 5)) :=
  (json.trainInfos bodyStr).bind Vec.ofList?

def readStop (stop : List JourneyEvent × List JourneyEvent) : Option JourneyStop :=
  (Vec.ofList? stop.1).bind fun departures => (Vec.ofList? stop.2).map fun arrivals =>
    ⟨departures,arrivals⟩

/-- The stops of a journey response, within the capacities of the parsed structures. -/
def readJourney (json : Json) (bodyStr : String) : Option JourneyResp :=
  (json.journey bodyStr).bind fun stops =>
    (stops.mapM readStop).bind fun stops => (Vec.ofList? stops).map JourneyResp.mk

/-- UTF-8 bytes of a text. -/
def utf8 (s : List Char) : List UInt8 := s.flatMap String.utf8EncodeChar

def asciiUppercase (b : UInt8) : UInt8 := if 97 ≤ b && b ≤ 122 then b - 32 else b

/-- The rolling stock a type string names, its subtype suffix and case ignored. -/
def mapTrainType : Option String → TrainType
  | none => .unknown
  | some s =>
    let head := (trim s.toList).takeWhile fun c => c ≠ '-' && c ≠ ' '
    let buf := ((utf8 head).take 16).map asciiUppercase
    if buf = utf8 "SNG".toList then .sng
    else if buf = utf8 "SLT".toList then .slt
    else if buf = utf8 "FLIRT".toList then .flirt
    else if buf = utf8 "ICM".toList then .icm
    else if buf = utf8 "DDZ".toList ∨ buf = utf8 "DDAR".toList then .ddz
    else if buf = utf8 "VIRM".toList then .virm
    else if buf = utf8 "ICNG".toList then .icng
    else .unknown

example : mapTrainType (some " virm-VI ") = .virm := by decide

def mapCategoryCode (code : String) : ServiceType :=
  if code = "SPR" then .sprinter
  else if code = "IC" then .intercity
  else if code = "ICD" ∨ code = "ECD" then .intercityDirect
  else .unknown

/-- The first category code along the stops, departures before arrivals. -/
def JourneyResp.service (resp : JourneyResp) : ServiceType :=
  let events := resp.stops.toList.flatMap fun s => s.departures.toList ++ s.arrivals.toList
  let codes := events.filterMap fun e => e.product.bind (·.categoryCode)
  (codes.head?.map mapCategoryCode).getD .unknown

/-! ### The two calls -/

/-- One request of an iteration. -/
inductive Call
  | types (batch : List UInt32)
  | service (number : UInt32)
deriving DecidableEq

namespace Call

/-- The axis whose attempts a call makes. -/
def axis : Call → UnknownAxis
  | types _ => .type
  | service _ => .service

/-- The trains a call asks for. -/
def requested : Call → List UInt32
  | types batch => batch
  | service number => [number]

def request (headers : List (String × String)) : Call → Request
  | types batch => ⟨(typesPath batch).toList,headers⟩
  | service number => ⟨(servicePath number).toList,headers⟩

end Call

section Calls

variable [TickRate] {ε : Type} (json : Json) (send : Request → Except ε (Response ε))
  (headers : List (String × String))

/-- Request the types of `batch` and record the answer, received at `now`, in the
registry. Returns the count of trains that resolved to a concrete type. -/
def fetchTypesOn (batch : List UInt32) (now : ℕ) (reg : Registry) :
    Registry × Except (FetchError ε) ℕ :=
  match send ((Call.types batch).request headers) with
  | .error e => (reg,.error (.http e))
  | .ok resp =>
    if ¬ isSuccessful resp.status then
      -- every requested train is stamped
      (batch.foldl (fun reg n => reg.setType n .unknown now) reg,.error (.httpStatus resp.status))
    else
      match parseBody resp.body (readTypes json) with
      -- the early returns come before any stamp
      | .error e => (reg,.error e)
      | .ok parsed =>
        -- the records decide which trains are stamped
        let (reg,applied) := parsed.toList.foldl
          (fun (acc : Registry × ℕ) info =>
            let typ := mapTrainType info.trainType
            (acc.1.setType info.number typ now,if typ ≠ .unknown then acc.2 + 1 else acc.2))
          (reg,0)
        (reg,.ok applied)

/-- Request the journey of `number` and record the answer, received at `now`, in the
registry. -/
def fetchServiceOn (number : UInt32) (now : ℕ) (reg : Registry) :
    Registry × Except (FetchError ε) ServiceType :=
  match send ((Call.service number).request headers) with
  | .error e => (reg,.error (.http e))
  | .ok resp =>
    if ¬ isSuccessful resp.status then
      (reg.setService number .unknown now,.error (.httpStatus resp.status))
    else
      match parseBody resp.body (readJourney json) with
      | .error e => (reg,.error e)
      | .ok parsed => (reg.setService number parsed.service now,.ok parsed.service)

/-- Make the call; the flag tells whether it succeeded. -/
def Call.perform (call : Call) (now : ℕ) (reg : Registry) : Registry × Bool :=
  match call with
  | types batch =>
    let (reg,res) := fetchTypesOn json send headers batch now reg
    (reg,res.isOk)
  | service number =>
    let (reg,res) := fetchServiceOn json send headers number now reg
    (reg,res.isOk)

/-- All that a call sends is its request. -/
theorem Call.perform_congr {send send' : Request → Except ε (Response ε)} {call : Call}
    (h : send (call.request headers) = send' (call.request headers)) (now : ℕ) (reg : Registry) :
    call.perform json send headers now reg = call.perform json send' headers now reg := by
  cases call with
  | types batch => simp only [Call.perform,fetchTypesOn,h]
  | service number => simp only [Call.perform,fetchServiceOn,h]

end Calls

end NsPixels.NsApi
