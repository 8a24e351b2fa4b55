import NsPixels.Lib.Transducer
import NsPixels.Lib.Xml
import NsPixels.Text

/-!
# The feed parser

The flat loop of `xml_parser.rs` over the tokens of a message. The tokenizer and the
reader of `f32` values are parameters.
-/

namespace NsPixels.XmlParser

open Xml

/-- A train of a message. -/
structure Train (F : Type) where
  number : UInt32
  lon : F
  lat : F
deriving DecidableEq, Repr

/-- Which field the next text is read into. -/
inductive Capture
  | none
  | nummer
  | lon
  | lat
deriving DecidableEq, Repr

/-- The local variables of `parse`. -/
structure Parser (F : Type) where
  inTreinloc : Bool
  seenFirstPart : Bool
  inFirstPart : Bool
  capture : Capture
  currentLocal : String
  nummer : Option UInt32
  lon : Option F
  lat : Option F
deriving DecidableEq, Repr

namespace Parser

variable {F : Type}

def init : Parser F := ⟨false,false,false,.none,"",none,none,none⟩

/-- At a start tag. -/
def elementStart (p : Parser F) (name : String) : Parser F :=
  let p := { p with currentLocal := name }
  if name = "TreinLocation" then
    { p with
      inTreinloc := true
      seenFirstPart := false
      inFirstPart := false
      nummer := none
      lon := none
      lat := none
      capture := .none }
  else if name = "TreinNummer" ∧ p.inTreinloc then { p with capture := .nummer }
  else if name = "TreinMaterieelDelen" ∧ p.inTreinloc ∧ ¬ p.seenFirstPart then
    { p with inFirstPart := true, seenFirstPart := true }
  else if name = "Longitude" ∧ p.inFirstPart then { p with capture := .lon }
  else if name = "Latitude" ∧ p.inFirstPart then { p with capture := .lat }
  else p

/-- At a text; one that does not parse empties the field. -/
def text (parseF32 : List Char → Option F) (p : Parser F) (text : List Char) : Parser F :=
  match p.capture with
  | .nummer => { p with nummer := parseU32 (trim text) }
  | .lon => { p with lon := parseF32 (trim text) }
  | .lat => { p with lat := parseF32 (trim text) }
  | .none => p

/-- The train of the location that ends, if all three values were read. -/
def train? (p : Parser F) : Option (Train F) := do
  let n ← p.nummer
  let lo ← p.lon
  let la ← p.lat
  some ⟨n,lo,la⟩

/-- At the end of the element `name`. -/
def elementEnd (p : Parser F) (name : String) : Parser F × List (Train F) :=
  if name = "TreinNummer" ∨ name = "Longitude" ∨ name = "Latitude" then
    ({ p with capture := .none },[])
  else if name = "TreinMaterieelDelen" ∧ p.inFirstPart then ({ p with inFirstPart := false },[])
  else if name = "TreinLocation" ∧ p.inTreinloc then
    ({ p with
      inTreinloc := false
      inFirstPart := false
      seenFirstPart := false
      capture := .none },p.train?.toList)
  else (p,[])

/-- One turn of the loop, and the calls of `on_train` it makes. -/
def step (parseF32 : List Char → Option F) (p : Parser F) : Token → Parser F × List (Train F)
  | .elementStart name => (p.elementStart name.loc,[])
  | .text t => (p.text parseF32 t,[])
  | .elementEnd (.close name) => p.elementEnd name.loc
  | .elementEnd .empty => p.elementEnd p.currentLocal
  | .elementEnd .opened => (p,[])
  | .attribute _ => (p,[])
  | .other _ => (p,[])

end Parser

/-- The calls of `on_train`, in order. Errors of the tokenizer are skipped. -/
def parse {F ε : Type} (tokenizer : String → List (Except ε Token))
    (parseF32 : List Char → Option F) (xml : String) : List (Train F) :=
  let tokens := (tokenizer xml).filterMap Except.toOption
  (Transducer.run (Parser.step parseF32) Parser.init tokens).2

end NsPixels.XmlParser
