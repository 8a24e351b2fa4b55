import NsPixels.XmlParser

/-!
# The parser on well-formed feed documents

A feed document is read as a tree walk reads it: one train for each location whose
number and first-part coordinates parse. The flags of the loop are followed through
the tree, from unrelated subtrees over leaves and parts to whole locations.
-/

namespace NsPixels.XmlParser

open Xml Transducer Xml.Node

/-! ### Feed documents -/

/-- The names that the loop acts on, outside and inside the first part. -/
def watched (inFirstPart : Bool) : List String :=
  ["TreinLocation","TreinNummer","TreinMaterieelDelen"] ++
    if inFirstPart then ["Longitude","Latitude"] else []

/-- An element without child elements and with at most one run of text. -/
structure IsLeaf (n : Node) : Prop where
  plain : ∀ c ∈ n.children, c.loc? = none
  oneText : (n.children.filterMap text?).length ≤ 1

/-- A child of a part: a coordinate, or anything without a name the parser knows. -/
def PartChild (n : Node) : Prop :=
  (n.loc? = some "Longitude" ∧ IsLeaf n) ∨ (n.loc? = some "Latitude" ∧ IsLeaf n) ∨
    n.Avoids (watched true)

/-- The shape of a `TreinMaterieelDelen`. -/
structure IsPart (n : Node) : Prop where
  named : n.loc? = some "TreinMaterieelDelen"
  children : ∀ c ∈ n.children, PartChild c
  oneLon : n.children.countP (isNamed "Longitude") ≤ 1
  oneLat : n.children.countP (isNamed "Latitude") ≤ 1

/-- A child of a location: its number, a part, or a subtree without containers, in which
coordinates are allowed. -/
def LocationChild (n : Node) : Prop :=
  (n.loc? = some "TreinNummer" ∧ IsLeaf n) ∨ IsPart n ∨ n.Avoids (watched false)

/-- The shape of a `TreinLocation`. -/
structure IsLocation (n : Node) : Prop where
  named : n.loc? = some "TreinLocation"
  children : ∀ c ∈ n.children, LocationChild c
  oneNummer : n.children.countP (isNamed "TreinNummer") ≤ 1

/-- A document whose root holds locations, with text and comments between them. -/
structure FeedDocument where
  prolog : List Node
  root : Node
  epilog : List Node
  prolog_plain : ∀ n ∈ prolog, n.loc? = none
  root_children : ∀ n ∈ root.children, n.loc? = none ∨ IsLocation n
  epilog_plain : ∀ n ∈ epilog, n.loc? = none

def FeedDocument.tokens (d : FeedDocument) : List Token :=
  tokensAll d.prolog ++ (d.root.tokens ++ tokensAll d.epilog)

/-! ### What a tree walk finds -/

/-- The text of the first element `name` among siblings. -/
def textOf (name : String) (ns : List Node) : Option (List Char) :=
  (firstNamed name ns).bind content

section Trains

variable {F : Type} (parseF32 : List Char → Option F)

/-- The train of a location: its number, and the coordinates of its first part. -/
def trainOf (location : Node) : Option (Train F) := do
  let number ← (textOf "TreinNummer" location.children).bind fun t => parseU32 (trim t)
  let part ← firstNamed "TreinMaterieelDelen" location.children
  let lon ← (textOf "Longitude" part.children).bind fun t => parseF32 (trim t)
  let lat ← (textOf "Latitude" part.children).bind fun t => parseF32 (trim t)
  some ⟨number,lon,lat⟩

/-- The trains of a document, location by location. -/
def FeedDocument.trains (d : FeedDocument) : List (Train F) :=
  (d.root.children.filter (isNamed "TreinLocation")).filterMap (trainOf parseF32)

variable {parseF32} {p : Parser F}

/-! ### Subtrees without effect -/

theorem elementStart_skip {name : String} (hname : name ∉ watched p.inFirstPart) :
    p.elementStart name = { p with currentLocal := name } := by
  simp only [watched,List.cons_append,List.nil_append,List.mem_cons,not_or] at hname
  obtain ⟨hloc,hnum,hpart,hcoord⟩ := hname
  have hlon : ¬ (name = "Longitude" ∧ p.inFirstPart = true) := by
    rintro ⟨rfl,hin⟩
    simp [hin] at hcoord
  have hlat : ¬ (name = "Latitude" ∧ p.inFirstPart = true) := by
    rintro ⟨rfl,hin⟩
    simp [hin] at hcoord
  rw [Parser.elementStart]
  dsimp only
  rw [if_neg hloc,if_neg (fun h => hnum h.1),if_neg (fun h => hpart h.1),if_neg hlon,if_neg hlat]

theorem elementEnd_skip {b : Bool} {name : String} (hname : name ∉ watched b)
    (hcap : p.capture = .none) : p.elementEnd name = (p,[]) := by
  simp only [watched,List.cons_append,List.nil_append,List.mem_cons,not_or] at hname
  obtain ⟨hloc,_,hpart,_⟩ := hname
  -- the end of a coordinate resets a capture that is off already
  have hkeep : { p with capture := .none } = p := by
    rw [← hcap]
  rw [Parser.elementEnd,hkeep,if_neg (c := name = "TreinMaterieelDelen" ∧ _) (fun h => hpart h.1),
    if_neg (c := name = "TreinLocation" ∧ _) (fun h => hloc h.1),ite_self]

theorem text_skip (hcap : p.capture = .none) (t : List Char) : p.text parseF32 t = p := by
  rw [Parser.text,hcap]

theorem reads_startTag (name : QName) (attrs : List Attribute) :
    Reads (Parser.step parseF32) p (startTag name attrs) (p.elementStart name.loc) [] := by
  refine Reads.cons_silent rfl ?_
  generalize p.elementStart name.loc = q
  induction attrs with
  | nil => exact Reads.nil _ q
  | cons attr attrs ih => exact Reads.cons_silent rfl ih

@[simp] theorem elementStart_currentLocal (p : Parser F) (name : String) :
    (p.elementStart name).currentLocal = name := by
  rw [Parser.elementStart]
  dsimp only
  repeat' split
  all_goals rfl

/-- An element: its start tag, its children, its end. A self-closing one has no children. -/
theorem reads_element {name : String} {n : Node} {q : Parser F} {out : List (Train F)}
    (hname : n.loc? = some name)
    (hcs : Reads (Parser.step parseF32) (p.elementStart name) (tokensAll n.children) q out) :
    Reads (Parser.step parseF32) p n.tokens (q.elementEnd name).1
      (out ++ (q.elementEnd name).2) := by
  cases n with
  | text t => cases hname
  | other c => cases hname
  | empty tag attrs =>
    obtain rfl : tag.loc = name := Option.some.inj hname
    obtain ⟨rfl,rfl⟩ : p.elementStart tag.loc = q ∧ [] = out := Prod.mk.inj hcs
    rw [tokens]
    refine Reads.append_silent (reads_startTag tag attrs) (Reads.single ?_)
    rw [Parser.step,elementStart_currentLocal]
    rfl
  | element tag attrs cs =>
    obtain rfl : tag.loc = name := Option.some.inj hname
    rw [tokens]
    refine Reads.append_silent (reads_startTag tag attrs) (Reads.cons_silent rfl ?_)
    exact Reads.append hcs (Reads.single rfl)

mutual

/-- A subtree without watched names leaves all but `currentLocal` as it was. -/
theorem reads_skip : ∀ {p : Parser F} (n : Node), n.Avoids (watched p.inFirstPart) →
    p.capture = .none →
    ∃ l, Reads (Parser.step parseF32) p n.tokens { p with currentLocal := l } []
  | p,.element name attrs cs,hn,hcap => by
    rw [Avoids] at hn
    obtain ⟨l,hcs⟩ := reads_skipAll (p := { p with currentLocal := name.loc }) cs hn.2 hcap
    refine ⟨l,?_⟩
    rw [tokens]
    refine (reads_startTag name attrs).append (Reads.cons_silent rfl ?_)
    rw [elementStart_skip hn.1]
    exact hcs.append (Reads.single (elementEnd_skip hn.1 hcap))
  | p,.empty name attrs,hn,hcap => by
    rw [Avoids] at hn
    refine ⟨name.loc,?_⟩
    rw [tokens]
    apply (reads_startTag name attrs).append
    rw [elementStart_skip hn]
    exact Reads.single (elementEnd_skip hn hcap)
  | p,.text t,_,hcap => ⟨p.currentLocal,Reads.single (Prod.ext (text_skip hcap t) rfl)⟩
  | p,.other c,_,_ => ⟨p.currentLocal,Reads.single rfl⟩

theorem reads_skipAll : ∀ {p : Parser F} (ns : List Node),
    AvoidsAll (watched p.inFirstPart) ns → p.capture = .none →
    ∃ l, Reads (Parser.step parseF32) p (tokensAll ns) { p with currentLocal := l } []
  | p,[],_,_ => ⟨p.currentLocal,Reads.nil _ p⟩
  | p,n :: ns,hns,hcap => by
    rw [AvoidsAll] at hns
    obtain ⟨l,hn⟩ := reads_skip (p := p) n hns.1 hcap
    obtain ⟨l',hrest⟩ := reads_skipAll (p := { p with currentLocal := l }) ns hns.2 hcap
    refine ⟨l',?_⟩
    rw [tokensAll]
    exact hn.append hrest

end

/-! ### Leaves -/

/-- Siblings that are no elements: their texts are read one after the other. -/
theorem reads_plain {ns : List Node} (hplain : ∀ c ∈ ns, c.loc? = none) :
    Reads (Parser.step parseF32) p (tokensAll ns)
      ((ns.filterMap text?).foldl (Parser.text parseF32) p) [] := by
  induction ns generalizing p with
  | nil => exact Reads.nil _ p
  | cons n ns ih =>
    have hn := hplain n List.mem_cons_self
    have hrest := fun c hc => hplain c (List.mem_cons_of_mem n hc)
    rw [tokensAll]
    cases n with
    | element name attrs cs => cases hn
    | empty name attrs => cases hn
    | text t =>
      have hread : Reads (Parser.step parseF32) p (text t).tokens (p.text parseF32 t) [] :=
        Reads.single rfl
      exact hread.append_silent (ih hrest)
    | other c =>
      have hread : Reads (Parser.step parseF32) p (other c).tokens p [] := Reads.single rfl
      exact hread.append_silent (ih hrest)

/-- A leaf: its start tag, its text if it has one, its end. -/
theorem reads_leaf {name : String} {n : Node} (hname : n.loc? = some name) (hn : IsLeaf n) :
    Reads (Parser.step parseF32) p n.tokens
      ((n.content.elim (p.elementStart name) (Parser.text parseF32 (p.elementStart name))).elementEnd
        name).1
      ((n.content.elim (p.elementStart name) (Parser.text parseF32 (p.elementStart name))).elementEnd
        name).2 := by
  have htext : (n.children.filterMap text?).foldl (Parser.text parseF32) (p.elementStart name) =
      n.content.elim (p.elementStart name) (Parser.text parseF32 (p.elementStart name)) := by
    have hone := hn.oneText
    rw [content]
    cases ht : n.children.filterMap text? with
    | nil => rfl
    | cons t ts =>
      rw [ht,List.length_cons] at hone
      obtain rfl := List.length_eq_zero_iff.mp (show ts.length = 0 by omega)
      rfl
  have hcs : Reads (Parser.step parseF32) (p.elementStart name) (tokensAll n.children) _ [] :=
    reads_plain hn.plain
  rw [htext] at hcs
  exact reads_element hname hcs

/-- A field after a leaf with text `t?`: the text overwrites what was read before. -/
def overwrite {α : Type} (parse : List Char → Option α) (old : Option α) :
    Option (List Char) → Option α
  | none => old
  | some t => parse (trim t)

/-- A leaf that starts a capture. Its end stops it, whichever field was read. -/
theorem reads_capture {name : String} {n : Node} {c : Capture} (hname : n.loc? = some name)
    (hn : IsLeaf n) (hend : name = "TreinNummer" ∨ name = "Longitude" ∨ name = "Latitude")
    (hstart : p.elementStart name = { p with currentLocal := name, capture := c }) :
    Reads (Parser.step parseF32) p n.tokens
      { n.content.elim p (Parser.text parseF32 { p with capture := c }) with
        currentLocal := name
        capture := .none } [] := by
  have hread : Reads (Parser.step parseF32) p n.tokens _ _ := reads_leaf hname hn
  rw [hstart,Parser.elementEnd,if_pos hend] at hread
  have hfields : ∀ t, Parser.text parseF32 { p with currentLocal := name, capture := c } t =
      { Parser.text parseF32 { p with capture := c } t with currentLocal := name } := by
    intro t
    cases c <;> rfl
  cases ht : n.content with
  | none => simpa only [ht,Option.elim_none] using hread
  | some t => simpa only [ht,Option.elim_some,hfields] using hread

theorem reads_nummer {n : Node} (hname : n.loc? = some "TreinNummer") (hn : IsLeaf n)
    (hin : p.inTreinloc = true) (hcap : p.capture = .none) :
    Reads (Parser.step parseF32) p n.tokens
      { p with
        currentLocal := "TreinNummer"
        nummer := overwrite parseU32 p.nummer n.content } [] := by
  have hstart : p.elementStart "TreinNummer" =
      { p with currentLocal := "TreinNummer", capture := .nummer } := by
    simp [Parser.elementStart,hin]
  have hread : Reads (Parser.step parseF32) p n.tokens _ [] :=
    reads_capture hname hn (by simp) hstart
  cases ht : n.content <;> simpa [ht,hcap,overwrite,Parser.text] using hread

theorem reads_longitude {n : Node} (hname : n.loc? = some "Longitude") (hn : IsLeaf n)
    (hin : p.inFirstPart = true) (hcap : p.capture = .none) :
    Reads (Parser.step parseF32) p n.tokens
      { p with currentLocal := "Longitude", lon := overwrite parseF32 p.lon n.content } [] := by
  have hstart : p.elementStart "Longitude" =
      { p with currentLocal := "Longitude", capture := .lon } := by
    simp [Parser.elementStart,hin]
  have hread : Reads (Parser.step parseF32) p n.tokens _ [] :=
    reads_capture hname hn (by simp) hstart
  cases ht : n.content <;> simpa [ht,hcap,overwrite,Parser.text] using hread

theorem reads_latitude {n : Node} (hname : n.loc? = some "Latitude") (hn : IsLeaf n)
    (hin : p.inFirstPart = true) (hcap : p.capture = .none) :
    Reads (Parser.step parseF32) p n.tokens
      { p with currentLocal := "Latitude", lat := overwrite parseF32 p.lat n.content } [] := by
  have hstart : p.elementStart "Latitude" =
      { p with currentLocal := "Latitude", capture := .lat } := by
    simp [Parser.elementStart,hin]
  have hread : Reads (Parser.step parseF32) p n.tokens _ [] :=
    reads_capture hname hn (by simp) hstart
  cases ht : n.content <;> simpa [ht,hcap,overwrite,Parser.text] using hread

/-! ### Parts -/

theorem textOf_cons_of_named {name : String} {n : Node} {ns : List Node}
    (h : n.loc? = some name) : textOf name (n :: ns) = n.content := by
  rw [textOf,firstNamed,List.find?_cons_of_pos (by simp [isNamed,h])]
  rfl

theorem textOf_cons_of_not_named {name : String} {n : Node} {ns : List Node}
    (h : n.isNamed name = false) : textOf name (n :: ns) = textOf name ns := by
  rw [textOf,firstNamed,List.find?_cons_of_neg (by simp [h])]
  rfl

/-- The one element of a name is the first sibling, so the others have no text for it. -/
theorem textOf_of_countP_cons {name : String} {n : Node} {ns : List Node}
    (h : n.loc? = some name) (hone : (n :: ns).countP (isNamed name) ≤ 1) :
    textOf name ns = none := by
  rw [List.countP_cons_of_pos (by simp [isNamed,h])] at hone
  have hzero := List.countP_eq_zero.mp (show ns.countP (isNamed name) = 0 by omega)
  rw [textOf,firstNamed,List.find?_eq_none.mpr hzero]
  rfl

theorem countP_tail {name : String} {n : Node} {ns : List Node}
    (h : (n :: ns).countP (isNamed name) ≤ 1) : ns.countP (isNamed name) ≤ 1 := by
  rw [List.countP_cons] at h
  omega

theorem isNamed_eq_false {name name' : String} {n : Node} (h : n.loc? = some name)
    (hne : name ≠ name') : n.isNamed name' = false := by
  simp [isNamed,h,hne]

/-- The children of the first part. -/
theorem reads_partChildren {ns : List Node} (hns : ∀ c ∈ ns, PartChild c)
    (hlon : ns.countP (isNamed "Longitude") ≤ 1) (hlat : ns.countP (isNamed "Latitude") ≤ 1)
    (hin : p.inFirstPart = true) (hcap : p.capture = .none) :
    ∃ l, Reads (Parser.step parseF32) p (tokensAll ns)
      { p with
        currentLocal := l
        lon := overwrite parseF32 p.lon (textOf "Longitude" ns)
        lat := overwrite parseF32 p.lat (textOf "Latitude" ns) } [] := by
  induction ns generalizing p with
  | nil => exact ⟨p.currentLocal,Reads.nil _ p⟩
  | cons n ns ih =>
    have hrest := fun c hc => hns c (List.mem_cons_of_mem n hc)
    rw [tokensAll]
    obtain ⟨hname,hn⟩ | ⟨hname,hn⟩ | hn := hns n List.mem_cons_self
    · have hread : Reads (Parser.step parseF32) p n.tokens _ [] := reads_longitude hname hn hin hcap
      obtain ⟨l,htail⟩ := ih hrest (countP_tail hlon) (countP_tail hlat) (p := { p with
        currentLocal := "Longitude", lon := overwrite parseF32 p.lon n.content }) hin hcap
      refine ⟨l,hread.append_silent ?_⟩
      rw [textOf_of_countP_cons hname hlon] at htail
      rw [textOf_cons_of_named hname,
        textOf_cons_of_not_named (isNamed_eq_false hname (by decide : "Longitude" ≠ "Latitude"))]
      exact htail
    · have hread : Reads (Parser.step parseF32) p n.tokens _ [] := reads_latitude hname hn hin hcap
      obtain ⟨l,htail⟩ := ih hrest (countP_tail hlon) (countP_tail hlat) (p := { p with
        currentLocal := "Latitude", lat := overwrite parseF32 p.lat n.content }) hin hcap
      refine ⟨l,hread.append_silent ?_⟩
      rw [textOf_of_countP_cons hname hlat] at htail
      rw [textOf_cons_of_named hname,
        textOf_cons_of_not_named (isNamed_eq_false hname (by decide : "Latitude" ≠ "Longitude"))]
      exact htail
    · obtain ⟨l,hread⟩ := reads_skip (p := p) n (hin ▸ hn) hcap
      obtain ⟨l',htail⟩ := ih hrest (countP_tail hlon) (countP_tail hlat)
        (p := { p with currentLocal := l }) hin hcap
      refine ⟨l',hread.append_silent ?_⟩
      rw [textOf_cons_of_not_named (hn.isNamed_eq_false (by decide)),
        textOf_cons_of_not_named (hn.isNamed_eq_false (by decide))]
      exact htail

/-- What a child of a part may be is without effect outside the first part. -/
theorem PartChild.avoids {n : Node} (h : PartChild n) : n.Avoids (watched false) := by
  obtain ⟨hname,hn⟩ | ⟨hname,hn⟩ | hn := h
  · exact avoids_of_children hname (by decide) fun c hc => avoids_of_plain (hn.plain c hc) _
  · exact avoids_of_children hname (by decide) fun c hc => avoids_of_plain (hn.plain c hc) _
  · exact hn.mono (by decide)

theorem reads_firstPart {n : Node} (hn : IsPart n) (hin : p.inTreinloc = true)
    (hseen : p.seenFirstPart = false) (hcap : p.capture = .none) :
    ∃ l, Reads (Parser.step parseF32) p n.tokens
      { p with
        currentLocal := l
        seenFirstPart := true
        inFirstPart := false
        lon := overwrite parseF32 p.lon (textOf "Longitude" n.children)
        lat := overwrite parseF32 p.lat (textOf "Latitude" n.children) } [] := by
  have hstart : p.elementStart "TreinMaterieelDelen" =
      { p with
        currentLocal := "TreinMaterieelDelen"
        inFirstPart := true
        seenFirstPart := true } := by
    simp [Parser.elementStart,hin,hseen]
  obtain ⟨l,hcs⟩ := reads_partChildren (p := p.elementStart "TreinMaterieelDelen") hn.children
    hn.oneLon hn.oneLat (by rw [hstart]) (by rw [hstart]; exact hcap)
  refine ⟨l,?_⟩
  have hread := reads_element hn.named hcs
  rw [hstart] at hread
  exact hread

/-- A later part is skipped, coordinates and all. -/
theorem reads_laterPart {n : Node} (hn : IsPart n) (hseen : p.seenFirstPart = true)
    (hin : p.inFirstPart = false) (hcap : p.capture = .none) :
    ∃ l, Reads (Parser.step parseF32) p n.tokens { p with currentLocal := l } [] := by
  have hstart : p.elementStart "TreinMaterieelDelen" =
      { p with currentLocal := "TreinMaterieelDelen" } := by
    simp [Parser.elementStart,hseen]
  have hend : ∀ l, Parser.elementEnd { p with currentLocal := l } "TreinMaterieelDelen" =
      ({ p with currentLocal := l },[]) := by
    intro l
    simp [Parser.elementEnd,hin]
  have havoid : AvoidsAll (watched p.inFirstPart) n.children := by
    rw [hin]
    exact avoidsAll_iff.mpr fun c hc => (hn.children c hc).avoids
  obtain ⟨l,hcs⟩ := reads_skipAll
    (p := { p with currentLocal := "TreinMaterieelDelen" }) n.children havoid hcap
  have hread := reads_element (p := p) hn.named (by rw [hstart]; exact hcs)
  rw [hend l] at hread
  exact ⟨l,hread⟩

/-! ### Locations -/

/-- The text of a coordinate of the first part among siblings. -/
def partText (name : String) (ns : List Node) : Option (List Char) :=
  (firstNamed "TreinMaterieelDelen" ns).bind fun part => textOf name part.children

theorem partText_cons_of_named {name : String} {n : Node} {ns : List Node}
    (h : n.loc? = some "TreinMaterieelDelen") : partText name (n :: ns) = textOf name n.children := by
  rw [partText,firstNamed,List.find?_cons_of_pos (by simp [isNamed,h])]
  rfl

theorem partText_cons_of_not_named {name : String} {n : Node} {ns : List Node}
    (h : n.isNamed "TreinMaterieelDelen" = false) : partText name (n :: ns) = partText name ns := by
  rw [partText,firstNamed,List.find?_cons_of_neg (by simp [h])]
  rfl

/-- The children of a location, in any order. Once a part has been seen the coordinates
stay as they are. -/
theorem reads_locationChildren {ns : List Node} (hns : ∀ c ∈ ns, LocationChild c)
    (hone : ns.countP (isNamed "TreinNummer") ≤ 1) (hloc : p.inTreinloc = true)
    (hin : p.inFirstPart = false) (hcap : p.capture = .none) :
    ∃ l b, Reads (Parser.step parseF32) p (tokensAll ns)
      { p with
        currentLocal := l
        seenFirstPart := b
        nummer := overwrite parseU32 p.nummer (textOf "TreinNummer" ns)
        lon := if p.seenFirstPart then p.lon else overwrite parseF32 p.lon (partText "Longitude" ns)
        lat := if p.seenFirstPart then p.lat else overwrite parseF32 p.lat (partText "Latitude" ns)
        } [] := by
  induction ns generalizing p with
  | nil => exact ⟨p.currentLocal,p.seenFirstPart,by
      simpa [overwrite,textOf,partText,firstNamed,tokensAll] using Reads.nil _ p⟩
  | cons n ns ih =>
    have hrest := fun c hc => hns c (List.mem_cons_of_mem n hc)
    rw [tokensAll]
    obtain ⟨hname,hn⟩ | hn | hn := hns n List.mem_cons_self
    · have hread : Reads (Parser.step parseF32) p n.tokens _ [] := reads_nummer hname hn hloc hcap
      obtain ⟨l,b,htail⟩ := ih hrest (countP_tail hone) (p := { p with
        currentLocal := "TreinNummer"
        nummer := overwrite parseU32 p.nummer n.content }) hloc hin hcap
      refine ⟨l,b,hread.append_silent ?_⟩
      have hne := isNamed_eq_false hname (by decide : "TreinNummer" ≠ "TreinMaterieelDelen")
      rw [textOf_of_countP_cons hname hone] at htail
      rw [textOf_cons_of_named hname,partText_cons_of_not_named hne,partText_cons_of_not_named hne]
      exact htail
    · have hne := isNamed_eq_false hn.named (by decide : "TreinMaterieelDelen" ≠ "TreinNummer")
      rw [textOf_cons_of_not_named hne,partText_cons_of_named hn.named,
        partText_cons_of_named hn.named]
      cases hseen : p.seenFirstPart with
      | false =>
        obtain ⟨l,hread⟩ := reads_firstPart hn hloc hseen hcap
        obtain ⟨l',b,htail⟩ := ih hrest (countP_tail hone) (p := { p with
          currentLocal := l
          seenFirstPart := true
          inFirstPart := false
          lon := overwrite parseF32 p.lon (textOf "Longitude" n.children)
          lat := overwrite parseF32 p.lat (textOf "Latitude" n.children) }) hloc rfl hcap
        refine ⟨l',b,hread.append_silent ?_⟩
        simpa [hin] using htail
      | true =>
        obtain ⟨l,hread⟩ := reads_laterPart hn hseen hin hcap
        obtain ⟨l',b,htail⟩ := ih hrest (countP_tail hone) (p := { p with currentLocal := l })
          hloc hin hcap
        refine ⟨l',b,hread.append_silent ?_⟩
        simpa [hseen] using htail
    · obtain ⟨l,hread⟩ := reads_skip (p := p) n (hin ▸ hn) hcap
      obtain ⟨l',b,htail⟩ := ih hrest (countP_tail hone) (p := { p with currentLocal := l })
        hloc hin hcap
      refine ⟨l',b,hread.append_silent ?_⟩
      have hne : n.isNamed "TreinMaterieelDelen" = false := hn.isNamed_eq_false (by decide)
      rw [textOf_cons_of_not_named (hn.isNamed_eq_false (by decide)),
        partText_cons_of_not_named hne,partText_cons_of_not_named hne]
      exact htail

theorem overwrite_none {α : Type} (parse : List Char → Option α) (t? : Option (List Char)) :
    overwrite parse none t? = t?.bind fun t => parse (trim t) := by
  cases t? <;> rfl

/-- What the flags hold at the end of a location is what the tree walk finds. -/
theorem train?_eq_trainOf {n : Node} {q : Parser F}
    (hnum : q.nummer = overwrite parseU32 none (textOf "TreinNummer" n.children))
    (hlon : q.lon = overwrite parseF32 none (partText "Longitude" n.children))
    (hlat : q.lat = overwrite parseF32 none (partText "Latitude" n.children)) :
    q.train? = trainOf parseF32 n := by
  rw [overwrite_none] at hnum hlon hlat
  rw [Parser.train?,trainOf,hnum,hlon,hlat,partText,partText]
  cases firstNamed "TreinMaterieelDelen" n.children with
  | none => simp
  | some part => rfl

/-- The state after the start tag of a location, whatever came before. -/
def located : Parser F := ⟨true,false,false,.none,"TreinLocation",none,none,none⟩

/-- A whole location, from any state: its train is emitted, if it has one. -/
theorem reads_location (p : Parser F) {n : Node} (hn : IsLocation n) :
    ∃ q : Parser F, Reads (Parser.step parseF32) p n.tokens q (trainOf parseF32 n).toList ∧
      q.capture = .none ∧ q.inFirstPart = false ∧ q.inTreinloc = false := by
  have hstart : p.elementStart "TreinLocation" = located := rfl
  obtain ⟨l,b,hcs⟩ := reads_locationChildren (p := located) hn.children hn.oneNummer rfl rfl rfl
  have hread := reads_element (p := p) hn.named (by rw [hstart]; exact hcs)
  -- the end of the location emits what the children left
  have hend : ∀ q : Parser F, q.inTreinloc = true →
      (q.elementEnd "TreinLocation").2 = q.train?.toList := by
    intro q hq
    simp [Parser.elementEnd,hq]
  rw [hend _ rfl,train?_eq_trainOf (n := n) rfl rfl rfl] at hread
  exact ⟨_,hread,rfl,rfl,rfl⟩

/-! ### Documents -/

/-- Between locations: nothing is captured, and the end of the root emits nothing. -/
structure Idle (p : Parser F) : Prop where
  capture : p.capture = .none
  inFirstPart : p.inFirstPart = false
  noTrain : p.inTreinloc = false ∨ p.nummer = none

/-- The start tag of the root, whatever its name. -/
theorem Idle.elementStart (h : Idle p) (hout : p.inTreinloc = false) (name : String) :
    Idle (p.elementStart name) := by
  by_cases hname : name = "TreinLocation"
  · subst hname
    exact ⟨rfl,rfl,Or.inr rfl⟩
  · have hstart : p.elementStart name = { p with currentLocal := name } := by
      simp [Parser.elementStart,hname,hout,h.inFirstPart]
    rw [hstart]
    exact ⟨h.capture,h.inFirstPart,h.noTrain⟩

/-- The end of the root. -/
theorem Idle.elementEnd (h : Idle p) (name : String) :
    (p.elementEnd name).2 = [] ∧ Idle (p.elementEnd name).1 := by
  rw [Parser.elementEnd]
  split
  · exact ⟨rfl,rfl,h.inFirstPart,h.noTrain⟩
  · split
    · exact ⟨rfl,h.capture,rfl,h.noTrain⟩
    · split
      · next hloc =>
        have hnum : p.nummer = none := h.noTrain.resolve_left (by simp [hloc.2])
        refine ⟨?_,rfl,rfl,Or.inl rfl⟩
        rw [Parser.train?,hnum]
        rfl
      · exact ⟨rfl,h⟩

theorem reads_plain_idle {n : Node} (h : Idle p) (hn : n.loc? = none) :
    ∃ q, Reads (Parser.step parseF32) p n.tokens q [] ∧ Idle q := by
  obtain ⟨l,hread⟩ := reads_skip (p := p) n (avoids_of_plain hn _) h.capture
  exact ⟨_,hread,h.capture,h.inFirstPart,h.noTrain⟩

/-- The children of the root: the trains of its locations, in order. -/
theorem reads_rootChildren {ns : List Node} (hns : ∀ n ∈ ns, n.loc? = none ∨ IsLocation n)
    (h : Idle p) :
    ∃ q, Reads (Parser.step parseF32) p (tokensAll ns) q
      ((ns.filter (isNamed "TreinLocation")).filterMap (trainOf parseF32)) ∧ Idle q := by
  have hout : (ns.filter (isNamed "TreinLocation")).filterMap (trainOf parseF32) =
      ns.flatMap fun n => if n.isNamed "TreinLocation" then (trainOf parseF32 n).toList else [] := by
    induction ns with
    | nil => rfl
    | cons n ns ih =>
      rw [List.flatMap_cons,← ih fun m hm => hns m (List.mem_cons_of_mem n hm),List.filter_cons]
      split
      · cases ht : trainOf parseF32 n <;> simp [ht]
      · simp
  rw [hout,tokensAll_eq_flatMap]
  refine Reads.flatMap (fun n hn s hs => ?_) h
  obtain hplain | hloc := hns n hn
  · rw [if_neg (by simp [isNamed,hplain])]
    exact reads_plain_idle hs hplain
  · rw [if_pos (by simp [isNamed,hloc.named])]
    obtain ⟨q,hread,hcap,hin,hq⟩ := reads_location s hloc
    exact ⟨q,hread,hcap,hin,Or.inl hq⟩

theorem reads_root {n : Node} (hn : ∀ c ∈ n.children, c.loc? = none ∨ IsLocation c) (h : Idle p)
    (hout : p.inTreinloc = false) :
    ∃ q, Reads (Parser.step parseF32) p n.tokens q
      ((n.children.filter (isNamed "TreinLocation")).filterMap (trainOf parseF32)) ∧ Idle q := by
  have hnamed : ∀ name, n.loc? = some name → ∃ q, Reads (Parser.step parseF32) p n.tokens q
      ((n.children.filter (isNamed "TreinLocation")).filterMap (trainOf parseF32)) ∧ Idle q := by
    intro name hname
    obtain ⟨q,hcs,hq⟩ := reads_rootChildren hn (h.elementStart hout name)
    obtain ⟨hnil,hidle⟩ := hq.elementEnd name
    have hread := reads_element hname hcs
    rw [hnil,List.append_nil] at hread
    exact ⟨_,hread,hidle⟩
  cases n with
  | text t => exact reads_plain_idle h rfl
  | other c => exact reads_plain_idle h rfl
  | empty name attrs => exact hnamed name.loc rfl
  | element name attrs cs => exact hnamed name.loc rfl

/-- The loop emits the trains of a feed document, and nothing else. -/
theorem reads_document (d : FeedDocument) :
    ∃ q : Parser F, Reads (Parser.step parseF32) Parser.init d.tokens q (d.trains parseF32) := by
  obtain ⟨l,hprolog⟩ := reads_skipAll (p := Parser.init) d.prolog
    (avoidsAll_iff.mpr fun n hn => avoids_of_plain (d.prolog_plain n hn) _) rfl
  obtain ⟨q,hroot,hq⟩ := reads_root
    (p := { Parser.init with currentLocal := l }) d.root_children ⟨rfl,rfl,Or.inl rfl⟩ rfl
  obtain ⟨l',hepilog⟩ := reads_skipAll (p := q) d.epilog
    (avoidsAll_iff.mpr fun n hn => avoids_of_plain (d.epilog_plain n hn) _) hq.capture
  have hread : Reads (Parser.step parseF32) Parser.init d.tokens _ _ :=
    hprolog.append_silent (hroot.append hepilog)
  rw [List.append_nil] at hread
  exact ⟨_,hread⟩

end Trains

/-- On a feed document `parse` calls `on_train` exactly for the locations that have a
train, once each and in document order. -/
theorem parse_document {F ε : Type} (tokenizer : String → List (Except ε Token))
    (parseF32 : List Char → Option F) (xml : String) (d : FeedDocument)
    (h : tokenizer xml = d.tokens.map Except.ok) :
    parse tokenizer parseF32 xml = d.trains parseF32 := by
  have htokens : (tokenizer xml).filterMap Except.toOption = d.tokens := by
    rw [h,List.filterMap_map]
    exact List.filterMap_some
  obtain ⟨q,hq⟩ := reads_document d
  rw [parse,htokens,show Transducer.run _ _ _ = _ from hq]

/-- A location with one part. -/
def sampleLocation : Node :=
  .element ⟨"a","TreinLocation"⟩ [⟨⟨"xmlns","a"⟩,"x".toList⟩]
    [.element ⟨"a","TreinNummer"⟩ [] [.text "7".toList],
      .element ⟨"a","TreinMaterieelDelen"⟩ []
        [.empty ⟨"a","GeneratieTijd"⟩ [],
          .element ⟨"a","Longitude"⟩ [] [.text "3.0".toList],
          .element ⟨"a","Latitude"⟩ [] [.text "4.0".toList]]]

theorem isLeaf_of_text (name : QName) (attrs : List Attribute) (t : List Char) :
    IsLeaf (.element name attrs [.text t]) := by
  refine ⟨?_,Nat.le_refl 1⟩
  intro c hc
  rw [List.mem_singleton.mp hc]
  rfl

theorem sampleLocation_isLocation : IsLocation sampleLocation := by
  refine ⟨rfl,?_,by decide⟩
  intro c hc
  obtain rfl | hc := List.mem_cons.mp hc
  · exact Or.inl ⟨rfl,isLeaf_of_text _ _ _⟩
  obtain rfl := List.mem_singleton.mp hc
  refine Or.inr (Or.inl ⟨rfl,?_,by decide,by decide⟩)
  intro c hc
  obtain rfl | hc := List.mem_cons.mp hc
  · exact Or.inr (Or.inr (by rw [Avoids]; decide))
  obtain rfl | hc := List.mem_cons.mp hc
  · exact Or.inl ⟨rfl,isLeaf_of_text _ _ _⟩
  obtain rfl := List.mem_singleton.mp hc
  exact Or.inr (Or.inl ⟨rfl,isLeaf_of_text _ _ _⟩)

def sampleFeed : FeedDocument where
  prolog := []
  root := .element ⟨"a","ArrayOfTreinLocation"⟩ [] [.text "\n".toList,sampleLocation]
  epilog := []
  prolog_plain := by simp
  root_children := by
    intro n hn
    obtain rfl | hn := List.mem_cons.mp hn
    · exact Or.inl rfl
    · obtain rfl := List.mem_singleton.mp hn
      exact Or.inr sampleLocation_isLocation
  epilog_plain := by simp

/-- A location with a stray longitude, two parts and the number behind them. -/
def secondLocation : Node :=
  .element ⟨"","TreinLocation"⟩ []
    [.element ⟨"","Longitude"⟩ [] [.text "8.0".toList],
      .element ⟨"","TreinMaterieelDelen"⟩ []
        [.element ⟨"","Latitude"⟩ [] [.text "6.0".toList],
          .element ⟨"","Longitude"⟩ [] [.text "5.0".toList]],
      .element ⟨"","TreinMaterieelDelen"⟩ []
        [.element ⟨"","Longitude"⟩ [] [.text "3.0".toList],
          .element ⟨"","Latitude"⟩ [] [.text "4.0".toList]],
      .element ⟨"","TreinNummer"⟩ [] [.text "9".toList]]

theorem secondLocation_isLocation : IsLocation secondLocation := by
  refine ⟨rfl,?_,by decide⟩
  intro c hc
  obtain rfl | hc := List.mem_cons.mp hc
  · exact Or.inr (Or.inr (by simp [Avoids,AvoidsAll,watched]))
  obtain rfl | hc := List.mem_cons.mp hc
  · refine Or.inr (Or.inl ⟨rfl,?_,by decide,by decide⟩)
    intro c hc
    obtain rfl | hc := List.mem_cons.mp hc
    · exact Or.inr (Or.inl ⟨rfl,isLeaf_of_text _ _ _⟩)
    obtain rfl := List.mem_singleton.mp hc
    exact Or.inl ⟨rfl,isLeaf_of_text _ _ _⟩
  obtain rfl | hc := List.mem_cons.mp hc
  · refine Or.inr (Or.inl ⟨rfl,?_,by decide,by decide⟩)
    intro c hc
    obtain rfl | hc := List.mem_cons.mp hc
    · exact Or.inl ⟨rfl,isLeaf_of_text _ _ _⟩
    obtain rfl := List.mem_singleton.mp hc
    exact Or.inr (Or.inl ⟨rfl,isLeaf_of_text _ _ _⟩)
  obtain rfl := List.mem_singleton.mp hc
  exact Or.inl ⟨rfl,isLeaf_of_text _ _ _⟩

def twoLocations : FeedDocument where
  prolog := []
  root := .element ⟨"a","ArrayOfTreinLocation"⟩ []
    [.text "\n".toList,sampleLocation,.other " ".toList,secondLocation]
  epilog := []
  prolog_plain := by simp
  root_children := by
    intro n hn
    obtain rfl | hn := List.mem_cons.mp hn
    · exact Or.inl rfl
    obtain rfl | hn := List.mem_cons.mp hn
    · exact Or.inr sampleLocation_isLocation
    obtain rfl | hn := List.mem_cons.mp hn
    · exact Or.inl rfl
    · obtain rfl := List.mem_singleton.mp hn
      exact Or.inr secondLocation_isLocation
  epilog_plain := by simp

def sampleXml : String :=
  "<a:ArrayOfTreinLocation>\n<a:TreinLocation xmlns:a=\"x\"><a:TreinNummer>7</a:TreinNummer>" ++
  "<a:TreinMaterieelDelen><a:GeneratieTijd/><a:Longitude>3.0</a:Longitude>" ++
  "<a:Latitude>4.0</a:Latitude></a:TreinMaterieelDelen></a:TreinLocation><!-- -->" ++
  "<TreinLocation><Longitude>8.0</Longitude><TreinMaterieelDelen><Latitude>6.0</Latitude>" ++
  "<Longitude>5.0</Longitude></TreinMaterieelDelen><TreinMaterieelDelen>" ++
  "<Longitude>3.0</Longitude><Latitude>4.0</Latitude></TreinMaterieelDelen>" ++
  "<TreinNummer>9</TreinNummer></TreinLocation></a:ArrayOfTreinLocation>"

/-- The values of the samples. -/
def sampleF32 (s : List Char) : Option ℕ :=
  if s = "3.0".toList then some 3 else if s = "4.0".toList then some 4
  else if s = "5.0".toList then some 5 else if s = "6.0".toList then some 6 else none

/-- The trains of the two locations, for a tokenizer that knows the document. -/
theorem parse_document_sample :
    let tokenizer : String → List (Except Unit Token) := fun xml =>
      if xml = sampleXml then twoLocations.tokens.map .ok else []
    parse tokenizer sampleF32 sampleXml = twoLocations.trains sampleF32 ∧
      twoLocations.trains sampleF32 = [⟨7,3,4⟩,⟨9,5,6⟩] :=
  ⟨parse_document _ _ _ _ (if_pos rfl),by decide +kernel⟩

end NsPixels.XmlParser
