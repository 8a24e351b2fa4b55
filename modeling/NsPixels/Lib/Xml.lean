import Mathlib.Data.List.Basic

/-!
# XML documents and their token streams

A document as a tree, and the flat sequence of tokens that a pull tokenizer yields for
it. Names carry the namespace prefix as written; queries look at the local part alone.
-/

namespace Xml

/-- A name as written, with its namespace prefix. -/
structure QName where
  ns : String
  loc : String
deriving DecidableEq, Repr

structure Attribute where
  name : QName
  value : List Char
deriving DecidableEq, Repr

inductive ElementEnd
  /-- `>` -/
  | opened
  /-- the end tag -/
  | close (name : QName)
  /-- `/>` -/
  | empty
deriving DecidableEq, Repr

inductive Token
  | elementStart (name : QName)
  | attribute (attr : Attribute)
  | elementEnd (tail : ElementEnd)
  | text (text : List Char)
  /-- comments, CDATA sections, processing instructions and declarations -/
  | other (content : List Char)
deriving DecidableEq, Repr

/-- A start tag with this local name. -/
def Token.IsStart (name : String) (tok : Token) : Prop :=
  ∃ q : QName, tok = elementStart q ∧ q.loc = name

@[simp] theorem Token.isStart_elementStart {name : String} {q : QName} :
    (elementStart q).IsStart name ↔ q.loc = name := by simp [IsStart]

/-- A node of a document. -/
inductive Node
  | element (name : QName) (attrs : List Attribute) (children : List Node)
  /-- a self-closing element -/
  | empty (name : QName) (attrs : List Attribute)
  | text (text : List Char)
  | other (content : List Char)

namespace Node

/-- The local name of an element. -/
def loc? : Node → Option String
  | element name _ _ => some name.loc
  | empty name _ => some name.loc
  | text _ => none
  | other _ => none

def children : Node → List Node
  | element _ _ cs => cs
  | empty _ _ => []
  | text _ => []
  | other _ => []

def text? : Node → Option (List Char)
  | text t => some t
  | _ => none

/-- Whether the node is an element of that local name. -/
def isNamed (name : String) (n : Node) : Bool := n.loc? = some name

/-- The first element of that local name in a list of siblings. -/
def firstNamed (name : String) (ns : List Node) : Option Node := ns.find? (isNamed name)

/-- The text of an element: its first text child. -/
def content (n : Node) : Option (List Char) := (n.children.filterMap text?).head?

/-- The tokens of a start tag, up to its last attribute. -/
def startTag (name : QName) (attrs : List Attribute) : List Token :=
  .elementStart name :: attrs.map .attribute

mutual

/-- The tokens of a node. -/
def tokens : Node → List Token
  | element name attrs cs =>
    startTag name attrs ++ .elementEnd .opened :: (tokensAll cs ++ [.elementEnd (.close name)])
  | empty name attrs => startTag name attrs ++ [.elementEnd .empty]
  | text t => [.text t]
  | other c => [.other c]

/-- The tokens of siblings, in order. -/
def tokensAll : List Node → List Token
  | [] => []
  | n :: ns => tokens n ++ tokensAll ns

end

mutual

/-- No element in the subtree has one of the names. -/
def Avoids (names : List String) : Node → Prop
  | element name _ cs => name.loc ∉ names ∧ AvoidsAll names cs
  | empty name _ => name.loc ∉ names
  | text _ => True
  | other _ => True

def AvoidsAll (names : List String) : List Node → Prop
  | [] => True
  | n :: ns => Avoids names n ∧ AvoidsAll names ns

end

theorem tokensAll_eq_flatMap (ns : List Node) : tokensAll ns = ns.flatMap tokens := by
  induction ns with
  | nil => rw [tokensAll,List.flatMap_nil]
  | cons n ns ih => rw [tokensAll,List.flatMap_cons,ih]

theorem avoidsAll_iff {names : List String} {ns : List Node} :
    AvoidsAll names ns ↔ ∀ n ∈ ns, n.Avoids names := by
  induction ns with
  | nil => simp [AvoidsAll]
  | cons n ns ih => simp [AvoidsAll,ih]

theorem avoids_of_plain {n : Node} (h : n.loc? = none) (names : List String) : n.Avoids names := by
  cases n with
  | element name attrs cs => cases h
  | empty name attrs => cases h
  | text t => rw [Avoids]; trivial
  | other c => rw [Avoids]; trivial

/-- An element avoids what neither its name nor its children use. -/
theorem avoids_of_children {names : List String} {name : String} {n : Node}
    (h : n.loc? = some name) (hname : name ∉ names) (hcs : ∀ c ∈ n.children, c.Avoids names) :
    n.Avoids names := by
  cases n with
  | element q attrs cs =>
    obtain rfl : q.loc = name := Option.some.inj h
    rw [Avoids]
    exact ⟨hname,avoidsAll_iff.mpr hcs⟩
  | empty q attrs =>
    obtain rfl : q.loc = name := Option.some.inj h
    rw [Avoids]
    exact hname
  | text t => cases h
  | other c => cases h

mutual

theorem Avoids.mono {names names' : List String} (hsub : names' ⊆ names) :
    ∀ {n : Node}, n.Avoids names → n.Avoids names'
  | .element name attrs cs,h => by
    rw [Avoids] at h ⊢
    exact ⟨fun hmem => h.1 (hsub hmem),AvoidsAll.mono hsub h.2⟩
  | .empty name attrs,h => by
    rw [Avoids] at h ⊢
    exact fun hmem => h (hsub hmem)
  | .text t,_ => avoids_of_plain rfl names'
  | .other c,_ => avoids_of_plain rfl names'

theorem AvoidsAll.mono {names names' : List String} (hsub : names' ⊆ names) :
    ∀ {ns : List Node}, AvoidsAll names ns → AvoidsAll names' ns
  | [],_ => by rw [AvoidsAll]; trivial
  | n :: ns,h => by
    rw [AvoidsAll] at h ⊢
    exact ⟨Avoids.mono hsub h.1,AvoidsAll.mono hsub h.2⟩

end

/-- An element of the given name is not in a subtree that avoids it. -/
theorem Avoids.isNamed_eq_false {names : List String} {name : String} {n : Node}
    (h : n.Avoids names) (hname : name ∈ names) : n.isNamed name = false := by
  have hne : ∀ q : QName, q.loc ∉ names → q.loc ≠ name := fun q hq he => hq (he ▸ hname)
  cases n with
  | element q attrs cs =>
    rw [Avoids] at h
    simp [isNamed,loc?,hne q h.1]
  | empty q attrs =>
    rw [Avoids] at h
    simp [isNamed,loc?,hne q h]
  | text t => rfl
  | other c => rfl

end Node

end Xml
