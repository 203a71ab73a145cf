import TagTree.Document.Scan
import TagTree.Grammar.Derivation

/-!
# How far a text has come

A document is a sequence of tags, with white space in front and behind. Each tag opens an element,
is one, or closes the innermost open element. `ComesTo maxDepth text closings progress` says of
the beginning of a document, cut behind a tag, what its tags have come to: the elements that are
open, or the root if it is complete, and the closing tags passed. It says so tag by tag in the
order of the text, and knows nothing of how a text is read.
-/

set_option autoImplicit false

namespace TagTree

namespace Grammar

open Scan (OpenElement)

/-! ## Tags -/

/-- A tag. An element in it has no children yet. -/
inductive Tag where
  /-- The tag is a whole element. -/
  | whole (e : Element)
  /-- The tag opens an element. -/
  | opening (e : Element)
  /-- The tag closes an element of the name. -/
  | closing (name : String)

/-- Whether an element begins with the tag. -/
def Tag.isStart : Tag → Bool
  | whole _ => true
  | opening _ => true
  | closing _ => false

/-- The text is this tag. -/
inductive Spells : List Char → Tag → Prop where
  | whole {name attributes : List Char} {pairs : List (String × String)}
      (hname : isName name = true) (hattributes : DerivesAttributes attributes pairs) :
      Spells ('<' :: (name ++ attributes ++ ['/', '>']))
        (.whole ⟨String.ofList name, .ofList pairs, []⟩)
  | opening {name attributes : List Char} {pairs : List (String × String)}
      (hname : isName name = true) (hattributes : DerivesAttributes attributes pairs) :
      Spells ('<' :: (name ++ attributes ++ ['>']))
        (.opening ⟨String.ofList name, .ofList pairs, []⟩)
  | closing {name : List Char} (hname : isName name = true) :
      Spells ('<' :: '/' :: (name ++ ['>'])) (.closing (String.ofList name))

/-- The text of the closing tag of a name. -/
def closingTag (name : String) : List Char :=
  '<' :: '/' :: (name.toList ++ ['>'])

/-- The closing tags of the names, one after the other. -/
def closingTags (names : List String) : List Char :=
  names.flatMap closingTag

/-! ## Progress -/

/-- Where a document stands behind a tag. -/
inductive Progress where
  /-- These elements are open, the innermost of them first; none are before the root. -/
  | inside (stack : List OpenElement)
  /-- The root is complete. -/
  | complete (root : Element)

/-- A complete element in its place: inside the innermost open element or, if there is none, as
the root. -/
def Progress.place (e : Element) : List OpenElement → Progress
  | [] => .complete e
  | o :: outer => .inside (o.add e :: outer)

/-- The names of the elements that are open, the innermost first. -/
def Progress.openNames : Progress → List String
  | .inside stack => stack.map OpenElement.name
  | .complete _ => []

/-- Whether an element may have that level; the root has level 1. -/
def AllowsLevel (maxDepth : Option Nat) (level : Nat) : Prop :=
  ∀ limit, maxDepth = some limit → level ≤ limit

/-- What a tag leads to inside the elements of a stack, and the closing that it is, if it is one.
A closing tag has the name of the innermost element. -/
inductive Leads (maxDepth : Option Nat) :
    List OpenElement → Tag → Option Closing → Progress → Prop where
  | whole {stack : List OpenElement} {e : Element}
      (hlevel : AllowsLevel maxDepth (stack.length + 1)) :
      Leads maxDepth stack (.whole e) none (.place e stack)
  | opening {stack : List OpenElement} {e : Element}
      (hlevel : AllowsLevel maxDepth (stack.length + 1)) :
      Leads maxDepth stack (.opening e) none (.inside (⟨e.name, e.attributes, []⟩ :: stack))
  | closing {o : OpenElement} {outer : List OpenElement} :
      Leads maxDepth (o :: outer) (.closing o.name)
        (some ⟨o.name, o.children.length, outer.length + 1⟩) (.place o.closed outer)

/-- What the tags of a text have come to, with the closings among them in their order. No element
lies at a level that the limit does not allow. -/
inductive ComesTo (maxDepth : Option Nat) : List Char → List Closing → Progress → Prop where
  | start {blanks : List Char} (hblanks : isBlankText blanks = true) :
      ComesTo maxDepth blanks [] (.inside [])
  | tag {text tagText : List Char} {closings : List Closing} {stack : List OpenElement} {tag : Tag}
      {closing : Option Closing} {progress : Progress}
      (h : ComesTo maxDepth text closings (.inside stack)) (htag : Spells tagText tag)
      (hleads : Leads maxDepth stack tag closing progress) :
      ComesTo maxDepth (text ++ tagText) (closings ++ closing.toList) progress

/-- The text behind the tags of a document does not go on with a tag that leads on. White space is
left in front of it only where it cannot belong to the white space before the root. -/
def Ended (maxDepth : Option Nat) : Progress → List Char → Prop
  | .inside stack, rest =>
    (stack = [] → ∀ c ∈ rest.head?, isBlank c = false) ∧
      ∀ tagText tag closing progress, Spells tagText tag → tagText <+: rest →
        ¬ Leads maxDepth stack tag closing progress
  | .complete _, _ => True

/-- An account of a text as a document: the tags in it, one after the other as long as they lead
on, with what they have come to and the closings among them, and the text behind them. -/
structure Account (maxDepth : Option Nat) (source : List Char) where
  /-- The text of the tags, with the white space in front of them. -/
  tags : List Char
  /-- The text behind them. -/
  rest : List Char
  closings : List Closing
  progress : Progress
  source_eq : source = tags ++ rest
  comesTo : ComesTo maxDepth tags closings progress
  ended : Ended maxDepth progress rest

end Grammar

namespace Element

/-! ## Closings of a tree -/

mutual

/-- The elements of a tree in the order in which they end, each as the closing that its closing
tag is if it has one. The root lies at level `depth`. -/
def postorder (depth : Nat) : Element → List Closing
  | ⟨name, _, children⟩ =>
    postorderAll (depth + 1) children ++ [⟨name, children.length, depth⟩]

/-- The elements of the trees, tree by tree. -/
def postorderAll (depth : Nat) : List Element → List Closing
  | [] => []
  | c :: cs => c.postorder depth ++ postorderAll depth cs

end

theorem postorderAll_append (depth : Nat) (cs ds : List Element) :
    postorderAll depth (cs ++ ds) = postorderAll depth cs ++ postorderAll depth ds := by
  induction cs with
  | nil => rfl
  | cons c cs ih => rw [List.cons_append, postorderAll, postorderAll, ih, List.append_assoc]

end Element

end TagTree
