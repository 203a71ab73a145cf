import TagTree.Failure
import TagTree.Text.Blank
import TagTree.Text.Name
import TagTree.Text.View
import TagTree.Parser.Basic

/-!
# Reading a document in one pass

A machine that reads a document from left to right, once, with a stack of the elements that are
open. At each place it looks at one tag: a closing tag takes the innermost open element off the
stack, any other tag puts an element on it or, if it is a whole element, into its place. Where
no tag stands, or not the right one, the text is no document, and the machine is stuck there.

The machine backs up over white space only, which belongs to no attribute, and it never compares
one failure with another. So it says plainly which failure a text has, and where.
-/

set_option autoImplicit false

namespace TagTree

namespace Scan

/-! ## Pieces of a tag -/

/-- The longest name at the front of the text, and the text after it. -/
def name? : List Char → Option (List Char × List Char)
  | [] => none
  | c :: cs =>
    if isNameStart c then some (c :: cs.takeWhile isNamePart, cs.dropWhile isNamePart) else none

/-- An attribute at the front of the text, and the text after it. -/
def attribute? (cs : List Char) : Option ((String × String) × List Char) :=
  match name? cs with
  | some (name, '=' :: '"' :: rest) =>
    match rest.dropWhile isValuePart with
    | [] => none
    | _ :: after =>
      some ((String.ofList name, String.ofList (rest.takeWhile isValuePart)), after)
  | _ => none

theorem length_name? {cs name rest : List Char} (h : name? cs = some (name, rest)) :
    rest.length < cs.length := by
  cases cs with
  | nil => simp [name?] at h
  | cons c cs =>
    simp only [name?, Option.ite_none_right_eq_some, Option.some.injEq, Prod.mk.injEq] at h
    have := (List.dropWhile_sublist isNamePart (l := cs)).length_le
    simp only [← h.2.2, List.length_cons]
    omega

theorem length_attribute? {cs rest : List Char} {pair : String × String}
    (h : attribute? cs = some (pair, rest)) : rest.length < cs.length := by
  unfold attribute? at h
  split at h
  · rename_i value hname
    have hlt := length_name? hname
    have hle := (List.dropWhile_sublist isValuePart (l := value)).length_le
    split at h
    · simp at h
    · rename_i hvalue
      simp only [Option.some.injEq, Prod.mk.injEq] at h
      simp only [hvalue, List.length_cons] at hle hlt
      rw [← h.2]
      omega
  · simp at h

/-- The text without the white space at its front. -/
def skipBlanks (cs : List Char) : List Char :=
  cs.dropWhile isBlank

theorem length_skipBlanks (cs : List Char) : (skipBlanks cs).length ≤ cs.length :=
  (List.dropWhile_sublist isBlank (l := cs)).length_le

/-- As many attributes as there are at the front of the text, each with the white space around
it, and the text after them. -/
def attributes (cs : List Char) : List (String × String) × List Char :=
  match h : attribute? (skipBlanks cs) with
  | some (pair, rest) =>
    have : (skipBlanks rest).length < cs.length := by
      have := length_attribute? h
      have := length_skipBlanks cs
      have := length_skipBlanks rest
      omega
    let more := attributes (skipBlanks rest)
    (pair :: more.1, more.2)
  | none => ([], cs)
termination_by cs.length

theorem length_attributes (cs : List Char) : (attributes cs).2.length ≤ cs.length := by
  fun_induction attributes cs with
  | case1 cs pair rest h hlt more ih =>
    exact Nat.le_trans ih (Nat.le_of_lt hlt)
  | case2 => simp

/-! ## The machine -/

/-- An element that is open. -/
structure OpenElement where
  name : String
  attributes : Attributes
  /-- The children read so far, the last of them first. -/
  children : List Element

/-- The element with one more child read. -/
def OpenElement.add (o : OpenElement) (child : Element) : OpenElement :=
  { o with children := child :: o.children }

/-- The element with all its children read. -/
def OpenElement.closed (o : OpenElement) : Element :=
  ⟨o.name, o.attributes, o.children.reverse⟩

/-- The machine between two tags. -/
structure State where
  /-- The open elements, the innermost of them first. -/
  stack : List OpenElement
  /-- The text still to read. -/
  rest : List Char

/-- How a pass ends: with the root and the text after it, or stuck for a cause before a text. -/
inductive Ending where
  | complete (root : Element) (rest : List Char)
  | stuck (cause : Cause) (rest : List Char)

/-- What a tag leads to. -/
inductive Next where
  | state (s : State)
  | ending (e : Ending)

/-- Put a whole element in its place: inside the innermost open element, or, if there is none,
as the root. -/
def place (element : Element) (stack : List OpenElement) (rest : List Char) : Next :=
  match stack with
  | [] => .ending (.complete element rest)
  | o :: outer => .state ⟨o.add element :: outer, rest⟩

/-- Stuck before a text that does not begin as it should: for a lack of text if there is none, and
for `cause` otherwise. -/
def stuckAt (cause : Cause) (rest : List Char) : Next :=
  .ending (.stuck (if rest.isEmpty then .unexpectedEnd else cause) rest)

/-- Read the name and the end of a closing tag, where `tag` is the text from the tag on and `cs`
the text after its first two characters. The right tag is a closing to report. -/
def closeTag (innermost : OpenElement) (outer : List OpenElement) (tag cs : List Char) :
    Option Closing × Next :=
  match name? cs with
  | none => (none, stuckAt .predicateMismatch cs)
  | some (name, '>' :: rest) =>
    if String.ofList name = innermost.name then
      (some ⟨innermost.name, innermost.children.length, outer.length + 1⟩,
        place innermost.closed outer rest)
    else (none, .ending (.stuck (.tagMismatch innermost.name (String.ofList name)) tag))
  | some (_, rest) => (none, stuckAt (.literalMismatch ">") rest)

/-- Read an opening tag, or a tag that is a whole element, where `cs` is the text after its first
character. -/
def openTag (maxDepth : Option Nat) (stack : List OpenElement) (cs : List Char) : Next :=
  let exceeded := maxDepth.filter fun limit => decide (limit < stack.length + 1)
  match name? cs with
  | none => stuckAt .predicateMismatch cs
  | some (name, rest) =>
    let read := attributes rest
    let element : OpenElement := ⟨String.ofList name, .ofList read.1, []⟩
    match read.2, exceeded with
    | '/' :: '>' :: after, none => place element.closed stack after
    | '/' :: '>' :: after, some limit => .ending (.stuck (.nestingTooDeep limit) after)
    | '>' :: after, none => .state ⟨element :: stack, after⟩
    | '>' :: after, some limit => .ending (.stuck (.nestingTooDeep limit) after)
    | after, _ => stuckAt (.literalMismatch ">") after

/-- Read one tag. -/
def step (maxDepth : Option Nat) (s : State) : Option Closing × Next :=
  match s.stack, s.rest with
  | innermost :: outer, '<' :: '/' :: cs => closeTag innermost outer s.rest cs
  | stack, '<' :: cs => (none, openTag maxDepth stack cs)
  | [], rest => (none, stuckAt (.literalMismatch "<") rest)
  | _ :: _, rest => (none, stuckAt (.literalMismatch "</") rest)

theorem rest_of_place {element : Element} {stack : List OpenElement} {rest : List Char}
    {t : State} (h : place element stack rest = .state t) : t.rest = rest := by
  unfold place at h
  split at h
  · simp at h
  · simp only [Next.state.injEq] at h
    rw [← h]

theorem length_closeTag {innermost : OpenElement} {outer : List OpenElement}
    {tag cs : List Char} {t : State} (h : (closeTag innermost outer tag cs).2 = .state t) :
    t.rest.length < cs.length := by
  unfold closeTag at h
  split at h
  · simp [stuckAt] at h
  · rename_i rest hname
    have hlt := length_name? hname
    split at h
    · rw [rest_of_place h]
      simp only [List.length_cons] at hlt
      omega
    · simp at h
  · simp [stuckAt] at h

theorem length_openTag {maxDepth : Option Nat} {stack : List OpenElement} {cs : List Char}
    {t : State} (h : openTag maxDepth stack cs = .state t) : t.rest.length < cs.length := by
  unfold openTag at h
  split at h
  · simp [stuckAt] at h
  · rename_i name rest hname
    have hlt := length_name? hname
    have hle := length_attributes rest
    simp only at h
    split at h
    · rename_i hread _
      rw [rest_of_place h]
      simp only [hread, List.length_cons] at hle
      omega
    · simp at h
    · rename_i hread _
      simp only [Next.state.injEq] at h
      simp only [hread, List.length_cons] at hle
      simp only [← h]
      omega
    · simp at h
    · simp [stuckAt] at h

/-- A tag takes up some text. -/
theorem length_step {maxDepth : Option Nat} {s t : State} (h : (step maxDepth s).2 = .state t) :
    t.rest.length < s.rest.length := by
  unfold step at h
  split at h
  · rename_i hrest
    have hlt := length_closeTag h
    rw [hrest, List.length_cons, List.length_cons]
    omega
  · rename_i hrest _
    have hlt := length_openTag h
    rw [hrest, List.length_cons]
    omega
  · simp [stuckAt] at h
  · simp [stuckAt] at h

/-- Read tags until the root is complete or the machine is stuck. The closing tags read on the way
are told in their order. -/
def passFrom (maxDepth : Option Nat) (s : State) : List Closing × Ending :=
  match h : step maxDepth s with
  | (closing, .ending e) => (closing.toList, e)
  | (closing, .state t) =>
    have : t.rest.length < s.rest.length := length_step (congrArg Prod.snd h)
    let later := passFrom maxDepth t
    (closing.toList ++ later.1, later.2)
termination_by s.rest.length

/-! ## Documents -/

/-- The result of a pass over a text of `size` bytes: the root, which white space may follow, or
the failure at which the pass is stuck. -/
def resultOf (size : Nat) : Ending → Except Failure Element
  | .complete root rest =>
    match skipBlanks rest with
    | [] => .ok root
    | c :: cs => .error ⟨.expectedEnd, size - byteCount (c :: cs)⟩
  | .stuck cause rest => .error ⟨cause, size - byteCount rest⟩

/-- One pass over a text, with the closing tags it reads. -/
def pass (maxDepth : Option Nat) (source : String) : List Closing × Except Failure Element :=
  let read := passFrom maxDepth ⟨[], skipBlanks source.toList⟩
  (read.1, resultOf source.utf8ByteSize read.2)

end Scan

end TagTree
