/-!
# Lines

A line of a text ends at a line feed, or at the end of the text. A carriage return right before
the line feed belongs to the end of the line; anywhere else it is a character like any other.
Text after the last line feed is a line of its own, but no text is none.
-/

set_option autoImplicit false

namespace TagTree

/-- The characters of a line, given in reverse, less a carriage return at its end. -/
def lineBeforeFeed : List Char → List Char
  | '\r' :: line => line.reverse
  | line => line.reverse

/-- The lines of a text that begins inside a line, of which `line` is the part before, in
reverse. -/
def linesFrom (line : List Char) : List Char → List (List Char)
  | [] => if line.isEmpty then [] else [line.reverse]
  | c :: cs =>
    if c = '\n' then lineBeforeFeed line :: linesFrom [] cs else linesFrom (c :: line) cs

/-- The lines of a text. -/
def textLines (text : String) : List String :=
  (linesFrom [] text.toList).map String.ofList

/-! ## Lemmas -/

/-- Characters other than a line feed stay in the line that they stand in. -/
theorem linesFrom_append {cs : List Char} (h : '\n' ∉ cs) (line rest : List Char) :
    linesFrom line (cs ++ rest) = linesFrom (cs.reverse ++ line) rest := by
  induction cs generalizing line with
  | nil => rfl
  | cons c cs ih =>
    simp only [List.mem_cons, not_or] at h
    rw [List.cons_append, linesFrom, if_neg (Ne.symm h.1), ih h.2]
    simp

/-- A line feed gives back the line before it, if that holds no line feed and does not end in a
carriage return. -/
theorem linesFrom_line {line : List Char} (hfeed : '\n' ∉ line)
    (hreturn : line.getLast? ≠ some '\r') (rest : List Char) :
    linesFrom [] (line ++ '\n' :: rest) = line :: linesFrom [] rest := by
  have hlast : lineBeforeFeed line.reverse = line := by
    unfold lineBeforeFeed
    split
    · rename_i before heq
      rw [List.getLast?_eq_head?_reverse, heq] at hreturn
      simp at hreturn
    · exact List.reverse_reverse line
  rw [linesFrom_append hfeed, linesFrom, if_pos rfl, List.append_nil, hlast]

end TagTree
