import TagTree.Element.Basic

/-!
# Writing elements as markup

`Element.markup` writes an element on one line and without any space that is not needed: `<a/>`
when it has no children, and `<a>…</a>` otherwise. Names and values are written as they stand;
the markup has no escapes, so an element whose names are no names or whose values hold a double
quote has a text that does not read back.
-/

set_option autoImplicit false

namespace TagTree

/-- One attribute, with the space before it. -/
def attributeMarkup (entry : String × String) : String :=
  " " ++ entry.1 ++ "=\"" ++ entry.2 ++ "\""

/-- The attributes in the order of their names. -/
def Attributes.markup (a : Attributes) : String :=
  String.join (a.entries.map attributeMarkup)

namespace Element

mutual

/-- The text of an element. -/
def markup : Element → String
  | ⟨name, attributes, children⟩ =>
    if children.isEmpty then "<" ++ name ++ attributes.markup ++ "/>"
    else markupAfter ("<" ++ name ++ attributes.markup ++ ">") children ++ "</" ++ name ++ ">"

/-- The texts of elements in turn, after `out`. -/
def markupAfter (out : String) : List Element → String
  | [] => out
  | c :: cs => markupAfter (out ++ c.markup) cs

end

instance : ToString Element := ⟨markup⟩

/-! ## Lemmas -/

theorem markupAfter_eq (out : String) (cs : List Element) :
    markupAfter out cs = out ++ markupAfter "" cs := by
  induction cs generalizing out with
  | nil => simp [markupAfter]
  | cons c cs ih =>
    rw [markupAfter, markupAfter, ih, ih ("" ++ c.markup)]
    simp [String.append_assoc]

/-- The texts of the children follow each other with nothing between them. -/
theorem markupAfter_cons (out : String) (c : Element) (cs : List Element) :
    markupAfter out (c :: cs) = out ++ c.markup ++ markupAfter "" cs := by
  rw [markupAfter, markupAfter_eq]

end Element

end TagTree
