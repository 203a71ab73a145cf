import TagTree.Proofs.Cli.Answers

/-!
# Markup is a normal form

Printed as markup, a document has lost its spacing, the order of its attributes and the ways in
which empty elements can be written. The text printed is a document again, for the line feed
behind it is white space, and it is one of the same tree (`Document.parse_markup_line`). So to
print it once more changes nothing, and every other format shows of it what it shows of the text
that it was made from (`Cli.markup_is_normal_form`).
-/

set_option autoImplicit false

namespace TagTree

/-- The markup of an element that was accepted is accepted as the same element, as a line and
within the same limit. -/
theorem Document.parse_markup_line {maxDepth : Option Nat} {source : String} {root : Element}
    (h : parse maxDepth source = .accepted root) :
    parse maxDepth (root.markup ++ "\n") = .accepted root := by
  have hroot : root.isWellFormed = true := Element.IsRead.isWellFormed (.inl ⟨_, _, h⟩)
  have hline : (root.markup ++ "\n").toList = [] ++ root.markup.toList ++ ['\n'] :=
    String.toList_append
  rw [parse_eq_accepted_iff] at h ⊢
  obtain ⟨-, hheight⟩ := h
  exact ⟨⟨[], _, ['\n'], rfl, Element.derives_markup root hroot, rfl, hline⟩, hheight⟩

namespace Cli

/-- **Printing markup brings documents into a normal form.** Whatever stands on standard input:
if the program prints markup for it, then for the text that it has printed it exits with 0 and
prints that text again, within the same limit. In every format it prints of this text what it
prints of the input itself, and unless the log shows debug entries the whole answer is the
same. -/
theorem markup_is_normal_form (env : Environment) (maxDepth : Option Nat) (output : String)
    (hexit : (respond env (parseLine .markup maxDepth)).exit = 0)
    (houtput : (respond env (parseLine .markup maxDepth)).stdout = output) :
    (respond (env.withInput output) (parseLine .markup maxDepth)).exit = 0 ∧
    (respond (env.withInput output) (parseLine .markup maxDepth)).stdout = output ∧
    ∀ format,
      (respond (env.withInput output) (parseLine format maxDepth)).exit = 0 ∧
      (respond (env.withInput output) (parseLine format maxDepth)).stdout =
        (respond env (parseLine format maxDepth)).stdout ∧
      ((threshold env.logLevel false).shows .debug = false →
        respond (env.withInput output) (parseLine format maxDepth) =
          respond env (parseLine format maxDepth)) := by
  have hlimit : ∀ limit ∈ maxDepth, limit < UInt64.size := by
    by_contra hlimit
    rw [respond_parseLine, if_neg hlimit] at hexit
    cases hexit
  rw [respond_parseLine, if_pos hlimit] at hexit
  obtain ⟨source, root, htext, haccepted⟩ := accepted_of_withDocument hexit
  have hanswer := respond_parseLine_of_accepted hlimit htext haccepted
  -- the line feed is the one that is written behind the markup
  have hprinted : root.markup ++ "\n" = output := by
    rw [← houtput, hanswer]
    rfl
  have hagain := respond_parseLine_of_accepted hlimit (env.text_withInput (root.markup ++ "\n"))
    (Document.parse_markup_line haccepted)
  rw [hprinted] at hagain
  refine ⟨by rw [hagain], by rw [hagain, ← hprinted]; rfl, fun format => ?_⟩
  refine ⟨by rw [hagain], by rw [hagain, hanswer], fun hquiet => ?_⟩
  have hlog (text : String) : readingLog (threshold env.logLevel false) maxDepth text = [] :=
    logLines_eq_nil hquiet _
  rw [hagain, hanswer, hlog source]
  exact congrArg _ (hlog output)

/-- A document with white space around it, a duplicate attribute out of order and an empty element
in two tags, and the line of markup that it comes to. -/
theorem markup_is_normal_form_spaced :
    (respond (piped " <a y=\"1\" x=\"2\"y=\"3\" ><b></b></a>\n\n") (parseLine .markup (some 2))) =
      ⟨0, "<a x=\"2\" y=\"3\"><b/></a>\n", []⟩ ∧
    (respond (piped "<a x=\"2\" y=\"3\"><b/></a>\n") (parseLine .markup (some 2))).stdout =
      "<a x=\"2\" y=\"3\"><b/></a>\n" ∧
    (respond (piped "<a x=\"2\" y=\"3\"><b/></a>\n") (parseLine .tree (some 2))).stdout =
      (respond (piped " <a y=\"1\" x=\"2\"y=\"3\" ><b></b></a>\n\n")
        (parseLine .tree (some 2))).stdout := by
  have hanswer : respond (piped " <a y=\"1\" x=\"2\"y=\"3\" ><b></b></a>\n\n")
      (parseLine .markup (some 2)) = ⟨0, "<a x=\"2\" y=\"3\"><b/></a>\n", []⟩ := by
    decide +kernel
  obtain ⟨-, hmarkup, hformats⟩ := markup_is_normal_form _ (some 2)
    "<a x=\"2\" y=\"3\"><b/></a>\n" (congrArg Response.exit hanswer)
    (congrArg Response.stdout hanswer)
  exact ⟨hanswer, hmarkup, (hformats .tree).2.1⟩

end Cli

end TagTree
