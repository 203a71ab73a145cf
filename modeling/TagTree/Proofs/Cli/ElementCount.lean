import TagTree.Proofs.Cli.Answers
import TagTree.Proofs.Document.StartTags

/-!
# Counting elements

A traversal answers the elements below an element one after the other, each place of the tree once
and in the order of the document, and then it ends. In a document that is the order of the start
tags, of which there are as many as elements in the tree. So the number that the program logs of
a document counts its start tags (`Cli.descendants_in_document_order`).
-/

set_option autoImplicit false

namespace TagTree

namespace Cli

open Grammar

/-- The line that says that a document is fine. -/
theorem line_documentOk (root : Element) :
    (documentOk root).line =
      "INFO xmlite: document ok elements=" ++ toString (root.descendants.length + 1) := by
  have hfront : LogLevel.info.name ++ " " ++ "xmlite" ++ ": " ++ "document ok" ++ " " ++
      "elements" ++ "=" = "INFO xmlite: document ok elements=" := by decide +kernel
  rw [← hfront]
  simp only [documentOk, LogEntry.line, LogField.text, List.map_cons, List.map_nil,
    String.join_cons, String.join_nil, String.append_empty, String.append_assoc,
    Bool.false_eq_true, if_false]

/-- What the program answers to the wish to check a document, if it shows that it is fine. -/
theorem respond_check_of_accepted {env : Environment} {path source : String} {verbose : Bool}
    {maxDepth : Option Nat} {root : Element} (htext : env.text path = .ok source)
    (haccepted : Document.parse maxDepth source = .accepted root)
    (hshown : (threshold env.logLevel verbose).shows .info = true) :
    (Invocation.check path maxDepth verbose).respond env =
      ⟨0, "", readingLog (threshold env.logLevel verbose) maxDepth source ++
        ["INFO xmlite: document ok elements=" ++ toString (root.descendants.length + 1),
          "OK: " ++ path]⟩ := by
  have hlines : logLines (threshold env.logLevel verbose) [documentOk root] =
      [(documentOk root).line] := by
    have hlevel : (threshold env.logLevel verbose).shows (documentOk root).level = true := hshown
    simp only [logLines, List.filter_cons, hlevel, if_true, List.filter_nil, List.map_cons,
      List.map_nil]
  rw [Invocation.respond, withDocument_of_accepted htext haccepted, hlines, line_documentOk]
  rfl

/-- **A traversal lists the elements below an element in the order of the document, each place
once.** It is the recursive order without the root. Asked again and again, it answers one of the
elements at a time and then none. The places below an element are its paths but the empty one; in
increasing order they are the places of the elements listed.

However a document is cut into tags, and it can be cut, its root and the elements below it stand
behind the texts in front of the start tags, in this order. So there are as many start tags as
elements, and this is the number in the log of a document that is fine. -/
theorem descendants_in_document_order :
    (∀ e : Element,
      e :: e.descendants = e.preorder ∧
      (∀ n, Element.nextAfter? n e.children = e.descendants[n]?) ∧
      ∃ places : List (List Nat), places.Pairwise (· < ·) ∧
        (∀ path, path ∈ places ↔ path ≠ [] ∧ (e.at? path).isSome = true) ∧
        places.map e.at? = e.descendants.map some) ∧
    ∀ (maxDepth : Option Nat) (source : String) (root : Element),
      Document.parse maxDepth source = .accepted root →
      Nonempty (Cut source.toList) ∧
      ∀ cut : Cut source.toList,
        List.Forall₂ (StandsBehind source.toList) cut.startPlaces (root :: root.descendants) ∧
        root.descendants.length + 1 = cut.startCount ∧
        ∀ (env : Environment) (path : String) (verbose : Bool), env.text path = .ok source →
          (threshold env.logLevel verbose).shows .info = true →
          (Invocation.check path maxDepth verbose).respond env =
            ⟨0, "", readingLog (threshold env.logLevel verbose) maxDepth source ++
              ["INFO xmlite: document ok elements=" ++ toString cut.startCount,
                "OK: " ++ path]⟩ := by
  constructor
  · intro e
    refine ⟨e.preorder_eq.symm, fun n => ?_, e.places, e.pairwise_places, e.mem_places_iff,
      e.map_at?_places⟩
    rw [Element.nextAfter?_eq, Element.descendants_eq]
  · intro maxDepth source root haccepted
    have hderives := (Document.parse_eq_accepted_iff.1 haccepted).1
    obtain ⟨cut, -⟩ := exists_cut hderives
    refine ⟨⟨cut⟩, fun cut => ?_⟩
    have hstands := forall₂_startPlaces hderives cut
    have hcount : root.descendants.length + 1 = cut.startCount := by
      rw [← cut.length_startPlaces, hstands.length_eq, List.length_cons]
    refine ⟨hstands, hcount, fun env path verbose htext hshown => ?_⟩
    rw [respond_check_of_accepted htext haccepted hshown, hcount]

/-- A document with a value that looks like a tag, and with elements below the root on two levels,
checked with a log. -/
theorem descendants_in_document_order_quoted :
    Document.parse none "<a k=\"<b>\"><b><c/></b><d/></a>\n" = .accepted
      ⟨"a", .ofList [("k", "<b>")], [⟨"b", ∅, [⟨"c", ∅, []⟩]⟩, ⟨"d", ∅, []⟩]⟩ ∧
    (∃ cut : Cut "<a k=\"<b>\"><b><c/></b><d/></a>\n".toList, cut.startCount = 4) ∧
    (Invocation.check "-" none true).respond (piped "<a k=\"<b>\"><b><c/></b><d/></a>\n") =
      ⟨0, "", readingLog (some .debug) none "<a k=\"<b>\"><b><c/></b><d/></a>\n" ++
        ["INFO xmlite: document ok elements=4", "OK: -"]⟩ := by
  have haccepted : Document.parse none "<a k=\"<b>\"><b><c/></b><d/></a>\n" = .accepted
      ⟨"a", .ofList [("k", "<b>")], [⟨"b", ∅, [⟨"c", ∅, []⟩]⟩, ⟨"d", ∅, []⟩]⟩ := by
    decide +kernel
  obtain ⟨⟨cut⟩, hcuts⟩ := descendants_in_document_order.2 _ _ _ haccepted
  obtain ⟨-, hcount, hanswer⟩ := hcuts cut
  rw [Element.descendants_eq] at hcount
  have hfour : cut.startCount = 4 := hcount.symm
  have hresponse := hanswer (piped _) "-" true (text_piped _) rfl
  rw [hfour] at hresponse
  exact ⟨haccepted, ⟨cut, hfour⟩, hresponse⟩

end Cli

end TagTree
