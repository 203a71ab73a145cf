import TagTree.Document
import TagTree.Proofs.Parser.Finishing

/-!
# Offsets lie between characters

An offset counts bytes, and a character may take several of them. The views that a user of parsers
can get hold of are those that steps forward and successful runs lead to from the start of a text
(`View.Visited`). They are valid, every run from one of them has a value or fails, and what it
tells of the text, the place where it stops or the offset of its failure, is a position of the
text: never inside a character, never beyond the end, never in front of its start
(`Parser.run_ends_at_position`). So the offset at which a document is rejected is one as well.
-/

set_option autoImplicit false

namespace TagTree

variable {α : Type}

namespace View

/-- The views that can be got hold of: the start of the text, and what steps forward and
successful runs lead to. -/
inductive Visited (source : String) : View → Prop where
  | start : Visited source (ofSource source)
  | advance {v w : View} {n : Nat} (hv : Visited source v) (h : v.advance? n = some w) :
      Visited source w
  | parse {β : Type} {p : Parser β} {v w : View} {value : β} (hv : Visited source v)
      (h : (p.run v).outcome = .ok (value, w)) : Visited source w

variable {source : String} {v w : View}

/-- A step forward stays in its text. -/
theorem source_of_advance? {n : Nat} (h : v.advance? n = some w) : w.source = v.source := by
  obtain ⟨rest, -, rfl⟩ := Option.map_eq_some_iff.1 h
  rfl

theorem Visited.valid (h : Visited source v) : v.Valid ∧ v.source = source := by
  induction h with
  | start => exact ⟨valid_ofSource source, rfl⟩
  | advance _ hstep ih => exact ⟨ih.1.advance hstep, (source_of_advance? hstep).trans ih.2⟩
  | @parse β p v w value _ hok ih =>
      have hbounds := p.bounds_run v
      rw [hok] at hbounds
      exact ⟨View.Reaches.valid hbounds ih.1, hbounds.1.trans ih.2⟩

/-- A valid view stands at a position of its text. -/
theorem Valid.isValid_offset (hv : v.Valid) : (String.Pos.Raw.mk v.offset).IsValid v.source := by
  obtain ⟨before, hsource, hoffset⟩ := hv
  rw [String.Pos.Raw.isValid_iff_exists_append]
  refine ⟨String.ofList before, String.ofList v.rest, ?_, ?_⟩
  · rw [← String.ofList_append, ← hsource, String.ofList_toList]
  · rw [hoffset, ← utf8ByteSize_ofList]
    rfl

end View

/-- The offset is a position of the text, between two characters or at an end, and not in front
of `start`. -/
structure PositionFrom (source : String) (start offset : Nat) : Prop where
  isValid : (String.Pos.Raw.mk offset).IsValid source
  start_le : start ≤ offset
  le_size : offset ≤ source.utf8ByteSize

theorem View.Reaches.positionFrom {v w : View} (h : v.Reaches w) (hv : v.Valid) :
    PositionFrom v.source v.offset w.offset := by
  have hposition := (h.valid hv).isValid_offset
  rw [h.1] at hposition
  exact ⟨hposition, h.offset_le, hposition.le_utf8ByteSize⟩

/-- A run from a valid view stops or fails at a position of the text. -/
theorem Parser.outcome_run (p : Parser α) {v : View} (hv : v.Valid) :
    (∃ value w, (p.run v).outcome = .ok (value, w) ∧ w.Valid ∧ w.source = v.source ∧
      PositionFrom v.source v.offset w.offset) ∨
    ∃ f, (p.run v).outcome = .error (.failed f) ∧ PositionFrom v.source v.offset f.offset := by
  have hbounds := p.bounds_run v
  rcases hrun : (p.run v).outcome with (f | defect) | ⟨value, w⟩
  · rw [hrun] at hbounds
    obtain ⟨w, hw, hoffset⟩ := hbounds
    have hposition := hw.positionFrom hv
    rw [← hoffset] at hposition
    exact Or.inr ⟨f, rfl, hposition⟩
  · exact absurd hrun (p.run_finishes hv defect)
  · rw [hrun] at hbounds
    have hw : v.Reaches w := hbounds
    exact Or.inl ⟨value, w, rfl, hw.valid hv, hw.1, hw.positionFrom hv⟩

/-- A document is accepted, or it is rejected where a position of its text is. -/
theorem Document.accepted_or_rejected (maxDepth : Option Nat) (source : String) :
    (∃ root, parse maxDepth source = .accepted root) ∨
    ∃ why, parse maxDepth source = .rejected why ∧
      why.position = Position.locate source why.offset ∧ PositionFrom source 0 why.offset := by
  have hverdict : parse maxDepth source =
      verdictOf source ((Grammar.document maxDepth).run (View.ofSource source)).outcome := rfl
  rw [hverdict]
  rcases (Grammar.document maxDepth).outcome_run (View.valid_ofSource source) with
    ⟨root, w, hok, -⟩ | ⟨f, hfailed, hposition⟩
  · rw [hok]
    exact Or.inl ⟨root, rfl⟩
  · rw [hfailed]
    exact Or.inr ⟨_, rfl, rfl, hposition⟩

/-- **Every run ends at a position of the text.** From every view that can be got hold of, every
parser has a value and stops at a valid view of the same text, or it fails; the run is never
broken by a step off the text or into a character. In both cases the offset is a position of the
text, at the start of the run or behind it. So a document is accepted, or rejected at a position
of its text. -/
theorem Parser.run_ends_at_position :
    (∀ (source : String) (v : View), v.Visited source → ∀ (α : Type) (p : Parser α),
      (∃ value w, (p.run v).outcome = .ok (value, w) ∧ w.Valid ∧ w.source = source ∧
        PositionFrom source v.offset w.offset) ∨
      ∃ f, (p.run v).outcome = .error (.failed f) ∧ PositionFrom source v.offset f.offset) ∧
    ∀ (maxDepth : Option Nat) (source : String),
      (∃ root, Document.parse maxDepth source = .accepted root) ∨
      ∃ why, Document.parse maxDepth source = .rejected why ∧
        PositionFrom source 0 why.offset := by
  constructor
  · intro source v hvisited α p
    obtain ⟨hv, rfl⟩ := hvisited.valid
    exact p.outcome_run hv
  · intro maxDepth source
    rcases Document.accepted_or_rejected maxDepth source with
      haccepted | ⟨why, hrejected, -, hposition⟩
    · exact Or.inl haccepted
    · exact Or.inr ⟨why, hrejected, hposition⟩

/-- A name of one byte, between a character of three bytes and one of two. -/
theorem Parser.run_ends_at_position_name :
    (View.mk "€aé" 3 ['a', 'é']).Visited "€aé" ∧
    ∃ w, (Grammar.identifier.run ⟨"€aé", 3, ['a', 'é']⟩).outcome = .ok ("a", w) ∧
      w.offset = 4 ∧ PositionFrom "€aé" 3 w.offset := by
  have hadvance : (View.ofSource "€aé").advance? 3 = some ⟨"€aé", 3, ['a', 'é']⟩ := rfl
  have hvisited : (View.mk "€aé" 3 ['a', 'é']).Visited "€aé" := .advance .start hadvance
  have hrun : (Grammar.identifier.run ⟨"€aé", 3, ['a', 'é']⟩).outcome =
      .ok ("a", ⟨"€aé", 4, ['é']⟩) := rfl
  refine ⟨hvisited, _, hrun, rfl, ?_⟩
  rcases run_ends_at_position.1 "€aé" _ hvisited String Grammar.identifier with
    ⟨name, w, hok, -, -, hposition⟩ | ⟨f, hfailed, -⟩
  · rw [hrun] at hok
    cases hok
    exact hposition
  · rw [hrun] at hfailed
    cases hfailed

end TagTree
