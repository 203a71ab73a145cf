import TagTree.Proofs.Grammar.Elements

/-!
# The two modes of the rule for elements

With nested errors a missing closing tag may be reported as the failure of the child that stands
in its place. This changes the failure of a run and nothing else: the runs of the two modes are
`Run.Deepened`, one from the other. They succeed together, with one result; a fatal failure and a
wrong closing tag are reported alike; any other failure stays the same or moves further on.

The modes differ at one place, where the inside of an element ends (`ElementRule.closeAfter`),
but what differs there is passed on to every level above.
-/

set_option autoImplicit false

namespace TagTree

open Grammar

variable {α : Type}

/-! ## Failures further on -/

/-- `g` is the failure `f`, or it lies further on, and then neither of them is fatal and `f` is no
wrong closing tag. -/
def Failure.Deepened (f g : Failure) : Prop :=
  f = g ∨ (f.isFatal = false ∧ g.isFatal = false ∧ f.cause.isTagMismatch = false ∧
    f.offset < g.offset)

/-- The second run ends like the first one, or fails further on. -/
def Run.Deepened (plain nested : Run α) : Prop :=
  match plain.outcome with
  | .ok result => nested.outcome = .ok result
  | .error (.failed f) => ∃ g, nested.outcome = .error (.failed g) ∧ f.Deepened g
  | .error (.broken defect) => nested.outcome = .error (.broken defect)

theorem Failure.Deepened.refl (f : Failure) : f.Deepened f := Or.inl rfl

/-- Either failure is fatal if the other one is. -/
theorem Failure.Deepened.isFatal_eq {f g : Failure} (h : f.Deepened g) :
    f.isFatal = g.isFatal := by
  rcases h with rfl | ⟨hf, hg, -, -⟩
  · rfl
  · rw [hf, hg]

theorem Failure.Deepened.eq_of_isFatal {f g : Failure} (h : f.Deepened g)
    (hf : f.isFatal = true) : f = g := by
  rcases h with rfl | ⟨hnot, -, -, -⟩
  · rfl
  · rw [hnot] at hf
    cases hf

/-- Of two failures the closing tag's, or the child's if that lies further on. -/
theorem Failure.deepened_deeper {child close : Failure} (hchild : child.isFatal = false)
    (hclose : close.isFatal = false) : close.Deepened (child.deeper close) := by
  unfold deeper
  by_cases hdeeper : close.cause.isTagMismatch = false ∧ close.offset < child.offset
  · rw [if_pos hdeeper]
    exact Or.inr ⟨hclose, hchild, hdeeper.1, hdeeper.2⟩
  · rw [if_neg hdeeper]
    exact .refl close

namespace Run

theorem Deepened.refl (run : Run α) : run.Deepened run := by
  unfold Deepened
  rcases h : run.outcome with (f | defect) | result
  · exact ⟨f, rfl, .refl f⟩
  · rfl
  · rfl

theorem deepened_failed {f g : Failure} (h : f.Deepened g) (events events' : List Event) :
    Deepened (⟨events, .error (.failed f)⟩ : Run α) ⟨events', .error (.failed g)⟩ :=
  ⟨g, rfl, h⟩

theorem Deepened.after {plain nested : Run (List α)} (h : plain.Deepened nested) (value : α)
    (events events' : List Event) :
    (plain.after value events).Deepened (nested.after value events') := by
  unfold Deepened at h ⊢
  unfold Run.after
  rcases hplain : plain.outcome with (f | defect) | ⟨values, w⟩
  · rw [hplain] at h
    obtain ⟨g, hnested, hdeepened⟩ := h
    rw [hnested]
    exact ⟨g, rfl, hdeepened⟩
  · rw [hplain] at h
    rw [h]
  · rw [hplain] at h
    rw [h]

end Run

/-! ## The rule with nested errors -/

namespace ElementRule

/-- The rule in the mode that reports nested errors. -/
def nested (r : ElementRule) : ElementRule :=
  { r with nestedErrors := true }

variable {r : ElementRule} {v w : View} {e : Element} {name : String}

@[simp] theorem nested_child (r : ElementRule) : r.nested.child = r.child.nested := rfl

@[simp] theorem exceeded?_nested (r : ElementRule) : r.nested.exceeded? = r.exceeded? := rfl

theorem deepened_enclose {plain inner : Run (List Element)} (h : plain.Deepened inner)
    (r : ElementRule) (e : Element) :
    (r.enclose e plain).Deepened (r.nested.enclose e inner) := by
  unfold Run.Deepened at h ⊢
  unfold enclose
  rcases hplain : plain.outcome with (f | defect) | ⟨children, w⟩
  · rw [hplain] at h
    obtain ⟨g, hinner, hdeepened⟩ := h
    rw [hinner]
    exact ⟨g, rfl, hdeepened⟩
  · rw [hplain] at h
    rw [h]
  · rw [hplain] at h
    rw [h]

/-- The closing tag is read in both modes or in none, and of its failure the rule with nested
errors makes a deeper one at most. -/
theorem deepened_closeAfter (hplain : r.nestedErrors = false) (f : Failure) {g : Failure}
    (hg : g.isFatal = false) (events events' : List Event) :
    (Run.following events (r.closeAfter name f v)).Deepened
      (.following events' (r.nested.closeAfter name g v)) := by
  have hnotFatal := notFatal_closeElementAt name v.rest
  unfold closeAfter
  cases hclose : closeElementAt name v.rest with
  | read found rest => rfl
  | stuck cause rest =>
      rw [hclose] at hnotFatal
      have hdeepened : Failure.Deepened ⟨cause, (v.upTo rest).offset⟩
          (g.deeper ⟨cause, (v.upTo rest).offset⟩) :=
        Failure.deepened_deeper hg hnotFatal
      rw [hplain]
      exact Run.deepened_failed hdeepened _ _

/-- Every run without nested errors is deepened by the run with them. -/
theorem deepened_induction :
    Induction (fun r v run => r.nestedErrors = false → run.Deepened (r.nested.run v))
      (fun r name v run => r.nestedErrors = false → run.Deepened (r.nested.inside name v)) where
  stuck hv htag _ := by
    rw [run_of_stuck hv htag]
    exact .refl _
  tooDeep hv htag hlimit _ := by
    rw [run_of_tooDeep hv htag (exceeded?_nested _ ▸ hlimit)]
    exact .refl _
  whole hv htag hlimit _ := by
    rw [run_of_whole hv htag (exceeded?_nested _ ▸ hlimit)]
    exact .refl _
  opening hv htag hlimit hinside hplain := by
    rw [run_of_opening hv htag (exceeded?_nested _ ▸ hlimit)]
    exact deepened_enclose (hinside hplain) _ _
  child {r name v w e events} hv _ _ hchild hlater hplain := by
    -- the child is read in both modes, and what is behind it is deepened
    have hok : (r.nested.child.run v).outcome = .ok (e, w) := hchild hplain
    rw [inside_of_child hv hok]
    exact (hlater hplain).after _ _ _
  fatal {r name v f events} hv _ hfatal hchild hplain := by
    obtain ⟨g, hfailed, hdeepened⟩ := hchild hplain
    -- a fatal failure is the same in both modes, and both pass it on
    have heq := hdeepened.eq_of_isFatal hfatal
    rw [← nested_child] at hfailed
    rw [inside_of_fatal hv hfailed (heq ▸ hfatal), heq]
    exact Run.deepened_failed (.refl _) _ _
  close {r name v f events} hv _ hfatal hchild hplain := by
    obtain ⟨g, hfailed, hdeepened⟩ := hchild hplain
    -- the children end in both modes, and the closing tag is tried in both
    have hg : g.isFatal = false := hdeepened.isFatal_eq.symm.trans hfatal
    rw [← nested_child] at hfailed
    rw [inside_of_failed hv hfailed hg]
    exact deepened_closeAfter hplain _ hg _ _

/-- **Nested errors change the reported failure only.** With any limit, at any level and at every
valid view the two modes either both succeed, with one element and one view left, or both fail.
Then a level too deep in one is the failure of the other, and so is a wrong closing tag that is
reported without nested errors; else the failure with nested errors is the same or lies further
on. -/
theorem nestedErrors_deepen (maxDepth : Option Nat) (depth : Nat) (v : View) (hv : v.Valid) :
    (∃ e w,
      ((Parser.element { maxDepth, depth }).run v).outcome = .ok (e, w) ∧
      ((Parser.element { maxDepth, depth, nestedErrors := true }).run v).outcome =
        .ok (e, w)) ∨
    ∃ f g,
      ((Parser.element { maxDepth, depth }).run v).outcome = .error (.failed f) ∧
      ((Parser.element { maxDepth, depth, nestedErrors := true }).run v).outcome =
        .error (.failed g) ∧
      (∀ limit, f.cause = .nestingTooDeep limit ∨ g.cause = .nestingTooDeep limit → f = g) ∧
      (f = g ∨ f.offset < g.offset) ∧
      (∀ expected found, f.cause = .tagMismatch expected found → f = g) := by
  have hdeepened := deepened_induction.run { maxDepth, depth } hv rfl
  have hfinishes := run_finishes { maxDepth, depth } hv
  unfold Run.Deepened at hdeepened
  rcases hplain : (ElementRule.run { maxDepth, depth } v).outcome with (f | defect) | ⟨e, w⟩
  · rw [hplain] at hdeepened
    obtain ⟨g, hnested, hfailures⟩ := hdeepened
    refine Or.inr ⟨f, g, hplain, hnested, ?_⟩
    rcases hfailures with rfl | ⟨hf, hg, hmismatch, hlt⟩
    · exact ⟨fun _ _ => rfl, Or.inl rfl, fun _ _ _ => rfl⟩
    · -- the failure moved on, so neither is fatal and no tag is wrong
      refine ⟨?_, Or.inr hlt, ?_⟩
      · rintro limit (hcause | hcause)
        · rw [Failure.isFatal, hcause] at hf
          cases hf
        · rw [Failure.isFatal, hcause] at hg
          cases hg
      · intro expected found hcause
        rw [hcause] at hmismatch
        cases hmismatch
  · exact absurd hplain (hfinishes defect)
  · rw [hplain] at hdeepened
    exact Or.inl ⟨e, w, hplain, hdeepened⟩

/-- A child that is not closed: nested errors tell of the wrong tag inside it. -/
theorem nestedErrors_deepen_unclosed :
    ∃ f g,
      ((Parser.element {}).run (View.ofSource "<a><b></a>")).outcome = .error (.failed f) ∧
      ((Parser.element { nestedErrors := true }).run (View.ofSource "<a><b></a>")).outcome =
        .error (.failed g) ∧
      f.offset = 3 ∧ f.offset < g.offset := by
  have hplain := Run.failure?_eq_some_iff.1 (by decide +kernel :
    ((Parser.element {}).run (View.ofSource "<a><b></a>")).failure? =
      some ⟨.literalMismatch "</", 3⟩)
  have hnested := Run.failure?_eq_some_iff.1 (by decide +kernel :
    ((Parser.element { nestedErrors := true }).run (View.ofSource "<a><b></a>")).failure? =
      some ⟨.tagMismatch "b" "a", 6⟩)
  rcases nestedErrors_deepen none 1 (View.ofSource "<a><b></a>") (View.valid_ofSource _) with
    ⟨e, w, hok, -⟩ | ⟨f, g, hf, hg, -, hdeeper, -⟩
  · rw [hplain] at hok
    cases hok
  · refine ⟨f, g, hf, hg, ?_⟩
    rw [hplain] at hf
    rw [hnested] at hg
    cases hf
    cases hg
    rcases hdeeper with hsame | hlt
    · cases hsame
    · exact ⟨rfl, hlt⟩

end ElementRule

end TagTree
