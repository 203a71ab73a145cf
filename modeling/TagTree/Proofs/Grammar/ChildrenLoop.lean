import TagTree.Proofs.Grammar.Depth
import TagTree.Proofs.Parser.Repetition

/-!
# The loop over the children of an element

With nested errors, the children of an element are read in a loop that does not look whether a
child has read anything. It ends all the same: an element takes four bytes at least, its two signs,
a name and one sign more, so the loop reads at most one child for every four bytes left, and runs
its child once more (`ElementRule.element_makes_progress`).

How often the child is run is seen in a run over `ElementRule.probedRun`, which tells of every use
of the rule. The closing tag does not use it, so all that is told in the loop is told by its
children.
-/

set_option autoImplicit false

namespace TagTree

variable {α β : Type}

/-! ## What an element takes -/

namespace Grammar

/-- An element stands between the first sign of a tag and the last one. -/
theorem Derives.exists_between {text : List Char} {e : Element} (h : Derives text e) :
    ∃ between, text = '<' :: (between ++ ['>']) := by
  cases h with
  | @leaf name attributes pairs _ _ => exact ⟨name ++ attributes ++ ['/'], by simp⟩
  | @parent name attributes inside pairs children _ _ _ =>
      exact ⟨name ++ attributes ++ '>' :: (inside ++ '<' :: '/' :: name), by simp⟩

/-- No element is shorter than a tag by itself with a name of one character. -/
theorem Derives.four_le_byteCount {text : List Char} {e : Element} (h : Derives text e) :
    4 ≤ byteCount text := by
  refine Nat.le_trans ?_ (length_le_byteCount text)
  cases h with
  | leaf hname _ =>
      have hlength := length_pos_of_isName hname
      simp only [List.length_cons, List.length_append, List.length_nil]
      omega
  | parent hname _ _ =>
      have hlength := length_pos_of_isName hname
      simp only [List.length_cons, List.length_append, List.length_nil]
      omega

end Grammar

/-! ## Repetitions that a closing parser ends -/

namespace Run

theorem events_ofPiece (v : View) (piece : Piece α) : (ofPiece v piece).events = [] := by
  cases piece <;> rfl

end Run

namespace Chain

variable {c more : Chain α} {close : View → Run β}

/-- What is told in a repetition is told by its items, if its end tells nothing. -/
theorem events_finish (nested : Bool) (c : Chain α) (h : ∀ w, (close w).events = []) :
    (c.finish nested close).events = c.events := by
  cases nested with
  | true =>
      unfold finish closedBy
      cases c.ending <;> simp [Run.following, h]
  | false => exact Run.events_andThen fun _ w => (Run.events_andThen fun _ _ => rfl).trans (h w)

/-- The closing parser does not see what is told. -/
theorem Watches.finish (h : more.Watches c) (nested : Bool) (close : View → Run β) :
    (more.finish nested close).Watches (c.finish nested close) := by
  cases nested with
  | true => exact h.closedBy fun _ => .refl _
  | false => exact h.kept.andThen fun _ _ => .refl _

end Chain

namespace ElementRule

open Grammar

variable {rule : ElementRule → View → Run Element} {r : ElementRule} {v w : View} {e : Element}

/-- An element that is read begins at the first sign of a tag, ends behind the last one, and takes
four bytes at least. -/
theorem four_le_of_run (hv : v.Valid) (h : (r.run v).outcome = .ok (e, w)) :
    v.offset + 4 ≤ w.offset ∧ ∃ between, v.rest = '<' :: (between ++ '>' :: w.rest) := by
  obtain ⟨text, hrest, hw, hderives, -⟩ := (outcome_run_iff hv).1 h
  obtain ⟨between, htext⟩ := hderives.exists_between
  constructor
  · have hfour := hderives.four_le_byteCount
    rw [hw, hv.upTo_eq hrest]
    show v.offset + 4 ≤ v.offset + byteCount text
    omega
  · refine ⟨between, ?_⟩
    rw [hrest, htext]
    simp

/-! ## The loop -/

/-- The inside of an element, over any way to run the rule that leads no way back: the children,
and the closing tag, which does not use the rule. -/
theorem runWith_childrenThenClose_eq (name : String) (hv : v.Valid)
    (hrule : ∀ w, v.Reaches w → w.Bounds (rule r.child w).outcome) :
    (r.childrenThenClose name).runWith rule v =
      (Chain.of (rule r.child) v).finish r.nestedErrors fun w =>
        .ofPiece w (closeElementAt name w.rest) := by
  have hreaches : v.Reaches (Chain.of (rule r.child) v).rest := (Chain.bounded_extend hrule _).1
  rw [runWith_childrenThenClose]
  exact Chain.finish_congr (reads_closeElement name rule _ (hreaches.valid hv))

/-- The runs of the rule, each under a label. -/
def probedRun (label : String) (r : ElementRule) (v : View) : Run Element :=
  (r.run v).probed label v

theorem outcome_probedRun (label : String) (r : ElementRule) (v : View) :
    (probedRun label r v).outcome = (r.run v).outcome :=
  Run.outcome_probed label v (r.run v)

theorem bounds_probedRun (label : String) (r : ElementRule) (v : View) :
    v.Bounds (probedRun label r v).outcome := by
  rw [outcome_probedRun]
  exact bounds_run r v

/-- To tell of the children changes nothing. -/
theorem outcome_probed_inside (name label : String) (hv : v.Valid) :
    ((r.childrenThenClose name).runWith (probedRun label) v).outcome =
      (r.inside name v).outcome := by
  have hwatches : (Chain.of (probedRun label r.child) v).Watches (Chain.of r.child.run v) :=
    Chain.watches_extend (fun w => (Run.Watches.refl _).probed label w) _ v
  rw [inside, runWith_childrenThenClose_eq name hv fun w _ => bounds_probedRun label _ w,
    runWith_childrenThenClose_eq name hv fun w _ => bounds_run _ w]
  exact (hwatches.finish _ _).outcome_eq

/-- The loop runs its child at one place for every four bytes left at most, and at one more. -/
theorem exists_child_places (r : ElementRule) (name label : String) (hv : v.Valid) :
    ∃ places : List View, places.length ≤ v.remaining / 4 + 1 ∧
      (∀ i u, places[i]? = some u → ∃ before, Chain.iterate r.child.run i v = some (before, u)) ∧
      ((r.childrenThenClose name).runWith (probedRun label) v).events =
        places.flatMap fun u => (probedRun label r.child u).events := by
  have hitem : ∀ w, v.Reaches w → w.Bounds (probedRun label r.child w).outcome :=
    fun w _ => bounds_probedRun label r.child w
  have hread : ∀ w, v.Reaches w → ∀ e u, (probedRun label r.child w).outcome = .ok (e, u) →
      w.offset < u.offset → w.offset + 4 ≤ u.offset := by
    intro w hw e u hok _
    rw [outcome_probedRun] at hok
    exact (four_le_of_run (hw.valid hv) hok).1
  obtain ⟨places, hlength, hplaces, hevents⟩ :=
    Chain.exists_places (m := 4) hv hitem (by omega) hread
  simp only [Chain.iterate_congr (outcome_probedRun label r.child)] at hplaces
  refine ⟨places, hlength, hplaces, ?_⟩
  rw [runWith_childrenThenClose_eq name hv hitem,
    Chain.events_finish _ _ fun _ => Run.events_ofPiece _ _]
  exact hevents

/-! ## The recursion -/

/-- The rule is not used below as many levels as there are opening tags of three bytes in the text
left, and one more. -/
theorem within_remaining_eq_run (base : ElementRule → View → Run Element) (r : ElementRule)
    (hv : v.Valid) : within base (v.remaining / 3 + 1) r v = r.run v := by
  by_cases hadmits : r.Admits 0
  · apply within_eq_run _ hv hadmits
    intro tagBytes text rest hrest hopens _
    -- as many open tags would take more bytes than there are
    have hthree := hopens.three_mul_le
    have htags := hopens.tagBytes_le
    have htext : byteCount text ≤ v.remaining := by
      rw [hv.remaining_eq, hrest, byteCount_append]
      exact Nat.le_add_right _ _
    omega
  · apply runWith_body_eq_run hv
    intro e rest _ hlimit
    -- no tag is let through at a level that is too deep
    exact absurd ((exceeded?_eq_none_iff.1 hlimit).mono (Nat.zero_le 1)) hadmits

/-- **Every element makes progress, so reading elements ends.** An element that is read takes
four bytes at least, from the first sign of a tag to the last one. So the loop over the children
of an element, entered at any view, runs the rule for a child at most once for every four bytes
left there, and once more, each time at the place that the child before leaves; a repetition of
elements is never ended by one that reads nothing; and neither the loop nor the rule goes on for
ever: what stands for the rule below one level for every three bytes left and one more is never
used. -/
theorem element_makes_progress (r : ElementRule) (v : View) (hv : v.Valid) :
    (∀ e w, ((Parser.element r).run v).outcome = .ok (e, w) →
      v.offset + 4 ≤ w.offset ∧ ∃ between, v.rest = '<' :: (between ++ '>' :: w.rest)) ∧
    (∀ name label,
      (∃ places : List View, places.length ≤ v.remaining / 4 + 1 ∧
        (∀ i u, places[i]? = some u →
          ∃ before, Chain.iterate (Parser.element r.child).run i v = some (before, u)) ∧
        ((r.childrenThenClose name).runWith (probedRun label) v).events =
          places.flatMap fun u => (probedRun label r.child u).events) ∧
      ((r.childrenThenClose name).runWith (probedRun label) v).outcome =
        ((r.childrenThenClose name).run v).outcome ∧
      ((r.childrenThenClose name).run v).Finishes) ∧
    ((Parser.element r).many.run v = (Chain.of (Parser.element r).run v).kept ∧
      (Chain.of (Parser.element r).run v).ending ≠ .stalled) ∧
    ((Parser.element r).run v).Finishes ∧
    ∀ base, within base (v.remaining / 3 + 1) r v = (Parser.element r).run v := by
  refine ⟨fun e w hok => four_le_of_run hv hok, fun name label => ⟨?_, ?_, ?_⟩,
    ⟨Parser.run_many _ hv, ending_ne_stalled r hv⟩, Parser.run_finishes _ hv,
    fun base => within_remaining_eq_run base r hv⟩
  · exact exists_child_places r name label hv
  · rw [Parser.run_eq _ hv]
    exact outcome_probed_inside name label hv
  · exact Parser.run_finishes _ hv

/-- Two elements and the beginning of a third one, inside an element that is not closed: ten bytes,
so three runs of the rule for a child and four levels of it at most. -/
theorem element_makes_progress_unclosed :
    let r : ElementRule := { nestedErrors := true }
    let v := View.ofSource "<a/><b/><c"
    v.Valid ∧
    (∃ w, (r.run v).outcome = .ok (⟨"a", .ofList [], []⟩, w) ∧ 4 ≤ w.offset) ∧
    (∃ places : List View, places.length ≤ 3 ∧
      ((r.childrenThenClose "d").runWith (probedRun "child") v).events =
        places.flatMap fun u => (probedRun "child" r.child u).events) ∧
    ((r.childrenThenClose "d").run v).Finishes ∧
    within (fun _ _ => .stop (.broken .outOfFuel)) 4 r v = (Parser.element r).run v := by
  intro r v
  have hv : v.Valid := View.valid_ofSource _
  have hderives : Derives "<a/>".toList ⟨"a", .ofList [], []⟩ := @Derives.leaf ['a'] _ _ rfl .none
  have hok : (r.run v).outcome = .ok (⟨"a", .ofList [], []⟩, v.upTo "<b/><c".toList) :=
    outcome_run_of_derives hderives (admits_of_maxDepth_eq_none rfl _) hv (by decide +kernel)
  have hremaining : v.remaining = 10 := by decide +kernel
  obtain ⟨hprogress, hloop, -, -, hlevels⟩ := element_makes_progress r v hv
  obtain ⟨⟨places, hlength, -, hevents⟩, -, hfinishes⟩ := hloop "d" "child"
  rw [hremaining] at hlength hlevels
  have hfour := (hprogress _ _ hok).1
  exact ⟨hv, ⟨_, hok, by omega⟩, ⟨places, hlength, hevents⟩, hfinishes, hlevels _⟩

end ElementRule

end TagTree
