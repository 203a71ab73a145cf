import TagTree.Proofs.Document.Reading

/-!
# One pass reads the same

The rule for elements goes back over its text: both start tags are tried, a child is tried where
the closing tag stands, and of two failures one is chosen at every level. The one-pass machine
does none of this, and yet it ends with the same tree or the same failure.

The machine is taken along with the run. While the rule reads an element at level `d`, the machine
has `d - 1` open elements on its stack; a run that succeeds leaves the machine behind the element
with its work put in place, and a run that fails leaves it stuck for that failure
(`Scan.Follows`). The step lemmas say what one tag does to the machine; the rest is an induction on
runs. The closing tags that a run reports are taken along as well.
-/

set_option autoImplicit false

namespace TagTree

open Grammar

variable {α : Type}

namespace Scan

variable {maxDepth : Option Nat} {stack outer : List OpenElement} {o : OpenElement}
  {cs rest : List Char}

/-! ## Steps of the machine -/

/-- The rest of a pass after a tag. -/
def resume (maxDepth : Option Nat) : Next → List Closing × Ending
  | .state s => passFrom maxDepth s
  | .ending e => ([], e)

/-- A pass with closing tags that were read before it. -/
def after (closings : List Closing) (pass : List Closing × Ending) : List Closing × Ending :=
  (closings ++ pass.1, pass.2)

@[simp] theorem after_nil (pass : List Closing × Ending) : after [] pass = pass := rfl

theorem after_after (cs ds : List Closing) (pass : List Closing × Ending) :
    after cs (after ds pass) = after (cs ++ ds) pass := by
  unfold after
  rw [List.append_assoc]

theorem passFrom_eq (maxDepth : Option Nat) (s : State) :
    passFrom maxDepth s =
      after (step maxDepth s).1.toList (resume maxDepth (step maxDepth s).2) := by
  rw [passFrom]
  split
  · rename_i closing e h
    rw [h]
    simp [after, resume]
  · rename_i closing t h
    show after closing.toList (passFrom maxDepth t) = _
    rw [h]
    rfl

/-- The rule for an element inside the open elements of a stack. -/
def ruleAt (maxDepth : Option Nat) (stack : List OpenElement) : ElementRule :=
  ⟨maxDepth, true, stack.length + 1⟩

theorem child_ruleAt (maxDepth : Option Nat) (o : OpenElement) (outer : List OpenElement) :
    (ruleAt maxDepth outer).child = ruleAt maxDepth (o :: outer) := rfl

/-- Whether the machine looks for a start tag and not for a closing tag. -/
def Expects (stack : List OpenElement) (cs : List Char) : Prop :=
  stack = [] ∨ atStartTag cs = true

/-- What a start tag leads to. -/
def openAt (maxDepth : Option Nat) (stack : List OpenElement) (cs : List Char) : Next :=
  match startTagAt cs with
  | .stuck cause rest => .ending (.stuck cause rest)
  | .read tag rest =>
    match (ruleAt maxDepth stack).exceeded? with
    | some limit => .ending (.stuck (.nestingTooDeep limit) rest)
    | none =>
      match tag with
      | .whole e => place e stack rest
      | .opening e => .state ⟨⟨e.name, e.attributes, []⟩ :: stack, rest⟩

/-- What a closing tag leads to. -/
def closeAt (o : OpenElement) (outer : List OpenElement) (cs : List Char) :
    Option Closing × Next :=
  match closeElementAt o.name cs with
  | .read _ rest =>
    (some ⟨o.name, o.children.length, outer.length + 1⟩, place o.closed outer rest)
  | .stuck cause rest => (none, .ending (.stuck cause rest))

theorem openTag_eq (maxDepth : Option Nat) (stack : List OpenElement) (cs : List Char) :
    openTag maxDepth stack cs = openAt maxDepth stack ('<' :: cs) := by
  have hshell : startTagAt ('<' :: cs) = (nameAt cs).andThen fun name cs =>
      tagEndAt ⟨name, .ofList (attributes cs).1, []⟩ (attributes cs).2 := by
    rw [startTagAt, shellAt, charAt, if_pos rfl, Piece.andThen_read]
    cases nameAt cs <;> rfl
  have hlimit : (ruleAt maxDepth stack).exceeded? =
      maxDepth.filter fun limit => decide (limit < stack.length + 1) := rfl
  unfold openTag openAt
  rw [hshell, hlimit, nameAt]
  generalize maxDepth.filter _ = exceeded
  cases hname : name? cs with
  | none => rfl
  | some found =>
      obtain ⟨name, after⟩ := found
      simp only [Piece.andThen_read]
      fun_cases tagEndAt _ (attributes after).2 with
      | case1 rest => cases exceeded <;> rfl
      | case2 rest => cases exceeded <;> rfl
      | case3 _ hwhole hopening =>
          split
          · exact absurd rfl (hwhole _)
          · exact absurd rfl (hwhole _)
          · exact absurd rfl (hopening _)
          · exact absurd rfl (hopening _)
          · rfl

/-- Where the machine looks for a start tag it makes what it can of one. -/
theorem step_of_expects (h : Expects stack cs) :
    step maxDepth ⟨stack, cs⟩ = (none, openAt maxDepth stack cs) := by
  by_cases hstart : atStartTag cs = true
  · obtain ⟨ds, rfl, hsign⟩ := eq_of_atStartTag hstart
    rw [← openTag_eq]
    rcases stack with _ | ⟨o, outer⟩
    · rfl
    · rcases ds with _ | ⟨c, es⟩
      · rfl
      · -- of the patterns of a step the second one fits, whatever is open
        have hc : c ≠ '/' := fun hc => hsign es (by rw [hc])
        unfold step
        split <;> simp_all
  · -- without a start tag the machine expects one at the root only
    have hstack : stack = [] := h.resolve_right hstart
    subst hstack
    rcases eq_of_not_atStartTag (Bool.eq_false_iff.2 hstart) with ⟨ds, rfl⟩ | hsign
    · rw [← openTag_eq]
      rfl
    · unfold openAt step
      rw [startTagAt_of_no_sign hsign]
      split <;> simp_all [stuckAt, causeAt]

/-- The name and the end of a closing tag. -/
theorem closeTag_eq (o : OpenElement) (outer : List OpenElement) (cs : List Char) :
    closeTag o outer ('<' :: '/' :: cs) cs = closeAt o outer ('<' :: '/' :: cs) := by
  have hsign : literalAt "</" ('<' :: '/' :: cs) = .read () cs := by
    simp [literalAt, List.isPrefixOf]
  unfold closeTag closeAt closeElementAt closeTagAt
  rw [hsign, Piece.andThen_read, nameAt]
  cases hname : name? cs with
  | none => rfl
  | some found =>
      obtain ⟨name, after⟩ := found
      rw [Piece.andThen_read]
      rcases after with _ | ⟨d, rest⟩
      · rfl
      · by_cases hd : d = '>'
        · subst hd
          rw [charAt, if_pos rfl]
          simp only [Piece.andThen_read, Piece.checked]
          by_cases hmatch : String.ofList name = o.name
          · rw [if_pos hmatch, if_pos hmatch]
          · rw [if_neg hmatch, if_neg hmatch]
        · rw [charAt, if_neg hd]
          split
          · rename_i hread
            cases hread
          · rename_i hread
            cases hread
            exact absurd rfl hd
          · rename_i hread
            cases hread
            rfl

theorem step_of_not_atStartTag (h : atStartTag cs = false) :
    step maxDepth ⟨o :: outer, cs⟩ = closeAt o outer cs := by
  rcases eq_of_not_atStartTag h with ⟨ds, rfl⟩ | hsign
  · rw [← closeTag_eq]
    rfl
  · have hsign' : ∀ ds, cs ≠ '<' :: '/' :: ds := fun ds => hsign _
    obtain ⟨cause, hclose, -, hcause⟩ := closeElementAt_of_no_sign o.name hsign'
    unfold closeAt step
    rw [hclose, hcause hsign]
    split <;> simp_all [stuckAt, causeAt]

/-! ## A run and a pass -/

/-- The closing tags that a run reports. -/
def closingsOf (events : List Event) : List Closing :=
  events.filterMap fun
    | .closed closing => some closing
    | _ => none

theorem closingsOf_append (events later : List Event) :
    closingsOf (events ++ later) = closingsOf events ++ closingsOf later :=
  List.filterMap_append

/-- The pass does what the run from `v` does. Behind a value it goes on as `next` says; where the
run fails the pass is stuck, for the same cause and at the same place. -/
def Follows (pass : List Closing × Ending) (v : View) (run : Run α)
    (next : α → List Char → List Closing × Ending) : Prop :=
  match run.outcome with
  | .ok (value, w) => pass = after (closingsOf run.events) (next value w.rest)
  | .error (.failed f) =>
    ∃ rest, f.offset = (v.upTo rest).offset ∧ pass = (closingsOf run.events, .stuck f.cause rest)
  | .error (.broken _) => True

section Follows

variable {pass : List Closing × Ending} {v w : View} {inside : Run (List Element)} {e : Element}
  {r : ElementRule}

theorem follows_failAt (v : View) (cause : Cause) (rest : List Char)
    (next : α → List Char → List Closing × Ending) :
    Follows ([], .stuck cause rest) v (.failAt cause (v.upTo rest)) next :=
  ⟨rest, rfl, rfl⟩

theorem follows_succeed (v : View) (value : α) (rest : List Char)
    (next : α → List Char → List Closing × Ending) :
    Follows (next value rest) v (.succeed value (v.upTo rest)) next := rfl

/-- Behind its inside an element is complete, and its closing tag is told. -/
theorem follows_enclose {next : Element → List Char → List Closing × Ending}
    (hsource : w.source = v.source)
    (h : Follows pass w inside fun children rest =>
      after [⟨e.name, children.length, r.depth⟩] (next (e.withChildren children) rest)) :
    Follows pass v (r.enclose e inside) next := by
  unfold Follows at h ⊢
  unfold ElementRule.enclose
  rcases hinside : inside.outcome with (f | defect) | ⟨children, u⟩
  · rw [hinside] at h
    obtain ⟨rest, hoffset, hpass⟩ := h
    exact ⟨rest, hoffset.trans (View.upTo_offset_eq hsource rest), hpass⟩
  · trivial
  · rw [hinside] at h
    simp only [h, closingsOf_append]
    rw [after_after]
    rfl

/-- What a pass does behind a child it does behind the child's own pass. -/
theorem follows_after {next : List Element → List Char → List Closing × Ending}
    (hsource : w.source = v.source) (events : List Event)
    (h : Follows pass w inside fun children rest => next (e :: children) rest) :
    Follows (after (closingsOf events) pass) v (inside.after e events) next := by
  unfold Follows at h ⊢
  unfold Run.after
  rcases hinside : inside.outcome with (f | defect) | ⟨children, u⟩
  · rw [hinside] at h
    obtain ⟨rest, hoffset, hpass⟩ := h
    refine ⟨rest, hoffset.trans (View.upTo_offset_eq hsource rest), ?_⟩
    rw [hpass, closingsOf_append]
    rfl
  · trivial
  · rw [hinside] at h
    simp only [h, closingsOf_append]
    rw [after_after]

end Follows

/-! ## The machine beside the rule -/

/-- The element with further children behind those read so far. -/
def OpenElement.closedWith (o : OpenElement) (children : List Element) : Element :=
  ⟨o.name, o.attributes, o.children.reverse ++ children⟩

theorem closedWith_nil (o : OpenElement) : o.closedWith [] = o.closed := by
  unfold OpenElement.closedWith OpenElement.closed
  rw [List.append_nil]

theorem closedWith_add (o : OpenElement) (e : Element) (children : List Element) :
    (o.add e).closedWith children = o.closedWith (e :: children) := by
  unfold OpenElement.closedWith OpenElement.add
  simp

/-- The pass beside the run of an element: it puts the element in its place. -/
def FollowsElement (maxDepth : Option Nat) (r : ElementRule) (v : View) (run : Run Element) :
    Prop :=
  ∀ stack, r = ruleAt maxDepth stack → Expects stack v.rest →
    Follows (passFrom maxDepth ⟨stack, v.rest⟩) v run fun e rest =>
      resume maxDepth (place e stack rest)

/-- The pass beside the run of the inside of an element: it completes the innermost element and
puts it in its place. -/
def FollowsInside (maxDepth : Option Nat) (r : ElementRule) (name : String) (v : View)
    (run : Run (List Element)) : Prop :=
  ∀ o outer, r = ruleAt maxDepth outer → o.name = name →
    Follows (passFrom maxDepth ⟨o :: outer, v.rest⟩) v run fun children rest =>
      after [⟨name, o.children.length + children.length, outer.length + 1⟩]
        (resume maxDepth (place (o.closedWith children) outer rest))

/-- A child is read, and its own pass leaves the machine where the next one begins. -/
theorem followsInside_child {r : ElementRule} {name : String} {v w : View} {e : Element}
    {events : List Event} (hstart : atStartTag v.rest = true) (hw : v.Reaches w)
    (hchild : FollowsElement maxDepth r.child v ⟨events, .ok (e, w)⟩)
    (hlater : FollowsInside maxDepth r name w (r.inside name w)) :
    FollowsInside maxDepth r name v ((r.inside name w).after e events) := by
  rintro o outer rfl rfl
  have hpass : passFrom maxDepth ⟨o :: outer, v.rest⟩ =
      after (closingsOf events) (passFrom maxDepth ⟨o.add e :: outer, w.rest⟩) :=
    hchild (o :: outer) (child_ruleAt maxDepth o outer) (Or.inr hstart)
  -- behind the child the machine has it in the innermost open element
  have hnext := hlater (o.add e) outer rfl rfl
  have hcount (children : List Element) :
      (o.add e).children.length + children.length =
        o.children.length + (e :: children).length := by
    show (e :: o.children).length + children.length = _
    rw [List.length_cons, List.length_cons]
    omega
  simp only [closedWith_add, hcount] at hnext
  rw [hpass]
  exact follows_after hw.1 events hnext

/-- Where there is no child the closing tag decides, for the machine at once, for the rule after
its attempt. -/
theorem followsInside_close {r : ElementRule} {name : String} {v : View} {f : Failure}
    {events : List Event} (hv : v.Valid)
    (hrun : r.child.run v = ⟨events, .error (.failed f)⟩)
    (hchild : FollowsElement maxDepth r.child v ⟨events, .error (.failed f)⟩) :
    FollowsInside maxDepth r name v (.following events (r.closeAfter name f v)) := by
  rintro o outer rfl rfl
  have hfailed : ((ruleAt maxDepth outer).child.run v).outcome = .error (.failed f) := by
    rw [hrun]
  by_cases hstart : atStartTag v.rest = true
  · rw [ElementRule.closeAfter_of_atStartTag rfl hv hstart hfailed]
    -- the machine is stuck inside the child, whose failure the rule reports
    obtain ⟨rest, hoffset, hpass⟩ :=
      hchild (o :: outer) (child_ruleAt maxDepth o outer) (Or.inr hstart)
    refine ⟨rest, hoffset, ?_⟩
    rw [hpass]
    simp [Run.following, Run.stop]
  · have hclosing := Bool.eq_false_iff.2 hstart
    -- the attempt fails at once, before it has anything to report
    have hevents : events = [] := by
      obtain ⟨f', hrun', -⟩ := (ruleAt maxDepth outer).child.run_of_not_atStartTag hv hclosing
      rw [hrun] at hrun'
      cases hrun'
      rfl
    rw [ElementRule.closeAfter_of_not_atStartTag hv hclosing hfailed, hevents, passFrom_eq,
      step_of_not_atStartTag hclosing]
    unfold closeAt
    cases closeElementAt o.name v.rest with
    | read found rest => simp [Follows, closedWith_nil, Run.ofPiece, Run.following, Run.succeed,
        closingsOf]
    | stuck cause rest => exact follows_failAt v cause rest _

/-- The machine goes along with every run. -/
theorem follows_induction (maxDepth : Option Nat) :
    ElementRule.Induction (FollowsElement maxDepth) (FollowsInside maxDepth) where
  stuck {r v cause rest} hv htag := by
    rintro stack rfl hexpects
    rw [passFrom_eq, step_of_expects hexpects, openAt, htag]
    exact follows_failAt v cause rest _
  tooDeep {r v tag rest limit} hv htag hlimit := by
    rintro stack rfl hexpects
    rw [passFrom_eq, step_of_expects hexpects, openAt, htag]
    simp only [hlimit]
    exact follows_failAt v _ rest _
  whole {r v e rest} hv htag hlimit := by
    rintro stack rfl hexpects
    rw [passFrom_eq, step_of_expects hexpects, openAt, htag]
    simp only [hlimit]
    exact follows_succeed v e rest fun e rest => resume maxDepth (place e stack rest)
  opening {r v e rest} hv htag hlimit hinside := by
    rintro stack rfl hexpects
    rw [passFrom_eq, step_of_expects hexpects, openAt, htag]
    simp only [hlimit]
    -- the element is open now, with no child so far
    have hopen := hinside ⟨e.name, e.attributes, []⟩ stack rfl rfl
    simp only [List.length_nil, Nat.zero_add] at hopen
    exact follows_enclose rfl hopen
  child {r name v w e events} hv hrun hw hchild hlater := by
    have hstart : atStartTag v.rest = true :=
      ElementRule.atStartTag_of_run hv hrun fun f hf => by cases hf
    exact followsInside_child hstart hw hchild hlater
  fatal {r name v f events} hv hrun hfatal hchild := by
    rintro o outer rfl rfl
    have hstart : atStartTag v.rest = true :=
      ElementRule.atStartTag_of_run hv hrun (by rintro g ⟨⟩; exact hfatal)
    exact hchild (o :: outer) (child_ruleAt maxDepth o outer) (Or.inr hstart)
  close hv hrun _ hchild := followsInside_close hv hrun hchild

end Scan

/-! ## Documents -/

namespace Document

open Scan (skipBlanks)

/-- The pass over a document does what the run of its root does. -/
theorem follows_root (maxDepth : Option Nat) (source : String) :
    Scan.Follows (Scan.passFrom maxDepth ⟨[], skipBlanks source.toList⟩) (rootView source)
      ((rootRule maxDepth).run (rootView source)) fun e rest => ([], .complete e rest) :=
  (Scan.follows_induction maxDepth).run (rootRule maxDepth) (valid_rootView source) [] rfl
    (Or.inl rfl)

/-- **A document is what one pass over it makes of it**: the recursive rule and the machine with an
explicit stack end with the same tree, or with the same cause at the same place, for every text
and every limit. A rejection adds to that the line and the column of the place. -/
theorem parse_eq_onePass (maxDepth : Option Nat) (source : String) :
    parse maxDepth source =
      match (Scan.pass maxDepth source).2 with
      | .ok root => .accepted root
      | .error failure =>
        .rejected ⟨failure.cause, failure.offset, .locate source failure.offset⟩ := by
  have hfollows := follows_root maxDepth source
  have hfinishes := (rootRule maxDepth).run_finishes (valid_rootView source)
  unfold Scan.Follows at hfollows
  rw [parse_eq, Scan.pass]
  rcases hroot : ((rootRule maxDepth).run (rootView source)).outcome with
    (f | defect) | ⟨root, w⟩
  · rw [hroot] at hfollows
    obtain ⟨rest, hoffset, hpass⟩ := hfollows
    -- a failure is its cause and its place, and the machine names both
    have hf : f = ⟨f.cause, source.utf8ByteSize - byteCount rest⟩ := by
      rw [View.upTo_offset] at hoffset
      exact congrArg (Failure.mk f.cause) hoffset
    rw [hpass, hf]
    rfl
  · exact absurd hroot (hfinishes defect)
  · rw [hroot] at hfollows
    rw [hfollows]
    show verdictAfter source root w.rest = _
    unfold verdictAfter
    simp only [Scan.after, Scan.resultOf]
    cases skipBlanks w.rest <;> rfl

end Document

end TagTree
