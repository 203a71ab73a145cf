import TagTree.Document.Progress
import TagTree.Proofs.Document.OnePass

/-!
# The one-pass machine and the progress of a text

What the tags of a text have come to is what the one-pass machine has on its stack behind them.
A tag that leads on is one step of the machine (`Scan.step_of_leads`), a start tag at a level too
deep is where it is stuck (`Scan.step_of_tooDeep`), and behind the beginning of a document it goes
on as if it had started there (`Scan.passFrom_of_comesTo`). The other way round, a step of the
machine is a tag that leads on, or it is stuck in one of three ways (`Scan.step_cases`), so a pass
goes on with tags until the root is complete or it is stuck (`Scan.passFrom_cases`). With that the
reading of a document is told by one pass (`Document.read_eq`).
-/

set_option autoImplicit false

namespace TagTree

namespace Grammar

open Scan (OpenElement skipBlanks)

variable {tagText rest cs : List Char} {tag : Tag}

/-! ## Tags -/

/-- The tag that a start tag is. -/
def StartTag.toTag : StartTag → Tag
  | .whole e => .whole e
  | .opening e => .opening e

theorem StartTag.isStart_toTag (s : StartTag) : s.toTag.isStart = true := by
  cases s <;> rfl

theorem Tag.eq_of_isStart (h : tag.isStart = true) : ∃ s : StartTag, tag = s.toTag := by
  cases tag with
  | whole e => exact ⟨.whole e, rfl⟩
  | opening e => exact ⟨.opening e, rfl⟩
  | closing name => cases h

theorem startTagAt_append {s : StartTag} (h : Spells tagText s.toTag) (rest : List Char) :
    startTagAt (tagText ++ rest) = .read s rest := by
  cases s with
  | whole e =>
      cases h with
      | whole hname hattributes => simp [← startTagAt_whole hname hattributes]
  | opening e =>
      cases h with
      | opening hname hattributes => simp [← startTagAt_opening hname hattributes]

theorem exists_spells {s : StartTag} (h : startTagAt cs = .read s rest) :
    ∃ tagText, Spells tagText s.toTag ∧ cs = tagText ++ rest := by
  obtain ⟨name, attributes, pairs, hname, hattributes, ⟨rfl, hcs⟩ | ⟨rfl, hcs⟩⟩ :=
    startTagAt_eq_read h
  · exact ⟨'<' :: (name ++ attributes ++ ['/', '>']), .whole hname hattributes, by simp [hcs]⟩
  · exact ⟨'<' :: (name ++ attributes ++ ['>']), .opening hname hattributes, by simp [hcs]⟩

/-- A name does not begin with the second sign of a closing tag. -/
theorem atStartTag_of_isName {name : List Char} (h : isName name = true) (rest : List Char) :
    atStartTag ('<' :: (name ++ rest)) = true := by
  cases name with
  | nil => cases h
  | cons c cs =>
      have hc : c ≠ '/' := by
        rintro rfl
        exact absurd (isName_cons h).1 (by decide)
      simp [atStartTag, hc]

theorem atStartTag_append (h : Spells tagText tag) (hstart : tag.isStart = true)
    (rest : List Char) : atStartTag (tagText ++ rest) = true := by
  cases h with
  | whole hname _ => simp [atStartTag_of_isName hname]
  | opening hname _ => simp [atStartTag_of_isName hname]
  | closing _ => cases hstart

theorem spells_closing_iff {name : String} :
    Spells tagText (.closing name) ↔ isName name.toList = true ∧ tagText = closingTag name := by
  constructor
  · intro h
    cases h with
    | closing hname => simpa [closingTag] using hname
  · rintro ⟨hname, rfl⟩
    have hspells := Spells.closing hname
    rwa [String.ofList_toList] at hspells

/-- A tag begins with its sign, which is no white space. -/
theorem isBlank_of_head?_spells (h : Spells tagText tag) (rest : List Char) :
    ∀ c ∈ (tagText ++ rest).head?, isBlank c = false := by
  have hhead : (tagText ++ rest).head? = some '<' := by
    cases h <;> rfl
  rw [hhead]
  rintro c ⟨⟩
  decide

/-- Where no start tag is read, a tag that is a whole element could stand: the text read so far
can be completed to one. -/
theorem startTagAt_eq_stuck {cause : Cause} (h : startTagAt cs = .stuck cause rest) :
    ∃ piece completion e, cs = piece ++ rest ∧ Spells (piece ++ completion) (.whole e) := by
  have hname : isName ['a'] = true := rfl
  have hspells := Spells.whole hname .none
  by_cases hsign : ∀ ds, cs ≠ '<' :: ds
  · rw [startTagAt_of_no_sign hsign] at h
    cases h
    exact ⟨[], ['<', 'a', '/', '>'], _, rfl, hspells⟩
  · simp only [Classical.not_forall, Classical.not_not] at hsign
    obtain ⟨ds, rfl⟩ := hsign
    rw [startTagAt, shellAt, charAt, if_pos rfl, Piece.andThen_read, nameAt] at h
    cases hread : Scan.name? ds with
    | none =>
        rw [hread] at h
        cases h
        exact ⟨['<'], ['a', '/', '>'], _, rfl, hspells⟩
    | some found =>
        obtain ⟨name, after⟩ := found
        obtain ⟨hisName, hds, hstop⟩ := name?_eq_some hread
        obtain ⟨attributes, hafter, hattributes⟩ := exists_derivesAttributes hstop
        rw [hread] at h
        -- the tag lacks its end
        have hrest : rest = (Scan.attributes after).2 := eq_of_tagEndAt_stuck h
        refine ⟨'<' :: (name ++ attributes), ['/', '>'], _, ?_, .whole hisName hattributes⟩
        rw [hds, hrest, List.cons_append, List.append_assoc, ← hafter]

/-! ## Levels -/

/-- Without a limit every level is allowed. -/
theorem allowsLevel_none (level : Nat) : AllowsLevel none level := nofun

theorem not_allowsLevel_iff {maxDepth : Option Nat} {level : Nat} :
    ¬ AllowsLevel maxDepth level ↔ ∃ limit, maxDepth = some limit ∧ limit < level := by
  simp only [AllowsLevel, Classical.not_forall, Nat.not_le, exists_prop]

/-! ## What a tag leads to -/

section Leads

variable {maxDepth : Option Nat} {stack : List OpenElement} {text : List Char}
  {closings : List Closing} {closing : Option Closing} {progress : Progress}

/-- A complete element leaves those open around it. -/
theorem openNames_place (e : Element) (stack : List OpenElement) :
    (Progress.place e stack).openNames = stack.map OpenElement.name := by
  cases stack <;> rfl

/-- A tag that leads on leaves the elements open that were, or opens or closes one. -/
theorem isName_of_leads (hleads : Leads maxDepth stack tag closing progress)
    (htag : Spells tagText tag) (hnames : ∀ o ∈ stack, isName o.name.toList = true) :
    ∀ name ∈ progress.openNames, isName name.toList = true := by
  cases hleads with
  | whole _ => simpa [openNames_place] using hnames
  | opening _ =>
      cases htag with
      | opening hname _ => simpa [Progress.openNames, hname] using hnames
  | closing =>
      simp only [openNames_place, List.forall_mem_map]
      exact fun o ho => hnames o (List.mem_cons_of_mem _ ho)

/-- Behind a tag an element is open, or the root is complete. -/
theorem ne_start_of_leads (hleads : Leads maxDepth stack tag closing progress) :
    progress ≠ .inside [] := by
  have hplace (e : Element) (outer : List OpenElement) : Progress.place e outer ≠ .inside [] := by
    cases outer <;> nofun
  cases hleads with
  | whole _ => exact hplace _ _
  | opening _ => nofun
  | closing => exact hplace _ _

/-- The names of the elements that are open are names. -/
theorem isName_of_comesTo (h : ComesTo maxDepth text closings progress) :
    ∀ name ∈ progress.openNames, isName name.toList = true := by
  induction h with
  | start _ => exact nofun
  | tag _ htag hleads ih =>
      refine isName_of_leads hleads htag fun o ho => ?_
      exact ih o.name (List.mem_map_of_mem ho)

end Leads

end Grammar

namespace Scan

open Grammar

variable {maxDepth : Option Nat} {stack : List OpenElement} {text tagText cs rest : List Char}
  {closings : List Closing} {closing : Option Closing} {tag : Tag} {progress : Progress}

/-! ## Steps of the machine -/

/-- The machine where a document stands, with `rest` still to read. -/
def Next.of (progress : Progress) (rest : List Char) : Next :=
  match progress with
  | .inside stack => .state ⟨stack, rest⟩
  | .complete root => .ending (.complete root rest)

theorem place_eq (e : Element) (stack : List OpenElement) (rest : List Char) :
    place e stack rest = .of (.place e stack) rest := by
  cases stack <;> rfl

theorem exceeded?_ruleAt_eq_none_iff :
    (ruleAt maxDepth stack).exceeded? = none ↔ AllowsLevel maxDepth (stack.length + 1) := by
  rw [ElementRule.exceeded?_eq_none_iff]
  simp only [ElementRule.Admits, ruleAt, AllowsLevel]
  grind

theorem exceeded?_ruleAt_of_lt {limit : Nat} (hlimit : limit < stack.length + 1) :
    (ruleAt (some limit) stack).exceeded? = some limit := by
  simp [ElementRule.exceeded?, ruleAt, Option.filter, hlimit]

/-- At a start tag the level is tested, and the tag is put in its place. -/
theorem step_of_start {s : StartTag} (htag : Spells tagText s.toTag) (rest : List Char) :
    step maxDepth ⟨stack, tagText ++ rest⟩ = (none, openAt maxDepth stack (tagText ++ rest)) :=
  step_of_expects (Or.inr (atStartTag_append htag s.isStart_toTag rest))

/-- A tag that leads on is a step of the machine. -/
theorem step_of_leads (hleads : Leads maxDepth stack tag closing progress)
    (htag : Spells tagText tag) (rest : List Char) :
    step maxDepth ⟨stack, tagText ++ rest⟩ = (closing, .of progress rest) := by
  cases hleads with
  | @whole _ e hlevel =>
      have hstart : Spells tagText (StartTag.whole e).toTag := htag
      rw [step_of_start hstart, openAt, startTagAt_append hstart,
        exceeded?_ruleAt_eq_none_iff.2 hlevel]
      simp only [place_eq]
  | @opening _ e hlevel =>
      have hstart : Spells tagText (StartTag.opening e).toTag := htag
      rw [step_of_start hstart, openAt, startTagAt_append hstart,
        exceeded?_ruleAt_eq_none_iff.2 hlevel]
      rfl
  | @closing o outer =>
      obtain ⟨hname, rfl⟩ := spells_closing_iff.1 htag
      have hclose := @closeElementAt_append rest _ hname
      have hshape : closingTag o.name ++ rest = '<' :: '/' :: (o.name.toList ++ '>' :: rest) := by
        simp [closingTag]
      rw [String.ofList_toList] at hclose
      rw [hshape, step_of_not_atStartTag rfl, closeAt, hclose]
      simp only [place_eq]

/-- At a start tag at a level too deep the machine is stuck, behind the tag. -/
theorem step_of_tooDeep {limit : Nat} (htag : Spells tagText tag) (hstart : tag.isStart = true)
    (hlimit : limit < stack.length + 1) (rest : List Char) :
    step (some limit) ⟨stack, tagText ++ rest⟩ =
      (none, .ending (.stuck (.nestingTooDeep limit) rest)) := by
  obtain ⟨s, rfl⟩ := Tag.eq_of_isStart hstart
  rw [step_of_start htag, openAt, startTagAt_append htag, exceeded?_ruleAt_of_lt hlimit]

/-! ## Where the machine is stuck -/

/-- The ways in which the machine can be stuck inside the elements of a stack: for a cause, before
`rest` in the text `cs`. -/
inductive StuckAt (maxDepth : Option Nat) (stack : List OpenElement) :
    List Char → Cause → List Char → Prop where
  /-- Behind a start tag at a level too deep. -/
  | tooDeep {tagText rest : List Char} {tag : Tag} {limit : Nat} (htag : Spells tagText tag)
      (hstart : tag.isStart = true) (hlimit : maxDepth = some limit)
      (hlevel : limit < stack.length + 1) :
      StuckAt maxDepth stack (tagText ++ rest) (.nestingTooDeep limit) rest
  /-- Behind a piece of text that, with another ending, is a tag that leads on. -/
  | within {piece completion rest : List Char} {cause : Cause} {tag : Tag}
      {closing : Option Closing} {progress : Progress} (htag : Spells (piece ++ completion) tag)
      (hleads : Leads none stack tag closing progress) (hcause : cause.isFatal = false) :
      StuckAt maxDepth stack (piece ++ rest) cause rest
  /-- Behind the name of a closing tag, where the tag should end. -/
  | nameEnd {name rest : List Char} (hopen : stack ≠ []) (hname : isName name = true)
      (hrest : ∀ c ∈ rest.head?, isNamePart c = false ∧ c ≠ '>') :
      StuckAt maxDepth stack ('<' :: '/' :: (name ++ rest)) (causeAt (.literalMismatch ">") rest)
        rest

/-- Where no start tag is read, one could stand that is a whole element. -/
theorem stuckAt_of_startTagAt {cause : Cause} (h : startTagAt cs = .stuck cause rest) :
    StuckAt maxDepth stack cs cause rest := by
  have hcause := notFatal_startTagAt cs
  rw [h] at hcause
  obtain ⟨piece, completion, e, rfl, htag⟩ := startTagAt_eq_stuck h
  exact .within htag (.whole (allowsLevel_none _)) hcause

/-- A text in front of which nothing is amiss yet: a tag that is a whole element could stand
there. -/
theorem stuckAt_self {cause : Cause} (hcause : cause.isFatal = false) :
    StuckAt maxDepth stack cs cause cs := by
  have hname : isName ['a'] = true := rfl
  exact @StuckAt.within _ _ [] _ _ _ _ _ _ (.whole hname .none) (.whole (allowsLevel_none _)) hcause

theorem stuckAt_of_closeElementAt {o : OpenElement} {outer : List OpenElement} {cause : Cause}
    (hname : isName o.name.toList = true) (hclosing : atStartTag cs = false)
    (h : closeElementAt o.name cs = .stuck cause rest) :
    StuckAt maxDepth (o :: outer) cs cause rest := by
  have hcause := notFatal_closeElementAt o.name cs
  rw [h] at hcause
  rcases eq_of_not_atStartTag hclosing with ⟨ds, rfl⟩ | hsign
  · rcases closeElementAt_eq_stuck h with ⟨-, rfl⟩ | rfl | ⟨name, hisName, rfl, rfl, hrest⟩
    · exact stuckAt_self hcause
    · -- the name of the innermost element would do
      have htag : Spells (['<', '/'] ++ (o.name.toList ++ ['>'])) (.closing o.name) :=
        spells_closing_iff.2 ⟨hname, rfl⟩
      exact @StuckAt.within _ _ ['<', '/'] _ _ _ _ _ _ htag .closing hcause
    · exact .nameEnd (List.cons_ne_nil o outer) hisName hrest
  · obtain ⟨cause', hclose, -⟩ := closeElementAt_of_no_sign o.name fun ds => hsign ('/' :: ds)
    rw [hclose] at h
    cases h
    exact stuckAt_self hcause

/-- The ways in which a step of the machine can go: it passes a tag that leads on, or it is
stuck. -/
inductive StepAt (maxDepth : Option Nat) (stack : List OpenElement) :
    List Char → Option Closing × Next → Prop where
  | leads {tagText rest : List Char} {tag : Tag} {closing : Option Closing} {progress : Progress}
      (htag : Spells tagText tag) (hleads : Leads maxDepth stack tag closing progress) :
      StepAt maxDepth stack (tagText ++ rest) (closing, .of progress rest)
  | stuck {cs rest : List Char} {cause : Cause} (h : StuckAt maxDepth stack cs cause rest) :
      StepAt maxDepth stack cs (none, .ending (.stuck cause rest))

/-- A step at a start tag. -/
theorem stepAt_openAt (maxDepth : Option Nat) (stack : List OpenElement) (cs : List Char) :
    StepAt maxDepth stack cs (none, openAt maxDepth stack cs) := by
  unfold openAt
  cases htag : startTagAt cs with
  | stuck cause rest => exact .stuck (stuckAt_of_startTagAt htag)
  | read s rest =>
      obtain ⟨tagText, hspells, rfl⟩ := exists_spells htag
      cases hlimit : (ruleAt maxDepth stack).exceeded? with
      | some limit =>
          have hlevel : ¬ AllowsLevel maxDepth (stack.length + 1) := by
            rw [← exceeded?_ruleAt_eq_none_iff, hlimit]
            exact Option.some_ne_none limit
          obtain ⟨limit', rfl, hlt⟩ := not_allowsLevel_iff.1 hlevel
          rw [exceeded?_ruleAt_of_lt hlt] at hlimit
          cases hlimit
          exact .stuck (.tooDeep hspells s.isStart_toTag rfl hlt)
      | none =>
          have hlevel := exceeded?_ruleAt_eq_none_iff.1 hlimit
          cases s with
          | whole e =>
              have hplace : place e stack rest = .of (.place e stack) rest :=
                place_eq e stack rest
              simp only [hplace]
              exact .leads hspells (.whole hlevel)
          | opening e => exact .leads hspells (.opening hlevel)

/-- Every step passes a tag that leads on, or is stuck in one of the three ways. -/
theorem step_cases (hnames : ∀ o ∈ stack, isName o.name.toList = true) (cs : List Char) :
    StepAt maxDepth stack cs (step maxDepth ⟨stack, cs⟩) := by
  by_cases hexpects : Expects stack cs
  · rw [step_of_expects hexpects]
    exact stepAt_openAt maxDepth stack cs
  · obtain ⟨hopen, hstart⟩ := not_or.1 hexpects
    have hclosing := Bool.eq_false_iff.2 hstart
    cases stack with
    | nil => exact absurd rfl hopen
    | cons o outer =>
        have hname : isName o.name.toList = true := hnames o List.mem_cons_self
        rw [step_of_not_atStartTag hclosing]
        unfold closeAt
        cases hclose : closeElementAt o.name cs with
        | stuck cause rest =>
            exact .stuck (stuckAt_of_closeElementAt hname hclosing hclose)
        | read found rest =>
            obtain ⟨-, hcs⟩ := closeElementAt_eq_read hclose
            have htag := spells_closing_iff.2 ⟨hname, rfl⟩
            have hshape : cs = closingTag o.name ++ rest := by simp [hcs, closingTag]
            simp only [place_eq]
            rw [hshape]
            exact .leads htag .closing

/-- Where the machine is stuck no tag leads on. -/
theorem not_leads_of_stuck {cause : Cause}
    (hstep : step maxDepth ⟨stack, cs⟩ = (none, .ending (.stuck cause rest)))
    {tagText : List Char} {tag : Tag} {closing : Option Closing} {progress : Progress}
    (htag : Spells tagText tag) (hfront : tagText <+: cs) :
    ¬ Leads maxDepth stack tag closing progress := by
  intro hleads
  obtain ⟨after, rfl⟩ := hfront
  rw [step_of_leads hleads htag] at hstep
  cases progress <;> cases hstep

/-! ## Passes -/

/-- Behind the beginning of a document the machine goes on as if it had started there. White space
behind the beginning could belong to it if there is no tag in it. -/
theorem passFrom_of_comesTo (h : ComesTo maxDepth text closings progress) (rest : List Char)
    (hrest : progress = .inside [] → ∀ c ∈ rest.head?, isBlank c = false) :
    passFrom maxDepth ⟨[], skipBlanks (text ++ rest)⟩ =
      after closings (resume maxDepth (.of progress rest)) := by
  induction h generalizing rest with
  | start hblanks =>
      rw [skipBlanks_append hblanks, skipBlanks_of_stop (hrest rfl)]
      rfl
  | @tag text tagText closings stack tag closing progress _ htag hleads ih =>
      rw [List.append_assoc, ih (tagText ++ rest) fun _ => isBlank_of_head?_spells htag rest]
      show after closings (passFrom maxDepth ⟨stack, tagText ++ rest⟩) = _
      rw [passFrom_eq, step_of_leads hleads htag, after_after]

/-- What is open behind the beginning of a document has names, so a step there goes one of the
ways. -/
theorem stepAt_of_comesTo {m : Option Nat} (h : ComesTo m text closings (.inside stack))
    (cs : List Char) : StepAt maxDepth stack cs (step maxDepth ⟨stack, cs⟩) :=
  step_cases (fun o ho => isName_of_comesTo h o.name (List.mem_map_of_mem ho)) cs

/-- How a pass ends. -/
inductive PassAt (maxDepth : Option Nat) : List Char → List Closing × Ending → Prop where
  /-- The tags of the text complete the root. -/
  | complete {text rest : List Char} {closings : List Closing} {root : Element}
      (h : ComesTo maxDepth text closings (.complete root)) :
      PassAt maxDepth (text ++ rest) (closings, .complete root rest)
  /-- Elements are open behind the tags of the text, or there are no tags, and no tag there leads
  on. -/
  | stuck {text cs rest : List Char} {closings : List Closing} {stack : List OpenElement}
      {cause : Cause} (h : ComesTo maxDepth text closings (.inside stack))
      (hblank : stack = [] → ∀ c ∈ cs.head?, isBlank c = false)
      (hstep : step maxDepth ⟨stack, cs⟩ = (none, .ending (.stuck cause rest)))
      (hstuck : StuckAt maxDepth stack cs cause rest) :
      PassAt maxDepth (text ++ cs) (closings, .stuck cause rest)

/-- From inside some elements a pass goes on tag by tag until it ends. -/
theorem passAt_of_comesTo (h : ComesTo maxDepth text closings (.inside stack)) (cs : List Char)
    (hblank : stack = [] → ∀ c ∈ cs.head?, isBlank c = false) :
    PassAt maxDepth (text ++ cs) (after closings (passFrom maxDepth ⟨stack, cs⟩)) := by
  -- by induction on the length of the text left, which each tag makes shorter
  induction hn : cs.length using Nat.strongRecOn generalizing text closings stack cs with
  | ind n ih =>
      have hstep : StepAt maxDepth stack cs (step maxDepth ⟨stack, cs⟩) := stepAt_of_comesTo h cs
      generalize hread : step maxDepth ⟨stack, cs⟩ = read at hstep
      rw [passFrom_eq, hread]
      cases hstep with
      | @stuck _ rest cause hstuck =>
          have hended : after closings ([], Ending.stuck cause rest) =
              (closings, .stuck cause rest) := by
            simp [after]
          show PassAt maxDepth (text ++ cs) (after closings ([], .stuck cause rest))
          rw [hended]
          exact .stuck h hblank hread hstuck
      | @leads tagText rest tag closing progress htag hleads =>
          have hlater := h.tag htag hleads
          rw [← List.append_assoc, after_after]
          cases progress with
          | inside inner =>
              have hlt : rest.length < n := by
                have hshorter := length_step (congrArg Prod.snd hread)
                simpa [hn] using hshorter
              -- behind a tag white space belongs to nothing
              have hinner : inner ≠ [] := by
                rintro rfl
                exact ne_start_of_leads hleads rfl
              exact ih rest.length hlt hlater rest (fun hnil => absurd hnil hinner) rfl
          | complete root =>
              have hended : after (closings ++ closing.toList) ([], Ending.complete root rest) =
                  (closings ++ closing.toList, .complete root rest) := by
                simp [after]
              show PassAt maxDepth _ (after _ ([], .complete root rest))
              rw [hended]
              exact .complete hlater

/-- Every pass over a document reads tags until the root is complete, or until it is stuck. -/
theorem passFrom_cases (maxDepth : Option Nat) (cs : List Char) :
    PassAt maxDepth cs (passFrom maxDepth ⟨[], skipBlanks cs⟩) := by
  obtain ⟨blanks, hblanks, hcs⟩ := exists_blanks_append cs
  have hstart : ComesTo maxDepth blanks [] (.inside []) := .start hblanks
  have hpass := passAt_of_comesTo hstart (skipBlanks cs) fun _ =>
    head?_dropWhile_eq_false isBlank cs
  rwa [← hcs] at hpass

end Scan

/-! ## Documents -/

namespace Document

open Scan (skipBlanks)

/-- The verdict on a text for the end of a pass over it. -/
def verdictOn (source : String) : Scan.Ending → Verdict
  | .complete root rest => verdictAfter source root rest
  | .stuck cause rest =>
    .rejected (.ofFailure source ⟨cause, source.utf8ByteSize - byteCount rest⟩)

/-- The reports of a reading that are closing tags are those of the run of the root. -/
theorem closings_eq (events : List Event) :
    closings events = (Scan.closingsOf events).map .closed := by
  unfold closings Scan.closingsOf
  rw [List.map_filterMap]
  refine congrArg (List.filterMap · events) (funext fun event => ?_)
  cases event <;> rfl

theorem closings_events_document (maxDepth : Option Nat) (source : String) :
    closings ((Grammar.document maxDepth).run (View.ofSource source)).events =
      closings ((rootRule maxDepth).run (rootView source)).events := by
  rw [run_document]
  unfold Run.andThen
  rcases ((rootRule maxDepth).run (rootView source)).outcome with reason | ⟨root, w⟩
  · rfl
  · simp only [Run.ofPiece]
    cases tailAt root w.rest <;> simp [Run.succeed, Run.failAt, Run.stop, Run.following]

/-- One pass tells the reading: its closing tags are the ones reported, and its end is the
verdict. -/
theorem read_eq (maxDepth : Option Nat) (source : String) :
    read maxDepth source =
      let pass := Scan.passFrom maxDepth ⟨[], skipBlanks source.toList⟩
      ⟨.started source.utf8ByteSize maxDepth :: pass.1.map .closed
          ++ ending (verdictOn source pass.2),
        verdictOn source pass.2⟩ := by
  have hfollows := follows_root maxDepth source
  have hfinishes := (rootRule maxDepth).run_finishes (valid_rootView source)
  have hverdict : parse maxDepth source =
      verdictOn source (Scan.passFrom maxDepth ⟨[], skipBlanks source.toList⟩).2 ∧
      Scan.closingsOf ((rootRule maxDepth).run (rootView source)).events =
        (Scan.passFrom maxDepth ⟨[], skipBlanks source.toList⟩).1 := by
    rw [parse_eq]
    unfold Scan.Follows at hfollows
    rcases hroot : ((rootRule maxDepth).run (rootView source)).outcome with
      (f | defect) | ⟨root, w⟩
    · rw [hroot] at hfollows
      obtain ⟨rest, hoffset, hpass⟩ := hfollows
      -- a failure is its cause and its place, and the pass names both
      have hf : f = ⟨f.cause, source.utf8ByteSize - byteCount rest⟩ :=
        congrArg (Failure.mk f.cause) hoffset
      rw [hpass]
      refine ⟨?_, rfl⟩
      rw [hf]
      rfl
    · exact absurd hroot (hfinishes defect)
    · rw [hroot] at hfollows
      rw [hfollows]
      exact ⟨rfl, by simp [Scan.after]⟩
  obtain ⟨hparse, hclosings⟩ := hverdict
  simp only [← hparse, ← hclosings, ← closings_eq, ← closings_events_document]
  rfl

/-- The verdict is told by the end of a pass. -/
theorem parse_eq_verdictOn (maxDepth : Option Nat) (source : String) :
    parse maxDepth source =
      verdictOn source (Scan.passFrom maxDepth ⟨[], skipBlanks source.toList⟩).2 :=
  congrArg Reading.verdict (read_eq maxDepth source)

end Document

end TagTree
