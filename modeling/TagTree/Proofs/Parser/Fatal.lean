import TagTree.Parser.Watched
import TagTree.Proofs.Parser.Finishing

/-!
# Fatal failures

A failure for nesting too deep ends everything. The watched run of a parser
(`Parser.watchedRun`) tells of every invocation in it, and ends as the run itself does
(`Run.Watches`). Its events are of two kinds (`Accounts`): either no invocation has failed
fatally, and the run does not, or there is a first one that has. That one has raised the failure,
a place where a parser fails for a cause of its own choice, and all that is told afterwards is how
the invocations around it stop, each with the same failure. So nothing is invoked after it.

The proof is an induction on the description of the parser, for any rule for elements that
accounts for its runs; the rule itself does, one level for the other.

The children of an element are read up to a closing tag. `Parser.elementsThen` allows for other
parsers in its place, and for one that fails fatally the deeper of two failures need not be
the fatal one. No rule has such a parser there (`Parser.ClosesByTag`).
-/

set_option autoImplicit false

namespace TagTree

variable {α β : Type}

/-! ## Watching changes nothing -/

/-- The run `more` is the run `run` with more of it told. -/
structure Run.Watches (more run : Run α) : Prop where
  outcome_eq : more.outcome = run.outcome
  sublist : run.events.Sublist more.events

namespace Run

theorem Watches.refl (run : Run α) : run.Watches run :=
  ⟨rfl, List.Sublist.refl _⟩

theorem Watches.andThen {more run : Run α} {next next' : α → View → Run β}
    (h : more.Watches run) (hnext : ∀ a w, (next' a w).Watches (next a w)) :
    (more.andThen next').Watches (run.andThen next) := by
  unfold Run.andThen
  rw [h.outcome_eq]
  rcases run.outcome with reason | ⟨a, w⟩
  · exact ⟨rfl, h.sublist⟩
  · exact ⟨(hnext a w).outcome_eq, h.sublist.append (hnext a w).sublist⟩

theorem Watches.orElse {more run : Run α} {second second' : Unit → Run α}
    (h : more.Watches run) (hsecond : (second' ()).Watches (second ())) :
    (more.orElse second').Watches (run.orElse second) := by
  have houtcome : (more.orElse second').outcome = (run.orElse second).outcome := by
    rw [outcome_orElse, outcome_orElse, h.outcome_eq, hsecond.outcome_eq]
  refine ⟨houtcome, ?_⟩
  unfold Run.orElse
  rw [h.outcome_eq]
  split
  · split
    · exact h.sublist
    · exact h.sublist.append hsecond.sublist
  · exact h.sublist

theorem Watches.reporting {more run : Run α} (h : more.Watches run)
    (event : Except Stop (α × View) → Option Event) :
    (more.reporting event).Watches (run.reporting event) := by
  unfold Run.reporting
  rw [h.outcome_eq]
  split
  · exact ⟨rfl, h.sublist.append (List.Sublist.refl _)⟩
  · exact h

theorem Watches.following {more run : Run α} (h : more.Watches run) (events : List Event) :
    (following events more).Watches (following events run) :=
  ⟨h.outcome_eq, (List.Sublist.refl events).append h.sublist⟩

/-- A probe changes nothing but what is told. -/
theorem Watches.probed {more run : Run α} (h : more.Watches run) (label : String) (v : View) :
    (more.probed label v).Watches run := by
  refine ⟨by rw [outcome_probed, h.outcome_eq], h.sublist.trans ?_⟩
  unfold Run.probed Run.following Run.reporting
  refine List.Sublist.trans ?_ (List.sublist_append_right _ _)
  split
  · exact List.sublist_append_left _ _
  · exact List.Sublist.refl _

end Run

theorem notFatal_endAt (cs : List Char) : (endAt cs).NotFatal := by
  cases cs with
  | nil => trivial
  | cons c cs => rfl

namespace Chain

/-- The repetition `more` is the repetition `c` with more of it told. -/
structure Watches (more c : Chain α) : Prop where
  items_eq : more.items = c.items
  rest_eq : more.rest = c.rest
  ending_eq : more.ending = c.ending
  sublist : c.events.Sublist more.events

theorem watches_extend {item item' : View → Run α} (h : ∀ w, (item' w).Watches (item w))
    (fuel : Nat) (v : View) :
    (extend item' fuel [] [] v).Watches (extend item fuel [] [] v) := by
  induction fuel generalizing v with
  | zero => exact ⟨rfl, rfl, rfl, List.Sublist.refl _⟩
  | succ fuel ih =>
      have hv := h v
      rw [extend_succ, extend_succ, hv.outcome_eq]
      rcases (item v).outcome with (f | defect) | ⟨value, w⟩
      · exact ⟨rfl, rfl, rfl, hv.sublist⟩
      · exact ⟨rfl, rfl, rfl, hv.sublist⟩
      · by_cases hread : w.offset = v.offset
        · simp only [if_pos hread]
          exact ⟨rfl, rfl, rfl, hv.sublist⟩
        · simp only [if_neg hread]
          have hlater := ih w
          exact ⟨congrArg (value :: ·) hlater.items_eq, hlater.rest_eq, hlater.ending_eq,
            hv.sublist.append hlater.sublist⟩

theorem Watches.kept {more c : Chain α} (h : more.Watches c) : more.kept.Watches c.kept := by
  unfold Chain.kept
  rw [h.ending_eq, h.items_eq, h.rest_eq]
  exact ⟨rfl, h.sublist⟩

theorem Watches.closedBy {more c : Chain α} {close close' : View → Run β} (h : more.Watches c)
    (hclose : ∀ w, (close' w).Watches (close w)) :
    (more.closedBy close').Watches (c.closedBy close) := by
  unfold Chain.closedBy
  rw [h.ending_eq, h.items_eq, h.rest_eq]
  rcases c.ending with child | _ | reason
  · have hrest := hclose c.rest
    simp only [hrest.outcome_eq]
    exact ⟨rfl, h.sublist.append hrest.sublist⟩
  · exact ⟨rfl, h.sublist⟩
  · exact ⟨rfl, h.sublist⟩

end Chain

namespace Parser

/-- The watched parser runs as the parser does, if its rule for elements does. -/
theorem watches_runWith {rule rule' : ElementRule → View → Run Element}
    (hrule : ∀ r w, (rule' r w).Watches (rule r w)) (p : Parser α) (v : View) :
    (p.watched.runWith rule' v).Watches (p.runWith rule v) := by
  induction p generalizing v with
  | pure value => exact (Run.Watches.refl _).probed _ v
  | fail cause => exact (Run.Watches.refl _).probed _ v
  | anyChar => exact (Run.Watches.refl _).probed _ v
  | literal text => exact (Run.Watches.refl _).probed _ v
  | endOfInput => exact (Run.Watches.refl _).probed _ v
  | andThen first next ihfirst ihnext =>
      exact ((ihfirst v).andThen fun a w => ihnext a w).probed _ v
  | checked of objection ih =>
      exact ((ih v).andThen fun _ _ => Run.Watches.refl _).probed _ v
  | orElse first second ihfirst ihsecond => exact ((ihfirst v).orElse (ihsecond v)).probed _ v
  | many item ih => exact (Chain.watches_extend ih _ v).kept.probed _ v
  | element r => exact (hrule r v).probed _ v
  | elementsThen r close ih =>
      exact ((Chain.watches_extend (hrule r) _ v).closedBy ih).probed _ v
  | announce closing of ih => exact ((ih v).reporting _).probed _ v
  | probe label of ih =>
      exact (((ih v).reporting _).following _)

theorem watches_watchedWithin (levels : Nat) (r : ElementRule) (v : View) :
    (ElementRule.watchedWithin levels r v).Watches (ElementRule.runWithin levels r v) := by
  induction levels generalizing r v with
  | zero => exact Run.Watches.refl _
  | succ levels ih => exact watches_runWith ih r.body v

/-- The watched run is the run, with an account of it. -/
theorem watches_watchedRun (p : Parser α) (v : View) : (p.watchedRun v).Watches (p.run v) :=
  watches_runWith (watches_watchedWithin _) p v

end Parser

/-! ## Accounts of fatal failures -/

/-- The failure for which a run has no value, if it is fatal. -/
def Stop.fatal? : Stop → Option Failure
  | failed f => if f.isFatal then some f else none
  | broken _ => none

theorem Stop.fatal?_eq_some_iff {reason : Stop} {f : Failure} :
    reason.fatal? = some f ↔ reason = .failed f ∧ f.isFatal = true := by
  cases reason with
  | broken defect => simp [fatal?]
  | failed g =>
      simp only [fatal?, Option.ite_none_right_eq_some, Option.some.injEq, failed.injEq]
      constructor
      · rintro ⟨hfatal, rfl⟩
        exact ⟨rfl, hfatal⟩
      · rintro ⟨rfl, hfatal⟩
        exact ⟨hfatal, rfl⟩

/-- The fatal failure in which an invocation stops, for the event that tells of it. -/
def Event.fatal? : Event → Option Failure
  | stopped _ _ reason => reason.fatal?
  | _ => none

/-- The fatal failure in which a run ends, if it does. -/
def Run.fatal? (r : Run α) : Option Failure :=
  match r.outcome with
  | .ok _ => none
  | .error reason => reason.fatal?

/-- None of the events tells of a fatal failure. -/
def Calm (events : List Event) : Prop :=
  ∀ e ∈ events, e.fatal? = none

theorem calm_nil : Calm [] := nofun

theorem calm_cons {e : Event} {events : List Event} (he : e.fatal? = none) (h : Calm events) :
    Calm (e :: events) := by
  intro d hd
  rcases List.mem_cons.1 hd with rfl | hd
  · exact he
  · exact h d hd

theorem Calm.append {events later : List Event} (h : Calm events) (hlater : Calm later) :
    Calm (events ++ later) := by
  intro e he
  rcases List.mem_append.1 he with he | he
  · exact h e he
  · exact hlater e he

/-- What the events of a run tell of the fatal failure in which it ends. -/
inductive Accounts : List Event → Option Failure → Prop where
  /-- Nothing has failed fatally, and neither does the run. -/
  | calm {events : List Event} (h : Calm events) : Accounts events none
  /-- One invocation has raised the failure, and those around it pass it on. -/
  | aborted {before after : List Event} {label : String} {f : Failure} (hbefore : Calm before)
      (hlabel : label ∈ Parser.raisers)
      (hafter : ∀ e ∈ after, ∃ label start, e = .stopped label start (.failed f)) :
      Accounts (before ++ .stopped label f.offset (.failed f) :: after) (some f)

namespace Accounts

variable {events later : List Event} {ending : Option Failure} {f : Failure}

theorem calm_of_none (h : Accounts events none) : Calm events := by
  cases h with
  | calm h => exact h

/-- What is told after a calm run begins the account anew. -/
theorem append_calm (h : Accounts later ending) (hevents : Calm events) :
    Accounts (events ++ later) ending := by
  cases h with
  | calm hlater => exact .calm (hevents.append hlater)
  | aborted hbefore hlabel hafter =>
      rw [← List.append_assoc]
      exact .aborted (hevents.append hbefore) hlabel hafter

/-- An invocation around one that is aborted stops with the same failure. -/
theorem stopped (h : Accounts events (some f)) (label : String) (start : Nat) :
    Accounts (events ++ [.stopped label start (.failed f)]) (some f) := by
  cases h with
  | @aborted before after raiser _ hbefore hlabel hafter =>
      rw [List.append_assoc, List.cons_append]
      refine .aborted hbefore hlabel fun e he => ?_
      rcases List.mem_append.1 he with he | he
      · exact hafter e he
      · exact ⟨label, start, List.mem_singleton.1 he⟩

/-- Where a fatal failure is told of, the run ends in it, and only stops follow. -/
theorem of_stopped {before after : List Event} {label : String} {start : Nat}
    (h : Accounts (before ++ .stopped label start (.failed f) :: after) ending)
    (hf : f.isFatal = true) :
    ending = some f ∧ ∀ e ∈ after, ∃ label start, e = .stopped label start (.failed f) := by
  have hfatal : (Event.stopped label start (.failed f)).fatal? = some f :=
    Stop.fatal?_eq_some_iff.2 ⟨rfl, hf⟩
  generalize hevents : before ++ .stopped label start (.failed f) :: after = events at h
  cases h with
  | calm hcalm =>
      have hnone := hcalm (.stopped label start (.failed f)) (by simp [← hevents])
      rw [hfatal] at hnone
      cases hnone
  | @aborted before' after' raiser g hbefore hlabel hafter =>
      -- the event is no part of what is told before the failure is raised
      rcases List.append_eq_append_iff.1 hevents with ⟨between, hbetween, hrest⟩ |
        ⟨between, hbetween, hrest⟩
      · rcases between with _ | ⟨e, between⟩
        · cases hrest
          exact ⟨rfl, hafter⟩
        · have hnone := hbefore (.stopped label start (.failed f)) (by
            cases hrest
            simp [hbetween])
          rw [hfatal] at hnone
          cases hnone
      · rcases between with _ | ⟨e, between⟩
        · cases hrest
          exact ⟨rfl, hafter⟩
        · cases hrest
          obtain ⟨label', start', hsame⟩ :=
            hafter (.stopped label start (.failed f)) (by simp)
          cases hsame
          exact ⟨rfl, fun e he => hafter e (by simp [he])⟩

end Accounts

/-- The run accounts for the failure in which it ends. -/
def Run.Accounted (r : Run α) : Prop :=
  Accounts r.events r.fatal?

namespace Run

variable {r : Run α} {f : Failure} {v : View}

theorem accounted_of_calm (hevents : Calm r.events) (houtcome : r.fatal? = none) :
    r.Accounted := by
  unfold Accounted
  rw [houtcome]
  exact .calm hevents

theorem Accounted.andThen {next : α → View → Run β} (h : r.Accounted)
    (hnext : ∀ a w, r.outcome = .ok (a, w) → (next a w).Accounted) :
    (r.andThen next).Accounted := by
  unfold Accounted fatal? at h
  unfold Run.andThen
  rcases hr : r.outcome with reason | ⟨a, w⟩
  · rw [hr] at h
    exact h
  · rw [hr] at h
    exact Accounts.append_calm (hnext a w hr) h.calm_of_none

theorem Accounted.orElse {second : Unit → Run α} (h : r.Accounted)
    (hsecond : (second ()).Accounted) : (r.orElse second).Accounted := by
  unfold Run.orElse
  split
  · rename_i f hr
    split
    · exact h
    · rename_i hfatal
      -- the first part has failed, but not fatally, so all is calm up to the second
      have hnone : r.fatal? = none := by
        unfold fatal? Stop.fatal?
        rw [hr]
        exact if_neg hfatal
      unfold Accounted at h
      rw [hnone] at h
      exact Accounts.append_calm hsecond h.calm_of_none
  · exact h

/-- A closing is told of after a value only. -/
theorem Accounted.announced (h : r.Accounted) (closing : α → Closing) :
    (r.reporting fun
      | .ok (value, _) => some (.closed (closing value))
      | .error _ => none).Accounted := by
  unfold Run.reporting
  unfold Accounted fatal? at h
  rcases hr : r.outcome with reason | ⟨a, w⟩
  · simp only
    unfold Accounted fatal?
    exact h
  · rw [hr] at h
    exact accounted_of_calm (h.calm_of_none.append (calm_cons rfl calm_nil)) rfl

theorem Accounted.probed (h : r.Accounted) (label : String) (v : View) :
    (r.probed label v).Accounted := by
  unfold Accounted fatal? at h
  unfold Run.probed Run.reporting
  refine Accounts.append_calm ?_ (calm_cons rfl calm_nil)
  rcases hr : r.outcome with reason | ⟨a, w⟩
  · rw [hr] at h
    show Accounts (r.events ++ [.stopped label v.offset reason]) reason.fatal?
    cases hfatal : reason.fatal? with
    | none =>
        simp only [hfatal] at h
        exact .calm (h.calm_of_none.append (calm_cons hfatal calm_nil))
    | some f =>
        simp only [hfatal] at h
        obtain ⟨rfl, -⟩ := Stop.fatal?_eq_some_iff.1 hfatal
        exact h.stopped label v.offset
  · rw [hr] at h
    exact .calm (h.calm_of_none.append (calm_cons rfl calm_nil))

/-- A part that fails for a cause of its own choice raises the failure, if it is fatal. -/
theorem accounted_probed_of_raise {label : String} {cause : Cause} (hevents : Calm r.events)
    (houtcome : r.outcome = .error (.failed ⟨cause, v.offset⟩)) (hlabel : label ∈ Parser.raisers) :
    (r.probed label v).Accounted := by
  cases hfatal : cause.isFatal with
  | false =>
      have hnone : r.fatal? = none := by
        unfold fatal? Stop.fatal? Failure.isFatal
        simp [houtcome, hfatal]
      exact (accounted_of_calm hevents hnone).probed label v
  | true =>
      have hsome : (Stop.failed ⟨cause, v.offset⟩).fatal? = some ⟨cause, v.offset⟩ :=
        Stop.fatal?_eq_some_iff.2 ⟨rfl, hfatal⟩
      have hraised : Accounts (r.events ++ [.stopped label v.offset (.failed ⟨cause, v.offset⟩)])
          (some ⟨cause, v.offset⟩) :=
        .aborted (f := ⟨cause, v.offset⟩) hevents hlabel fun _ he => absurd he List.not_mem_nil
      unfold Accounted fatal?
      rw [outcome_probed, houtcome]
      unfold Run.probed Run.reporting
      simp only [houtcome, hsome]
      exact hraised.append_calm (calm_cons rfl calm_nil)

end Run

/-- A piece of text that does not fail fatally is calm. -/
theorem Run.accounted_ofPiece {piece : Piece α} (h : piece.NotFatal) (v : View) :
    (Run.ofPiece v piece).Accounted := by
  cases piece with
  | read value rest => exact .calm calm_nil
  | stuck cause rest =>
      refine Run.accounted_of_calm calm_nil (if_neg ?_)
      rw [Failure.isFatal, show cause.isFatal = false from h]
      exact Bool.false_ne_true

namespace Chain

/-- The fatal failure that a repetition ends with, if it does. -/
def fatal? (c : Chain α) : Option Failure :=
  match c.ending with
  | .aborted reason => reason.fatal?
  | _ => none

/-- The repetition accounts for its end, and gives up for no fatal failure. -/
structure Accounted (c : Chain α) : Prop where
  accounts : Accounts c.events c.fatal?
  notFatal : ∀ f, c.ending = .gaveUp f → f.isFatal = false

theorem accounted_extend {item : View → Run α} {v : View}
    (hitem : ∀ w, v.Reaches w → w.Bounds (item w).outcome)
    (h : ∀ w, v.Reaches w → (item w).Accounted) (fuel : Nat) :
    (extend item fuel [] [] v).Accounted := by
  induction fuel generalizing v with
  | zero => exact ⟨.calm calm_nil, nofun⟩
  | succ fuel ih =>
      have hbounds : v.Bounds (item v).outcome := hitem v (.refl v)
      have hv : Accounts (item v).events (item v).fatal? := h v (.refl v)
      unfold Run.fatal? at hv
      rw [extend_succ]
      rcases hrun : (item v).outcome with (f | defect) | ⟨value, w⟩
      · rw [hrun] at hv
        cases hfatal : f.isFatal with
        | true => exact ⟨by simpa [fatal?, hfatal] using hv, by simp [hfatal]⟩
        | false =>
            refine ⟨?_, ?_⟩
            · simpa [fatal?, Stop.fatal?, hfatal] using hv
            · intro g hg
              simp only [Bool.false_eq_true, if_false, ChainEnd.gaveUp.injEq, hfatal] at hg
              rw [← hg, hfatal]
      · rw [hrun] at hv
        exact ⟨hv, nofun⟩
      · rw [hrun] at hv hbounds
        by_cases hread : w.offset = v.offset
        · simp only [if_pos hread]
          exact ⟨hv, nofun⟩
        · simp only [if_neg hread]
          obtain ⟨haccounts, hnot⟩ := ih (fun u hu => hitem u (View.Reaches.trans hbounds hu))
            fun u hu => h u (View.Reaches.trans hbounds hu)
          exact ⟨haccounts.append_calm hv.calm_of_none, hnot⟩

theorem Accounted.kept {c : Chain α} (h : c.Accounted) : c.kept.Accounted := by
  have haccounts := h.accounts
  unfold Chain.fatal? at haccounts
  unfold Run.Accounted Run.fatal? Chain.kept
  rcases hending : c.ending with f | _ | reason
  · rw [hending] at haccounts
    exact haccounts
  · rw [hending] at haccounts
    exact haccounts
  · rw [hending] at haccounts
    exact haccounts

/-- Where the closing parser does not fail fatally, neither does the deeper failure. -/
theorem Accounted.closedBy {c : Chain α} {close : View → Run β} (h : c.Accounted)
    (hclose : (close c.rest).Accounted) (hnot : (close c.rest).fatal? = none) :
    (c.closedBy close).Accounted := by
  obtain ⟨haccounts, hspared⟩ := h
  unfold Chain.fatal? at haccounts
  unfold Run.Accounted at hclose
  rw [hnot] at hclose
  unfold Chain.closedBy
  rcases hending : c.ending with child | _ | reason
  · rw [hending] at haccounts
    refine Run.accounted_of_calm (haccounts.calm_of_none.append hclose.calm_of_none) ?_
    unfold Run.fatal? at hnot ⊢
    rw [Run.outcome_following]
    rcases hr : (close c.rest).outcome with (f | defect) | result
    · rw [hr] at hnot
      have hdeeper : (child.deeper f).isFatal = false := by
        unfold Failure.deeper
        split
        · exact hspared child hending
        · simpa [Stop.fatal?] using hnot
      simp [Stop.fatal?, hdeeper]
    · rfl
    · rfl
  · rw [hending] at haccounts
    exact haccounts
  · rw [hending] at haccounts
    exact haccounts

end Chain

/-! ## Every parser -/

namespace Parser

/-- Where elements are read up to a closing parser, that is the closing tag of some name. -/
def ClosesByTag : {α : Type} → Parser α → Prop
  | _, .andThen first next => first.ClosesByTag ∧ ∀ value, (next value).ClosesByTag
  | _, .checked of _ => of.ClosesByTag
  | _, .orElse first second => first.ClosesByTag ∧ second.ClosesByTag
  | _, .many item => item.ClosesByTag
  | _, .elementsThen _ close => ∃ name, close = Grammar.closeElement name
  | _, .announce _ of => of.ClosesByTag
  | _, .probe _ of => of.ClosesByTag
  | _, _ => True

@[simp] theorem closesByTag_bind (p : Parser α) (q : α → Parser β) :
    (p >>= q).ClosesByTag ↔ p.ClosesByTag ∧ ∀ value, (q value).ClosesByTag := Iff.rfl

@[simp] theorem closesByTag_pure (value : α) : (Pure.pure value : Parser α).ClosesByTag := trivial

section Grammar

open Grammar

theorem closesByTag_identifier : identifier.ClosesByTag := by
  simp [identifier, satisfying, ClosesByTag]

theorem closesByTag_attributes : attributes.ClosesByTag := by
  simp [attributes, spacedAttribute, attributePair, quotedString, blanks, blank, char, satisfying,
    closesByTag_identifier, ClosesByTag]

theorem closesByTag_startTag (ending : String) : (startTag ending).ClosesByTag := by
  simp [startTag, elementStart, pair, char, closesByTag_identifier, closesByTag_attributes,
    ClosesByTag]

theorem closesByTag_closeElement (name : String) : (closeElement name).ClosesByTag := by
  simp [closeElement, closeTag, char, closesByTag_identifier, ClosesByTag]

theorem closesByTag_depthGuard (r : ElementRule) : r.depthGuard.ClosesByTag := by
  unfold ElementRule.depthGuard
  split
  · split <;> trivial
  · trivial

theorem closesByTag_childrenThenClose (r : ElementRule) (name : String) :
    (r.childrenThenClose name).ClosesByTag := by
  unfold ElementRule.childrenThenClose
  split
  · exact ⟨name, rfl⟩
  · simp [closesByTag_closeElement, ClosesByTag]

/-- The rule for elements reads elements up to closing tags only. -/
theorem closesByTag_body (r : ElementRule) : r.body.ClosesByTag := by
  have hguarded (ending : String) :
      (do let e ← startTag ending; r.depthGuard; return e : Parser Element).ClosesByTag := by
    simp [closesByTag_startTag, closesByTag_depthGuard]
  refine ⟨hguarded "/>", hguarded ">", fun e => ?_⟩
  exact ⟨closesByTag_childrenThenClose r e.name, fun _ => trivial⟩

end Grammar

variable {rule : ElementRule → View → Run Element} {v : View}

/-- A closing tag fails, but never fatally, watched or not. -/
theorem fatal?_closeElement (name : String) (hv : v.Valid) :
    ((Grammar.closeElement name).watched.runWith rule v).fatal? = none := by
  have hsame := watches_runWith (fun r w => Run.Watches.refl (rule r w))
    (Grammar.closeElement name) v
  have hnot := Grammar.notFatal_closeElementAt name v.rest
  unfold Run.fatal?
  rw [hsame.outcome_eq, Grammar.reads_closeElement name rule v hv]
  cases hclose : Grammar.closeElementAt name v.rest with
  | read found rest => rfl
  | stuck cause rest =>
      rw [hclose] at hnot
      exact if_neg (by rw [Failure.isFatal, hnot]; exact Bool.false_ne_true)

/-- A watched parser accounts for its runs, if its rule for elements does. -/
theorem accounted_runWith (hrule : ∀ r (w : View), w.Bounds (rule r w).outcome)
    (h : ∀ r (w : View), w.Valid → (rule r w).Accounted) (p : Parser α) (hp : p.ClosesByTag)
    (hv : v.Valid) : (p.watched.runWith rule v).Accounted := by
  have hpiece {γ : Type} {q : Parser γ} {f : List Char → Piece γ} {w : View} (hq : q.Reads f)
      (hf : ∀ cs, (f cs).NotFatal) (hw : w.Valid) : (q.runWith rule w).Accounted := by
    rw [hq rule w hw]
    exact Run.accounted_ofPiece (hf w.rest) w
  induction p generalizing v with
  | pure value => exact (hpiece (.pure value) (fun _ => trivial) hv).probed _ v
  | fail cause => exact Run.accounted_probed_of_raise calm_nil rfl (by decide)
  | anyChar => exact (hpiece .anyChar (notFatal_charWhere _) hv).probed _ v
  | literal text => exact (hpiece (.literal text) (notFatal_literalAt text) hv).probed _ v
  | endOfInput => exact (hpiece .endOfInput notFatal_endAt hv).probed _ v
  | andThen first next ihfirst ihnext =>
      have hbounds := bounds_runWith hrule first.watched v
      refine ((ihfirst hp.1 hv).andThen fun a w hok => ?_).probed _ v
      rw [hok] at hbounds
      exact ihnext a (hp.2 a) (View.Reaches.valid hbounds hv)
  | checked of objection ih =>
      have hof := ih hp hv
      show Run.Accounted (Run.probed _ v (Run.andThen (of.watched.runWith rule v) _))
      cases hok : (of.watched.runWith rule v).outcome with
      | error reason =>
          refine (hof.andThen fun a w hvalue => ?_).probed _ v
          rw [hok] at hvalue
          cases hvalue
      | ok result =>
          obtain ⟨value, w⟩ := result
          cases hobjection : objection value with
          | none =>
              refine (hof.andThen fun a w' hvalue => ?_).probed _ v
              rw [hok] at hvalue
              cases hvalue
              rw [hobjection]
              exact .calm calm_nil
          | some cause =>
              -- the value is refused, and the failure lies where its reading began
              have hcalm : Calm (of.watched.runWith rule v).events := by
                unfold Run.Accounted Run.fatal? at hof
                rw [hok] at hof
                exact hof.calm_of_none
              refine @Run.accounted_probed_of_raise _ _ _ _ cause ?_ ?_ (by decide)
              · unfold Run.andThen
                simp only [hok, hobjection]
                exact hcalm.append calm_nil
              · rw [Run.outcome_andThen, hok]
                simp only [hobjection]
                rfl
  | orElse first second ihfirst ihsecond =>
      exact ((ihfirst hp.1 hv).orElse (ihsecond hp.2 hv)).probed _ v
  | many item ih =>
      have hitem : ∀ w, v.Reaches w → w.Bounds (item.watched.runWith rule w).outcome :=
        fun w _ => bounds_runWith hrule item.watched w
      exact (Chain.accounted_extend hitem (fun w hw => ih hp (hw.valid hv)) _).kept.probed _ v
  | element r => exact (h r v hv).probed _ v
  | elementsThen r close ih =>
      obtain ⟨name, rfl⟩ := hp
      have hchain : (Chain.of (rule r) v).Accounted :=
        Chain.accounted_extend (fun w _ => hrule r w) (fun w hw => h r w (hw.valid hv)) _
      have hrest : (Chain.of (rule r) v).rest.Valid :=
        (Chain.bounded_extend (fun w _ => hrule r w) _).1.valid hv
      have hclose := ih (closesByTag_closeElement name) hrest
      exact (hchain.closedBy hclose (fatal?_closeElement name hrest)).probed _ v
  | announce closing of ih => exact ((ih hp hv).announced closing).probed _ v
  | probe label of ih => exact (ih hp hv).probed label v

theorem accounted_watchedWithin (levels : Nat) (r : ElementRule) (hv : v.Valid) :
    (ElementRule.watchedWithin levels r v).Accounted := by
  induction levels generalizing r v with
  | zero => exact .calm calm_nil
  | succ levels ih =>
      have hbounds : ∀ r (w : View), w.Bounds (ElementRule.watchedWithin levels r w).outcome := by
        intro q w
        rw [(watches_watchedWithin levels q w).outcome_eq]
        exact ElementRule.bounds_runWithin levels q w
      exact accounted_runWith hbounds (fun q w hw => ih q hw) r.body (closesByTag_body r) hv

theorem accounted_watchedRun (p : Parser α) (hp : p.ClosesByTag) (hv : v.Valid) :
    (p.watchedRun v).Accounted := by
  have hbounds : ∀ r (w : View),
      w.Bounds (ElementRule.watchedWithin (v.remaining + 1) r w).outcome := by
    intro r w
    rw [(watches_watchedWithin _ r w).outcome_eq]
    exact ElementRule.bounds_runWithin _ r w
  exact accounted_runWith hbounds (fun r w hw => accounted_watchedWithin _ r hw) p hp hv

/-- **A fatal failure aborts the run, and nothing else does.** The watched run of a parser ends as
its run does and tells of every invocation. If one of them stops for a level too deep, the whole
run fails with this same failure, and all that is told afterwards is that the invocations around
it stop with it: nothing is invoked any more. If the run fails for a level too deep, there is a
first invocation that does, before which nothing has failed so; it is a failure or a check, which
raises it where it starts. -/
theorem fatal_failure_aborts (p : Parser α) (hp : p.ClosesByTag) (v : View) (hv : v.Valid) :
    (p.watchedRun v).Watches (p.run v) ∧
    (∀ before label start limit offset after,
      (p.watchedRun v).events =
        before ++ .stopped label start (.failed ⟨.nestingTooDeep limit, offset⟩) :: after →
      (p.run v).outcome = .error (.failed ⟨.nestingTooDeep limit, offset⟩) ∧
      ∀ e ∈ after, ∃ label start,
        e = .stopped label start (.failed ⟨.nestingTooDeep limit, offset⟩)) ∧
    ∀ limit offset, (p.run v).outcome = .error (.failed ⟨.nestingTooDeep limit, offset⟩) →
      ∃ before label after,
        (p.watchedRun v).events =
          before ++ .stopped label offset (.failed ⟨.nestingTooDeep limit, offset⟩) :: after ∧
        label ∈ raisers ∧ Calm before := by
  have hwatches := watches_watchedRun p v
  have haccounts := accounted_watchedRun p hp hv
  unfold Run.Accounted Run.fatal? at haccounts
  rw [hwatches.outcome_eq] at haccounts
  refine ⟨hwatches, fun before label start limit offset after hevents => ?_,
    fun limit offset hfailed => ?_⟩
  · rw [hevents] at haccounts
    obtain ⟨hending, hafter⟩ := haccounts.of_stopped rfl
    refine ⟨?_, hafter⟩
    rcases hrun : (p.run v).outcome with reason | result
    · rw [hrun] at hending
      rw [(Stop.fatal?_eq_some_iff.1 hending).1]
    · rw [hrun] at hending
      cases hending
  · rw [hfailed] at haccounts
    generalize (p.watchedRun v).events = events at haccounts ⊢
    cases haccounts with
    | aborted hbefore hlabel hafter => exact ⟨_, _, _, rfl, hlabel, hbefore⟩

/-- A level too deep inside a repetition that is the first part of a choice: neither gives way to
what it would else go on with. -/
theorem fatal_failure_aborts_repetition :
    let p : Parser (List Element) := (Parser.element { maxDepth := some 1 }).many.orElse (.pure [])
    let v := View.ofSource "<a/><b><c/></b>"
    p.ClosesByTag ∧ v.Valid ∧ ∃ before after,
      (p.watchedRun v).events =
        before ++ .stopped "failure" 11 (.failed ⟨.nestingTooDeep 1, 11⟩) :: after ∧
      (p.run v).outcome = .error (.failed ⟨.nestingTooDeep 1, 11⟩) ∧
      ∀ e ∈ after, ∃ label start,
        e = .stopped label start (.failed ⟨.nestingTooDeep 1, 11⟩) := by
  intro p v
  have hp : p.ClosesByTag := ⟨trivial, trivial⟩
  have hv : v.Valid := View.valid_ofSource _
  have hevents : (p.watchedRun v).events = (p.watchedRun v).events.take 282 ++
      .stopped "failure" 11 (.failed ⟨.nestingTooDeep 1, 11⟩) ::
        (p.watchedRun v).events.drop 283 := by
    decide +kernel
  exact ⟨hp, hv, _, _, hevents, (fatal_failure_aborts p hp v hv).2.1 _ _ _ _ _ _ hevents⟩

end Parser

end TagTree
