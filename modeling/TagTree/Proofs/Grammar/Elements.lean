import TagTree.Proofs.Grammar.Levels

/-!
# The steps of the rule for elements

Two steps make up the reading of an element:

* `ElementRule.run_eq`: a start tag is read, its level is tested, and if the tag opens the
  element, the inside of the element is read;
* `ElementRule.inside_eq`: one more child is read, or, where there is none, the closing tag.

The steps hold with and without nested errors, which matter in `closeAfter` only. A property of
all runs is proved by showing that each way a step can go keeps it: `ElementRule.Induction` lists
these ways, and no other way exists, for a run is never broken (`ElementRule.run_finishes`).
-/

set_option autoImplicit false

namespace TagTree

open Grammar

variable {α : Type}

/-- The run with one more value at the front of its list, and what was reported for it. -/
def Run.after (r : Run (List α)) (value : α) (events : List Event) : Run (List α) :=
  ⟨events ++ r.events,
    match r.outcome with
    | .ok (values, w) => .ok (value :: values, w)
    | .error reason => .error reason⟩

theorem Run.after_eq_ok_iff {r : Run (List α)} {value : α} {events : List Event}
    {values : List α} {w : View} :
    (r.after value events).outcome = .ok (values, w) ↔
      ∃ more, r.outcome = .ok (more, w) ∧ values = value :: more := by
  unfold after
  rcases r.outcome with reason | ⟨more, u⟩
  · simp
  · simp only [Except.ok.injEq, Prod.mk.injEq]
    constructor
    · rintro ⟨rfl, rfl⟩
      exact ⟨more, ⟨rfl, rfl⟩, rfl⟩
    · rintro ⟨_, ⟨rfl, rfl⟩, rfl⟩
      exact ⟨rfl, rfl⟩

theorem Run.after_eq_error_iff {r : Run (List α)} {value : α} {events : List Event}
    {reason : Stop} :
    (r.after value events).outcome = .error reason ↔ r.outcome = .error reason := by
  unfold after
  rcases r.outcome with reason' | ⟨more, u⟩ <;> simp

/-- The failure in which a run ends, if it fails. -/
def Run.failure? (r : Run α) : Option Failure :=
  match r.outcome with
  | .error (.failed f) => some f
  | _ => none

theorem Run.failure?_eq_some_iff {r : Run α} {f : Failure} :
    r.failure? = some f ↔ r.outcome = .error (.failed f) := by
  unfold failure?
  rcases r.outcome with (g | defect) | result <;> simp

/-- A run that yields a value or fails for a cause in the text. -/
def Run.Finishes (r : Run α) : Prop :=
  ∀ defect, r.outcome ≠ .error (.broken defect)

namespace ElementRule

variable {r : ElementRule} {v w : View} {name : String}

/-! ## The two steps -/

/-- The run of the children of an element of the given name, and of its closing tag. -/
def inside (r : ElementRule) (name : String) (v : View) : Run (List Element) :=
  (r.childrenThenClose name).runWith ElementRule.run v

theorem bounds_inside (r : ElementRule) (name : String) (v : View) :
    v.Bounds (r.inside name v).outcome :=
  Parser.bounds_runWith bounds_run _ v

/-- The run of the rule is the run of its body over the runs one level deeper. -/
theorem run_eq_body (hv : v.Valid) : r.run v = r.body.runWith ElementRule.run v := by
  refine runWith_body_congr hv (bounds_runWithin _) fun q w hw hlt => ?_
  exact runWithin_eq (hw.valid hv) (hv.remaining_lt hw hlt) (Nat.lt_succ_self _)

/-- The first step: a start tag, and what follows it. -/
theorem run_eq (hv : v.Valid) : r.run v = r.afterTag v r.inside (startTagAt v.rest) := by
  rw [run_eq_body hv, runWith_body ElementRule.run r hv]
  rfl

theorem run_of_stuck {cause : Cause} {rest : List Char} (hv : v.Valid)
    (htag : startTagAt v.rest = .stuck cause rest) : r.run v = .failAt cause (v.upTo rest) := by
  rw [run_eq hv, htag, afterTag]

theorem run_of_tooDeep {tag : StartTag} {rest : List Char} {limit : Nat} (hv : v.Valid)
    (htag : startTagAt v.rest = .read tag rest) (hlimit : r.exceeded? = some limit) :
    r.run v = .failAt (.nestingTooDeep limit) (v.upTo rest) := by
  rw [run_eq hv, htag]
  cases tag with
  | whole e =>
      rw [afterTag, guardAt, hlimit]
      rfl
  | opening e => rw [afterTag, hlimit]

theorem run_of_whole {e : Element} {rest : List Char} (hv : v.Valid)
    (htag : startTagAt v.rest = .read (.whole e) rest) (hlimit : r.exceeded? = none) :
    r.run v = .succeed e (v.upTo rest) := by
  rw [run_eq hv, htag, afterTag, guardAt, hlimit]
  rfl

theorem run_of_opening {e : Element} {rest : List Char} (hv : v.Valid)
    (htag : startTagAt v.rest = .read (.opening e) rest) (hlimit : r.exceeded? = none) :
    r.run v = r.enclose e (r.inside e.name (v.upTo rest)) := by
  rw [run_eq hv, htag, afterTag, hlimit]

/-- An element that is read takes some text. -/
theorem offset_lt_of_run {e : Element} (hv : v.Valid) (h : (r.run v).outcome = .ok (e, w)) :
    v.offset < w.offset := by
  cases htag : startTagAt v.rest with
  | stuck cause rest =>
      rw [run_of_stuck hv htag] at h
      cases h
  | read tag rest =>
      have hlt : v.offset < (v.upTo rest).offset := (reaches_of_startTagAt hv htag).2
      cases hlimit : r.exceeded? with
      | some limit =>
          rw [run_of_tooDeep hv htag hlimit] at h
          cases h
      | none =>
          cases tag with
          | whole d =>
              rw [run_of_whole hv htag hlimit] at h
              cases h
              exact hlt
          | opening d =>
              rw [run_of_opening hv htag hlimit] at h
              obtain ⟨children, hinside, -⟩ := enclose_eq_ok_iff.1 h
              -- what follows the tag leads no way back
              have hbounds := r.bounds_inside d.name (v.upTo rest)
              rw [hinside] at hbounds
              exact Nat.lt_of_lt_of_le hlt (View.Reaches.offset_le hbounds)

/-- The closing tag of an element of the given name, at the place where `child` says why there
is no further child. -/
def closeAfter (r : ElementRule) (name : String) (child : Failure) (v : View) :
    Run (List Element) :=
  match closeElementAt name v.rest with
  | .read _ rest => .succeed [] (v.upTo rest)
  | .stuck cause rest =>
    let close : Failure := ⟨cause, (v.upTo rest).offset⟩
    .stop (.failed (if r.nestedErrors then child.deeper close else close))

/-- The run of the inside of an element after the attempt to read one more child. -/
def afterChild (r : ElementRule) (name : String) (v : View)
    (inside : View → Run (List Element)) (child : Run Element) : Run (List Element) :=
  match child.outcome with
  | .ok (e, w) => (inside w).after e child.events
  | .error (.failed f) =>
    if f.isFatal then ⟨child.events, .error (.failed f)⟩
    else .following child.events (r.closeAfter name f v)
  | .error (.broken d) => ⟨child.events, .error (.broken d)⟩

end ElementRule

namespace Chain

variable {α β : Type}

/-- The two ways to end the children of an element with its closing tag. -/
def finish (nested : Bool) (c : Chain α) (close : View → Run β) : Run (List α) :=
  if nested then c.closedBy close
  else c.kept.andThen fun items w => (close w).andThen fun _ w => .succeed items w

theorem finish_after (nested : Bool) (c : Chain α) (close : View → Run β) (value : α)
    (events : List Event) :
    (c.after value events).finish nested close = (c.finish nested close).after value events := by
  cases nested with
  | true =>
      simp only [finish, if_true, closedBy, Chain.after]
      cases c.ending with
      | aborted reason => rfl
      | stalled => rfl
      | gaveUp child =>
          simp only [Run.after, Run.following]
          cases (close c.rest).outcome with
          | ok result => simp
          | error reason => cases reason <;> simp
  | false =>
      simp only [finish, Bool.false_eq_true, if_false, kept, Chain.after, Run.andThen, Run.after]
      cases c.ending with
      | aborted reason => rfl
      | stalled => cases h : (close c.rest).outcome <;> simp [Run.following, Run.succeed, h]
      | gaveUp child => cases h : (close c.rest).outcome <;> simp [Run.following, Run.succeed, h]

/-- The closing tag is read behind the last child and nowhere else. -/
theorem finish_congr {nested : Bool} {c : Chain α} {close close' : View → Run β}
    (h : close c.rest = close' c.rest) : c.finish nested close = c.finish nested close' := by
  cases nested with
  | true =>
      simp only [finish, if_true, closedBy]
      cases c.ending <;> simp [h]
  | false =>
      simp only [finish, Bool.false_eq_true, if_false, kept, Run.andThen]
      cases c.ending <;> simp [h]

end Chain

namespace ElementRule

variable {r : ElementRule} {v w : View} {name : String}

/-- The inside of an element is a repetition of its child, and then the closing tag. -/
theorem runWith_childrenThenClose (rule : ElementRule → View → Run Element) (r : ElementRule)
    (name : String) (v : View) :
    (r.childrenThenClose name).runWith rule v =
      (Chain.of (rule r.child) v).finish r.nestedErrors ((closeElement name).runWith rule) := by
  have hitem : (Parser.element r.child).runWith rule = rule r.child := by
    funext w
    rw [Parser.runWith]
  unfold childrenThenClose Chain.finish
  by_cases hnested : r.nestedErrors = true
  · rw [if_pos hnested, if_pos hnested, Parser.runWith]
  · rw [if_neg hnested, if_neg hnested]
    -- without nested errors the rule is a sequence: children, closing tag, the children again
    show ((Parser.element r.child).many.runWith rule v).andThen (fun items w =>
      ((closeElement name).runWith rule w).andThen fun _ w => .succeed items w) = _
    rw [Parser.runWith, hitem]

theorem inside_eq_finish (r : ElementRule) (name : String) (v : View) :
    r.inside name v =
      (Chain.of r.child.run v).finish r.nestedErrors
        ((closeElement name).runWith ElementRule.run) :=
  runWith_childrenThenClose ElementRule.run r name v

/-- The second step: one more child, or the closing tag. -/
theorem inside_eq (hv : v.Valid) :
    r.inside name v = r.afterChild name v (r.inside name) (r.child.run v) := by
  have hchain := Chain.of_eq hv fun w _ => bounds_run r.child w
  rw [inside_eq_finish, hchain, afterChild]
  cases houtcome : (r.child.run v).outcome with
  | ok result =>
      obtain ⟨e, w⟩ := result
      -- a child takes some text, so the repetition never stalls on one
      have hlt := offset_lt_of_run hv houtcome
      have hread : ¬ w.offset = v.offset := by omega
      simp only
      rw [if_neg hread, Chain.finish_after, ← inside_eq_finish]
  | error reason =>
      cases reason with
      | broken d =>
          simp only [Chain.finish]
          cases r.nestedErrors <;> rfl
      | failed f =>
          simp only
          cases hfatal : f.isFatal with
          | true =>
              -- neither mode goes on to the closing tag
              simp only [if_true, Chain.finish]
              cases r.nestedErrors <;> rfl
          | false =>
              -- both do, and only its failure is told apart
              have hclose := reads_closeElement name ElementRule.run v hv
              simp only [Bool.false_eq_true, if_false, Chain.finish, closeAfter]
              cases hnested : r.nestedErrors with
              | true =>
                  simp only [if_true, Chain.closedBy, hclose]
                  cases closeElementAt name v.rest <;> rfl
              | false =>
                  simp only [Bool.false_eq_true, if_false, Chain.kept, Run.andThen, hclose]
                  cases closeElementAt name v.rest <;> rfl

/-! ## The ways the second step can go -/

theorem inside_of_child {e : Element} (hv : v.Valid)
    (hchild : (r.child.run v).outcome = .ok (e, w)) :
    r.inside name v = (r.inside name w).after e (r.child.run v).events := by
  rw [inside_eq hv, afterChild, hchild]

theorem inside_of_fatal {f : Failure} (hv : v.Valid)
    (hchild : (r.child.run v).outcome = .error (.failed f)) (hfatal : f.isFatal = true) :
    r.inside name v = ⟨(r.child.run v).events, .error (.failed f)⟩ := by
  rw [inside_eq hv, afterChild, hchild]
  exact if_pos hfatal

theorem inside_of_failed {f : Failure} (hv : v.Valid)
    (hchild : (r.child.run v).outcome = .error (.failed f)) (hfatal : f.isFatal = false) :
    r.inside name v = .following (r.child.run v).events (r.closeAfter name f v) := by
  have hnot : ¬ f.isFatal = true := by
    rw [hfatal]
    exact Bool.false_ne_true
  rw [inside_eq hv, afterChild, hchild]
  exact if_neg hnot

/-! ## Induction on runs -/

/-- The ways a step can go. `P` is said of the run of an element at a view and `Q` of the run of
the inside of an element of a given name. -/
structure Induction (P : ElementRule → View → Run Element → Prop)
    (Q : ElementRule → String → View → Run (List Element) → Prop) : Prop where
  /-- No start tag. -/
  stuck : ∀ {r : ElementRule} {v : View} {cause rest}, v.Valid →
    startTagAt v.rest = .stuck cause rest → P r v (.failAt cause (v.upTo rest))
  /-- A start tag at a level that is not allowed. -/
  tooDeep : ∀ {r : ElementRule} {v : View} {tag rest limit}, v.Valid →
    startTagAt v.rest = .read tag rest → r.exceeded? = some limit →
    P r v (.failAt (.nestingTooDeep limit) (v.upTo rest))
  /-- A tag that is the whole element. -/
  whole : ∀ {r : ElementRule} {v : View} {e rest}, v.Valid →
    startTagAt v.rest = .read (.whole e) rest → r.exceeded? = none →
    P r v (.succeed e (v.upTo rest))
  /-- A tag that opens the element. -/
  opening : ∀ {r : ElementRule} {v : View} {e rest}, v.Valid →
    startTagAt v.rest = .read (.opening e) rest → r.exceeded? = none →
    Q r e.name (v.upTo rest) (r.inside e.name (v.upTo rest)) →
    P r v (r.enclose e (r.inside e.name (v.upTo rest)))
  /-- A child, and what follows it. -/
  child : ∀ {r : ElementRule} {name : String} {v w : View} {e events}, v.Valid →
    r.child.run v = ⟨events, .ok (e, w)⟩ → v.Reaches w →
    P r.child v ⟨events, .ok (e, w)⟩ → Q r name w (r.inside name w) →
    Q r name v ((r.inside name w).after e events)
  /-- A child that is not allowed, or has one inside that is not. -/
  fatal : ∀ {r : ElementRule} {name : String} {v : View} {f events}, v.Valid →
    r.child.run v = ⟨events, .error (.failed f)⟩ → f.isFatal = true →
    P r.child v ⟨events, .error (.failed f)⟩ → Q r name v ⟨events, .error (.failed f)⟩
  /-- No further child, so the closing tag. -/
  close : ∀ {r : ElementRule} {name : String} {v : View} {f events}, v.Valid →
    r.child.run v = ⟨events, .error (.failed f)⟩ → f.isFatal = false →
    P r.child v ⟨events, .error (.failed f)⟩ →
    Q r name v (.following events (r.closeAfter name f v))

variable {P : ElementRule → View → Run Element → Prop}
  {Q : ElementRule → String → View → Run (List Element) → Prop}

/-- The step at a start tag, with what is known of the inside of the element. -/
theorem Induction.run_step (h : Induction P Q) (hv : v.Valid)
    (hinside : ∀ name w, v.Reaches w → v.offset < w.offset →
      Q r name w (r.inside name w) ∧ (r.inside name w).Finishes) :
    P r v (r.run v) ∧ (r.run v).Finishes := by
  cases htag : startTagAt v.rest with
  | stuck cause rest =>
      rw [run_of_stuck hv htag]
      exact ⟨h.stuck hv htag, fun _ => nofun⟩
  | read tag rest =>
      obtain ⟨hreaches, hlt⟩ := reaches_of_startTagAt hv htag
      cases hlimit : r.exceeded? with
      | some limit =>
          rw [run_of_tooDeep hv htag hlimit]
          exact ⟨h.tooDeep hv htag hlimit, fun _ => nofun⟩
      | none =>
          cases tag with
          | whole e =>
              rw [run_of_whole hv htag hlimit]
              exact ⟨h.whole hv htag hlimit, fun _ => nofun⟩
          | opening e =>
              obtain ⟨hQ, hfinishes⟩ := hinside e.name _ hreaches hlt
              rw [run_of_opening hv htag hlimit]
              refine ⟨h.opening hv htag hlimit hQ, fun defect hbroken => ?_⟩
              exact hfinishes defect (enclose_eq_error_iff.1 hbroken)

/-- The step at a child, with what is known of the child and of what follows it. -/
theorem Induction.inside_step (h : Induction P Q) (hv : v.Valid)
    (hrun : P r.child v (r.child.run v) ∧ (r.child.run v).Finishes)
    (hinside : ∀ w, v.Reaches w → v.offset < w.offset →
      Q r name w (r.inside name w) ∧ (r.inside name w).Finishes) :
    Q r name v (r.inside name v) ∧ (r.inside name v).Finishes := by
  obtain ⟨hP, hfinishes⟩ := hrun
  cases hchild : r.child.run v with
  | mk events outcome =>
      rw [hchild] at hP
      have houtcome : (r.child.run v).outcome = outcome := by rw [hchild]
      have hevents : (r.child.run v).events = events := by rw [hchild]
      rcases outcome with (f | defect) | ⟨e, w⟩
      · cases hfatal : f.isFatal with
        | true =>
            rw [inside_of_fatal hv houtcome hfatal, hevents]
            exact ⟨h.fatal hv hchild hfatal hP, fun _ => nofun⟩
        | false =>
            rw [inside_of_failed hv houtcome hfatal, hevents]
            refine ⟨h.close hv hchild hfatal hP, fun defect hbroken => ?_⟩
            rw [Run.outcome_following, closeAfter] at hbroken
            split at hbroken <;> cases hbroken
      · exact absurd houtcome (hfinishes defect)
      · have hw : v.Reaches w := by
          have hbounds := r.child.bounds_run v
          rwa [houtcome] at hbounds
        obtain ⟨hQ, hfinishes'⟩ := hinside w hw (offset_lt_of_run hv houtcome)
        rw [inside_of_child hv houtcome, hevents]
        refine ⟨h.child hv hchild hw hP hQ, fun defect hbroken => ?_⟩
        exact hfinishes' defect (Run.after_eq_error_iff.1 hbroken)

/-- Both steps lead to less text, or from the inside of an element to its first child, so what
they keep holds of every run. -/
theorem Induction.below (h : Induction P Q) (n : Nat) :
    (∀ (r : ElementRule) (v : View), v.Valid → v.remaining < n →
      P r v (r.run v) ∧ (r.run v).Finishes) ∧
    (∀ (r : ElementRule) (name : String) (v : View), v.Valid → v.remaining < n →
      Q r name v (r.inside name v) ∧ (r.inside name v).Finishes) := by
  induction n with
  | zero =>
      exact ⟨fun _ _ _ hn => absurd hn (Nat.not_lt_zero _),
        fun _ _ _ _ hn => absurd hn (Nat.not_lt_zero _)⟩
  | succ n ih =>
      -- the inside of an element begins further on than the element
      have hinside (r : ElementRule) (name : String) {v : View} (hv : v.Valid)
          (hn : v.remaining < n + 1) (w : View) (hw : v.Reaches w) (hlt : v.offset < w.offset) :
          Q r name w (r.inside name w) ∧ (r.inside name w).Finishes := by
        have hless := hv.remaining_lt hw hlt
        exact ih.2 r name w (hw.valid hv) (by omega)
      have hrun (r : ElementRule) (v : View) (hv : v.Valid) (hn : v.remaining < n + 1) :
          P r v (r.run v) ∧ (r.run v).Finishes :=
        h.run_step hv fun name => hinside r name hv hn
      -- but its first child begins where the inside does, which is why the runs come first
      exact ⟨hrun, fun r name v hv hn =>
        h.inside_step hv (hrun r.child v hv hn) (hinside r name hv hn)⟩

theorem Induction.run (h : Induction P Q) (r : ElementRule) (hv : v.Valid) : P r v (r.run v) :=
  ((h.below (v.remaining + 1)).1 r v hv (Nat.lt_succ_self _)).1

theorem Induction.inside (h : Induction P Q) (r : ElementRule) (name : String) (hv : v.Valid) :
    Q r name v (r.inside name v) :=
  ((h.below (v.remaining + 1)).2 r name v hv (Nat.lt_succ_self _)).1

/-- No run of the rule is broken. -/
theorem run_finishes (r : ElementRule) (hv : v.Valid) : (r.run v).Finishes := by
  have htrivial : Induction (fun _ _ _ => True) (fun _ _ _ _ => True) := by
    constructor <;> intros <;> trivial
  exact ((htrivial.below (v.remaining + 1)).1 r v hv (Nat.lt_succ_self _)).2

end ElementRule

end TagTree
