import TagTree.Proofs.Grammar.Acceptance

/-!
# The rule for elements with a higher limit

A limit on nesting is tested behind every start tag and used nowhere else. So the run of a rule
and the run of the same rule with a higher limit, or with none, are one run up to the first tag
at a level too deep (`Run.Raised`): either the lower limit is never exceeded and the runs are
equal, or the lower run stops behind that tag and the higher run goes on from there. How the
higher run ends is then open, but not where: it ends behind the tag, and if its own limit is
exceeded, strictly behind it (`Run.EndsFrom`).

A child that is too deep for the lower limit may fail for another cause with the higher one. The
closing tag is tried then, at a place in front of the tag too deep. With nested errors its
failure is not reported, because the child's lies further on; only so does the higher run end
behind the tag in this case too.
-/

set_option autoImplicit false

namespace TagTree

open Grammar

variable {α : Type}

/-! ## Where a run ends -/

/-- The run ends at `offset` or further on, and in a fatal failure only further on. -/
structure Run.EndsFrom (offset : Nat) (run : Run α) : Prop where
  value : ∀ {a w}, run.outcome = .ok (a, w) → offset ≤ w.offset
  failure : ∀ {f}, run.outcome = .error (.failed f) → offset ≤ f.offset
  fatal : ∀ {f}, run.outcome = .error (.failed f) → f.isFatal = true → offset < f.offset

namespace Run

variable {offset : Nat} {run : Run α}

theorem EndsFrom.mono {earlier : Nat} (h : run.EndsFrom offset) (hle : earlier ≤ offset) :
    run.EndsFrom earlier where
  value hok := Nat.le_trans hle (h.value hok)
  failure hfailed := Nat.le_trans hle (h.failure hfailed)
  fatal hfailed hf := Nat.lt_of_le_of_lt hle (h.fatal hfailed hf)

theorem EndsFrom.after {run : Run (List α)} (h : run.EndsFrom offset) (value : α)
    (events : List Event) : (run.after value events).EndsFrom offset where
  value hok := by
    obtain ⟨more, hmore, -⟩ := Run.after_eq_ok_iff.1 hok
    exact h.value hmore
  failure hfailed := h.failure (Run.after_eq_error_iff.1 hfailed)
  fatal hfailed := h.fatal (Run.after_eq_error_iff.1 hfailed)

theorem endsFrom_succeed (value : α) (w : View) : (succeed value w).EndsFrom w.offset where
  value hok := by
    cases hok
    exact Nat.le_refl _
  failure hfailed := by cases hfailed
  fatal hfailed := by cases hfailed

/-- A failure that is passed on lies where it lay. -/
theorem EndsFrom.passOn {β : Type} {f : Failure} (h : run.EndsFrom offset)
    (hfailed : run.outcome = .error (.failed f)) (events : List Event) :
    (⟨events, .error (.failed f)⟩ : Run β).EndsFrom offset where
  value hok := by cases hok
  failure hf := by
    cases hf
    exact h.failure hfailed
  fatal hf := by
    cases hf
    exact h.fatal hfailed

/-- No run goes back, so all that is to know is where a fatal failure lies. -/
theorem endsFrom_of_bounds {v : View} (hbounds : v.Bounds run.outcome)
    (hfatal : ∀ f, run.outcome = .error (.failed f) → f.isFatal = true → v.offset < f.offset) :
    run.EndsFrom v.offset where
  value hok := by
    rw [hok] at hbounds
    exact View.Reaches.offset_le hbounds
  failure hfailed := by
    rw [hfailed] at hbounds
    obtain ⟨w, hw, hoffset⟩ := hbounds
    have hle := hw.offset_le
    omega
  fatal hfailed := hfatal _ hfailed

end Run

namespace ElementRule

variable {r : ElementRule} {v w : View} {name : String}

/-- Where no child is read an element may fail, but never fatally. -/
theorem notFatal_of_closeAfter {child f : Failure} (hchild : child.isFatal = false)
    (h : (r.closeAfter name child v).outcome = .error (.failed f)) : f.isFatal = false := by
  have hclose := notFatal_closeElementAt name v.rest
  unfold closeAfter at h
  cases hread : closeElementAt name v.rest with
  | read found rest =>
      rw [hread] at h
      cases h
  | stuck cause rest =>
      rw [hread] at h hclose
      cases h
      unfold Failure.deeper
      split
      · split
        · exact hchild
        · exact hclose
      · exact hclose

/-- A level is found too deep behind its tag only, so a fatal failure never lies at the start. -/
theorem offset_lt_of_fatal_induction :
    Induction
      (fun _ v run => ∀ f, run.outcome = .error (.failed f) → f.isFatal = true →
        v.offset < f.offset)
      (fun _ _ v run => ∀ f, run.outcome = .error (.failed f) → f.isFatal = true →
        v.offset < f.offset) where
  stuck {r v cause rest} hv htag := by
    intro f hf hfatal
    have hnot := notFatal_startTagAt v.rest
    rw [htag] at hnot
    cases hf
    rw [Failure.isFatal, hnot] at hfatal
    cases hfatal
  tooDeep {r v tag rest limit} hv htag hlimit := by
    intro f hf hfatal
    cases hf
    exact (reaches_of_startTagAt hv htag).2
  whole {r v e rest} hv htag hlimit := by
    intro f hf
    cases hf
  opening {r v e rest} hv htag hlimit hinside := by
    intro f hf hfatal
    have hlt := (reaches_of_startTagAt hv htag).2
    have hlater := hinside f (enclose_eq_error_iff.1 hf) hfatal
    omega
  child {r name v w e events} hv hrun hw hchild hlater := by
    intro f hf hfatal
    have hle := hw.offset_le
    have hlt := hlater f (Run.after_eq_error_iff.1 hf) hfatal
    omega
  fatal {r name v g events} hv hrun hnot hchild := by
    intro f hf hfatal
    cases hf
    exact hchild g rfl hfatal
  close {r name v child events} hv hrun hnot hchild := by
    intro f hf hfatal
    rw [notFatal_of_closeAfter hnot hf] at hfatal
    cases hfatal

theorem endsFrom_inside (r : ElementRule) (name : String) (hv : v.Valid) :
    (r.inside name v).EndsFrom v.offset :=
  Run.endsFrom_of_bounds (r.bounds_inside name v) (offset_lt_of_fatal_induction.inside r name hv)

theorem endsFrom_enclose {offset : Nat} {inside : Run (List Element)}
    (h : inside.EndsFrom offset) (r : ElementRule) (e : Element) :
    (r.enclose e inside).EndsFrom offset where
  value hok := by
    obtain ⟨children, hinside, -⟩ := enclose_eq_ok_iff.1 hok
    exact h.value hinside
  failure hfailed := h.failure (enclose_eq_error_iff.1 hfailed)
  fatal hfailed := h.fatal (enclose_eq_error_iff.1 hfailed)

end ElementRule

/-! ## Two limits -/

/-- What a run becomes with a higher limit: the same run, if the lower limit is not exceeded, and
else a run that ends behind the tag at which it is. -/
inductive Run.Raised (lower higher : Run α) : Prop where
  | same (hsame : higher = lower)
      (hnot : ∀ f, lower.outcome = .error (.failed f) → f.isFatal = false)
  | beyond {f : Failure} (hlower : lower.outcome = .error (.failed f))
      (hfatal : f.isFatal = true) (hhigher : higher.EndsFrom f.offset)

namespace Run

theorem Raised.eq_of_ok {lower higher : Run α} {result : α × View} (h : lower.Raised higher)
    (hok : lower.outcome = .ok result) : higher = lower := by
  cases h with
  | same hsame hnot => exact hsame
  | beyond hlower hfatal hhigher =>
      rw [hok] at hlower
      cases hlower

theorem Raised.eq_of_failed {lower higher : Run α} {f : Failure} (h : lower.Raised higher)
    (hfailed : lower.outcome = .error (.failed f)) (hf : f.isFatal = false) : higher = lower := by
  cases h with
  | same hsame hnot => exact hsame
  | beyond hlower hfatal hhigher =>
      rw [hfailed] at hlower
      cases hlower
      rw [hf] at hfatal
      cases hfatal

theorem Raised.endsFrom {lower higher : Run α} {f : Failure} (h : lower.Raised higher)
    (hfailed : lower.outcome = .error (.failed f)) (hf : f.isFatal = true) :
    higher.EndsFrom f.offset := by
  cases h with
  | same hsame hnot =>
      rw [hnot f hfailed] at hf
      cases hf
  | beyond hlower hfatal hhigher =>
      rw [hfailed] at hlower
      cases hlower
      exact hhigher

theorem Raised.after {lower higher : Run (List α)} (h : lower.Raised higher) (value : α)
    (events : List Event) : (lower.after value events).Raised (higher.after value events) := by
  cases h with
  | same hsame hnot =>
      refine .same (by rw [hsame]) fun f hf => ?_
      exact hnot f (Run.after_eq_error_iff.1 hf)
  | beyond hlower hfatal hhigher =>
      exact .beyond (Run.after_eq_error_iff.2 hlower) hfatal (hhigher.after value events)

end Run

namespace ElementRule

/-- The rule with another limit. -/
def withLimit (r : ElementRule) (maxDepth : Option Nat) : ElementRule :=
  { r with maxDepth }

variable {r : ElementRule} {v w : View} {name : String} {n : Nat} {m : Option Nat}

@[simp] theorem withLimit_child (r : ElementRule) (m : Option Nat) :
    (r.withLimit m).child = r.child.withLimit m := rfl

@[simp] theorem enclose_withLimit (r : ElementRule) (m : Option Nat) :
    (r.withLimit m).enclose = r.enclose := rfl

@[simp] theorem closeAfter_withLimit (r : ElementRule) (m : Option Nat) :
    (r.withLimit m).closeAfter = r.closeAfter := rfl

theorem raised_enclose {lower higher : Run (List Element)} (h : lower.Raised higher)
    (r : ElementRule) (e : Element) : (r.enclose e lower).Raised (r.enclose e higher) := by
  cases h with
  | same hsame hnot =>
      refine .same (by rw [hsame]) fun f hf => ?_
      exact hnot f (enclose_eq_error_iff.1 hf)
  | beyond hlower hfatal hhigher =>
      exact .beyond (enclose_eq_error_iff.2 hlower) hfatal (endsFrom_enclose hhigher r e)

/-- A level that the lower limit just admits is no level too deep for the higher one. -/
theorem exceeded?_withLimit (hm : ∀ limit, m = some limit → n < limit) (hdepth : r.depth ≤ n + 1) :
    (r.withLimit m).exceeded? = none := by
  refine exceeded?_eq_none_iff.2 fun limit hlimit => ?_
  have hlt := hm limit hlimit
  show r.depth + 1 ≤ limit + 1
  omega

/-- Behind a tag that is too deep for the lower limit only. -/
theorem endsFrom_of_startTagAt {tag : StartTag} {rest : List Char} (hv : v.Valid)
    (htag : startTagAt v.rest = .read tag rest) (hlimit : r.exceeded? = none) :
    (r.run v).EndsFrom (v.upTo rest).offset := by
  have hw := (reaches_of_startTagAt hv htag).1.valid hv
  cases tag with
  | whole e =>
      rw [run_of_whole hv htag hlimit]
      exact Run.endsFrom_succeed e (v.upTo rest)
  | opening e =>
      rw [run_of_opening hv htag hlimit]
      exact endsFrom_enclose (r.endsFrom_inside e.name hw) r e

/-- Where a child ends behind an offset, so does the inside of its parent, with nested errors: no
failure in front of the child's is reported in its stead. -/
theorem endsFrom_inside_of_child {offset : Nat} (hnested : r.nestedErrors = true) (hv : v.Valid)
    (hstart : atStartTag v.rest = true) (h : (r.child.run v).EndsFrom offset) :
    (r.inside name v).EndsFrom offset := by
  have hbounds := r.child.bounds_run v
  rcases hchild : (r.child.run v).outcome with (f | defect) | ⟨e, w⟩
  · cases hfatal : f.isFatal with
    | true =>
        rw [inside_of_fatal hv hchild hfatal]
        exact h.passOn hchild _
    | false =>
        -- the closing tag fails too, but in front of the child's failure
        rw [inside_of_failed hv hchild hfatal, closeAfter_of_atStartTag hnested hv hstart hchild]
        exact h.passOn hchild _
  · exact absurd hchild (r.child.run_finishes hv defect)
  · rw [hchild] at hbounds
    have hw : w.Valid := View.Reaches.valid hbounds hv
    rw [inside_of_child hv hchild]
    exact ((r.endsFrom_inside name hw).mono (h.value hchild)).after e _

/-- The run of an element at a level that the lower limit admits, or one below. -/
def RaisedAt (n : Nat) (m : Option Nat) (r : ElementRule) (v : View) (run : Run Element) : Prop :=
  r.maxDepth = some n → r.nestedErrors = true → r.depth ≤ n + 1 →
    run.Raised ((r.withLimit m).run v)

/-- The run of the inside of an element at a level that the lower limit admits. -/
def RaisedInside (n : Nat) (m : Option Nat) (r : ElementRule) (name : String) (v : View)
    (run : Run (List Element)) : Prop :=
  r.maxDepth = some n → r.nestedErrors = true → r.depth ≤ n →
    run.Raised ((r.withLimit m).inside name v)

theorem depth_le_of_exceeded? (hmax : r.maxDepth = some n) (hlimit : r.exceeded? = none) :
    r.depth ≤ n := by
  have hle := exceeded?_eq_none_iff.1 hlimit n hmax
  omega

/-- Both limits go the same way up to the first tag that is too deep for the lower one. -/
theorem raised_induction (hm : ∀ limit, m = some limit → n < limit) :
    Induction (RaisedAt n m) (RaisedInside n m) where
  stuck {r v cause rest} hv htag := by
    intro _ _ _
    have hnot := notFatal_startTagAt v.rest
    rw [htag] at hnot
    refine .same (run_of_stuck hv htag) fun f hf => ?_
    cases hf
    exact hnot
  tooDeep {r v tag rest limit} hv htag hlimit := by
    intro _ _ hdepth
    exact .beyond rfl rfl (endsFrom_of_startTagAt hv htag (exceeded?_withLimit hm hdepth))
  whole {r v e rest} hv htag hlimit := by
    intro _ _ hdepth
    have hrun : (r.withLimit m).run v = .succeed e (v.upTo rest) :=
      run_of_whole hv htag (exceeded?_withLimit hm hdepth)
    exact .same hrun fun f hf => by cases hf
  opening {r v e rest} hv htag hlimit hinside := by
    intro hmax hnested hdepth
    have hlevel := depth_le_of_exceeded? hmax hlimit
    rw [run_of_opening hv htag (exceeded?_withLimit hm hdepth), enclose_withLimit]
    exact raised_enclose (hinside hmax hnested hlevel) r e
  child {r name v w e events} hv hrun hw hchild hlater := by
    intro hmax hnested hdepth
    have hraised : Run.Raised ⟨events, .ok (e, w)⟩ ((r.child.withLimit m).run v) :=
      hchild hmax hnested (Nat.succ_le_succ hdepth)
    -- the lower limit admits the child, so both limits do
    have hsame := hraised.eq_of_ok rfl
    have hok : ((r.withLimit m).child.run v).outcome = .ok (e, w) := by
      rw [withLimit_child, hsame]
    rw [inside_of_child hv hok, withLimit_child, hsame]
    exact (hlater hmax hnested hdepth).after e events
  fatal {r name v f events} hv hrun hfatal hchild := by
    intro hmax hnested hdepth
    have hraised : Run.Raised ⟨events, .error (.failed f)⟩ ((r.child.withLimit m).run v) :=
      hchild hmax hnested (Nat.succ_le_succ hdepth)
    have hstart : atStartTag v.rest = true :=
      atStartTag_of_run hv hrun (by rintro g ⟨⟩; exact hfatal)
    exact .beyond rfl hfatal
      (endsFrom_inside_of_child hnested hv hstart (hraised.endsFrom rfl hfatal))
  close {r name v f events} hv hrun hfatal hchild := by
    intro hmax hnested hdepth
    have hraised : Run.Raised ⟨events, .error (.failed f)⟩ ((r.child.withLimit m).run v) :=
      hchild hmax hnested (Nat.succ_le_succ hdepth)
    have hsame := hraised.eq_of_failed rfl hfatal
    have hfailed : ((r.withLimit m).child.run v).outcome = .error (.failed f) := by
      rw [withLimit_child, hsame]
    refine .same ?_ fun g hg => notFatal_of_closeAfter hfatal hg
    rw [inside_of_failed hv hfailed hfatal, withLimit_child, hsame, closeAfter_withLimit]

end ElementRule

end TagTree
