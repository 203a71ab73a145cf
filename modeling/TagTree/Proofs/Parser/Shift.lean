import TagTree.Proofs.Grammar.Levels

/-!
# Runs in a longer text

A run looks at the text from its view on and never at what lies in front of it. So a run inside of
a text goes as it does at the front of the rest of the text, with every offset greater by as many
bytes as lie in front (`Parser.run_shift`): the values are the same, and the views left, the
failures and the reports are shifted.

`shift source k` takes views, failures, reports and runs in some text to the longer text `source`,
which has `k` bytes more in front. Offsets are compared in three places, by a repetition, by the
choice of the deeper failure and by the steps that a repetition allows itself; a shift of both
sides changes none of these comparisons.
-/

set_option autoImplicit false

namespace TagTree

variable {α β : Type} {source : String} {k : Nat}

/-! ## Shifts -/

/-- The view with the same rest in `source`, which has `k` bytes more in front. -/
def View.shift (source : String) (k : Nat) (v : View) : View :=
  ⟨source, v.offset + k, v.rest⟩

/-- The failure for the same cause, `k` bytes further on. -/
def Failure.shift (k : Nat) (f : Failure) : Failure :=
  ⟨f.cause, f.offset + k⟩

/-- The same reason to stop, `k` bytes further on. -/
def Stop.shift (k : Nat) : Stop → Stop
  | .failed f => .failed (f.shift k)
  | .broken defect => .broken defect

/-- The same report, `k` bytes further on. -/
def Event.shift (k : Nat) : Event → Event
  | .closed closing => .closed closing
  | .entered label start => .entered label (start + k)
  | .succeeded label start stop => .succeeded label (start + k) (stop + k)
  | .stopped label start reason => .stopped label (start + k) (reason.shift k)

namespace Run

/-- The same value or reason, in `source`. -/
def shiftOutcome (source : String) (k : Nat) :
    Except Stop (α × View) → Except Stop (α × View)
  | .ok (value, w) => .ok (value, w.shift source k)
  | .error reason => .error (reason.shift k)

/-- The same run in `source`. -/
def shift (source : String) (k : Nat) (r : Run α) : Run α :=
  ⟨r.events.map (Event.shift k), shiftOutcome source k r.outcome⟩

end Run

/-- The same end of a repetition, `k` bytes further on. -/
def ChainEnd.shift (k : Nat) : ChainEnd → ChainEnd
  | .gaveUp f => .gaveUp (f.shift k)
  | .stalled => .stalled
  | .aborted reason => .aborted (reason.shift k)

/-- The same repetition in `source`. -/
def Chain.shift (source : String) (k : Nat) (c : Chain α) : Chain α :=
  ⟨c.items, c.events.map (Event.shift k), c.rest.shift source k, c.ending.shift k⟩

@[simp] theorem Failure.isFatal_shift (k : Nat) (f : Failure) : (f.shift k).isFatal = f.isFatal :=
  rfl

/-- A shift takes the deeper of two failures to the deeper one. -/
theorem Failure.deeper_shift (k : Nat) (child close : Failure) :
    (child.shift k).deeper (close.shift k) = (child.deeper close).shift k := by
  have hoffset : close.offset + k < child.offset + k ↔ close.offset < child.offset := by omega
  unfold deeper
  simp only [shift, hoffset]
  split <;> rfl

/-- As many bytes are left in the longer text. -/
theorem View.remaining_shift {v : View}
    (hsize : source.utf8ByteSize = v.source.utf8ByteSize + k) :
    (v.shift source k).remaining = v.remaining := by
  show source.utf8ByteSize - (v.offset + k) = v.source.utf8ByteSize - v.offset
  omega

theorem View.advance?_shift (v : View) (n : Nat) :
    (v.shift source k).advance? n = (v.advance? n).map (View.shift source k) := by
  have hoffset : v.offset + k + n = v.offset + n + k := by omega
  unfold advance? shift
  cases dropBytes? v.rest n with
  | none => rfl
  | some rest => simp [hoffset]

/-! ## Runs put together -/

namespace Run

theorem shift_succeed (value : α) (v : View) :
    succeed value (v.shift source k) = (succeed value v).shift source k := rfl

theorem shift_failAt (cause : Cause) (v : View) :
    (failAt cause (v.shift source k) : Run α) = (failAt cause v).shift source k := rfl

theorem shift_advance (v : View) (n : Nat) (value : α) :
    advance (v.shift source k) n value = (advance v n value).shift source k := by
  unfold advance
  rw [View.advance?_shift]
  cases v.advance? n <;> rfl

theorem shift_following (events : List Event) (r : Run α) :
    following (events.map (Event.shift k)) (r.shift source k) =
      (following events r).shift source k := by
  simp [following, shift]

theorem shift_andThen {r : Run α} {next next' : α → View → Run β}
    (h : ∀ a w, r.outcome = .ok (a, w) →
      next' a (w.shift source k) = (next a w).shift source k) :
    (r.shift source k).andThen next' = (r.andThen next).shift source k := by
  rcases hr : r.outcome with reason | ⟨a, w⟩
  · simp [andThen, shift, shiftOutcome, hr]
  · have hnext := h a w hr
    simp only [andThen, shift, shiftOutcome, hr] at hnext ⊢
    rw [hnext]
    exact shift_following r.events (next a w)

theorem shift_orElse {r : Run α} {second second' : Unit → Run α}
    (h : second' () = (second ()).shift source k) :
    (r.shift source k).orElse second' = (r.orElse second).shift source k := by
  rcases hr : r.outcome with (f | defect) | ⟨a, w⟩
  · simp only [orElse, shift, shiftOutcome, Stop.shift, hr, Failure.isFatal_shift]
    split
    · simp [hr]
    · rw [h]
      exact shift_following r.events (second ())
  · simp [orElse, shift, shiftOutcome, Stop.shift, hr]
  · simp [orElse, shift, shiftOutcome, hr]

theorem shift_reporting {r : Run α} {event event' : Except Stop (α × View) → Option Event}
    (h : event' (shiftOutcome source k r.outcome) = (event r.outcome).map (Event.shift k)) :
    (r.shift source k).reporting event' = (r.reporting event).shift source k := by
  unfold reporting shift
  rw [h]
  cases event r.outcome <;> simp

theorem shift_probed (label : String) (v : View) (r : Run α) :
    (r.shift source k).probed label (v.shift source k) = (r.probed label v).shift source k := by
  unfold probed
  rw [← shift_following, shift_reporting]
  · rfl
  · rcases r.outcome with (f | defect) | ⟨a, w⟩ <;> rfl

end Run

namespace Chain

variable {item item' : View → Run α} {v : View}

theorem shift_extend (hitem : ∀ w, v.Reaches w → w.Bounds (item w).outcome)
    (h : ∀ w, v.Reaches w → item' (w.shift source k) = (item w).shift source k) (fuel : Nat) :
    extend item' fuel [] [] (v.shift source k) = (extend item fuel [] [] v).shift source k := by
  induction fuel generalizing v with
  | zero => rfl
  | succ fuel ih =>
      have hbounds : v.Bounds (item v).outcome := hitem v (.refl v)
      rw [extend_succ, extend_succ, h v (.refl v)]
      rcases hv : (item v).outcome with (f | defect) | ⟨value, w⟩
      · simp only [Run.shift, Run.shiftOutcome, Stop.shift, hv, Failure.isFatal_shift]
        simp only [shift, apply_ite (ChainEnd.shift k)]
        rfl
      · simp only [Run.shift, Run.shiftOutcome, Stop.shift, hv]
        rfl
      · rw [hv] at hbounds
        have hread : w.offset + k = v.offset + k ↔ w.offset = v.offset := by omega
        have hlater := ih (fun u hu => hitem u (hbounds.trans hu))
          fun u hu => h u (hbounds.trans hu)
        simp only [Run.shift, Run.shiftOutcome, hv]
        show (if w.offset + k = v.offset + k then _ else _) = _
        simp only [hread]
        split
        · rfl
        · rw [hlater]
          simp [Chain.after, shift]

/-- A repetition allows itself as many steps in the longer text. -/
theorem shift_of (hsize : source.utf8ByteSize = v.source.utf8ByteSize + k)
    (hitem : ∀ w, v.Reaches w → w.Bounds (item w).outcome)
    (h : ∀ w, v.Reaches w → item' (w.shift source k) = (item w).shift source k) :
    of item' (v.shift source k) = (of item v).shift source k := by
  rw [of, of, View.remaining_shift hsize]
  exact shift_extend hitem h _

theorem shift_kept (c : Chain α) :
    (c.shift source k).kept = c.kept.shift source k := by
  unfold kept
  cases hending : c.ending <;> simp [shift, ChainEnd.shift, Run.shift, Run.shiftOutcome, hending]

theorem shift_closedBy {c : Chain α} {close close' : View → Run β}
    (h : close' (c.rest.shift source k) = (close c.rest).shift source k) :
    (c.shift source k).closedBy close' = (c.closedBy close).shift source k := by
  unfold closedBy
  rcases hending : c.ending with child | _ | reason
  · simp only [shift, ChainEnd.shift, hending, h, Run.shift, Run.following]
    rcases hr : (close c.rest).outcome with (f | defect) | ⟨a, w⟩
    · simp [Run.shiftOutcome, Stop.shift, Failure.deeper_shift]
    · simp [Run.shiftOutcome, Stop.shift]
    · simp [Run.shiftOutcome]
  · simp [shift, ChainEnd.shift, Run.shift, Run.shiftOutcome, Stop.shift, hending]
  · simp [shift, ChainEnd.shift, Run.shift, Run.shiftOutcome, hending]

end Chain

/-! ## Every parser -/

namespace Parser

variable {rule rule' : ElementRule → View → Run Element} {text : String}

/-- A run in the longer text is the run in the text itself, shifted, if it is so for elements. -/
theorem runWith_shift (hsize : source.utf8ByteSize = text.utf8ByteSize + k)
    (hbounds : ∀ r (w : View), w.Bounds (rule r w).outcome)
    (hrule : ∀ r (w : View), w.source = text →
      rule' r (w.shift source k) = (rule r w).shift source k)
    (p : Parser α) {v : View} (hv : v.source = text) :
    p.runWith rule' (v.shift source k) = (p.runWith rule v).shift source k := by
  induction p generalizing v with
  | pure value => exact Run.shift_succeed value v
  | fail cause => exact Run.shift_failAt cause v
  | anyChar =>
      have hrest : (v.shift source k).rest = v.rest := rfl
      simp only [runWith, hrest]
      cases v.rest with
      | nil => exact Run.shift_failAt .unexpectedEnd v
      | cons c cs => exact Run.shift_advance v c.utf8Size c
  | literal expected =>
      simp only [runWith, apply_ite (Run.shift source k), ← Run.shift_advance,
        ← Run.shift_failAt]
      rfl
  | endOfInput =>
      simp only [runWith, apply_ite (Run.shift source k), ← Run.shift_succeed,
        ← Run.shift_failAt]
      rfl
  | andThen first next ihfirst ihnext =>
      have hfirst := bounds_runWith hbounds first v
      simp only [runWith, ihfirst hv]
      apply Run.shift_andThen
      intro a w hok
      rw [hok] at hfirst
      exact ihnext a (hfirst.1.trans hv)
  | checked of objection ih =>
      simp only [runWith, ih hv]
      apply Run.shift_andThen
      intro a w _
      cases objection a with
      | none => exact Run.shift_succeed a w
      | some cause => exact Run.shift_failAt cause v
  | orElse first second ihfirst ihsecond =>
      simp only [runWith, ihfirst hv]
      exact Run.shift_orElse (ihsecond hv)
  | many item ih =>
      have hitem : ∀ w, v.Reaches w → w.Bounds (item.runWith rule w).outcome :=
        fun w _ => bounds_runWith hbounds item w
      simp only [runWith, ← Chain.shift_kept]
      rw [Chain.shift_of (hv ▸ hsize) hitem fun w hw => ih (hw.1.trans hv)]
  | element r => exact hrule r v hv
  | elementsThen r close ih =>
      have hitem : ∀ w, v.Reaches w → w.Bounds (rule r w).outcome := fun w _ => hbounds r w
      have hrest : v.Reaches (Chain.of (rule r) v).rest := (Chain.bounded_extend hitem _).1
      simp only [runWith]
      rw [Chain.shift_of (hv ▸ hsize) hitem fun w hw => hrule r w (hw.1.trans hv)]
      exact Chain.shift_closedBy (ih (hrest.1.trans hv))
  | announce closing of ih =>
      simp only [runWith, ih hv]
      apply Run.shift_reporting
      rcases (of.runWith rule v).outcome with reason | ⟨a, w⟩ <;> rfl
  | probe label of ih =>
      simp only [runWith, ih hv]
      exact Run.shift_probed label v _

end Parser

/-- The rule for elements does not see what lies in front of it, at any level. -/
theorem ElementRule.runWithin_shift {text : String}
    (hsize : source.utf8ByteSize = text.utf8ByteSize + k) (levels : Nat) (r : ElementRule)
    {v : View} (hv : v.source = text) :
    runWithin levels r (v.shift source k) = (runWithin levels r v).shift source k := by
  induction levels generalizing r v with
  | zero => rfl
  | succ levels ih =>
      exact Parser.runWith_shift hsize (bounds_runWithin levels) (fun q w hw => ih q hw) r.body hv

/-- No parser sees what lies in front of its view. -/
theorem Parser.run_shift {v : View} (hsize : source.utf8ByteSize = v.source.utf8ByteSize + k)
    (p : Parser α) : p.run (v.shift source k) = (p.run v).shift source k := by
  unfold run
  rw [View.remaining_shift hsize]
  exact runWith_shift hsize (ElementRule.bounds_runWithin _)
    (fun q w hw => ElementRule.runWithin_shift hsize _ q hw) p rfl

/-- A view is the front of the text left, shifted. -/
theorem View.shift_remainingText (v : View) :
    (View.ofSource v.remainingText).shift v.source v.offset = v := by
  have hrest : (View.ofSource v.remainingText).rest = v.rest := String.toList_ofList
  unfold shift
  rw [hrest]
  show (⟨v.source, 0 + v.offset, v.rest⟩ : View) = v
  rw [Nat.zero_add]

/-- A run from a valid view is the run on the text left alone, shifted by the offset of the
view. -/
theorem Parser.run_eq_shift {v : View} (hv : v.Valid) (p : Parser α) :
    p.run v = (p.run (View.ofSource v.remainingText)).shift v.source v.offset := by
  have hsize : v.source.utf8ByteSize = v.remainingText.utf8ByteSize + v.offset := by
    have hle := hv.byteCount_le (List.suffix_refl v.rest)
    have hoffset := hv.offset_eq
    rw [View.remainingText, utf8ByteSize_ofList]
    omega
  have hrun := p.run_shift (v := View.ofSource v.remainingText) hsize
  rwa [v.shift_remainingText] at hrun

end TagTree
