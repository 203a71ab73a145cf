import TagTree.Proofs.Grammar.Elements

/-!
# Every run finishes

No run of any parser is broken (`Parser.run_finishes`): no step leaves the text or ends inside a
character, and no repetition goes on for ever. A broken run cannot be hidden either, for nothing
absorbs one: no choice tries its second part, and no repetition ends with it.

The proof is an induction on the description of the parser, with one lemma for each way to put
runs together. A repetition finishes because each item but the last reads something, so that the
steps allowed suffice; the children of an element read something always, so that the repetition
without a test for that finishes, too.
-/

set_option autoImplicit false

namespace TagTree

variable {α β : Type}

namespace Run

/-! ## Runs put together -/

theorem finishes_ofPiece (v : View) (piece : Piece α) : (ofPiece v piece).Finishes := by
  intro defect h
  cases piece with
  | read value rest => cases h
  | stuck cause rest => cases h

theorem Finishes.andThen {r : Run α} {next : α → View → Run β} (h : r.Finishes)
    (hnext : ∀ a w, r.outcome = .ok (a, w) → (next a w).Finishes) :
    (r.andThen next).Finishes := by
  intro defect hbroken
  rw [outcome_andThen] at hbroken
  rcases hr : r.outcome with reason | ⟨a, w⟩
  · rw [hr] at hbroken
    cases hbroken
    exact h defect hr
  · rw [hr] at hbroken
    exact hnext a w hr defect hbroken

theorem Finishes.orElse {r : Run α} {second : Unit → Run α} (h : r.Finishes)
    (hsecond : (second ()).Finishes) : (r.orElse second).Finishes := by
  intro defect hbroken
  rw [outcome_orElse] at hbroken
  split at hbroken
  · split at hbroken
    · cases hbroken
    · exact hsecond defect hbroken
  · exact h defect hbroken

end Run

namespace Chain

variable {item : View → Run α} {v : View}

/-- The repetition ends for a cause in the text, or because an item reads nothing. -/
def Finishes (c : Chain α) : Prop :=
  ∀ defect, c.ending ≠ .aborted (.broken defect)

/-- A repetition finishes if its item does and if there are steps for all bytes left. -/
theorem finishes_extend (hv : v.Valid) (hitem : ∀ w, v.Reaches w → w.Bounds (item w).outcome)
    (h : ∀ w, v.Reaches w → (item w).Finishes) {fuel : Nat} (hfuel : v.remaining < fuel) :
    (extend item fuel [] [] v).Finishes := by
  induction fuel generalizing v with
  | zero => omega
  | succ fuel ih =>
      have hbounds : v.Bounds (item v).outcome := hitem v (.refl v)
      have hfinishes : (item v).Finishes := h v (.refl v)
      intro defect
      rw [extend_succ]
      rcases hv' : (item v).outcome with (f | broken) | ⟨value, w⟩
      · cases hfatal : f.isFatal <;> simp [hfatal]
      · exact absurd hv' (hfinishes broken)
      · rw [hv'] at hbounds
        by_cases hread : w.offset = v.offset
        · simp [hread]
        · -- the item has read something, so there are fewer bytes left for fewer steps
          have hle : v.offset ≤ w.offset := View.Reaches.offset_le hbounds
          have hlt : w.remaining < v.remaining := hv.remaining_lt hbounds (by omega)
          simp only [if_neg hread]
          exact ih (View.Reaches.valid hbounds hv) (fun u hu => hitem u (hbounds.trans hu))
            (fun u hu => h u (hbounds.trans hu)) (by omega) defect

theorem finishes_of (hv : v.Valid) (hitem : ∀ w, v.Reaches w → w.Bounds (item w).outcome)
    (h : ∀ w, v.Reaches w → (item w).Finishes) : (of item v).Finishes :=
  finishes_extend hv hitem h (Nat.lt_succ_self v.remaining)

/-- A repetition does not stall on items that read something. -/
theorem extend_ne_stalled (hitem : ∀ w, v.Reaches w → w.Bounds (item w).outcome)
    (hread : ∀ w, v.Reaches w → ∀ a u, (item w).outcome = .ok (a, u) → u.offset ≠ w.offset)
    (fuel : Nat) : (extend item fuel [] [] v).ending ≠ .stalled := by
  induction fuel generalizing v with
  | zero => nofun
  | succ fuel ih =>
      have hbounds : v.Bounds (item v).outcome := hitem v (.refl v)
      rw [extend_succ]
      rcases hv' : (item v).outcome with (f | broken) | ⟨value, w⟩
      · cases hfatal : f.isFatal <;> simp [hfatal]
      · simp
      · rw [hv'] at hbounds
        simp only [if_neg (hread v (.refl v) value w hv')]
        exact ih (fun u hu => hitem u (hbounds.trans hu)) fun u hu => hread u (hbounds.trans hu)

theorem finishes_kept {c : Chain α} (h : c.Finishes) : c.kept.Finishes := by
  intro defect hbroken
  unfold kept at hbroken
  rcases hending : c.ending with f | _ | reason
  · rw [hending] at hbroken
    cases hbroken
  · rw [hending] at hbroken
    cases hbroken
  · rw [hending] at hbroken
    cases hbroken
    exact h defect hending

theorem finishes_closedBy {c : Chain α} {close : View → Run β} (h : c.Finishes)
    (hstalled : c.ending ≠ .stalled) (hclose : (close c.rest).Finishes) :
    (c.closedBy close).Finishes := by
  intro defect hbroken
  unfold closedBy at hbroken
  rcases hending : c.ending with child | _ | reason
  · rw [hending] at hbroken
    simp only [Run.outcome_following] at hbroken
    rcases hr : (close c.rest).outcome with (f | broken) | ⟨value, w⟩
    · rw [hr] at hbroken
      cases hbroken
    · exact hclose broken hr
    · rw [hr] at hbroken
      cases hbroken
  · exact hstalled hending
  · rw [hending] at hbroken
    cases hbroken
    exact h defect hending

end Chain

/-- A repetition of the rule is never ended by an element that reads nothing. -/
theorem ElementRule.ending_ne_stalled (r : ElementRule) {v : View} (hv : v.Valid) :
    (Chain.of r.run v).ending ≠ .stalled := by
  apply Chain.extend_ne_stalled fun w _ => bounds_run r w
  intro w hw e u hok
  have hlt := offset_lt_of_run (hw.valid hv) hok
  omega

/-! ## Every parser -/

namespace Parser

/-- Over the runs of the rule for elements, every run stays within the text. -/
theorem bounds_runWith_run (p : Parser α) (v : View) :
    v.Bounds (p.runWith ElementRule.run v).outcome :=
  bounds_runWith ElementRule.bounds_run p v

theorem finishes_runWith (p : Parser α) {v : View} (hv : v.Valid) :
    (p.runWith ElementRule.run v).Finishes := by
  induction p generalizing v with
  | pure value => exact fun _ => nofun
  | fail cause => exact fun _ => nofun
  | anyChar =>
      rw [Reads.anyChar ElementRule.run v hv]
      exact Run.finishes_ofPiece v _
  | literal text =>
      rw [Reads.literal text ElementRule.run v hv]
      exact Run.finishes_ofPiece v _
  | endOfInput =>
      rw [Reads.endOfInput ElementRule.run v hv]
      exact Run.finishes_ofPiece v _
  | andThen first next ihfirst ihnext =>
      have hbounds := bounds_runWith_run first v
      apply (ihfirst hv).andThen
      intro a w hok
      rw [hok] at hbounds
      exact ihnext a (View.Reaches.valid hbounds hv)
  | checked of objection ih =>
      apply (ih hv).andThen
      intro a w _ defect
      cases objection a <;> nofun
  | orElse first second ihfirst ihsecond => exact (ihfirst hv).orElse (ihsecond hv)
  | many item ih =>
      rw [runWith]
      exact Chain.finishes_kept (Chain.finishes_of hv (fun w _ => bounds_runWith_run item w)
        fun w hw => ih (hw.valid hv))
  | element r =>
      rw [runWith]
      exact r.run_finishes hv
  | elementsThen r close ih =>
      have hitem : ∀ w, v.Reaches w → w.Bounds (r.run w).outcome := fun w _ => r.bounds_run w
      have hchain : (Chain.of r.run v).Finishes :=
        Chain.finishes_of hv hitem fun w hw => r.run_finishes (hw.valid hv)
      have hrest : v.Reaches (Chain.of r.run v).rest := (Chain.bounded_extend hitem _).1
      rw [runWith]
      exact Chain.finishes_closedBy hchain (r.ending_ne_stalled hv) (ih (hrest.valid hv))
  | announce closing of ih =>
      intro defect
      simp only [runWith, Run.outcome_reporting]
      exact ih hv defect
  | probe label of ih =>
      intro defect
      simp only [runWith, Run.outcome_probed]
      exact ih hv defect

/-- No run of a parser is broken. -/
theorem run_finishes (p : Parser α) {v : View} (hv : v.Valid) : (p.run v).Finishes := by
  rw [p.run_eq hv]
  exact p.finishes_runWith hv

/-- Every run stays within the text. -/
theorem bounds_run (p : Parser α) (v : View) : v.Bounds (p.run v).outcome :=
  bounds_runWith (ElementRule.bounds_runWithin _) p v

end Parser

end TagTree
