import TagTree.Parser.Run
import TagTree.Proofs.Text.Reach

/-!
# Where a run ends

No run leaves the text or goes back in it: a value leaves a view that the start of the run
reaches, and a failure lies at the offset of such a view (`Parser.bounds_runWith`). A run reads
the rule for elements at reached views only, so two rules that agree there give the same run
(`Parser.runWith_congr`).

Both are inductions on the description of the parser. The steps allowed to a repetition do not
matter as long as there are enough of them (`Chain.extend_fuel`), and `Chain.of_eq` says what a
repetition does first.
-/

set_option autoImplicit false

namespace TagTree

variable {α β : Type}

/-- Where a run that starts at `v` may end. -/
def View.Bounds (v : View) : Except Stop (α × View) → Prop
  | .ok (_, w) => v.Reaches w
  | .error (.failed f) => ∃ w, v.Reaches w ∧ f.offset = w.offset
  | .error (.broken d) => d = .outOfFuel

/-- A bound at a later view is a bound at an earlier one. -/
theorem View.Bounds.mono {v w : View} {outcome : Except Stop (α × View)} (hvw : v.Reaches w)
    (h : w.Bounds outcome) : v.Bounds outcome := by
  match outcome, h with
  | .ok (_, _), h => exact hvw.trans h
  | .error (.failed _), ⟨u, hu, hoffset⟩ => exact ⟨u, hvw.trans hu, hoffset⟩
  | .error (.broken _), h => exact h

namespace Run

theorem bounds_failAt (v : View) (cause : Cause) :
    v.Bounds (failAt cause v : Run α).outcome :=
  ⟨v, .refl v, rfl⟩

theorem bounds_andThen {v : View} {r : Run α} {next : α → View → Run β}
    (hr : v.Bounds r.outcome)
    (hnext : ∀ a w, v.Reaches w → r.outcome = .ok (a, w) → w.Bounds (next a w).outcome) :
    v.Bounds (r.andThen next).outcome := by
  rw [outcome_andThen]
  cases h : r.outcome with
  | ok result =>
      obtain ⟨a, w⟩ := result
      rw [h] at hr
      exact (hnext a w hr h).mono hr
  | error reason =>
      rw [h] at hr
      cases reason with
      | failed f => exact hr
      | broken d => exact hr

theorem bounds_orElse {v : View} {r : Run α} {second : Unit → Run α}
    (hr : v.Bounds r.outcome) (hsecond : v.Bounds (second ()).outcome) :
    v.Bounds (r.orElse second).outcome := by
  rw [outcome_orElse]
  split
  · rename_i f h
    split
    · rw [h] at hr
      exact hr
    · exact hsecond
  · exact hr

end Run

/-! ## Repetition -/

namespace Chain

/-- The chain with one more item at its front, and what was reported for it. -/
def after (c : Chain α) (value : α) (events : List Event) : Chain α :=
  { c with items := value :: c.items, events := events ++ c.events }

/-- Where a repetition that starts at `v` may end. -/
def Bounded (v : View) (c : Chain α) : Prop :=
  v.Reaches c.rest ∧
    match c.ending with
    | .gaveUp f => ∃ w, v.Reaches w ∧ f.offset = w.offset
    | .stalled => True
    | .aborted reason => v.Bounds (.error reason : Except Stop (α × View))

variable {item : View → Run α} {v : View}

/-- What a repetition does with one step more. -/
theorem extend_succ (item : View → Run α) (fuel : Nat) (v : View) :
    extend item (fuel + 1) [] [] v =
      match (item v).outcome with
      | .ok (value, rest) =>
        if rest.offset = v.offset then ⟨[value], (item v).events, rest, .stalled⟩
        else (extend item fuel [] [] rest).after value (item v).events
      | .error (.failed f) =>
        ⟨[], (item v).events, v, if f.isFatal then .aborted (.failed f) else .gaveUp f⟩
      | .error (.broken d) => ⟨[], (item v).events, v, .aborted (.broken d)⟩ := by
  simp only [extend, List.reverseAux_eq, List.append_nil, List.reverse_reverse]
  cases h : (item v).outcome with
  | ok result =>
      obtain ⟨value, rest⟩ := result
      by_cases hread : rest.offset = v.offset
      · simp only [if_pos hread]
        rfl
      · simp only [if_neg hread]
        rw [extend_eq]
        simp [after]
  | error reason =>
      cases reason with
      | failed f => rfl
      | broken d => rfl

theorem Bounded.after {c : Chain α} {w : View} (hvw : v.Reaches w) (h : Bounded w c)
    (value : α) (events : List Event) : Bounded v (c.after value events) := by
  obtain ⟨hrest, hending⟩ := h
  refine ⟨hvw.trans hrest, ?_⟩
  show match c.ending with
    | .gaveUp f => ∃ u, v.Reaches u ∧ f.offset = u.offset
    | .stalled => True
    | .aborted reason => v.Bounds (.error reason : Except Stop (α × View))
  split
  · rename_i f h
    rw [h] at hending
    obtain ⟨u, hu, hoffset⟩ := hending
    exact ⟨u, hvw.trans hu, hoffset⟩
  · trivial
  · rename_i reason h
    rw [h] at hending
    exact View.Bounds.mono hvw hending

/-- A repetition stays within the text if its item does. -/
theorem bounded_extend (hitem : ∀ w, v.Reaches w → w.Bounds (item w).outcome) (fuel : Nat) :
    Bounded v (extend item fuel [] [] v) := by
  induction fuel generalizing v with
  | zero => exact ⟨.refl v, rfl⟩
  | succ fuel ih =>
      have hv : v.Bounds (item v).outcome := hitem v (.refl v)
      rw [extend_succ]
      split
      · rename_i value rest h
        rw [h] at hv
        split
        · exact ⟨hv, trivial⟩
        · exact (ih fun w hw => hitem w (hv.trans hw)).after hv value _
      · rename_i f h
        rw [h] at hv
        refine ⟨.refl v, ?_⟩
        cases hf : f.isFatal with
        | false => exact hv
        | true => exact hv
      · rename_i d h
        rw [h] at hv
        exact ⟨.refl v, hv⟩

theorem bounds_kept {c : Chain α} (h : Bounded v c) : v.Bounds c.kept.outcome := by
  obtain ⟨hrest, hending⟩ := h
  simp only [kept]
  split
  · rename_i reason heq
    rw [heq] at hending
    cases reason with
    | failed f => exact hending
    | broken d => exact hending
  · exact hrest

theorem bounds_closedBy {c : Chain α} {close : View → Run β} (h : Bounded v c)
    (hclose : c.rest.Bounds (close c.rest).outcome) : v.Bounds (c.closedBy close).outcome := by
  obtain ⟨hrest, hending⟩ := h
  have hclose' := hclose.mono hrest
  simp only [closedBy]
  cases hc : c.ending with
  | aborted reason =>
      rw [hc] at hending
      cases reason with
      | failed f => exact hending
      | broken d => exact hending
  | stalled => rfl
  | gaveUp child =>
      rw [hc] at hending
      simp only [Run.outcome_following]
      cases hr : (close c.rest).outcome with
      | ok result =>
          rw [hr] at hclose'
          exact hclose'
      | error reason =>
          rw [hr] at hclose'
          cases reason with
          | failed f =>
              -- of the two failures either one may be reported
              simp only [Failure.deeper]
              split
              · exact hending
              · exact hclose'
          | broken d => exact hclose'

/-- Items that agree wherever the repetition can come give the same repetition. Where that is, an
invariant `P` tells, which every item read keeps. -/
theorem extend_congr_on {item' : View → Run α} {P : View → Prop}
    (hstep : ∀ w, P w → ∀ a u, (item w).outcome = .ok (a, u) → P u)
    (h : ∀ w, P w → item w = item' w) (hv : P v) (fuel : Nat) :
    extend item fuel [] [] v = extend item' fuel [] [] v := by
  induction fuel generalizing v with
  | zero => rfl
  | succ fuel ih =>
      rw [extend_succ, extend_succ, ← h v hv]
      split
      · rename_i value rest hok
        rw [ih (hstep v hv value rest hok)]
      · rfl
      · rfl

/-- Items that agree at the views reached give the same repetition. -/
theorem extend_congr {item' : View → Run α} (hitem : ∀ w, v.Reaches w → w.Bounds (item w).outcome)
    (h : ∀ w, v.Reaches w → item w = item' w) (fuel : Nat) :
    extend item fuel [] [] v = extend item' fuel [] [] v := by
  refine extend_congr_on (P := v.Reaches) (fun w hw a u hok => ?_) h (.refl v) fuel
  have hbounds := hitem w hw
  rw [hok] at hbounds
  exact hw.trans hbounds

/-- Any number of steps above the number of bytes left gives the same repetition, for each item
but the last reads a byte at least. -/
theorem extend_fuel (hv : v.Valid) (hitem : ∀ w, v.Reaches w → w.Bounds (item w).outcome)
    {m n : Nat} (hm : v.remaining < m) (hn : v.remaining < n) :
    extend item m [] [] v = extend item n [] [] v := by
  induction m generalizing n v with
  | zero => omega
  | succ m ih =>
      cases n with
      | zero => omega
      | succ n =>
          have hvitem : v.Bounds (item v).outcome := hitem v (.refl v)
          rw [extend_succ, extend_succ]
          split
          · rename_i value rest hok
            rw [hok] at hvitem
            split
            · rfl
            · rename_i hne
              -- an item that reads something leaves fewer bytes, and so fewer steps to do
              have hle : v.offset ≤ rest.offset := View.Reaches.offset_le hvitem
              have hlt : rest.remaining < v.remaining := hv.remaining_lt hvitem (by omega)
              rw [ih (View.Reaches.valid hvitem hv) (fun w hw => hitem w (hvitem.trans hw))
                (by omega) (n := n) (by omega)]
          · rfl
          · rfl

/-- A repetition runs its item; after an item that reads something it goes on behind it. -/
theorem of_eq (hv : v.Valid) (hitem : ∀ w, v.Reaches w → w.Bounds (item w).outcome) :
    of item v =
      match (item v).outcome with
      | .ok (value, rest) =>
        if rest.offset = v.offset then ⟨[value], (item v).events, rest, .stalled⟩
        else (of item rest).after value (item v).events
      | .error (.failed f) =>
        ⟨[], (item v).events, v, if f.isFatal then .aborted (.failed f) else .gaveUp f⟩
      | .error (.broken d) => ⟨[], (item v).events, v, .aborted (.broken d)⟩ := by
  have hvitem : v.Bounds (item v).outcome := hitem v (.refl v)
  rw [of, extend_succ]
  split
  · rename_i value rest hok
    rw [hok] at hvitem
    split
    · rfl
    · rename_i hne
      have hle : v.offset ≤ rest.offset := View.Reaches.offset_le hvitem
      have hlt : rest.remaining < v.remaining := hv.remaining_lt hvitem (by omega)
      rw [of, extend_fuel (View.Reaches.valid hvitem hv)
        (fun w hw => hitem w (hvitem.trans hw)) hlt (Nat.lt_succ_self _)]
  · rfl
  · rfl

end Chain

/-! ## Descriptions -/

namespace Parser

variable {rule rule' : ElementRule → View → Run Element}

theorem bounds_advance {v : View} {read rest : List Char} (h : v.rest = read ++ rest)
    (value : α) : v.Bounds (Run.advance v (byteCount read) value).outcome := by
  have hdrop : dropBytes? v.rest (byteCount read) = some rest :=
    dropBytes?_eq_some_iff.2 ⟨read, h, rfl⟩
  simp only [Run.advance, View.advance?, hdrop, Option.map_some]
  exact ⟨rfl, read, h, rfl⟩

/-- A run ends at a view that its start reaches, as far as the rule for elements does. -/
theorem bounds_runWith (hrule : ∀ r (w : View), w.Bounds (rule r w).outcome) (p : Parser α)
    (v : View) : v.Bounds (p.runWith rule v).outcome := by
  induction p generalizing v with
  | pure value => exact View.Reaches.refl v
  | fail cause => exact Run.bounds_failAt v cause
  | anyChar =>
      simp only [runWith]
      split
      · exact Run.bounds_failAt v _
      · rename_i c cs h
        have hbounds : v.Bounds (Run.advance v (byteCount [c]) c).outcome := bounds_advance h c
        rwa [byteCount_cons, byteCount_nil, Nat.add_zero] at hbounds
  | literal text =>
      simp only [runWith]
      split
      · rename_i h
        obtain ⟨rest, hrest⟩ := List.isPrefixOf_iff_prefix.1 h
        rw [← byteCount_toList]
        exact bounds_advance hrest.symm ()
      · split
        · exact Run.bounds_failAt v _
        · exact Run.bounds_failAt v _
  | endOfInput =>
      simp only [runWith]
      split
      · exact View.Reaches.refl v
      · exact Run.bounds_failAt v _
  | andThen first next ihfirst ihnext =>
      exact Run.bounds_andThen (ihfirst v) fun a w _ _ => ihnext a w
  | checked of objection ih =>
      -- the value is refused at the start, so the bound is not that of the place reached
      have hof := ih v
      simp only [runWith, Run.outcome_andThen]
      split
      · rename_i value rest hok
        rw [hok] at hof
        split
        · exact hof
        · exact Run.bounds_failAt v _
      · rename_i reason hstop
        rw [hstop] at hof
        cases reason with
        | failed f => exact hof
        | broken d => exact hof
  | orElse first second ihfirst ihsecond => exact Run.bounds_orElse (ihfirst v) (ihsecond v)
  | many item ih => exact Chain.bounds_kept (Chain.bounded_extend (fun w _ => ih w) _)
  | element r => exact hrule r v
  | elementsThen r close ih =>
      exact Chain.bounds_closedBy (Chain.bounded_extend (fun w _ => hrule r w) _) (ih _)
  | announce closing of ih =>
      simp only [runWith, Run.outcome_reporting]
      exact ih v
  | probe label of ih =>
      simp only [runWith, Run.outcome_probed]
      exact ih v

/-- A run reads the rule for elements at the views that its start reaches, and nowhere else. -/
theorem runWith_congr (hrule : ∀ r (w : View), w.Bounds (rule r w).outcome) (p : Parser α)
    {v : View} (h : ∀ r w, v.Reaches w → rule r w = rule' r w) :
    p.runWith rule v = p.runWith rule' v := by
  induction p generalizing v with
  | pure value => rfl
  | fail cause => rfl
  | anyChar => rfl
  | literal text => rfl
  | endOfInput => rfl
  | andThen first next ihfirst ihnext =>
      have hbounds := bounds_runWith hrule first v
      simp only [runWith, Run.andThen, ← ihfirst h]
      split
      · rename_i a w hok
        rw [hok] at hbounds
        rw [ihnext a fun r u hu => h r u (hbounds.trans hu)]
      · rfl
  | checked of objection ih => simp only [runWith, ih h]
  | orElse first second ihfirst ihsecond => simp only [runWith, ihfirst h, ihsecond h]
  | many item ih =>
      have hitem : ∀ w, v.Reaches w → item.runWith rule w = item.runWith rule' w :=
        fun w hw => ih fun r u hu => h r u (hw.trans hu)
      simp only [runWith, Chain.of,
        Chain.extend_congr (fun w _ => bounds_runWith hrule item w) hitem]
  | element r => exact h r v (.refl v)
  | elementsThen r close ih =>
      -- the closing parser starts where the repetition stops, which `v` reaches
      have hrest := (Chain.bounded_extend (v := v) (fun w _ => hrule r w) (v.remaining + 1)).1
      have hclose := ih fun q u hu => h q u (hrest.trans hu)
      simp only [runWith, Chain.of, Chain.closedBy,
        ← Chain.extend_congr (fun w _ => hrule r w) (fun w hw => h r w hw), hclose]
  | announce closing of ih => simp only [runWith, ih h]
  | probe label of ih => simp only [runWith, ih h]

end Parser

end TagTree
