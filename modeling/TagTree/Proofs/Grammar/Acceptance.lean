import TagTree.Element.Shape
import TagTree.Proofs.Grammar.Closing

/-!
# Runs and derivations

The rule for elements succeeds exactly on the texts that the grammar derives, up to the limit on
nesting: a run of `r` at `v` yields `e` and stops at `w` if and only if the text between the two
views is `e` and `r` admits so high a tree (`ElementRule.outcome_run_iff`). The mode of the rule
does not occur in this, so both modes read the same elements.

One direction is an induction on the run. The other one is an induction on the derivation, with
any text behind it: a child is read where one stands, and none where `</` does.
-/

set_option autoImplicit false

namespace TagTree

open Grammar

variable {r : ElementRule} {v w : View} {e : Element} {name : String}

/-! ## Levels that a rule admits -/

/-- Whether the limit of the rule leaves room for a tree of that height. -/
def ElementRule.Admits (r : ElementRule) (height : Nat) : Prop :=
  ∀ limit, r.maxDepth = some limit → r.depth + height ≤ limit + 1

namespace ElementRule

theorem exceeded?_eq_none_iff : r.exceeded? = none ↔ r.Admits 1 := by
  rw [exceeded?, Option.filter_eq_none_iff, Admits]
  constructor
  · intro h limit hlimit
    have hle := h limit hlimit
    simp only [decide_eq_true_eq] at hle
    omega
  · intro h limit hlimit
    have hle := h limit hlimit
    simp only [decide_eq_true_eq]
    omega

/-- The children of an element take one level less. -/
theorem admits_succ_iff {height : Nat} : r.Admits (height + 1) ↔ r.child.Admits height := by
  have hsum : r.depth + (height + 1) = r.child.depth + height := by
    show r.depth + (height + 1) = r.depth + 1 + height
    omega
  rw [Admits, Admits, hsum]
  rfl

theorem admits_max_iff {m n : Nat} : r.Admits (max m n) ↔ r.Admits m ∧ r.Admits n := by
  constructor
  · intro h
    constructor
    · intro limit hlimit
      have hle := h limit hlimit
      omega
    · intro limit hlimit
      have hle := h limit hlimit
      omega
  · rintro ⟨hm, hn⟩ limit hlimit
    have hlem := hm limit hlimit
    have hlen := hn limit hlimit
    omega

theorem Admits.mono {m n : Nat} (h : r.Admits n) (hmn : m ≤ n) : r.Admits m := by
  intro limit hlimit
  have hle := h limit hlimit
  omega

/-- Without a limit every tree is admitted. -/
theorem admits_of_maxDepth_eq_none (h : r.maxDepth = none) (height : Nat) : r.Admits height := by
  intro limit hlimit
  rw [h] at hlimit
  cases hlimit

end ElementRule

/-! ## Soundness -/

/-- What a run has read is what it yields. -/
def ElementRule.ReadsDerived (r : ElementRule) (v : View) (run : Run Element) : Prop :=
  ∀ e w, run.outcome = .ok (e, w) →
    ∃ text, v.rest = text ++ w.rest ∧ Derives text e ∧ r.Admits e.height

/-- What a run has read inside an element of the given name is the children it yields, and the
closing tag of the element. -/
def ElementRule.ReadsAllDerived (r : ElementRule) (name : String) (v : View)
    (run : Run (List Element)) : Prop :=
  ∀ children w, run.outcome = .ok (children, w) →
    ∃ inside, v.rest = inside ++ '<' :: '/' :: (name.toList ++ '>' :: w.rest) ∧
      DerivesAll inside children ∧ r.child.Admits (Element.maxHeight children)

namespace ElementRule

/-- The tag and the inside of an element make up its text. -/
theorem readsDerived_enclose {rest : List Char} {shell : Element} {run : Run (List Element)}
    (htag : startTagAt v.rest = .read (.opening shell) rest)
    (hinside : r.ReadsAllDerived shell.name (v.upTo rest) run) :
    r.ReadsDerived v (r.enclose shell run) := by
  intro e w hok
  obtain ⟨children, hrun, rfl⟩ := enclose_eq_ok_iff.1 hok
  obtain ⟨inside, hrest, hderives, hadmits⟩ := hinside children w hrun
  obtain ⟨name, attributes, pairs, hname, hattributes, ⟨htag', -⟩ | ⟨htag', hcs⟩⟩ :=
    startTagAt_eq_read htag
  · cases htag'
  · cases htag'
    rw [View.upTo_rest, String.toList_ofList] at hrest
    refine ⟨_, ?_, .parent hname hattributes hderives, admits_succ_iff.2 hadmits⟩
    rw [hcs, hrest]
    simp

/-- The text of a child stands before the text of what follows it. -/
theorem readsAllDerived_after {events : List Event} {run : Run (List Element)}
    (hchild : r.child.ReadsDerived v ⟨events, .ok (e, w)⟩)
    (hrun : r.ReadsAllDerived name w run) : r.ReadsAllDerived name v (run.after e events) := by
  intro children u hok
  obtain ⟨more, hmore, rfl⟩ := Run.after_eq_ok_iff.1 hok
  obtain ⟨text, htext, hderives, hheight⟩ := hchild e w rfl
  obtain ⟨inside, hinside, hall, hheights⟩ := hrun more u hmore
  refine ⟨text ++ inside, ?_, .cons hderives hall, admits_max_iff.2 ⟨hheight, hheights⟩⟩
  calc v.rest = text ++ w.rest := htext
    _ = text ++ (inside ++ '<' :: '/' :: (name.toList ++ '>' :: u.rest)) := by rw [hinside]
    _ = text ++ inside ++ '<' :: '/' :: (name.toList ++ '>' :: u.rest) := by
        rw [List.append_assoc]

/-- Behind the last child stands the closing tag. -/
theorem readsAllDerived_closeAfter (events : List Event) (f : Failure)
    (hadmits : r.child.Admits 0) :
    r.ReadsAllDerived name v (.following events (r.closeAfter name f v)) := by
  intro children u hok
  rw [Run.outcome_following, closeAfter] at hok
  cases hclose : closeElementAt name v.rest with
  | stuck cause rest => rw [hclose] at hok; cases hok
  | read found rest =>
      rw [hclose] at hok
      cases hok
      obtain ⟨-, hrest⟩ := closeElementAt_eq_read hclose
      exact ⟨[], hrest, .nil, hadmits⟩

/-- Whatever is read is derived. -/
theorem readsDerived_induction :
    Induction ReadsDerived fun r name v run => r.Admits 1 → r.ReadsAllDerived name v run where
  stuck _ _ := by rintro e w ⟨⟩
  tooDeep _ _ _ := by rintro e w ⟨⟩
  whole hv htag hlimit := by
    rintro e w ⟨⟩
    obtain ⟨name, attributes, pairs, hname, hattributes, ⟨htag', hcs⟩ | ⟨htag', -⟩⟩ :=
      startTagAt_eq_read htag
    · cases htag'
      refine ⟨_, ?_, .leaf hname hattributes, exceeded?_eq_none_iff.1 hlimit⟩
      rw [hcs]
      simp
    · cases htag'
  opening hv htag hlimit hinside :=
    readsDerived_enclose htag (hinside (exceeded?_eq_none_iff.1 hlimit))
  child _ _ _ hchild hlater hadmits := readsAllDerived_after hchild (hlater hadmits)
  fatal _ _ _ _ _ := by rintro children w ⟨⟩
  close _ _ _ _ hadmits := readsAllDerived_closeAfter _ _ (admits_succ_iff.1 hadmits)

/-! ## Completeness -/

/-- With the closing tag the children are complete. -/
theorem outcome_inside_of_closing {name rest : List Char} (hv : v.Valid)
    (hname : isName name = true)
    (hrest : v.rest = '<' :: '/' :: (name ++ '>' :: rest)) :
    (r.inside (String.ofList name) v).outcome = .ok ([], v.upTo rest) := by
  -- the child that is tried fails at the sign of the tag
  have hchild : (r.child.run v).outcome =
      .error (.failed ⟨.predicateMismatch, (v.upTo ('/' :: (name ++ '>' :: rest))).offset⟩) := by
    rw [run_of_closing hv hrest]
    rfl
  rw [inside_of_failed hv hchild rfl, Run.outcome_following, closeAfter, hrest,
    closeElementAt_append hname]
  rfl

/-- Behind a child the other children are read. -/
theorem outcome_inside_of_child {children : List Element} {u : View} (hv : v.Valid)
    (hchild : (r.child.run v).outcome = .ok (e, w))
    (hlater : (r.inside name w).outcome = .ok (children, u)) :
    (r.inside name v).outcome = .ok (e :: children, u) := by
  rw [inside_of_child hv hchild]
  exact Run.after_eq_ok_iff.2 ⟨children, hlater, rfl⟩

mutual

/-- Whatever is derived is read, whatever text follows. -/
theorem outcome_run_of_derives {text : List Char} {e : Element} (h : Derives text e) :
    ∀ {r : ElementRule} {v : View} {rest : List Char}, r.Admits e.height → v.Valid →
      v.rest = text ++ rest → (r.run v).outcome = .ok (e, v.upTo rest) := by
  cases h with
  | @leaf name attributes pairs hname hattributes =>
      intro r v rest hadmits hv hrest
      have htag : startTagAt v.rest =
          .read (.whole ⟨String.ofList name, .ofList pairs, []⟩) rest := by
        rw [hrest, ← startTagAt_whole hname hattributes]
        simp
      rw [run_of_whole hv htag (exceeded?_eq_none_iff.2 hadmits)]
      rfl
  | @parent name attributes inside pairs children hname hattributes hchildren =>
      intro r v rest hadmits hv hrest
      have htag : startTagAt v.rest =
          .read (.opening ⟨String.ofList name, .ofList pairs, []⟩)
            (inside ++ '<' :: '/' :: (name ++ '>' :: rest)) := by
        rw [hrest, ← startTagAt_opening hname hattributes]
        simp
      -- a tree of any height needs its first level at least
      have hlevel : r.exceeded? = none :=
        exceeded?_eq_none_iff.2 (hadmits.mono (Nat.succ_le_succ (Nat.zero_le _)))
      have hw := (reaches_of_startTagAt hv htag).1.valid hv
      have hinside : (r.inside (String.ofList name)
          (v.upTo (inside ++ '<' :: '/' :: (name ++ '>' :: rest)))).outcome =
            .ok (children, v.upTo rest) :=
        outcome_inside_of_derivesAll hchildren hname (admits_succ_iff.1 hadmits) hw rfl
      rw [run_of_opening hv htag hlevel]
      exact enclose_eq_ok_iff.2 ⟨children, hinside, rfl⟩

/-- Children that are derived are read, up to the closing tag behind them. -/
theorem outcome_inside_of_derivesAll {inside : List Char} {children : List Element}
    (h : DerivesAll inside children) :
    ∀ {r : ElementRule} {v : View} {name rest : List Char}, isName name = true →
      r.child.Admits (Element.maxHeight children) → v.Valid →
      v.rest = inside ++ '<' :: '/' :: (name ++ '>' :: rest) →
      (r.inside (String.ofList name) v).outcome = .ok (children, v.upTo rest) := by
  cases h with
  | nil =>
      intro r v name rest hname _ hv hrest
      exact outcome_inside_of_closing hv hname hrest
  | @cons text more e es he hes =>
      intro r v name rest hname hadmits hv hrest
      obtain ⟨hfirst, hothers⟩ := admits_max_iff.1 hadmits
      rw [List.append_assoc] at hrest
      have hchild := outcome_run_of_derives he hfirst hv hrest
      -- the other children stand where the first one ends
      have hw := hv.upTo (hrest ▸ List.suffix_append text _)
      exact outcome_inside_of_child hv hchild
        (outcome_inside_of_derivesAll hes hname hothers hw rfl)

end

/-- Of texts that are derived, none is the beginning of another one. -/
theorem eq_of_derives_append {text text' rest rest' : List Char} {e d : Element}
    (he : Derives text e) (hd : Derives text' d) (h : text ++ rest = text' ++ rest') :
    rest = rest' := by
  have hv := View.valid_ofSource (String.ofList (text ++ rest))
  have hrest : (View.ofSource (String.ofList (text ++ rest))).rest = text ++ rest :=
    String.toList_ofList
  have hadmits := admits_of_maxDepth_eq_none (r := {}) rfl
  -- one run reads them both
  have hread := outcome_run_of_derives he (hadmits _) hv hrest
  rw [outcome_run_of_derives hd (hadmits _) hv (hrest.trans h)] at hread
  injection hread with hresult
  injection hresult with _ hview
  exact (congrArg View.rest hview).symm

/-- The runs that succeed: the text read is an element, and none of its levels is too deep. -/
theorem outcome_run_iff (hv : v.Valid) :
    (r.run v).outcome = .ok (e, w) ↔
      ∃ text, v.rest = text ++ w.rest ∧ w = v.upTo w.rest ∧ Derives text e ∧
        r.Admits e.height := by
  constructor
  · intro hok
    have hreaches := r.bounds_run v
    rw [hok] at hreaches
    obtain ⟨text, hrest, hderives, hadmits⟩ := readsDerived_induction.run r hv e w hok
    exact ⟨text, hrest, (hv.reaches_iff.1 hreaches).2, hderives, hadmits⟩
  · rintro ⟨text, hrest, hw, hderives, hadmits⟩
    rw [hw]
    exact outcome_run_of_derives hderives hadmits hv hrest

end ElementRule

end TagTree
