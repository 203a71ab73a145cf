import TagTree.Proofs.Grammar.Acceptance

/-!
# How deep the rule for elements goes

`ElementRule.within base levels` is the rule with its first `levels` levels as they are and
anything at all, `base`, for the rule on the level below them. Where the run of this is the run of
the rule whatever `base` does, the level below is never come to: a run tells everything that
happens in it, and a `base` that goes on for ever would go on for ever there.

The levels come one behind the other. The rule is used `levels` levels down behind as many opening
tags that are still open (`Grammar.Opens`), all at levels that the limit admits, and nowhere else
(`ElementRule.within_eq_run`). So a limit bounds the levels, and without one the text does, for a
tag takes three bytes.
-/

set_option autoImplicit false

namespace TagTree

namespace Grammar

/-! ## Open elements -/

/-- The text of an opening tag. -/
def openTagText (name attributes : List Char) : List Char :=
  '<' :: (name ++ attributes ++ ['>'])

/-- The text opens `levels` elements, each inside the one before, and closes none of them. Their
tags take `tagBytes` bytes together. Behind each tag stand whole elements, any number of them. -/
inductive Opens : (levels tagBytes : Nat) → List Char → Prop where
  | none : Opens 0 0 []
  | tag {levels tagBytes : Nat} {name attributes inside text : List Char}
      {pairs : List (String × String)} {children : List Element} (hname : isName name = true)
      (hattributes : DerivesAttributes attributes pairs) (hinside : DerivesAll inside children)
      (hopens : Opens levels tagBytes text) :
      Opens (levels + 1) (byteCount (openTagText name attributes) + tagBytes)
        (openTagText name attributes ++ inside ++ text)

theorem length_pos_of_isName {name : List Char} (hname : isName name = true) :
    0 < name.length := by
  cases name with
  | nil => cases hname
  | cons c cs => exact Nat.succ_pos _

/-- An opening tag has its two signs and a name. -/
theorem three_le_byteCount_openTagText {name : List Char} (hname : isName name = true)
    (attributes : List Char) : 3 ≤ byteCount (openTagText name attributes) := by
  have hlength := length_pos_of_isName hname
  refine Nat.le_trans ?_ (length_le_byteCount _)
  simp only [openTagText, List.length_cons, List.length_append, List.length_nil]
  omega

/-- Every open element has taken three bytes at least for its tag. -/
theorem Opens.three_mul_le {levels tagBytes : Nat} {text : List Char}
    (h : Opens levels tagBytes text) : 3 * levels ≤ tagBytes := by
  induction h with
  | none => exact Nat.le_refl 0
  | @tag levels tagBytes name attributes inside text pairs children hname _ _ _ ih =>
      have htag := three_le_byteCount_openTagText hname attributes
      omega

/-- The tags are part of the text. -/
theorem Opens.tagBytes_le {levels tagBytes : Nat} {text : List Char}
    (h : Opens levels tagBytes text) : tagBytes ≤ byteCount text := by
  induction h with
  | none => exact Nat.le_refl 0
  | tag _ _ _ _ ih =>
      rw [byteCount_append, byteCount_append]
      omega

/-- A start tag that opens an element is the text of an opening tag. -/
theorem exists_openTagText {cs rest : List Char} {e : Element}
    (h : startTagAt cs = .read (.opening e) rest) :
    ∃ name attributes pairs, isName name = true ∧ DerivesAttributes attributes pairs ∧
      cs = openTagText name attributes ++ rest := by
  obtain ⟨name, attributes, pairs, hname, hattributes, ⟨htag, -⟩ | ⟨-, hcs⟩⟩ :=
    startTagAt_eq_read h
  · cases htag
  · refine ⟨name, attributes, pairs, hname, hattributes, ?_⟩
    rw [hcs, openTagText]
    simp

/-- The text behind elements read one by one. -/
theorem DerivesAll.concat {inside text : List Char} {children : List Element} {e : Element}
    (hinside : DerivesAll inside children) (htext : Derives text e) :
    DerivesAll (inside ++ text) (children ++ [e]) := by
  match hinside with
  | .nil =>
      have hone := DerivesAll.cons htext .nil
      rwa [List.append_nil] at hone
  | .cons hfirst hmore =>
      have hlater := DerivesAll.cons hfirst (hmore.concat htext)
      rwa [← List.append_assoc] at hlater

end Grammar

namespace View

open Grammar

variable {u v w : View}

/-- From `v` to `w` there are whole elements, any number of them, and nothing else. -/
def PassesElements (v w : View) : Prop :=
  ∃ inside children, v.rest = inside ++ w.rest ∧ w = v.upTo w.rest ∧ DerivesAll inside children

theorem Valid.passesElements_refl (hv : v.Valid) : v.PassesElements v :=
  ⟨[], [], rfl, hv.upTo_self.symm, .nil⟩

theorem PassesElements.valid (hv : v.Valid) (h : v.PassesElements w) : w.Valid := by
  obtain ⟨inside, children, hrest, hw, -⟩ := h
  rw [hw]
  exact hv.upTo ⟨inside, hrest.symm⟩

/-- Behind whole elements, one more element is read. -/
theorem PassesElements.run {r : ElementRule} {e : Element} (hv : v.Valid)
    (h : v.PassesElements w) (hok : (r.run w).outcome = .ok (e, u)) : v.PassesElements u := by
  obtain ⟨text, htext, hu, hderives, -⟩ := (ElementRule.outcome_run_iff (h.valid hv)).1 hok
  obtain ⟨inside, children, hrest, hplace, hinside⟩ := h
  refine ⟨inside ++ text, children ++ [e], ?_, ?_, hinside.concat hderives⟩
  · rw [hrest, htext, List.append_assoc]
  · rw [hu, hplace]
    rfl

end View

namespace ElementRule

open Grammar

variable {base : ElementRule → View → Run Element} {r : ElementRule} {v : View}

/-- The rule for the elements that lie `levels` levels deeper. -/
def below (r : ElementRule) (levels : Nat) : ElementRule :=
  { r with depth := levels + r.depth }

theorem child_below (r : ElementRule) (levels : Nat) :
    r.child.below levels = r.below (levels + 1) := by
  have hdepth : levels + (r.depth + 1) = levels + 1 + r.depth := by omega
  show { r with depth := levels + (r.depth + 1) } = { r with depth := levels + 1 + r.depth }
  rw [hdepth]

/-- A rule that reads children as `r` does reads the inside of an element as `r` does. Children
are read behind children only. -/
theorem runWith_childrenThenClose_congr (hv : v.Valid) (name : String)
    (h : ∀ inside children rest, v.rest = inside ++ rest → DerivesAll inside children →
      base r.child (v.upTo rest) = r.child.run (v.upTo rest)) :
    (r.childrenThenClose name).runWith base v = r.inside name v := by
  have hagree : ∀ w, v.PassesElements w → r.child.run w = base r.child w := by
    rintro w ⟨inside, children, hrest, hw, hinside⟩
    rw [hw]
    exact (h inside children w.rest hrest hinside).symm
  have hchain : Chain.of (base r.child) v = Chain.of r.child.run v :=
    (Chain.extend_congr_on (fun w hw e u hok => hw.run hv hok) hagree
      hv.passesElements_refl _).symm
  -- the closing tag is no element, and so does not use the rule
  have hreaches : v.Reaches (Chain.of r.child.run v).rest :=
    (Chain.bounded_extend (fun w _ => bounds_run r.child w) _).1
  have hclose := fun rule => reads_closeElement name rule _ (hreaches.valid hv)
  rw [runWith_childrenThenClose, inside_eq_finish, hchain]
  exact Chain.finish_congr ((hclose base).trans (hclose ElementRule.run).symm)

/-- A rule that reads the inside of an element as `r` does reads the element as `r` does. -/
theorem runWith_body_eq_run (hv : v.Valid)
    (h : ∀ e rest, startTagAt v.rest = .read (.opening e) rest → r.exceeded? = none →
      (r.childrenThenClose e.name).runWith base (v.upTo rest) = r.inside e.name (v.upTo rest)) :
    r.body.runWith base v = r.run v := by
  rw [runWith_body base r hv, run_eq hv]
  cases htag : startTagAt v.rest with
  | stuck cause rest => rfl
  | read tag rest =>
      cases tag with
      | whole e => rfl
      | opening e =>
          unfold afterTag
          cases hlimit : r.exceeded? with
          | some limit => rfl
          | none => exact congrArg (r.enclose e) (h e rest htag hlimit)

/-- The rule is used `levels` levels down behind as many opening tags, if the limit admits their
levels, and nowhere else. -/
theorem within_eq_run (levels : Nat) (hv : v.Valid) (hadmits : r.Admits 0)
    (hbase : ∀ tagBytes text rest, v.rest = text ++ rest → Opens levels tagBytes text →
      r.Admits levels → base (r.below levels) (v.upTo rest) = (r.below levels).run (v.upTo rest)) :
    within base levels r v = r.run v := by
  induction levels generalizing r v with
  | zero =>
      have hhere := hbase 0 [] v.rest rfl .none hadmits
      have hbelow : r.below 0 = r := by
        show { r with depth := 0 + r.depth } = r
        rw [Nat.zero_add]
      rw [hv.upTo_self, hbelow] at hhere
      exact hhere
  | succ levels ih =>
      show r.body.runWith (within base levels) v = r.run v
      apply runWith_body_eq_run hv
      intro e rest htag hlimit
      obtain ⟨name, attributes, pairs, hname, hattributes, hopen⟩ := exists_openTagText htag
      have hw : (v.upTo rest).Valid := (reaches_of_startTagAt hv htag).1.valid hv
      have hchild : r.child.Admits 0 := admits_succ_iff.1 (exceeded?_eq_none_iff.1 hlimit)
      apply runWith_childrenThenClose_congr hw
      intro inside children behind hinside hderives
      -- a child stands behind the tag and the children before it, and so does what it opens
      apply ih (hw.upTo ⟨inside, hinside.symm⟩) hchild
      intro tagBytes text rest' htext hopens hlevels
      have hrest : v.rest = openTagText name attributes ++ inside ++ text ++ rest' := by
        calc v.rest = openTagText name attributes ++ rest := hopen
          _ = openTagText name attributes ++ (inside ++ (text ++ rest')) := by
              rw [show rest = inside ++ behind from hinside,
                show behind = text ++ rest' from htext]
          _ = openTagText name attributes ++ inside ++ text ++ rest' := by
              simp only [List.append_assoc]
      rw [child_below]
      exact hbase _ _ rest' hrest (.tag hname hattributes hderives hopens)
        (admits_succ_iff.2 hlevels)

/-- **A limit bounds the recursion, and so does the text.** With the limit `n` the rule is not used
below level `n + 1`: whatever stands for it there, for instance something that never ends, the
run is the same, from every valid view and in either mode. Without a limit the rule for level
`levels + 1` is used behind `levels` opening tags only, which take three bytes each at least: what
stands for it need agree with it at such places only. -/
theorem limit_bounds_recursion (nestedErrors : Bool) (base : ElementRule → View → Run Element)
    (v : View) (hv : v.Valid) :
    (∀ n, within base (n + 1) { maxDepth := some n, nestedErrors } v =
      (Parser.element { maxDepth := some n, nestedErrors }).run v) ∧
    ∀ levels,
      (∀ tagBytes text rest, v.rest = text ++ rest → Opens levels tagBytes text →
        3 * levels ≤ tagBytes ∧ tagBytes ≤ byteCount text →
        base { nestedErrors, depth := levels + 1 } (v.upTo rest) =
          (Parser.element { nestedErrors, depth := levels + 1 }).run (v.upTo rest)) →
      within base levels { nestedErrors } v = (Parser.element { nestedErrors }).run v := by
  constructor
  · intro n
    apply within_eq_run (n + 1) hv
    · intro limit _
      exact Nat.succ_le_succ (Nat.zero_le limit)
    · intro tagBytes text rest _ _ hlevels
      -- the limit does not admit `n + 1` levels, so there is no such place
      have hle : 1 + (n + 1) ≤ n + 1 := hlevels n rfl
      omega
  · intro levels hbase
    apply within_eq_run levels hv
    · exact admits_of_maxDepth_eq_none rfl 0
    · intro tagBytes text rest hrest hopens _
      exact hbase tagBytes text rest hrest hopens ⟨hopens.three_mul_le, hopens.tagBytes_le⟩

/-- A rule that is broken wherever it is used: with the limit 1 it may stand for the rule on the
third level, and without one for the rule on the second level in the first three bytes. -/
theorem limit_bounds_recursion_broken :
    (within (fun _ _ => .stop (.broken .outOfFuel)) 2 { maxDepth := some 1 }
        (View.ofSource "<a><b><c/></b></a>")).failure? = some ⟨.nestingTooDeep 1, 6⟩ ∧
    within (fun r v => if v.offset < 3 then .stop (.broken .outOfFuel) else r.run v) 1 {}
        (View.ofSource "<a><b/></a>") =
      (Parser.element {}).run (View.ofSource "<a><b/></a>") := by
  constructor
  · rw [(limit_bounds_recursion false _ _ (View.valid_ofSource _)).1 1]
    decide +kernel
  · apply (limit_bounds_recursion false _ _ (View.valid_ofSource _)).2 1
    rintro tagBytes text rest hrest - ⟨hthree, htext⟩
    have hoffset : ¬ ((View.ofSource "<a><b/></a>").upTo rest).offset < 3 := by
      rw [(View.valid_ofSource _).upTo_eq hrest]
      show ¬ 0 + byteCount text < 3
      omega
    exact if_neg hoffset

end ElementRule

end TagTree
