import TagTree.Proofs.Grammar.Acceptance
import TagTree.Proofs.Parser.Repetition
import TagTree.Proofs.Parser.Shift

/-!
# Texts that are elements

What the rule for elements takes from a text it takes from every text that begins so, whatever
follows (`ElementRule.Takes.outcome_run`): names, white space and attributes are read as far as
they go, but each of them stands before a sign that ends it. So no text that is taken begins
another one, and texts that are taken can be put one behind the other and are told apart again
(`ElementRule.element_text_decides`).
-/

set_option autoImplicit false

namespace TagTree

open Grammar

variable {α : Type}

/-- A repetition keeps an item more with an item more at its front. -/
theorem Chain.kept_after (c : Chain α) (value : α) (events : List Event) :
    (c.after value events).kept = c.kept.after value events := by
  unfold Chain.after kept Run.after
  cases c.ending <;> rfl

/-- A parser that fails on a text fails at every view that has this text left, for the same
cause. -/
theorem Parser.exists_failed_of_ofSource {p : Parser α} {v : View} {f : Failure} (hv : v.Valid)
    (h : (p.run (View.ofSource v.remainingText)).outcome = .error (.failed f)) :
    ∃ g, (p.run v).outcome = .error (.failed g) ∧ g.isFatal = f.isFatal := by
  refine ⟨f.shift v.offset, ?_, Failure.isFatal_shift v.offset f⟩
  rw [p.run_eq_shift hv, Run.shift, h]
  rfl

namespace ElementRule

variable {r : ElementRule} {v : View} {text front rest : List Char} {e d : Element}

/-- The rule takes the text as this element: from some view it yields the element and leaves what
stands behind the text. -/
def Takes (r : ElementRule) (text : List Char) (e : Element) : Prop :=
  ∃ v w, v.Valid ∧ v.rest = text ++ w.rest ∧ ((Parser.element r).run v).outcome = .ok (e, w)

/-- What the rule takes does not depend on the view. -/
theorem takes_iff : r.Takes text e ↔ Derives text e ∧ r.Admits e.height := by
  constructor
  · rintro ⟨v, w, hv, hrest, hok⟩
    obtain ⟨text', hrest', -, hderives, hadmits⟩ := (outcome_run_iff hv).1 hok
    obtain rfl : text' = text := List.append_cancel_right (hrest'.symm.trans hrest)
    exact ⟨hderives, hadmits⟩
  · rintro ⟨hderives, hadmits⟩
    have hv := View.valid_ofSource (String.ofList text)
    have hrest : (View.ofSource (String.ofList text)).rest = text ++ [] := by
      rw [List.append_nil]
      exact String.toList_ofList
    exact ⟨_, _, hv, hrest, outcome_run_of_derives hderives hadmits hv hrest⟩

/-- The rule takes a text that it takes wherever that stands, and nothing behind it. -/
theorem Takes.outcome_run (h : r.Takes text e) (hv : v.Valid) (hrest : v.rest = text ++ rest) :
    (r.run v).outcome = .ok (e, v.upTo rest) := by
  obtain ⟨hderives, hadmits⟩ := takes_iff.1 h
  exact outcome_run_of_derives hderives hadmits hv hrest

/-- No text that is taken begins another one. -/
theorem Takes.eq_of_prefix (h : r.Takes text e) (hfront : r.Takes front d)
    (hbegins : front <+: text) : front = text := by
  obtain ⟨more, rfl⟩ := hbegins
  have hmore : [] = more := eq_of_derives_append (takes_iff.1 h).1 (takes_iff.1 hfront).1
    (List.append_nil _)
  rw [← hmore, List.append_nil]

/-- Texts that are taken, one behind the other, are repeated up to where no further one is. -/
theorem outcome_kept_of_takes {taken : List (List Char × Element)} {f : Failure}
    (htaken : ∀ t ∈ taken, r.Takes t.1 t.2) (hv : v.Valid)
    (hrest : v.rest = (taken.map Prod.fst).flatten ++ rest)
    (hfailed : (r.run (v.upTo rest)).outcome = .error (.failed f)) (hfatal : f.isFatal = false) :
    (Chain.of r.run v).kept.outcome = .ok (taken.map Prod.snd, v.upTo rest) := by
  induction taken generalizing v with
  | nil =>
      have hhere : v.upTo rest = v := by
        rw [← show v.rest = rest from hrest]
        exact hv.upTo_self
      rw [hhere] at hfailed
      rw [Chain.of_eq hv fun w _ => bounds_run r w, hfailed]
      simp [Chain.kept, hfatal, hhere]
  | cons t taken ih =>
      obtain ⟨text, e⟩ := t
      rw [List.map_cons, List.flatten_cons, List.append_assoc] at hrest
      have hfirst := (htaken (text, e) List.mem_cons_self).outcome_run hv hrest
      have hlt := offset_lt_of_run hv hfirst
      have hlater := ih (v := v.upTo ((taken.map Prod.fst).flatten ++ rest))
        (fun t ht => htaken t (List.mem_cons_of_mem _ ht)) (hv.upTo ⟨text, hrest.symm⟩) rfl hfailed
      rw [Chain.of_eq hv fun w _ => bounds_run r w, hfirst]
      simp only
      rw [if_neg (by omega), Chain.kept_after]
      exact Run.after_eq_ok_iff.2 ⟨_, hlater, rfl⟩

/-- **The text of an element decides its parse.** If the rule yields an element somewhere, then
it yields the same element wherever the text that it took stands, and leaves exactly what is behind
it. So no proper beginning of the text is taken as an element, and of texts that are taken, one
behind the other, and a tail on which the rule fails, but not fatally, a repetition yields the
elements in their order and leaves the tail. -/
theorem element_text_decides (r : ElementRule) :
    (∀ text e, r.Takes text e → ∀ v rest, v.Valid → v.rest = text ++ rest →
      ((Parser.element r).run v).outcome = .ok (e, v.upTo rest)) ∧
    (∀ text e front d, r.Takes text e → r.Takes front d → front <+: text → front = text) ∧
    ∀ (taken : List (List Char × Element)) (rest : List Char) (f : Failure),
      (∀ t ∈ taken, r.Takes t.1 t.2) →
      ((Parser.element r).run (View.ofSource (String.ofList rest))).outcome =
        .error (.failed f) →
      f.isFatal = false →
      ∀ v, v.Valid → v.rest = (taken.map Prod.fst).flatten ++ rest →
        ((Parser.element r).many.run v).outcome = .ok (taken.map Prod.snd, v.upTo rest) := by
  refine ⟨fun text e h v rest hv hrest => h.outcome_run hv hrest,
    fun text e front d h hfront hbegins => h.eq_of_prefix hfront hbegins, ?_⟩
  intro taken rest f htaken hfailed hfatal v hv hrest
  have hw : (v.upTo rest).Valid := hv.upTo ⟨_, hrest.symm⟩
  obtain ⟨g, hthere, hnot⟩ := Parser.exists_failed_of_ofSource (v := v.upTo rest) hw hfailed
  rw [hfatal] at hnot
  rw [Parser.run_many _ hv]
  exact outcome_kept_of_takes htaken hv hrest hthere hnot

/-- A text with the end of a tag in a value, another one behind it, and a tail that begins a third
one. -/
theorem element_text_decides_pair :
    let r : ElementRule := { maxDepth := some 2, nestedErrors := true }
    let e : Element := ⟨"a", .ofList [("b", "/>")], [⟨"c", .ofList [], []⟩]⟩
    let d : Element := ⟨"d", .ofList [], []⟩
    r.Takes "<a b=\"/>\"><c/></a>".toList e ∧ r.Takes "<d/>".toList d ∧
    ((Parser.element r).run (View.ofSource "<d/>/>")).outcome =
      .ok (d, (View.ofSource "<d/>/>").upTo ['/', '>']) ∧
    (∀ c, ¬ r.Takes "<a b=\"/>".toList c) ∧
    ((Parser.element r).many.run (View.ofSource "<a b=\"/>\"><c/></a><d/><e")).outcome =
      .ok ([e, d], (View.ofSource "<a b=\"/>\"><c/></a><d/><e").upTo ['<', 'e']) := by
  intro r e d
  have hvalid := View.valid_ofSource
  have hadmits (height : Nat) (h : height ≤ 2) : r.Admits height := by
    rintro limit ⟨⟩
    show 1 + height ≤ 2 + 1
    omega
  have hattributes : DerivesAttributes " b=\"/>\"".toList [("b", "/>")] :=
    @DerivesAttributes.some [' '] ['b'] ['/', '>'] [] [] rfl nofun rfl rfl (.done rfl)
  have hleaf : Derives "<c/>".toList ⟨"c", .ofList [], []⟩ := @Derives.leaf ['c'] _ _ rfl .none
  have hinside : DerivesAll "<c/>".toList [⟨"c", .ofList [], []⟩] := .cons hleaf .nil
  have hfirst : r.Takes "<a b=\"/>\"><c/></a>".toList e :=
    takes_iff.2 ⟨@Derives.parent ['a'] _ _ _ _ rfl hattributes hinside, hadmits _ (by decide)⟩
  have hsecond : r.Takes "<d/>".toList d :=
    takes_iff.2 ⟨@Derives.leaf ['d'] _ _ rfl .none, hadmits _ (by decide)⟩
  have hfailed : ((Parser.element r).run (View.ofSource (String.ofList ['<', 'e']))).outcome =
      .error (.failed ⟨.unexpectedEnd, 2⟩) :=
    Run.failure?_eq_some_iff.1 (by decide +kernel)
  obtain ⟨hanywhere, hbegins, hmany⟩ := element_text_decides r
  refine ⟨hfirst, hsecond, hanywhere _ _ hsecond _ _ (hvalid _) (by decide +kernel), ?_, ?_⟩
  · intro c hfront
    have hsame := hbegins _ _ _ _ hfirst hfront (by decide +kernel)
    exact absurd hsame (by decide +kernel)
  · refine hmany [("<a b=\"/>\"><c/></a>".toList, e), ("<d/>".toList, d)] ['<', 'e']
      ⟨.unexpectedEnd, 2⟩ ?_ hfailed rfl _ (hvalid _) (by decide +kernel)
    intro t ht
    simp only [List.mem_cons, List.not_mem_nil, or_false] at ht
    rcases ht with rfl | rfl
    · exact hfirst
    · exact hsecond

end ElementRule

end TagTree
