import TagTree.Proofs.Grammar.Elements

/-!
# The end of an element

Where no further child is read, the closing tag decides, and with nested errors the deeper of two
failures is reported: that of the child, or that of the closing tag. Which of them it is can be
told from two characters. Where a start tag begins (`atStartTag`) no closing tag does, so the
child's failure lies further on and is reported (`closeAfter_of_atStartTag`). Anywhere else no
child begins, and what the closing tag makes of the text is all that counts
(`closeAfter_of_not_atStartTag`).
-/

set_option autoImplicit false

namespace TagTree

namespace Grammar

/-- Whether a start tag begins here: its sign stands, and no closing tag. -/
def atStartTag : List Char → Bool
  | '<' :: '/' :: _ => false
  | '<' :: _ => true
  | _ => false

variable {cs rest : List Char}

theorem eq_of_atStartTag (h : atStartTag cs = true) :
    ∃ ds, cs = '<' :: ds ∧ ∀ es, ds ≠ '/' :: es := by
  revert h
  fun_cases atStartTag cs with
  | case1 es => nofun
  | case2 ds hds => exact fun _ => ⟨ds, rfl, hds⟩
  | case3 => nofun

/-- Elsewhere stands a closing tag, or no tag at all. -/
theorem eq_of_not_atStartTag (h : atStartTag cs = false) :
    (∃ ds, cs = '<' :: '/' :: ds) ∨ ∀ ds, cs ≠ '<' :: ds := by
  revert h
  fun_cases atStartTag cs with
  | case1 ds => exact fun _ => Or.inl ⟨ds, rfl⟩
  | case2 => nofun
  | case3 _ hclosing hopening => exact fun _ => Or.inr hopening

/-! ## Start tags -/

theorem startTagAt_of_no_sign (h : ∀ ds, cs ≠ '<' :: ds) :
    startTagAt cs = .stuck (causeAt (.literalMismatch "<") cs) cs := by
  rcases cs with _ | ⟨c, ds⟩
  · rfl
  · have hc : c ≠ '<' := fun hc => h ds (by rw [hc])
    rw [startTagAt, shellAt, charAt, if_neg hc]
    rfl

theorem startTagAt_of_closing (ds : List Char) :
    startTagAt ('<' :: '/' :: ds) = .stuck .predicateMismatch ('/' :: ds) := by
  have hname : Scan.name? ('/' :: ds) = none :=
    name?_eq_none (head?_cons_eq_false (by decide) ds)
  rw [startTagAt, shellAt, charAt, if_pos rfl, Piece.andThen_read, nameAt, hname]
  rfl

/-- The end of a start tag is stuck where it should stand. -/
theorem eq_of_tagEndAt_stuck {e : Element} {cause : Cause}
    (h : tagEndAt e cs = .stuck cause rest) : rest = cs := by
  rw [tagEndAt.eq_def] at h
  split at h
  · cases h
  · cases h
  · cases h
    rfl

/-- A start tag that is not read is stuck behind its sign. -/
theorem suffix_of_startTagAt_stuck {cause : Cause} {ds : List Char}
    (h : startTagAt ('<' :: ds) = .stuck cause rest) : rest <:+ ds := by
  rw [startTagAt, shellAt, charAt, if_pos rfl, Piece.andThen_read, nameAt] at h
  cases hname : Scan.name? ds with
  | none =>
      rw [hname] at h
      cases h
      exact List.suffix_refl _
  | some found =>
      obtain ⟨name, after⟩ := found
      obtain ⟨-, hds, hstop⟩ := name?_eq_some hname
      obtain ⟨text, hafter, -⟩ := exists_derivesAttributes hstop
      rw [hname] at h
      have hrest : rest = (Scan.attributes after).2 := eq_of_tagEndAt_stuck h
      refine ⟨name ++ text, ?_⟩
      calc name ++ text ++ rest = name ++ (text ++ (Scan.attributes after).2) := by
            rw [hrest, List.append_assoc]
        _ = ds := by rw [← hafter, hds]

/-! ## Closing tags -/

/-- Where no closing tag begins the tag is stuck at its sign, and no name is wrong. -/
theorem closeElementAt_of_no_sign (expected : String) (h : ∀ ds, cs ≠ '<' :: '/' :: ds) :
    ∃ cause, closeElementAt expected cs = .stuck cause cs ∧ cause.isTagMismatch = false ∧
      ((∀ ds, cs ≠ '<' :: ds) → cause = causeAt (.literalMismatch "</") cs) := by
  have hprefix : ¬ "</".toList.isPrefixOf cs = true := by
    intro hprefix
    obtain ⟨ds, hds⟩ := List.isPrefixOf_iff_prefix.1 hprefix
    exact h ds hds.symm
  rw [closeElementAt, closeTagAt, literalAt, if_neg hprefix]
  by_cases hend : cs.isPrefixOf "</".toList = true
  · rw [if_pos hend]
    refine ⟨_, rfl, rfl, fun hsign => ?_⟩
    -- the beginnings of the sign are nothing, `<` and the sign itself
    rcases cs with _ | ⟨c, ds⟩
    · rfl
    · simp [List.isPrefixOf] at hend
      exact absurd (by rw [hend.1]) (hsign ds)
  · rw [if_neg hend]
    refine ⟨_, rfl, rfl, fun _ => ?_⟩
    rcases cs with _ | ⟨c, ds⟩
    · exact absurd rfl hend
    · rfl

/-- Behind the sign of a closing tag three things can be wrong: the name is not the one expected,
and the tag is refused as a whole; there is no name; or the name does not end the tag. -/
theorem closeElementAt_eq_stuck {expected : String} {cause : Cause} {ds : List Char}
    (h : closeElementAt expected ('<' :: '/' :: ds) = .stuck cause rest) :
    (cause.isTagMismatch = true ∧ rest = '<' :: '/' :: ds) ∨ rest = ds ∨
    ∃ name, isName name = true ∧ ds = name ++ rest ∧
      cause = causeAt (.literalMismatch ">") rest ∧
      ∀ c ∈ rest.head?, isNamePart c = false ∧ c ≠ '>' := by
  have hsign : literalAt "</" ('<' :: '/' :: ds) = .read () ds := by
    simp [literalAt, List.isPrefixOf]
  rw [closeElementAt, closeTagAt, hsign, Piece.andThen_read, nameAt] at h
  cases hname : Scan.name? ds with
  | none =>
      rw [hname] at h
      cases h
      exact Or.inr (Or.inl rfl)
  | some found =>
      obtain ⟨name, after⟩ := found
      obtain ⟨hisName, hds, hstop⟩ := name?_eq_some hname
      rw [hname, Piece.andThen_read] at h
      rcases after with _ | ⟨d, after⟩
      · cases h
        refine Or.inr (Or.inr ⟨name, hisName, hds, rfl, fun c hc => ?_⟩)
        exact absurd hc (Option.not_mem_none c)
      · by_cases hd : d = '>'
        · rw [charAt, if_pos hd, Piece.andThen_read, Piece.checked] at h
          by_cases hexpected : String.ofList name = expected
          · rw [if_pos hexpected] at h
            cases h
          · rw [if_neg hexpected] at h
            cases h
            exact Or.inl ⟨rfl, rfl⟩
        · rw [charAt, if_neg hd] at h
          cases h
          refine Or.inr (Or.inr ⟨name, hisName, hds, rfl, ?_⟩)
          rintro c ⟨⟩
          exact ⟨hstop d rfl, hd⟩

/-- A closing tag is stuck behind its sign, if it is not for its name. -/
theorem suffix_of_closeElementAt_stuck {expected : String} {cause : Cause} {ds : List Char}
    (h : closeElementAt expected ('<' :: '/' :: ds) = .stuck cause rest) :
    cause.isTagMismatch = true ∨ rest <:+ ds := by
  rcases closeElementAt_eq_stuck h with ⟨hmismatch, -⟩ | rfl | ⟨name, -, rfl, -⟩
  · exact Or.inl hmismatch
  · exact Or.inr (List.suffix_refl _)
  · exact Or.inr (List.suffix_append _ _)

end Grammar

/-! ## Which failure is reported -/

namespace ElementRule

open Grammar

variable {r : ElementRule} {v : View} {name : String} {f : Failure}

/-- Where a closing tag stands no child is read. -/
theorem run_of_closing {rest : List Char} (hv : v.Valid) (hrest : v.rest = '<' :: '/' :: rest) :
    r.run v = .failAt .predicateMismatch (v.upTo ('/' :: rest)) :=
  run_of_stuck hv (by rw [hrest, startTagAt_of_closing])

/-- Where no tag begins no child is read. -/
theorem run_of_no_sign (hv : v.Valid) (hsign : ∀ ds, v.rest ≠ '<' :: ds) :
    r.run v = .failAt (causeAt (.literalMismatch "<") v.rest) v := by
  rw [run_of_stuck hv (startTagAt_of_no_sign hsign), hv.upTo_self]

/-- A child is read, or fails fatally, where its start tag begins only. -/
theorem run_of_not_atStartTag (hv : v.Valid) (hstart : atStartTag v.rest = false) :
    ∃ f, r.run v = ⟨[], .error (.failed f)⟩ ∧ f.isFatal = false := by
  rcases eq_of_not_atStartTag hstart with ⟨ds, hrest⟩ | hsign
  · exact ⟨_, run_of_closing hv hrest, rfl⟩
  · exact ⟨_, run_of_no_sign hv hsign, isFatal_causeAt rfl v.rest⟩

/-- An element that is read, or that fails fatally, begins with a start tag. -/
theorem atStartTag_of_run {run : Run Element} (hv : v.Valid) (hrun : r.run v = run)
    (h : ∀ f, run.outcome = .error (.failed f) → f.isFatal = true) : atStartTag v.rest = true := by
  cases hstart : atStartTag v.rest with
  | true => rfl
  | false =>
      obtain ⟨f, hfailed, hnot⟩ := r.run_of_not_atStartTag hv hstart
      rw [← hrun, hfailed] at h
      rw [h f rfl] at hnot
      cases hnot

/-- An element that fails behind the sign of its tag fails further on. -/
theorem offset_lt_of_failed {ds : List Char} (hv : v.Valid) (hrest : v.rest = '<' :: ds)
    (hfailed : (r.run v).outcome = .error (.failed f)) : v.offset < f.offset := by
  have hbehind {rest : List Char} (hsuffix : rest <:+ ds) : v.offset < (v.upTo rest).offset := by
    have hlength := hsuffix.length_le
    refine hv.offset_lt_upTo ?_ ?_
    · rw [hrest]
      exact hsuffix.trans (List.suffix_cons '<' ds)
    · rw [hrest, List.length_cons]
      omega
  cases htag : startTagAt v.rest with
  | stuck cause rest =>
      rw [run_of_stuck hv htag] at hfailed
      cases hfailed
      rw [hrest] at htag
      exact hbehind (suffix_of_startTagAt_stuck htag)
  | read tag rest =>
      have hlt := (reaches_of_startTagAt hv htag).2
      cases hlimit : r.exceeded? with
      | some limit =>
          rw [run_of_tooDeep hv htag hlimit] at hfailed
          cases hfailed
          exact hlt
      | none =>
          cases tag with
          | whole e =>
              rw [run_of_whole hv htag hlimit] at hfailed
              cases hfailed
          | opening e =>
              -- what fails inside of the element fails behind its tag
              have hbounds := r.bounds_inside e.name (v.upTo rest)
              rw [run_of_opening hv htag hlimit] at hfailed
              rw [enclose_eq_error_iff.1 hfailed] at hbounds
              obtain ⟨u, hu, hoffset⟩ := hbounds
              rw [hoffset]
              exact Nat.lt_of_lt_of_le hlt hu.offset_le

/-- At a start tag the failure of the child is reported. -/
theorem closeAfter_of_atStartTag (hnested : r.nestedErrors = true) (hv : v.Valid)
    (hstart : atStartTag v.rest = true)
    (hfailed : (r.child.run v).outcome = .error (.failed f)) :
    r.closeAfter name f v = .stop (.failed f) := by
  obtain ⟨ds, hrest, hsign⟩ := eq_of_atStartTag hstart
  -- the child failed behind its sign, the closing tag fails at it, and not for a wrong name
  have hlt := offset_lt_of_failed hv hrest hfailed
  have hnot : ∀ es, v.rest ≠ '<' :: '/' :: es := by
    intro es hes
    rw [hrest] at hes
    cases hes
    exact hsign es rfl
  obtain ⟨cause, hclose, hmismatch, -⟩ := closeElementAt_of_no_sign name hnot
  unfold closeAfter Failure.deeper
  rw [hclose]
  simp only [hv.upTo_self, hnested, if_true]
  rw [if_pos ⟨hmismatch, hlt⟩]

/-- Elsewhere the closing tag counts, and nothing else. -/
theorem closeAfter_of_not_atStartTag (hv : v.Valid) (hstart : atStartTag v.rest = false)
    (hfailed : (r.child.run v).outcome = .error (.failed f)) :
    r.closeAfter name f v =
      .ofPiece v ((closeElementAt name v.rest).andThen fun _ rest => .read [] rest) := by
  unfold closeAfter Failure.deeper
  cases hclose : closeElementAt name v.rest with
  | read found rest => rfl
  | stuck cause rest =>
      have hnot : ¬ (cause.isTagMismatch = false ∧ (v.upTo rest).offset < f.offset) := by
        rintro ⟨hmismatch, hlt⟩
        rcases eq_of_not_atStartTag hstart with ⟨ds, hrest⟩ | hsign
        · rw [run_of_closing hv hrest] at hfailed
          cases hfailed
          rw [hrest] at hclose
          rcases suffix_of_closeElementAt_stuck hclose with htrue | hsuffix
          · rw [htrue] at hmismatch
            cases hmismatch
          · -- the closing tag is stuck behind its sign, the child within it
            have hcount := byteCount_le_of_suffix (hsuffix.trans (List.suffix_cons '/' ds))
            have hlt' : (v.upTo rest).offset < (v.upTo ('/' :: ds)).offset := hlt
            rw [View.upTo_offset, View.upTo_offset] at hlt'
            omega
        · -- without a sign both fail at the same place
          have hsign' : ∀ ds, v.rest ≠ '<' :: '/' :: ds := fun ds => hsign _
          obtain ⟨cause', hclose', -, -⟩ := closeElementAt_of_no_sign name hsign'
          rw [run_of_no_sign hv hsign] at hfailed
          rw [hclose'] at hclose
          cases hfailed
          cases hclose
          rw [hv.upTo_self] at hlt
          exact Nat.lt_irrefl _ hlt
      simp only [if_neg hnot]
      split <;> rfl

end ElementRule

end TagTree
