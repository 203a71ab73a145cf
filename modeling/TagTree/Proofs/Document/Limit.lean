import TagTree.Proofs.Document.Reading
import TagTree.Proofs.Grammar.HigherLimit

/-!
# The limit of a document

A limit on nesting turns some of the accepted texts down, those whose trees are too high, and
changes nothing else (`Document.limit_filters`). So a verdict other than "nested too deep" holds
for every higher limit, and a text that is nested too deep for one limit can only be rejected
further on with a higher one.
-/

set_option autoImplicit false

namespace TagTree

namespace Document

open Scan (skipBlanks)

variable {source : String} {n : Nat} {m : Option Nat}

/-- The run of the root with a limit, and with a higher one. -/
theorem raised_root (source : String) (hm : ∀ limit, m = some limit → n < limit) :
    ((rootRule (some n)).run (rootView source)).Raised
      ((rootRule m).run (rootView source)) :=
  (ElementRule.raised_induction hm).run (rootRule (some n)) (valid_rootView source) rfl rfl
    (Nat.le_add_left 1 n)

/-- What is rejected behind the root is rejected for its end, and behind the root. -/
theorem verdictAfter_eq_rejected {root : Element} {w : View} {why : Rejection}
    (hreaches : (rootView source).Reaches w)
    (h : verdictAfter source root w.rest = .rejected why) :
    why.cause = .expectedEnd ∧ w.offset ≤ why.offset := by
  have hw : w.Valid := hreaches.valid (valid_rootView source)
  have hsource : w.source = source := hreaches.1
  have hcount := byteCount_le_of_suffix (skipBlanks_suffix w.rest)
  have hoffset := hw.offset_eq
  rw [hsource] at hoffset
  rw [eq_of_verdictAfter h]
  refine ⟨rfl, ?_⟩
  show w.offset ≤ source.utf8ByteSize - byteCount (skipBlanks w.rest)
  omega

/-- A text is nested too deep if the run of its root says so. -/
theorem failed_of_nestingTooDeep {why : Rejection} {limit : Nat}
    (h : parse m source = .rejected why) (hcause : why.cause = .nestingTooDeep limit) :
    ∃ f, ((rootRule m).run (rootView source)).outcome = .error (.failed f) ∧
      why = .ofFailure source f := by
  have hbounds := (rootRule m).bounds_run (rootView source)
  rw [parse_eq] at h
  rcases hroot : ((rootRule m).run (rootView source)).outcome with (f | defect) | ⟨root, w⟩
  · rw [hroot] at h
    cases h
    exact ⟨f, rfl, rfl⟩
  · rw [hroot] at h
    cases h
  · rw [hroot] at h hbounds
    have hend := (verdictAfter_eq_rejected hbounds h).1
    rw [hcause] at hend
    cases hend

/-- If the run of the root ends behind an offset, then the document does. -/
theorem parse_of_endsFrom {offset : Nat}
    (h : ((rootRule m).run (rootView source)).EndsFrom offset) :
    (∃ t, parse m source = .accepted t) ∨
    ∃ why, parse m source = .rejected why ∧ offset ≤ why.offset ∧
      ∀ limit, why.cause = .nestingTooDeep limit → offset < why.offset := by
  have hbounds := (rootRule m).bounds_run (rootView source)
  rw [parse_eq]
  rcases hroot : ((rootRule m).run (rootView source)).outcome with (f | defect) | ⟨root, w⟩
  · refine Or.inr ⟨_, rfl, h.failure hroot, fun limit hcause => ?_⟩
    exact h.fatal hroot (Failure.isFatal_iff.2 ⟨limit, hcause⟩)
  · exact absurd hroot ((rootRule m).run_finishes (valid_rootView source) defect)
  · rw [hroot] at hbounds
    have hle := h.value hroot
    cases hverdict : verdictAfter source root w.rest with
    | accepted t => exact Or.inl ⟨t, hverdict⟩
    | rejected why =>
        -- the text is rejected for what stands behind the root, which is no level too deep
        obtain ⟨hcause, hoffset⟩ := verdictAfter_eq_rejected hbounds hverdict
        refine Or.inr ⟨why, hverdict, by omega, fun limit hlimit => ?_⟩
        rw [hcause] at hlimit
        cases hlimit
    | broken defect =>
        unfold verdictAfter at hverdict
        split at hverdict <;> cases hverdict

/-- **A limit filters, and does nothing else.** With the limit `n` the trees accepted are those
accepted without a limit that have at most `n` levels. A text that is not nested too deep for `n`
has the same verdict with every higher limit `m`, and without one. A text that is has with `m` a
verdict of its own: it is accepted, or rejected at the place of the tag too deep or further on,
and further on if a tag is too deep for `m` as well. -/
theorem limit_filters (source : String) (n : Nat) (m : Option Nat)
    (hm : ∀ limit, m = some limit → n < limit) :
    (∀ t, parse (some n) source = .accepted t ↔
      parse none source = .accepted t ∧ t.height ≤ n) ∧
    ((∀ why limit, parse (some n) source = .rejected why → why.cause ≠ .nestingTooDeep limit) →
      parse m source = parse (some n) source) ∧
    ∀ why limit, parse (some n) source = .rejected why → why.cause = .nestingTooDeep limit →
      (∃ t, parse m source = .accepted t) ∨
      ∃ why', parse m source = .rejected why' ∧ why.offset ≤ why'.offset ∧
        ∀ limit', why'.cause = .nestingTooDeep limit' → why.offset < why'.offset := by
  have hraised := raised_root source hm
  refine ⟨fun t => ?_, fun hnot => ?_, fun why limit hrejected hcause => ?_⟩
  · have hlimited : (∀ limit, some n = some limit → t.height ≤ limit) ↔ t.height ≤ n := by
      constructor
      · intro h
        exact h n rfl
      · rintro h limit ⟨⟩
        exact h
    have hunlimited : ∀ limit, none = some limit → t.height ≤ limit := nofun
    rw [parse_eq_accepted_iff, parse_eq_accepted_iff, hlimited, and_iff_left hunlimited]
  · cases hraised with
    | same hsame _ => rw [parse_eq, parse_eq, hsame]
    | @beyond f hlower hfatal _ =>
        -- the run of the root fails fatally, so the text is nested too deep
        have hrejected : parse (some n) source = .rejected (.ofFailure source f) := by
          rw [parse_eq, hlower]
          rfl
        obtain ⟨limit, hcause⟩ := Failure.isFatal_iff.1 hfatal
        exact absurd hcause (hnot _ limit hrejected)
  · obtain ⟨f, hlower, rfl⟩ := failed_of_nestingTooDeep hrejected hcause
    have hfatal : f.isFatal = true := Failure.isFatal_iff.2 ⟨limit, hcause⟩
    exact parse_of_endsFrom (hraised.endsFrom hlower hfatal)

/-- Three levels: a limit of one stops at the second tag, a limit of two at the third one. -/
theorem limit_filters_three :
    (∀ limit, some 2 = some limit → 1 < limit) ∧
    ∃ why why', parse (some 1) "<a><b><c/></b></a>" = .rejected why ∧
      why.cause = .nestingTooDeep 1 ∧
      parse (some 2) "<a><b><c/></b></a>" = .rejected why' ∧ why'.cause = .nestingTooDeep 2 ∧
      why.offset < why'.offset := by
  have hlower : parse (some 1) "<a><b><c/></b></a>" =
      .rejected ⟨.nestingTooDeep 1, 6, ⟨1, 7⟩⟩ := by
    decide +kernel
  have hhigher : parse (some 2) "<a><b><c/></b></a>" =
      .rejected ⟨.nestingTooDeep 2, 10, ⟨1, 11⟩⟩ := by
    decide +kernel
  have hlimits : ∀ limit, some 2 = some limit → 1 < limit := by
    rintro limit ⟨⟩
    decide
  refine ⟨hlimits, _, _, hlower, rfl, hhigher, rfl, ?_⟩
  obtain ⟨-, -, hbehind⟩ := limit_filters "<a><b><c/></b></a>" 1 (some 2) hlimits
  rcases hbehind _ 1 hlower rfl with ⟨t, haccepted⟩ | ⟨why', hrejected, -, hlt⟩
  · rw [hhigher] at haccepted
    cases haccepted
  · rw [hhigher] at hrejected
    cases hrejected
    exact hlt 2 rfl

end Document

end TagTree
