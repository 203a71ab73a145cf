import TagTree.Proofs.Document.Completion

/-!
# The first tag too deep

Whether a text is nested too deep is decided by one tag, the first one of its start tags at a
level that the limit does not allow (`Grammar.EndsTooDeep`). Nothing behind that tag matters: the
rejection, with its place, is the same whatever follows (`Document.parse_of_endsTooDeep`). With
the closing tags of what is open behind it the text is a document that has one level too many
(`Document.exists_height_of_endsTooDeep`). The other way round, the limit turns no text down for
its depth in front of such a tag or without one (`Document.tooDeep_at_first_tag`).
-/

set_option autoImplicit false

namespace TagTree

/-! ## Places -/

/-- A failure behind a text is told in the same lines and columns, whatever follows. -/
theorem Rejection.ofFailure_append {source source' : String} {read rest rest' : List Char}
    (hsource : source.toList = read ++ rest) (hsource' : source'.toList = read ++ rest')
    (cause : Cause) :
    ofFailure source ⟨cause, byteCount read⟩ = ofFailure source' ⟨cause, byteCount read⟩ := by
  unfold ofFailure Position.locate
  rw [hsource, hsource', Position.walk_append, Position.walk_append]

namespace Grammar

open Scan (OpenElement)

variable {m : Option Nat} {n : Nat} {stack : List OpenElement} {text tagText : List Char}
  {closings : List Closing} {closing : Option Closing} {tag : Tag} {progress : Progress}

/-! ## Levels of tags -/

theorem AllowsLevel.mono {level lower : Nat} (h : AllowsLevel m level) (hle : lower ≤ level) :
    AllowsLevel m lower :=
  fun limit hlimit => Nat.le_trans hle (h limit hlimit)

theorem allowsLevel_some_iff {level : Nat} : AllowsLevel (some n) level ↔ level ≤ n := by
  constructor
  · intro h
    exact h n rfl
  · rintro h limit ⟨⟩
    exact h

/-- The elements that are open lie at levels that are allowed. -/
theorem allowsLevel_of_comesTo (h : ComesTo m text closings progress) :
    AllowsLevel m progress.openNames.length := by
  induction h with
  | start _ => exact fun limit _ => Nat.zero_le limit
  | @tag _ _ _ stack _ _ _ _ _ hleads ih =>
      have hstack : AllowsLevel m stack.length := by
        simpa [Progress.openNames] using ih
      cases hleads with
      | whole _ => rwa [openNames_place, List.length_map]
      | opening hlevel => simpa [Progress.openNames] using hlevel
      | closing =>
          rw [openNames_place, List.length_map]
          exact hstack.mono (Nat.le_succ _)

/-- The text ends behind the first one of its start tags at level `n + 1`. -/
inductive EndsTooDeep (n : Nat) : List Char → Prop where
  | intro {text tagText : List Char} {closings : List Closing} {stack : List OpenElement}
      {tag : Tag} (h : ComesTo (some n) text closings (.inside stack)) (hlevel : stack.length = n)
      (htag : Spells tagText tag) (hstart : tag.isStart = true) : EndsTooDeep n (text ++ tagText)

/-- A start tag that does not lead on with a limit stands at the first level too deep. -/
theorem endsTooDeep_of_not_allowsLevel (h : ComesTo (some n) text closings (.inside stack))
    (htag : Spells tagText tag) (hstart : tag.isStart = true) (hlevel : n < stack.length + 1) :
    EndsTooDeep n (text ++ tagText) := by
  have hopen : stack.length ≤ n := by
    have hallows := allowsLevel_of_comesTo h
    simpa [Progress.openNames] using allowsLevel_some_iff.1 hallows
  exact .intro h (by omega) htag hstart

/-- What leads on without a limit leads on with it, or it is a start tag at a level too deep. -/
theorem leads_or_tooDeep (h : Leads none stack tag closing progress) :
    Leads (some n) stack tag closing progress ∨ (tag.isStart = true ∧ n < stack.length + 1) := by
  by_cases hlevel : stack.length + 1 ≤ n
  · have hallows := allowsLevel_some_iff.2 hlevel
    cases h with
    | whole _ => exact Or.inl (.whole hallows)
    | opening _ => exact Or.inl (.opening hallows)
    | closing => exact Or.inl .closing
  · cases h with
    | whole _ => exact Or.inr ⟨rfl, by omega⟩
    | opening _ => exact Or.inr ⟨rfl, by omega⟩
    | closing => exact Or.inl .closing

end Grammar

namespace Document

open Grammar
open Scan (OpenElement skipBlanks)

variable {n : Nat} {source : String} {read rest : List Char}

/-! ## The verdict behind the tag -/

/-- Behind the first tag too deep the text is rejected, whatever follows. -/
theorem parse_of_endsTooDeep (h : EndsTooDeep n read) (hsource : source.toList = read ++ rest) :
    parse (some n) source = .rejected (.ofFailure source ⟨.nestingTooDeep n, byteCount read⟩) := by
  cases h with
  | @intro text tagText closings stack tag h hlevel htag hstart =>
      have hlimit : n < stack.length + 1 := by omega
      exact parse_of_stuck h (fun _ => isBlank_of_head?_spells htag rest)
        (Scan.step_of_tooDeep htag hstart hlimit rest) hsource

/-- The text up to the first tag too deep, with the closing tags of what is open behind it, is a
document of one level too many. -/
theorem exists_height_of_endsTooDeep (h : EndsTooDeep n read) :
    ∃ closings progress root, ComesTo none read closings progress ∧
      parse none (String.ofList (read ++ closingTags progress.openNames)) = .accepted root ∧
      root.height = n + 1 := by
  have htooDeep := h
  cases h with
  | @intro text tagText closings stack tag h hlevel htag hstart =>
      -- with one level more the tag leads on
      have hallows : AllowsLevel (some (n + 1)) (stack.length + 1) :=
        allowsLevel_some_iff.2 (by omega)
      obtain ⟨progress, hleads⟩ := exists_leads hstart hallows
      have hraised : ComesTo (some (n + 1)) text closings (.inside stack) :=
        h.mono fun level hle => allowsLevel_some_iff.2 (by
          have := allowsLevel_some_iff.1 hle
          omega)
      have hcomesTo := hraised.tag htag hleads
      obtain ⟨later, root, hcomplete⟩ := exists_complete hcomesTo (ne_start_of_leads hleads)
      have hsource := String.toList_ofList (l := text ++ tagText ++ closingTags progress.openNames)
      -- the document is accepted with one level more, and not with the limit
      have haccepted (m : Option Nat)
          (h : ComesTo m (text ++ tagText ++ closingTags progress.openNames) later
            (.complete root)) :
          parse m (String.ofList (text ++ tagText ++ closingTags progress.openNames)) =
            .accepted root := by
        rw [parse_of_comesTo h (String.toList_ofList.trans (List.append_nil _).symm)]
        rfl
      have hunlimited := haccepted none hcomplete.unlimited
      refine ⟨_, progress, root, hcomesTo.unlimited, hunlimited, ?_⟩
      obtain ⟨hderives, hheight⟩ := parse_eq_accepted_iff.1 (haccepted _ hcomplete)
      have hle := hheight (n + 1) rfl
      have hlt : ¬ root.height ≤ n := by
        intro hheight
        have hlimited : parse (some n) _ = .accepted root :=
          parse_eq_accepted_iff.2 ⟨hderives, allowsLevel_some_iff.2 hheight⟩
        rw [parse_of_endsTooDeep htooDeep hsource] at hlimited
        cases hlimited
      omega

/-! ## Where a limit turns a text down -/

/-- A text that is nested too deep is turned down behind its first tag too deep. -/
theorem exists_endsTooDeep_of_rejected {why : Rejection} {limit : Nat}
    (h : parse (some n) source = .rejected why) (hcause : why.cause = .nestingTooDeep limit) :
    limit = n ∧ ∃ read rest, source.toList = read ++ rest ∧ EndsTooDeep n read := by
  have hpass := Scan.passFrom_cases (some n) source.toList
  rw [parse_eq_verdictOn] at h
  generalize Scan.passFrom (some n) ⟨[], skipBlanks source.toList⟩ = pass at h hpass
  generalize source.toList = cs at hpass ⊢
  cases hpass with
  | complete hcomesTo =>
      rw [eq_of_verdictAfter h] at hcause
      cases hcause
  | @stuck text cs rest closings stack cause hcomesTo _ _ hstuck =>
      cases h
      cases hcause
      generalize hfatal : Cause.nestingTooDeep limit = cause at hstuck
      cases hstuck with
      | @tooDeep tagText rest tag limit' htag hstart hlimit hlevel =>
          cases hfatal
          cases hlimit
          refine ⟨rfl, text ++ tagText, rest, (List.append_assoc _ _ _).symm, ?_⟩
          exact endsTooDeep_of_not_allowsLevel hcomesTo htag hstart hlevel
      | within _ _ hnot =>
          rw [← hfatal] at hnot
          cases hnot
      | nameEnd _ _ _ =>
          unfold causeAt at hfatal
          split at hfatal <;> cases hfatal

/-- A document of too many levels has a first tag too deep. -/
theorem exists_endsTooDeep_of_height {root : Element} (h : parse none source = .accepted root)
    (hheight : n < root.height) :
    ∃ read rest, source.toList = read ++ rest ∧ EndsTooDeep n read := by
  have hnot : parse (some n) source ≠ .accepted root := by
    intro haccepted
    have hle := (parse_eq_accepted_iff.1 haccepted).2 n rfl
    omega
  have hpass := Scan.passFrom_cases (some n) source.toList
  generalize Scan.passFrom (some n) ⟨[], skipBlanks source.toList⟩ = pass at hpass
  generalize hsource : source.toList = cs at hpass ⊢
  cases hpass with
  | complete hcomesTo =>
      -- the same tags complete the root without a limit, and with it
      rw [parse_of_comesTo hcomesTo.unlimited hsource, ← parse_of_comesTo hcomesTo hsource] at h
      exact absurd h hnot
  | @stuck text cs rest closings stack cause hcomesTo hblank hstep _ =>
      have hstart : Progress.inside stack = .inside [] → ∀ c ∈ cs.head?, isBlank c = false := by
        rintro ⟨⟩
        exact hblank rfl
      have hgoesOn : Scan.StepAt none stack cs (Scan.step none ⟨stack, cs⟩) :=
        Scan.stepAt_of_comesTo hcomesTo cs
      have hresume : Scan.resume none (.of (.inside stack) cs) =
          Scan.after (Scan.step none ⟨stack, cs⟩).1.toList
            (Scan.resume none (Scan.step none ⟨stack, cs⟩).2) :=
        Scan.passFrom_eq none ⟨stack, cs⟩
      rw [parse_eq_verdictOn, hsource, Scan.passFrom_of_comesTo hcomesTo.unlimited cs hstart,
        hresume] at h
      generalize Scan.step none ⟨stack, cs⟩ = next at h hgoesOn
      cases hgoesOn with
      | stuck _ => cases h
      | @leads tagText rest tag closing progress htag hleads =>
          -- without a limit the tag leads on, so it is the limit that it does not pass
          rcases leads_or_tooDeep hleads with hlimited | ⟨hisStart, hlevel⟩
          · exact absurd hlimited (Scan.not_leads_of_stuck hstep htag (List.prefix_append _ _))
          · exact ⟨text ++ tagText, rest, (List.append_assoc _ _ _).symm,
              endsTooDeep_of_not_allowsLevel hcomesTo htag hisStart hlevel⟩

/-- **The first tag too deep decides.** If a text is rejected because it is nested too deep for the
limit `n`, then the text in front of the place is rejected in the same way whatever follows it,
and with the closing tags of the elements still open it is a document of `n + 1` levels. The other
way round, a document of more levels than `n` is rejected by that limit behind the first of its
start tags at level `n + 1`. -/
theorem tooDeep_at_first_tag (n : Nat) (source : String) :
    (∀ why limit, parse (some n) source = .rejected why → why.cause = .nestingTooDeep limit →
      limit = n ∧ ∃ read rest, source = read ++ rest ∧ read.utf8ByteSize = why.offset ∧
        (∀ more, parse (some n) (read ++ more) = .rejected why) ∧
        ∃ closings progress root, ComesTo none read.toList closings progress ∧
          parse none (read ++ String.ofList (closingTags progress.openNames)) = .accepted root ∧
          root.height = n + 1) ∧
    ∀ root, parse none source = .accepted root → n < root.height →
      ∃ read rest, source = read ++ rest ∧ EndsTooDeep n read.toList ∧
        parse (some n) source = .rejected
          ⟨.nestingTooDeep n, read.utf8ByteSize, .locate source read.utf8ByteSize⟩ := by
  constructor
  · intro why limit hrejected hcause
    obtain ⟨rfl, read, rest, hsource, htooDeep⟩ := exists_endsTooDeep_of_rejected hrejected hcause
    have hwhy : why = .ofFailure source ⟨.nestingTooDeep limit, byteCount read⟩ := by
      rw [parse_of_endsTooDeep htooDeep hsource] at hrejected
      exact (Verdict.rejected.inj hrejected).symm
    refine ⟨rfl, String.ofList read, String.ofList rest, eq_append_of_toList hsource, ?_,
      fun more => ?_, ?_⟩
    · rw [hwhy, utf8ByteSize_ofList]
      rfl
    · have hmore : (String.ofList read ++ more).toList = read ++ more.toList := by
        rw [String.toList_append, String.toList_ofList]
      have hplace := Rejection.ofFailure_append hsource hmore (.nestingTooDeep limit)
      rw [parse_of_endsTooDeep htooDeep hmore, hwhy, hplace]
    · obtain ⟨closings, progress, root, hcomesTo, haccepted, hheight⟩ :=
        exists_height_of_endsTooDeep htooDeep
      rw [String.ofList_append] at haccepted
      rw [String.toList_ofList]
      exact ⟨closings, progress, root, hcomesTo, haccepted, hheight⟩
  · intro root haccepted hheight
    obtain ⟨read, rest, hsource, htooDeep⟩ := exists_endsTooDeep_of_height haccepted hheight
    refine ⟨String.ofList read, String.ofList rest, eq_append_of_toList hsource, ?_, ?_⟩
    · rwa [String.toList_ofList]
    · rw [utf8ByteSize_ofList]
      exact parse_of_endsTooDeep htooDeep hsource

/-- Three levels and a limit of one: the tag of the second level decides. -/
theorem tooDeep_at_first_tag_three :
    (∃ read rest, "<a><b><c/></b></a>" = read ++ rest ∧ read.utf8ByteSize = 6 ∧
      ∀ more, parse (some 1) (read ++ more) = .rejected ⟨.nestingTooDeep 1, 6, ⟨1, 7⟩⟩) ∧
    ∃ read rest, "<a><b><c/></b></a>" = read ++ rest ∧ EndsTooDeep 1 read.toList := by
  have hrejected : parse (some 1) "<a><b><c/></b></a>" =
      .rejected ⟨.nestingTooDeep 1, 6, ⟨1, 7⟩⟩ := by
    decide +kernel
  have haccepted : parse none "<a><b><c/></b></a>" =
      .accepted ⟨"a", .ofList [], [⟨"b", .ofList [], [⟨"c", .ofList [], []⟩]⟩]⟩ := by
    decide +kernel
  obtain ⟨hbehind, hfirst⟩ := tooDeep_at_first_tag 1 "<a><b><c/></b></a>"
  obtain ⟨-, read, rest, hsource, hsize, hmore, -⟩ := hbehind _ 1 hrejected rfl
  obtain ⟨read', rest', hsource', htooDeep, -⟩ := hfirst _ haccepted (by decide)
  exact ⟨⟨read, rest, hsource, hsize, hmore⟩, read', rest', hsource', htooDeep⟩

end Document

end TagTree
