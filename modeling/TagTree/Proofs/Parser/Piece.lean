import TagTree.Proofs.Parser.Bounds

/-!
# Pieces of text

A parser that never reads an element does to a view what a function on the characters left does
to them: it reads a value and leaves an ending of the text, or is stuck before one. The result of
such a function is a `Piece`, and `p.Reads f` says that `f` is the function of the parser `p`,
reports and offsets included. The lemmas below find the function of a parser from those of its
parts, so that the rules for names and tags are known by what they do to a text.
-/

set_option autoImplicit false

namespace TagTree

variable {α β : Type}

/-- What a reader makes of the front of a text. -/
inductive Piece (α : Type) where
  /-- A value, and the text after it. -/
  | read (value : α) (rest : List Char)
  /-- A cause for which there is none, and the text before which it arose. -/
  | stuck (cause : Cause) (rest : List Char)

namespace Piece

/-- Go on behind a value. -/
def andThen (piece : Piece α) (next : α → List Char → Piece β) : Piece β :=
  match piece with
  | read value rest => next value rest
  | stuck cause rest => stuck cause rest

@[simp] theorem andThen_read (value : α) (rest : List Char) (next : α → List Char → Piece β) :
    (read value rest).andThen next = next value rest := rfl

@[simp] theorem andThen_stuck (cause : Cause) (rest : List Char)
    (next : α → List Char → Piece β) : (stuck cause rest).andThen next = stuck cause rest := rfl

/-- Whether a choice or a repetition may go on after the piece: it is no fatal failure. -/
def NotFatal : Piece α → Prop
  | read _ _ => True
  | stuck cause _ => cause.isFatal = false

theorem notFatal_andThen {piece : Piece α} {next : α → List Char → Piece β}
    (h : piece.NotFatal) (hnext : ∀ a rest, (next a rest).NotFatal) :
    (piece.andThen next).NotFatal := by
  cases piece with
  | read value rest => exact hnext value rest
  | stuck cause rest => exact h

end Piece

/-- Refuse a value that there is an objection to, at the text `cs` where its reading began. -/
def Piece.checked (piece : Piece α) (objection : α → Option Cause) (cs : List Char) : Piece α :=
  match piece with
  | .read value rest =>
    match objection value with
    | none => .read value rest
    | some cause => .stuck cause cs
  | .stuck cause rest => .stuck cause rest

theorem Piece.notFatal_checked {piece : Piece α} {objection : α → Option Cause}
    (h : piece.NotFatal)
    (hobjection : ∀ value cause, objection value = some cause → cause.isFatal = false)
    (cs : List Char) : (piece.checked objection cs).NotFatal := by
  cases piece with
  | stuck cause rest => exact h
  | read value rest =>
      rw [checked]
      split
      · trivial
      · rename_i cause hcause
        exact hobjection value cause hcause

/-- The cause for which a text does not begin as it should: `cause`, or the lack of text. -/
def causeAt (cause : Cause) (cs : List Char) : Cause :=
  if cs.isEmpty then .unexpectedEnd else cause

theorem isFatal_causeAt {cause : Cause} (h : cause.isFatal = false) (cs : List Char) :
    (causeAt cause cs).isFatal = false := by
  rw [causeAt]
  split
  · rfl
  · exact h

/-- A character that passes a test. -/
def charWhere (test : Char → Bool) : List Char → Piece Char
  | [] => .stuck .unexpectedEnd []
  | c :: cs => if test c then .read c cs else .stuck .predicateMismatch (c :: cs)

/-- One given character. -/
def charAt (c : Char) : List Char → Piece Char
  | [] => .stuck .unexpectedEnd []
  | d :: cs =>
    if d = c then .read c cs else .stuck (.literalMismatch (String.singleton c)) (d :: cs)

/-- A given text. -/
def literalAt (text : String) (cs : List Char) : Piece Unit :=
  if text.toList.isPrefixOf cs then .read () (cs.drop text.toList.length)
  else if cs.isPrefixOf text.toList then .stuck .unexpectedEnd cs
  else .stuck (.literalMismatch text) cs

/-- The end of the text. -/
def endAt : List Char → Piece Unit
  | [] => .read () []
  | c :: cs => .stuck .expectedEnd (c :: cs)

theorem notFatal_charWhere (test : Char → Bool) (cs : List Char) :
    (charWhere test cs).NotFatal := by
  cases cs with
  | nil => rfl
  | cons c cs =>
      rw [charWhere]
      split
      · trivial
      · rfl

theorem notFatal_charAt (c : Char) (cs : List Char) : (charAt c cs).NotFatal := by
  cases cs with
  | nil => rfl
  | cons d cs =>
      rw [charAt]
      split
      · trivial
      · rfl

theorem notFatal_literalAt (text : String) (cs : List Char) :
    (literalAt text cs).NotFatal := by
  rw [literalAt]
  split
  · trivial
  · split
    · rfl
    · rfl

/-! ## The function of a parser -/

/-- The run from `v` that a piece stands for. -/
def Run.ofPiece (v : View) : Piece α → Run α
  | .read value rest => .succeed value (v.upTo rest)
  | .stuck cause rest => .failAt cause (v.upTo rest)

@[simp] theorem Run.andThen_succeed (value : α) (w : View) (next : α → View → Run β) :
    (succeed value w).andThen next = next value w := by
  simp [andThen, succeed, following]

/-- A piece names its place by the text left, so it may be told from any view of the source. -/
@[simp] theorem Run.ofPiece_upTo (v : View) (cs : List Char) (piece : Piece α) :
    ofPiece (v.upTo cs) piece = ofPiece v piece := by
  cases piece <;> rfl

/-- The run of a sequence that is written with `do`. -/
theorem Parser.runWith_bind (rule : ElementRule → View → Run Element) (p : Parser α)
    (q : α → Parser β) (v : View) :
    (p >>= q).runWith rule v = (p.runWith rule v).andThen fun a w => (q a).runWith rule w := rfl

/-- `f` says what the parser makes of the characters left, whatever the rule for elements. -/
def Parser.Reads (p : Parser α) (f : List Char → Piece α) : Prop :=
  ∀ (rule : ElementRule → View → Run Element) (v : View), v.Valid →
    p.runWith rule v = .ofPiece v (f v.rest)

namespace Parser.Reads

variable {p : Parser α} {f : List Char → Piece α}

/-- The run that a piece stands for ends where a run may end. -/
theorem bounds (hp : p.Reads f) {v : View} (hv : v.Valid) :
    v.Bounds (Run.ofPiece v (f v.rest)).outcome := by
  -- any rule for elements will do, for instance one that has no runs
  let rule : ElementRule → View → Run Element := fun _ _ => .stop (.broken .outOfFuel)
  have hrule : ∀ r (w : View), w.Bounds (rule r w).outcome := fun _ _ => rfl
  have hbounds := Parser.bounds_runWith hrule p v
  rwa [hp rule v hv] at hbounds

/-- What is left is an ending of the text. -/
theorem suffix (hp : p.Reads f) {cs rest : List Char} {value : α}
    (h : f cs = .read value rest) : rest <:+ cs := by
  have hrest : (View.ofSource (String.ofList cs)).rest = cs := String.toList_ofList
  have hbounds := hp.bounds (View.valid_ofSource (String.ofList cs))
  rw [hrest, h] at hbounds
  simpa [hrest] using View.Reaches.suffix hbounds

/-- A parser yields what its function reads, and leaves the view before what is left. -/
theorem outcome_eq_ok_iff (hp : p.Reads f) (rule : ElementRule → View → Run Element) {v w : View}
    {a : α} (hv : v.Valid) :
    (p.runWith rule v).outcome = .ok (a, w) ↔ f v.rest = .read a w.rest ∧ v.Reaches w := by
  rw [hp rule v hv]
  cases h : f v.rest with
  | read value rest =>
      constructor
      · rintro ⟨⟩
        exact ⟨rfl, hv.reaches_upTo (hp.suffix h)⟩
      · rintro ⟨⟨⟩, hreaches⟩
        rw [Run.ofPiece, Run.outcome_succeed, ← (hv.reaches_iff.1 hreaches).2]
  | stuck cause rest =>
      constructor
      · rintro ⟨⟩
      · rintro ⟨⟨⟩, -⟩

/-- Where its function is stuck a parser fails, at the place that the text left tells. -/
theorem outcome_of_stuck (hp : p.Reads f) (rule : ElementRule → View → Run Element) {v : View}
    {cause : Cause} {rest : List Char} (hv : v.Valid) (h : f v.rest = .stuck cause rest) :
    (p.runWith rule v).outcome = .error (.failed ⟨cause, (v.upTo rest).offset⟩) := by
  rw [hp rule v hv, h]
  rfl

theorem congr {g : List Char → Piece α} (hp : p.Reads f) (h : ∀ cs, f cs = g cs) :
    p.Reads g := by
  intro rule v hv
  rw [hp rule v hv, h]

theorem pure (value : α) : (Parser.pure value).Reads fun cs => .read value cs := by
  intro rule v hv
  show Run.succeed value v = Run.succeed value (v.upTo v.rest)
  rw [hv.upTo_self]

theorem andThen {q : α → Parser β} {g : α → List Char → Piece β} (hp : p.Reads f)
    (hq : ∀ a, (q a).Reads (g a)) :
    (Parser.andThen p q).Reads fun cs => (f cs).andThen g := by
  intro rule v hv
  show (p.runWith rule v).andThen (fun a w => (q a).runWith rule w) =
    Run.ofPiece v ((f v.rest).andThen g)
  rw [hp rule v hv]
  cases h : f v.rest with
  | read value rest =>
      -- the later piece starts at `rest`, but names its places in the same source
      have hnext := hq value rule _ (hv.upTo (hp.suffix h))
      show Run.following [] ((q value).runWith rule (v.upTo rest)) = Run.ofPiece v (g value rest)
      rw [hnext, View.upTo_rest, Run.ofPiece_upTo]
      rfl
  | stuck cause rest => rfl

/-- The function of a sequence that is written with `do`. -/
theorem bind {q : α → Parser β} {g : α → List Char → Piece β} (hp : p.Reads f)
    (hq : ∀ a, (q a).Reads (g a)) : (p >>= q).Reads fun cs => (f cs).andThen g :=
  hp.andThen hq

theorem checked (hp : p.Reads f) (objection : α → Option Cause) :
    (p.checked objection).Reads fun cs => (f cs).checked objection cs := by
  intro rule v hv
  show (p.runWith rule v).andThen _ = Run.ofPiece v ((f v.rest).checked objection v.rest)
  rw [hp rule v hv]
  cases h : f v.rest with
  | read value rest =>
      show Run.following [] (match objection value with
        | none => Run.succeed value (v.upTo rest)
        | some cause => Run.failAt cause v) = _
      rw [Piece.checked]
      cases objection value with
      | none => rfl
      | some cause =>
          show Run.failAt cause v = Run.failAt cause (v.upTo v.rest)
          rw [hv.upTo_self]
  | stuck cause rest => rfl

theorem anyChar : Parser.anyChar.Reads (charWhere fun _ => true) := by
  intro rule v hv
  cases hrest : v.rest with
  | nil =>
      rw [runWith, hrest]
      show Run.failAt .unexpectedEnd v = Run.failAt .unexpectedEnd (v.upTo [])
      rw [← hrest, hv.upTo_self]
  | cons c cs =>
      have hadvance : v.advance? (byteCount [c]) = some (v.upTo cs) := hv.advance?_eq hrest
      rw [byteCount_cons, byteCount_nil, Nat.add_zero] at hadvance
      rw [runWith, hrest]
      show Run.advance v c.utf8Size c = Run.succeed c (v.upTo cs)
      rw [Run.advance, hadvance]

theorem satisfying (test : Char → Bool) :
    (Parser.anyChar.satisfying test).Reads (charWhere test) := by
  refine (anyChar.checked _).congr fun cs => ?_
  cases cs with
  | nil => rfl
  | cons c cs =>
      rw [charWhere, charWhere, if_pos rfl, Piece.checked]
      cases test c <;> rfl

theorem literal (text : String) : (Parser.literal text).Reads (literalAt text) := by
  intro rule v hv
  rw [runWith, literalAt]
  by_cases hprefix : text.toList.isPrefixOf v.rest = true
  · obtain ⟨rest, hrest⟩ := List.isPrefixOf_iff_prefix.1 hprefix
    have hadvance := hv.advance?_eq hrest.symm
    rw [byteCount_toList] at hadvance
    rw [if_pos hprefix, if_pos hprefix, Run.advance, hadvance, ← hrest, List.drop_left]
    rfl
  · rw [if_neg hprefix, if_neg hprefix]
    split
    · -- nothing is read, so the place is the one of `v`
      rw [Run.ofPiece, hv.upTo_self]
    · rw [Run.ofPiece, hv.upTo_self]

theorem endOfInput : Parser.endOfInput.Reads endAt := by
  intro rule v hv
  rw [runWith]
  cases hrest : v.rest with
  | nil =>
      show Run.succeed () v = Run.succeed () (v.upTo [])
      rw [← hrest, hv.upTo_self]
  | cons c cs =>
      show Run.failAt .expectedEnd v = Run.failAt .expectedEnd (v.upTo (c :: cs))
      rw [← hrest, hv.upTo_self]

theorem char (c : Char) : (Parser.char c).Reads (charAt c) := by
  refine ((literal (String.singleton c)).bind fun _ => pure c).congr fun cs => ?_
  rw [literalAt]
  cases cs with
  | nil => simp [charAt]
  | cons d cs =>
      by_cases h : d = c
      · simp [charAt, h, List.isPrefixOf]
      · have hne : ¬ c = d := fun heq => h heq.symm
        simp [charAt, h, hne, List.isPrefixOf]

/-- A repetition, where `g` is known to do what a repetition does: it goes on behind what the
item reads, and stops before what it does not. -/
theorem many {g : List Char → List α × List Char} (hp : p.Reads f)
    (hread : ∀ cs a rest, f cs = .read a rest →
      rest.length < cs.length ∧ g cs = (a :: (g rest).1, (g rest).2))
    (hstuck : ∀ cs cause rest, f cs = .stuck cause rest →
      cause.isFatal = false ∧ g cs = ([], cs)) :
    p.many.Reads fun cs => .read (g cs).1 (g cs).2 := by
  intro rule v hv
  have hitem : ∀ w, v.Reaches w → w.Bounds (p.runWith rule w).outcome := by
    intro w hw
    rw [hp rule w (hw.valid hv)]
    exact hp.bounds (hw.valid hv)
  -- by induction on the length of the text left, which each item makes shorter
  have hchain : ∀ (n : Nat) (w : View), v.Reaches w → w.rest.length = n → ∃ failure,
      Chain.of (p.runWith rule) w =
        ⟨(g w.rest).1, [], w.upTo (g w.rest).2, .gaveUp failure⟩ := by
    intro n
    induction n using Nat.strongRecOn with
    | ind n ih =>
        intro w hw hn
        have hwv := hw.valid hv
        rw [Chain.of_eq hwv (fun u hu => hitem u (hw.trans hu)), hp rule w hwv]
        cases h : f w.rest with
        | read a rest =>
            obtain ⟨hlt, hg⟩ := hread _ _ _ h
            have hreaches := hwv.reaches_upTo (hp.suffix h)
            have hoffset := hwv.offset_lt_upTo (hp.suffix h) hlt
            obtain ⟨failure, hlater⟩ := ih rest.length (hn ▸ hlt) (w.upTo rest)
              (hw.trans hreaches) rfl
            refine ⟨failure, ?_⟩
            simp only [Run.ofPiece, Run.outcome_succeed]
            rw [if_neg (by omega), hlater, hg]
            rfl
        | stuck cause rest =>
            obtain ⟨hfatal, hg⟩ := hstuck _ _ _ h
            refine ⟨⟨cause, (w.upTo rest).offset⟩, ?_⟩
            simp only [Run.ofPiece, Run.outcome_failAt, Failure.isFatal, hfatal, hg,
              hwv.upTo_self]
            rfl
  obtain ⟨failure, hchain⟩ := hchain v.rest.length v (.refl v) rfl
  rw [runWith, hchain]
  rfl

/-- As many characters as pass a test. -/
theorem many_satisfying (test : Char → Bool) :
    (Parser.anyChar.satisfying test).many.Reads fun cs =>
      .read (cs.takeWhile test) (cs.dropWhile test) := by
  refine (satisfying test).many (g := fun cs => (cs.takeWhile test, cs.dropWhile test)) ?_ ?_
  · intro cs a rest h
    cases cs with
    | nil => simp [charWhere] at h
    | cons c cs =>
        cases hc : test c with
        | true =>
            simp only [charWhere, hc, if_true, Piece.read.injEq] at h
            obtain ⟨rfl, rfl⟩ := h
            simp [hc]
        | false => simp [charWhere, hc] at h
  · intro cs cause rest h
    have hfatal := notFatal_charWhere test cs
    rw [h] at hfatal
    refine ⟨hfatal, ?_⟩
    cases cs with
    | nil => rfl
    | cons c cs =>
        cases hc : test c with
        | true => simp [charWhere, hc] at h
        | false => simp [hc]

end Parser.Reads

end TagTree
