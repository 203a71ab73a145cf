import TagTree.Grammar.Element
import TagTree.Proofs.Grammar.TagTexts

/-!
# Enough levels

The rule for elements is unfolded as often as the text left has bytes. That is often enough: each
level begins with a start tag of its own, which takes text away, so with more levels the rule does
the same (`ElementRule.runWithin_eq`). A run of any parser is therefore the run over all runs of
the rule (`Parser.run_eq`), and the number of levels is not heard of again.
-/

set_option autoImplicit false

namespace TagTree

open Grammar

variable {α : Type}

namespace ElementRule

variable {rule rule' : ElementRule → View → Run Element} {r : ElementRule} {v w : View}

/-! ## The unfolding of the rule -/

/-- The limit on nesting, where the level of the rule exceeds it. -/
def exceeded? (r : ElementRule) : Option Nat :=
  r.maxDepth.filter fun limit => decide (limit < r.depth)

/-- A value at a level that is allowed, with the text `rest` behind it. -/
def guardAt (r : ElementRule) (value : α) (rest : List Char) : Piece α :=
  match r.exceeded? with
  | some limit => .stuck (.nestingTooDeep limit) rest
  | none => .read value rest

theorem reads_depthGuard (r : ElementRule) : r.depthGuard.Reads (r.guardAt ()) := by
  have hguard : ∀ limit, r.exceeded? = some limit ↔ r.maxDepth = some limit ∧ limit < r.depth := by
    intro limit
    rw [exceeded?, Option.filter_eq_some_iff, decide_eq_true_eq]
  cases hmax : r.maxDepth with
  | none =>
      have hnone : r.exceeded? = none := by rw [exceeded?, hmax]; rfl
      intro rule v hv
      rw [depthGuard, hmax, guardAt, hnone]
      exact Parser.Reads.pure () rule v hv
  | some limit =>
      intro rule v hv
      rw [depthGuard, hmax]
      by_cases hlt : limit < r.depth
      · simp only [if_pos hlt, guardAt, (hguard limit).2 ⟨hmax, hlt⟩, Run.ofPiece, hv.upTo_self]
        rfl
      · have hnone : r.exceeded? = none := by
          rw [exceeded?, hmax, Option.filter_some, decide_eq_false hlt]
          rfl
        simp only [if_neg hlt, guardAt, hnone]
        exact Parser.Reads.pure () rule v hv

/-- A start tag and the test of its level. -/
theorem reads_guarded {p : Parser Element} {f : List Char → Piece Element} (hp : p.Reads f)
    (r : ElementRule) :
    (do let e ← p; r.depthGuard; return e : Parser Element).Reads fun cs =>
      (f cs).andThen r.guardAt := by
  refine (hp.bind fun e => r.reads_depthGuard.bind fun _ => .pure e).congr fun cs => ?_
  cases f cs with
  | stuck cause rest => rfl
  | read e rest =>
      rw [Piece.andThen_read, Piece.andThen_read, guardAt, guardAt]
      cases r.exceeded? <;> rfl

/-- The run of an element whose inside is known. -/
def enclose (r : ElementRule) (e : Element) (inside : Run (List Element)) : Run Element :=
  match inside.outcome with
  | .ok (children, w) =>
    ⟨inside.events ++ [.closed ⟨e.name, children.length, r.depth⟩],
      .ok (e.withChildren children, w)⟩
  | .error reason => ⟨inside.events, .error reason⟩

theorem enclose_eq_ok_iff {e d : Element} {inside : Run (List Element)} :
    (r.enclose e inside).outcome = .ok (d, w) ↔
      ∃ children, inside.outcome = .ok (children, w) ∧ d = e.withChildren children := by
  unfold enclose
  rcases inside.outcome with reason | ⟨children, u⟩
  · simp
  · simp only [Except.ok.injEq, Prod.mk.injEq]
    constructor
    · rintro ⟨rfl, rfl⟩
      exact ⟨children, ⟨rfl, rfl⟩, rfl⟩
    · rintro ⟨_, ⟨rfl, rfl⟩, rfl⟩
      exact ⟨rfl, rfl⟩

theorem enclose_eq_error_iff {e : Element} {inside : Run (List Element)} {reason : Stop} :
    (r.enclose e inside).outcome = .error reason ↔ inside.outcome = .error reason := by
  unfold enclose
  rcases inside.outcome with reason' | ⟨children, u⟩ <;> simp

/-- The run of the rule after its start tag, where `inside` reads the children of an element of
the given name, and its closing tag. -/
def afterTag (r : ElementRule) (v : View) (inside : String → View → Run (List Element)) :
    Piece StartTag → Run Element
  | .read (.whole e) rest => .ofPiece v (r.guardAt e rest)
  | .read (.opening e) rest =>
    match r.exceeded? with
    | some limit => .failAt (.nestingTooDeep limit) (v.upTo rest)
    | none => r.enclose e (inside e.name (v.upTo rest))
  | .stuck cause rest => .failAt cause (v.upTo rest)

/-- The part of the rule behind the test of the level, in one piece. -/
theorem runWith_announce (rule : ElementRule → View → Run Element) (r : ElementRule)
    (e : Element) (v : View) :
    (do
      let children ← (r.childrenThenClose e.name).announce fun children =>
        ⟨e.name, children.length, r.depth⟩
      return e.withChildren children : Parser Element).runWith rule v =
      r.enclose e ((r.childrenThenClose e.name).runWith rule v) := by
  show Run.andThen (Run.reporting ((r.childrenThenClose e.name).runWith rule v) _)
    (fun children w => Run.succeed (e.withChildren children) w) = _
  rw [enclose]
  cases h : ((r.childrenThenClose e.name).runWith rule v).outcome with
  | ok result =>
      obtain ⟨children, w⟩ := result
      simp only [Run.reporting, Run.andThen, h]
      simp [Run.following, Run.succeed]
  | error reason => simp only [Run.reporting, Run.andThen, h]

/-- One unfolding of the rule: the start tag, then what follows it. -/
theorem runWith_body (rule : ElementRule → View → Run Element) (r : ElementRule)
    (hv : v.Valid) :
    r.body.runWith rule v =
      r.afterTag v (fun name w => (r.childrenThenClose name).runWith rule w)
        (startTagAt v.rest) := by
  have hleaf : r.leaf.runWith rule v =
      .ofPiece v ((startTagEndingAt "/>" v.rest).andThen r.guardAt) :=
    reads_guarded (reads_startTag "/>") r rule v hv
  have hshell : r.shell.runWith rule v =
      .ofPiece v ((startTagEndingAt ">" v.rest).andThen r.guardAt) :=
    reads_guarded (reads_startTag ">") r rule v hv
  -- the second alternative reads the tag anew and then the inside of the element
  have hparent : r.parent.runWith rule v =
      (r.shell.runWith rule v).andThen fun e w =>
        r.enclose e ((r.childrenThenClose e.name).runWith rule w) := by
    show (r.shell.runWith rule v).andThen _ = _
    congr 1
    funext e w
    exact runWith_announce rule r e w
  show (r.leaf.runWith rule v).orElse (fun _ => r.parent.runWith rule v) = _
  rw [startTagAt_eq, hparent, hleaf, hshell]
  have hfatal := notFatal_startTagEndingAt "/>" v.rest
  cases hwhole : startTagEndingAt "/>" v.rest with
  | read e rest =>
      -- the first alternative decides, also where the level is not allowed: that is fatal
      rw [Piece.andThen_read, afterTag, guardAt]
      cases r.exceeded? <;> rfl
  | stuck cause rest =>
      rw [hwhole] at hfatal
      have hsecond : ∀ second : Unit → Run Element,
          (Run.failAt cause (v.upTo rest)).orElse second = second () := by
        intro second
        have hcause : cause.isFatal = false := hfatal
        simp only [Run.orElse, Run.outcome_failAt, Failure.isFatal, hcause]
        rfl
      rw [Piece.andThen_stuck, Run.ofPiece, hsecond]
      cases startTagEndingAt ">" v.rest with
      | stuck cause' rest' => rfl
      | read e rest' =>
          rw [Piece.andThen_read, afterTag, guardAt]
          cases r.exceeded? <;> rfl

/-! ## Enough levels -/

theorem bounds_runWithin (levels : Nat) (r : ElementRule) (w : View) :
    w.Bounds (runWithin levels r w).outcome := by
  induction levels generalizing r w with
  | zero => rfl
  | succ levels ih => exact Parser.bounds_runWith ih r.body w

/-- A start tag leads further on. -/
theorem reaches_of_startTagAt {tag : StartTag} {rest : List Char} (hv : v.Valid)
    (htag : startTagAt v.rest = .read tag rest) :
    v.Reaches (v.upTo rest) ∧ v.offset < (v.upTo rest).offset := by
  obtain ⟨hsuffix, hlength⟩ := startTagAt_suffix htag
  exact ⟨hv.reaches_upTo hsuffix, hv.offset_lt_upTo hsuffix (by omega)⟩

/-- The rule is used behind the start tag only. -/
theorem runWith_body_congr (hv : v.Valid) (hrule : ∀ r (w : View), w.Bounds (rule r w).outcome)
    (h : ∀ q w, v.Reaches w → v.offset < w.offset → rule q w = rule' q w) :
    r.body.runWith rule v = r.body.runWith rule' v := by
  rw [runWith_body rule r hv, runWith_body rule' r hv]
  cases htag : startTagAt v.rest with
  | stuck cause rest => rfl
  | read tag rest =>
      obtain ⟨hreaches, hlt⟩ := reaches_of_startTagAt hv htag
      have hinside (name : String) :
          (r.childrenThenClose name).runWith rule (v.upTo rest) =
            (r.childrenThenClose name).runWith rule' (v.upTo rest) :=
        Parser.runWith_congr hrule _ fun q w hw =>
          h q w (hreaches.trans hw) (Nat.lt_of_lt_of_le hlt hw.offset_le)
      cases tag with
      | whole e => rw [afterTag, afterTag]
      | opening e => simp only [afterTag, hinside]

/-- Any number of levels above the number of bytes left does the same. -/
theorem runWithin_eq (hv : v.Valid) {m n : Nat} (hm : v.remaining < m) (hn : v.remaining < n) :
    runWithin m r v = runWithin n r v := by
  induction m generalizing n r v with
  | zero => omega
  | succ m ih =>
      cases n with
      | zero => omega
      | succ n =>
          -- the levels below are used behind a start tag, where less text is left
          refine runWith_body_congr hv (bounds_runWithin m) fun q w hw hlt => ?_
          have hless := hv.remaining_lt hw hlt
          exact ih (hw.valid hv) (by omega) (by omega)

/-- The run of the rule. -/
def run (r : ElementRule) (v : View) : Run Element :=
  (Parser.element r).run v

theorem bounds_run (r : ElementRule) (v : View) : v.Bounds (r.run v).outcome :=
  bounds_runWithin _ r v

end ElementRule

/-- A parser runs over the runs of the rule for elements. -/
theorem Parser.run_eq (p : Parser α) {v : View} (hv : v.Valid) :
    p.run v = p.runWith ElementRule.run v := by
  refine Parser.runWith_congr (ElementRule.bounds_runWithin _) p fun r w hw => ?_
  have hle := hw.remaining_le
  exact ElementRule.runWithin_eq (hw.valid hv) (by omega) (Nat.lt_succ_self _)

end TagTree
