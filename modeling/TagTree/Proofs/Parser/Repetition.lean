import TagTree.Proofs.Parser.Fatal

/-!
# Repetition is iteration

Repeating a parser is no more than running it at a view, at the view that this leaves, and so on
(`Chain.iterate`), until it has no value or leaves the view where it was (`Chain.EndsAfter`). A
repetition is this iteration up to the first such place (`Chain.isIteration_of`), and it runs its
item once at each view on the way and nowhere else (`Chain.exists_places`).

Both are inductions along the repetition, which can go three ways at a view: the item has no value
there, it reads nothing, or it reads something and the repetition goes on behind it
(`Chain.of_induction`). It ends because the third way leaves fewer bytes. An item that never reads
less than `m` bytes without reading nothing is run once for each `m` bytes, and once more.
-/

set_option autoImplicit false

namespace TagTree

variable {α : Type}

/-! ## Views that a step leaves -/

namespace View

variable {v w : View}

/-- A text without bytes has no characters. -/
theorem eq_nil_of_byteCount_eq_zero {cs : List Char} (h : byteCount cs = 0) : cs = [] := by
  cases cs with
  | nil => rfl
  | cons c cs =>
      have hc : 0 < c.utf8Size := c.utf8Size_pos
      rw [byteCount_cons] at h
      omega

/-- A view reached at the same offset is the same view. -/
theorem Reaches.eq_of_offset_eq (h : v.Reaches w) (hoffset : w.offset = v.offset) : w = v := by
  obtain ⟨hsource, read, hrest, hread⟩ := h
  have hnil : read = [] := eq_nil_of_byteCount_eq_zero (by omega)
  rw [hnil, List.nil_append] at hrest
  cases v
  cases w
  simp_all

/-- What is read is missing from what is left. -/
theorem Reaches.remaining_add_le {m : Nat} (h : v.Reaches w) (hv : v.Valid)
    (hread : v.offset + m ≤ w.offset) : w.remaining + m ≤ v.remaining := by
  have hw : w.offset ≤ w.source.utf8ByteSize := by
    have hoffset := (h.valid hv).offset_eq
    omega
  rw [h.1] at hw
  rw [remaining, remaining, h.1]
  omega

end View

/-- How a repetition ends at an item without a value. -/
def ChainEnd.ofStop : Stop → ChainEnd
  | .failed f => if f.isFatal then .aborted (.failed f) else .gaveUp f
  | .broken defect => .aborted (.broken defect)

namespace Chain

variable {item item' : View → Run α} {v w : View} {k : Nat} {values : List α}

/-! ## Induction along a repetition -/

/-- What holds of a repetition that ends at once, and is kept by one item more at the front, holds
of every repetition. -/
theorem of_induction {P : View → Chain α → Prop} (hv : v.Valid)
    (hitem : ∀ w, v.Reaches w → w.Bounds (item w).outcome)
    (stop : ∀ w reason, v.Reaches w → (item w).outcome = .error reason →
      P w ⟨[], (item w).events, w, .ofStop reason⟩)
    (stalled : ∀ w value, v.Reaches w → (item w).outcome = .ok (value, w) →
      P w ⟨[value], (item w).events, w, .stalled⟩)
    (next : ∀ w value u, v.Reaches w → (item w).outcome = .ok (value, u) → w.Reaches u →
      w.offset < u.offset → P u (of item u) → P w ((of item u).after value (item w).events)) :
    P v (of item v) := by
  -- by induction on the bytes left, of which an item that reads something leaves fewer
  suffices h : ∀ n w, v.Reaches w → w.remaining < n → P w (of item w) from
    h (v.remaining + 1) v (.refl v) (Nat.lt_succ_self _)
  intro n
  induction n with
  | zero => exact fun w _ hn => absurd hn (Nat.not_lt_zero _)
  | succ n ih =>
      intro w hw hn
      have hbounds : w.Bounds (item w).outcome := hitem w hw
      rw [of_eq (hw.valid hv) fun u hu => hitem u (hw.trans hu)]
      rcases houtcome : (item w).outcome with (f | defect) | ⟨value, u⟩
      · exact stop w (.failed f) hw houtcome
      · exact stop w (.broken defect) hw houtcome
      · rw [houtcome] at hbounds
        have hu : w.Reaches u := hbounds
        by_cases hread : u.offset = w.offset
        · obtain rfl := hu.eq_of_offset_eq hread
          simp only [↓reduceIte]
          exact stalled u value hw houtcome
        · have hle := hu.offset_le
          have hless := (hw.valid hv).remaining_lt hu (by omega)
          simp only [if_neg hread]
          exact next w value u hw houtcome hu (by omega) (ih u (hw.trans hu) (by omega))

/-! ## Iteration -/

/-- The values of `k` runs of `item`, the first at `v` and each other one at the view that the one
before it leaves, and the view that the last one leaves. There are none if one of the runs has no
value. -/
def iterate (item : View → Run α) : Nat → View → Option (List α × View)
  | 0, v => some ([], v)
  | k + 1, v =>
    match (item v).outcome with
    | .ok (value, w) => (iterate item k w).map fun later => (value :: later.1, later.2)
    | .error _ => none

/-- The iteration from `v` ends after `k` runs: the next run has no value, or the last one has
left the view where it was. -/
def EndsAfter (item : View → Run α) (v : View) (k : Nat) : Prop :=
  ∃ values w, iterate item k v = some (values, w) ∧
    ((∃ reason, (item w).outcome = .error reason) ∨
      ∃ j before, k = j + 1 ∧ iterate item j v = some (before, w))

/-- Behind a value the iteration goes on from the view that is left. -/
theorem iterate_succ_eq_some_iff {value : α} {u : View}
    (h : (item v).outcome = .ok (value, w)) :
    iterate item (k + 1) v = some (values, u) ↔
      ∃ later, iterate item k w = some (later, u) ∧ values = value :: later := by
  rw [iterate, h]
  simp only [Option.map_eq_some_iff, Prod.mk.injEq, Prod.exists]
  constructor
  · rintro ⟨later, _, hlater, rfl, rfl⟩
    exact ⟨later, hlater, rfl⟩
  · rintro ⟨later, hlater, rfl⟩
    exact ⟨later, u, hlater, rfl, rfl⟩

/-- An iteration does not look at reports. -/
theorem iterate_congr (h : ∀ w, (item w).outcome = (item' w).outcome) (k : Nat) (v : View) :
    iterate item k v = iterate item' k v := by
  induction k generalizing v with
  | zero => rfl
  | succ k ih =>
      rw [iterate, iterate, h v]
      rcases (item' v).outcome with reason | ⟨value, w⟩
      · rfl
      · simp only [ih w]

theorem endsAfter_zero_iff :
    EndsAfter item v 0 ↔ ∃ reason, (item v).outcome = .error reason := by
  constructor
  · rintro ⟨values, w, hvalues, hfails | ⟨j, before, hj, -⟩⟩
    · cases hvalues
      exact hfails
    · cases hj
  · intro hfails
    exact ⟨[], v, rfl, Or.inl hfails⟩

/-- Behind a value the iteration ends where the iteration from the view that is left does, or at
once if that is the view where it was. -/
theorem endsAfter_succ_iff {value : α} (h : (item v).outcome = .ok (value, w)) :
    EndsAfter item v (k + 1) ↔ EndsAfter item w k ∨ k = 0 ∧ w = v := by
  constructor
  · rintro ⟨values, u, hvalues, hends⟩
    obtain ⟨later, hlater, -⟩ := (iterate_succ_eq_some_iff h).1 hvalues
    rcases hends with hfails | ⟨j, before, hj, hbefore⟩
    · exact Or.inl ⟨later, u, hlater, Or.inl hfails⟩
    · obtain rfl : k = j := Nat.succ.inj hj
      cases k with
      | zero =>
          cases hlater
          cases hbefore
          exact Or.inr ⟨rfl, rfl⟩
      | succ i =>
          obtain ⟨before', hbefore', -⟩ := (iterate_succ_eq_some_iff h).1 hbefore
          exact Or.inl ⟨later, u, hlater, Or.inr ⟨i, before', rfl, hbefore'⟩⟩
  · rintro (⟨later, u, hlater, hends⟩ | ⟨rfl, rfl⟩)
    · refine ⟨value :: later, u, (iterate_succ_eq_some_iff h).2 ⟨later, hlater, rfl⟩, ?_⟩
      rcases hends with hfails | ⟨j, before, rfl, hbefore⟩
      · exact Or.inl hfails
      · exact Or.inr ⟨j + 1, value :: before, rfl,
          (iterate_succ_eq_some_iff h).2 ⟨before, hbefore, rfl⟩⟩
    · exact ⟨[value], w, (iterate_succ_eq_some_iff h).2 ⟨[], rfl, rfl⟩,
        Or.inr ⟨0, [], rfl, rfl⟩⟩

/-! ## Repetitions as iterations -/

/-- How a repetition ends at a view at which its item is run: where the item has a value there, it
has been run already and has read nothing. -/
def endingAt (r : Run α) : ChainEnd :=
  match r.outcome with
  | .ok _ => .stalled
  | .error reason => .ofStop reason

/-- The repetition is the iteration of its item from `v` up to the first place where that ends. -/
structure IsIteration (item : View → Run α) (v : View) (c : Chain α) : Prop where
  iterate_eq : iterate item c.items.length v = some (c.items, c.rest)
  endsAfter : EndsAfter item v c.items.length
  least : ∀ k, EndsAfter item v k → c.items.length ≤ k
  ending_eq : c.ending = endingAt (item c.rest)

theorem IsIteration.after {value : α} {c : Chain α} (hok : (item v).outcome = .ok (value, w))
    (hne : w ≠ v) (h : IsIteration item w c) (events : List Event) :
    IsIteration item v (c.after value events) where
  iterate_eq := (iterate_succ_eq_some_iff hok).2 ⟨c.items, h.iterate_eq, rfl⟩
  endsAfter := (endsAfter_succ_iff hok).2 (Or.inl h.endsAfter)
  least k hk := by
    cases k with
    | zero =>
        obtain ⟨reason, hreason⟩ := endsAfter_zero_iff.1 hk
        rw [hok] at hreason
        cases hreason
    | succ k =>
        rcases (endsAfter_succ_iff hok).1 hk with hlater | ⟨-, heq⟩
        · exact Nat.succ_le_succ (h.least k hlater)
        · exact absurd heq hne
  ending_eq := h.ending_eq

/-- A repetition is the iteration of its item. -/
theorem isIteration_of (hv : v.Valid) (hitem : ∀ w, v.Reaches w → w.Bounds (item w).outcome) :
    IsIteration item v (of item v) := by
  apply of_induction (P := IsIteration item) hv hitem
  · intro w reason _ hreason
    have hending : endingAt (item w) = .ofStop reason := by rw [endingAt, hreason]
    exact ⟨rfl, endsAfter_zero_iff.2 ⟨reason, hreason⟩, fun k _ => Nat.zero_le k, hending.symm⟩
  · intro w value _ hvalue
    have hending : endingAt (item w) = .stalled := by rw [endingAt, hvalue]
    refine ⟨(iterate_succ_eq_some_iff hvalue).2 ⟨[], rfl, rfl⟩,
      (endsAfter_succ_iff hvalue).2 (Or.inr ⟨rfl, rfl⟩), fun k hk => ?_, hending.symm⟩
    -- there is a value, so the iteration does not end before it
    cases k with
    | zero =>
        obtain ⟨reason, hreason⟩ := endsAfter_zero_iff.1 hk
        rw [hvalue] at hreason
        cases hreason
    | succ k => exact Nat.succ_le_succ (Nat.zero_le k)
  · intro w value u _ hvalue _ hlt hlater
    have hne : u ≠ w := by
      rintro rfl
      exact Nat.lt_irrefl _ hlt
    exact hlater.after hvalue hne _

/-- What a repetition keeps is its items, unless it ends in a way that nothing absorbs. -/
theorem IsIteration.outcome_kept {c : Chain α} (h : IsIteration item v c)
    (hfinishes : (item c.rest).Finishes) :
    c.kept.outcome =
      match (item c.rest).fatal? with
      | some f => .error (.failed f)
      | none => .ok (c.items, c.rest) := by
  unfold kept Run.fatal?
  rw [h.ending_eq, endingAt]
  rcases houtcome : (item c.rest).outcome with (f | defect) | result
  · cases hfatal : f.isFatal <;> simp [ChainEnd.ofStop, Stop.fatal?, hfatal]
  · exact absurd houtcome (hfinishes defect)
  · rfl

/-! ## Where the item is run -/

/-- A repetition runs its item at the views of the iteration, one after the other and once each.
With an item that reads nothing or at least `m` bytes, these are one for every `m` bytes left at
most, and one more. -/
theorem exists_places {m : Nat} (hv : v.Valid)
    (hitem : ∀ w, v.Reaches w → w.Bounds (item w).outcome) (hm : 0 < m)
    (hread : ∀ w, v.Reaches w → ∀ value u, (item w).outcome = .ok (value, u) →
      w.offset < u.offset → w.offset + m ≤ u.offset) :
    ∃ places : List View, places.length ≤ v.remaining / m + 1 ∧
      (∀ i u, places[i]? = some u → ∃ before, iterate item i v = some (before, u)) ∧
      (of item v).events = places.flatMap fun u => (item u).events := by
  -- an item that is the last one is run at one view, the one where it starts
  have hlast (w : View) : ∀ i u, [w][i]? = some u →
      ∃ before, iterate item i w = some (before, u) := by
    intro i u hu
    cases i with
    | zero =>
        cases hu
        exact ⟨[], rfl⟩
    | succ i => cases hu
  apply of_induction (P := fun w c => ∃ places : List View, places.length ≤ w.remaining / m + 1 ∧
    (∀ i u, places[i]? = some u → ∃ before, iterate item i w = some (before, u)) ∧
    c.events = places.flatMap fun u => (item u).events) hv hitem
  · intro w reason _ _
    exact ⟨[w], Nat.le_add_left 1 _, hlast w, by simp⟩
  · intro w value _ _
    exact ⟨[w], Nat.le_add_left 1 _, hlast w, by simp⟩
  · rintro w value u hw hvalue hu hlt ⟨places, hlength, hplaces, hevents⟩
    have hbytes := hu.remaining_add_le (hw.valid hv) (hread w hw value u hvalue hlt)
    have hshare : u.remaining / m + 1 ≤ w.remaining / m := by
      rw [← Nat.add_div_right _ hm]
      exact Nat.div_le_div_right hbytes
    refine ⟨w :: places, Nat.succ_le_succ (Nat.le_trans hlength hshare), fun i x hx => ?_, ?_⟩
    · cases i with
      | zero =>
          cases hx
          exact ⟨[], rfl⟩
      | succ i =>
          obtain ⟨before, hbefore⟩ := hplaces i x hx
          exact ⟨value :: before,
            (iterate_succ_eq_some_iff hvalue).2 ⟨before, hbefore, rfl⟩⟩
    · rw [List.flatMap_cons, ← hevents]
      rfl

end Chain

namespace Run

variable {β : Type}

/-- What follows a run tells no more, if it tells nothing. -/
theorem events_andThen {r : Run α} {next : α → View → Run β}
    (h : ∀ a w, (next a w).events = []) : (r.andThen next).events = r.events := by
  unfold andThen
  rcases r.outcome with reason | ⟨a, w⟩
  · rfl
  · show r.events ++ (next a w).events = r.events
    rw [h, List.append_nil]

end Run

namespace Parser

variable {p : Parser α} {v : View}

/-! ## Repeated parsers -/

/-- A parser repeated is the repetition of its runs. -/
theorem run_many (p : Parser α) (hv : v.Valid) : p.many.run v = (Chain.of p.run v).kept := by
  have hitem : ∀ w, v.Reaches w → w.Bounds (p.runWith ElementRule.run w).outcome :=
    fun w _ => bounds_runWith_run p w
  have hchain : Chain.of (p.runWith ElementRule.run) v = Chain.of p.run v :=
    Chain.extend_congr hitem (fun w hw => (p.run_eq (hw.valid hv)).symm) _
  rw [p.many.run_eq hv, runWith, hchain]

/-- A parser repeated at least once is the parser repeated, refused where there is no item. -/
theorem run_many1 (p : Parser α) (v : View) :
    p.many1.run v = (p.many.run v).andThen fun items w =>
      if items.isEmpty then .failAt .noAlternative v else .succeed items w := by
  show (p.many.run v).andThen _ = (p.many.run v).andThen _
  congr 1
  funext items w
  cases items <;> rfl

theorem events_run_many1 (p : Parser α) (v : View) :
    (p.many1.run v).events = (p.many.run v).events := by
  rw [run_many1]
  apply Run.events_andThen
  intro items w
  cases items <;> rfl

/-- **Repetition is iteration up to a failure or to a run that reads nothing, and it ends.** Let
`k` be the number of runs after which the iteration of `p` from `v` first ends. If `p` fails
fatally there, the repetition fails in the same way. Otherwise it yields the values of the `k`
runs and leaves the view that they leave, whatever the run that failed has read. The repetition
that needs an item does the same, except that it fails at its start where `k` is zero. Probed,
either one tells of one run of `p` at each of the views on the way, which are one more than the
bytes left at most. -/
theorem repetition_is_iteration (p : Parser α) (v : View) (hv : v.Valid) :
    ∃ k items w, Chain.iterate p.run k v = some (items, w) ∧ Chain.EndsAfter p.run v k ∧
      (∀ j, Chain.EndsAfter p.run v j → k ≤ j) ∧
      (∀ f, (p.run w).fatal? = some f →
        (p.many.run v).outcome = .error (.failed f) ∧
        (p.many1.run v).outcome = .error (.failed f)) ∧
      ((p.run w).fatal? = none →
        (p.many.run v).outcome = .ok (items, w) ∧
        (p.many1.run v).outcome =
          if k = 0 then .error (.failed ⟨.noAlternative, v.offset⟩) else .ok (items, w)) ∧
      ∀ label, ∃ places : List View, places.length ≤ v.remaining + 1 ∧
        (∀ i u, places[i]? = some u → ∃ before, Chain.iterate p.run i v = some (before, u)) ∧
        ((p.probe label).many.run v).events =
          places.flatMap (fun u => ((p.run u).probed label u).events) ∧
        ((p.probe label).many1.run v).events = ((p.probe label).many.run v).events := by
  have hiteration : Chain.IsIteration p.run v (Chain.of p.run v) :=
    Chain.isIteration_of hv fun w _ => p.bounds_run w
  have hreaches : v.Reaches (Chain.of p.run v).rest :=
    (Chain.bounded_extend (fun w _ => p.bounds_run w) _).1
  have hmany := hiteration.outcome_kept (p.run_finishes (hreaches.valid hv))
  rw [← run_many p hv] at hmany
  refine ⟨_, _, _, hiteration.iterate_eq, hiteration.endsAfter, hiteration.least,
    fun f hfatal => ?_, fun hnot => ?_, fun label => ?_⟩
  · rw [hfatal] at hmany
    exact ⟨hmany, by rw [run_many1, Run.outcome_andThen, hmany]⟩
  · rw [hnot] at hmany
    refine ⟨hmany, ?_⟩
    rw [run_many1, Run.outcome_andThen, hmany]
    cases (Chain.of p.run v).items <;> rfl
  · -- a probe changes no outcome, so the probed parser is iterated as `p` is
    have hprobed : ∀ w, ((p.probe label).run w).outcome = (p.run w).outcome :=
      fun w => Run.outcome_probed label w (p.run w)
    have hbounds : ∀ w, v.Reaches w → w.Bounds ((p.probe label).run w).outcome :=
      fun w _ => (p.probe label).bounds_run w
    obtain ⟨places, hlength, hplaces, hevents⟩ :=
      Chain.exists_places hv hbounds Nat.one_pos fun _ _ _ _ _ hlt => hlt
    simp only [Chain.iterate_congr hprobed] at hplaces
    rw [Nat.div_one] at hlength
    exact ⟨places, hlength, hplaces, by rw [run_many _ hv]; exact hevents, events_run_many1 _ v⟩

/-- A repetition of a repetition: the second run of the inner one reads nothing, is kept and is the
last. -/
theorem repetition_is_iteration_stalled :
    let p : Parser (List Char) := (Parser.char 'a').many
    let v := View.ofSource "aab"
    v.Valid ∧ ∃ k w, Chain.iterate p.run k v = some ([['a', 'a'], []], w) ∧
      Chain.EndsAfter p.run v k ∧ (∀ j, Chain.EndsAfter p.run v j → k ≤ j) ∧
      (p.many.run v).outcome = .ok ([['a', 'a'], []], w) ∧ w.offset = 2 := by
  intro p v
  have hv : v.Valid := View.valid_ofSource _
  have hmany : (p.many.run v).outcome = .ok ([['a', 'a'], []], ⟨"aab", 2, ['b']⟩) := rfl
  obtain ⟨k, items, w, hiterate, hends, hleast, hfatal, hkept, -⟩ :=
    repetition_is_iteration p v hv
  cases hnot : (p.run w).fatal? with
  | some f =>
      rw [(hfatal f hnot).1] at hmany
      cases hmany
  | none =>
      rw [(hkept hnot).1] at hmany
      cases hmany
      exact ⟨hv, k, _, hiterate, hends, hleast, (hkept hnot).1, rfl⟩

end Parser

end TagTree
