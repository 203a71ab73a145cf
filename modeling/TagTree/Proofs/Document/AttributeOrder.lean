import Mathlib.Data.List.Induction
import TagTree.Proofs.Document.StartTags
import TagTree.Proofs.Element.Attributes
import TagTree.Proofs.Text.ByteOrder

/-!
# The order of attributes

Attributes are written by a start tag or by hand, and in both ways the last write of a name
decides, whatever is written under other names before and after. So the order in which names are
written does not matter: a start tag with its attributes rearranged is a text of the same tag, and
the tree of a document is told by its tags (`Document.accepted_of_replaced_tag`). A map lists its
names in the order of their bytes.
-/

set_option autoImplicit false

namespace TagTree

/-! ## Writing by hand -/

namespace Element

/-- A write of attributes of an element. -/
inductive Write where
  /-- One attribute is written. -/
  | one (name value : String)
  /-- All attributes are replaced. -/
  | all (attributes : Attributes)

/-- The element after a write. -/
def write (e : Element) : Write → Element
  | .one name value => e.withAttribute name value
  | .all attributes => e.withAttributes attributes

/-- The element after some writes, one after the other. -/
def writeAll (e : Element) (writes : List Write) : Element :=
  writes.foldl write e

/-- The writes of single attributes, pair by pair. -/
def eachPair (pairs : List (String × String)) : List Write :=
  pairs.map fun pair => .one pair.1 pair.2

theorem writeAll_append (e : Element) (writes writes' : List Write) :
    e.writeAll (writes ++ writes') = (e.writeAll writes).writeAll writes' :=
  List.foldl_append

theorem writeAll_eachPair (e : Element) (pairs : List (String × String)) :
    e.writeAll (eachPair pairs) = e.withAttributes (e.attributes.insertAll pairs) := by
  induction pairs generalizing e with
  | nil => cases e; rfl
  | cons pair pairs ih => exact ih (e.withAttribute pair.1 pair.2)

/-- What counts of some writes: the map of the latest write of all attributes, or the one that the
element has if there is none, and the pairs written since. -/
inductive Since (e : Element) : List Write → Attributes → List (String × String) → Prop where
  | start (pairs : List (String × String)) : Since e (eachPair pairs) e.attributes pairs
  | all (earlier : List Write) (base : Attributes) (pairs : List (String × String)) :
      Since e (earlier ++ .all base :: eachPair pairs) base pairs

/-- Among any writes there is the latest write of all attributes, or there is none. -/
theorem exists_since (e : Element) (writes : List Write) :
    ∃ base pairs, Since e writes base pairs := by
  -- from the end, where a write of one attribute comes behind those that count
  induction writes using List.reverseRecOn with
  | nil => exact ⟨_, [], .start []⟩
  | append_singleton writes last ih =>
      cases last with
      | all attributes => exact ⟨attributes, [], .all writes attributes []⟩
      | one name value =>
          have hpairs (pairs : List (String × String)) :
              eachPair pairs ++ [.one name value] = eachPair (pairs ++ [(name, value)]) := by
            simp [eachPair]
          obtain ⟨base, pairs, hsince⟩ := ih
          refine ⟨base, pairs ++ [(name, value)], ?_⟩
          cases hsince with
          | start => exact hpairs pairs ▸ .start _
          | all earlier =>
              rw [List.append_assoc, List.cons_append, hpairs]
              exact .all earlier base _

/-- What counts of the writes makes the attributes. -/
theorem attributes_writeAll {e : Element} {writes : List Write} {base : Attributes}
    {pairs : List (String × String)} (h : Since e writes base pairs) :
    (e.writeAll writes).attributes = .ofList (base.entries ++ pairs) := by
  rw [← Attributes.insertAll_eq_ofList]
  cases h with
  | start => rw [writeAll_eachPair]; rfl
  | all earlier =>
      rw [writeAll_append]
      show (((e.writeAll earlier).withAttributes base).writeAll (eachPair pairs)).attributes = _
      rw [writeAll_eachPair]
      rfl

/-- The order of single writes does not matter, but among those of one name. -/
theorem writeAll_eq_of_rearranges {pairs pairs' : List (String × String)}
    (h : Attributes.Rearranges pairs pairs') (e : Element) :
    e.writeAll (eachPair pairs) = e.writeAll (eachPair pairs') := by
  rw [writeAll_eachPair, writeAll_eachPair, Attributes.insertAll_eq_ofList,
    Attributes.insertAll_eq_ofList, Attributes.ofList_eq_of_rearranges (h.append_left _)]

end Element

/-! ## Start tags -/

namespace Grammar

variable {ending name : String} {pairs pairs' : List (String × String)}
  {text text' rest : List Char}

theorem exists_toList (cs : List Char) : ∃ name : String, cs = name.toList :=
  ⟨String.ofList cs, String.toList_ofList.symm⟩

/-- The text is a start tag of that name and end, with these attributes in the order of the
text. -/
inductive IsStartTag (ending name : String) (pairs : List (String × String)) :
    List Char → Prop where
  | intro {attributes : List Char} (hending : ending = "/>" ∨ ending = ">")
      (hname : isName name.toList = true) (hattributes : DerivesAttributes attributes pairs) :
      IsStartTag ending name pairs ('<' :: (name.toList ++ attributes ++ ending.toList))

theorem isStartTag_whole {attributes : List Char} (hname : isName name.toList = true)
    (hattributes : DerivesAttributes attributes pairs) :
    IsStartTag "/>" name pairs ('<' :: (name.toList ++ attributes ++ ['/', '>'])) := by
  have hend : "/>".toList = ['/', '>'] := by decide
  rw [← hend]
  exact .intro (Or.inl rfl) hname hattributes

theorem isStartTag_opening {attributes : List Char} (hname : isName name.toList = true)
    (hattributes : DerivesAttributes attributes pairs) :
    IsStartTag ">" name pairs (openTagText name.toList attributes) := by
  have hend : ">".toList = ['>'] := by decide
  rw [openTagText, ← hend]
  exact .intro (Or.inr rfl) hname hattributes

/-- In front of the end of a start tag its name and its attributes are read. -/
theorem shellAt_of_isStartTag (h : IsStartTag ending name pairs text) (rest : List Char) :
    shellAt (text ++ rest) = .read ⟨name, .ofList pairs, []⟩ (ending.toList ++ rest) := by
  cases h with
  | @intro attributes hending hname hattributes =>
      have hend : EndsAttributes (ending.toList ++ rest) := by
        rcases hending with rfl | rfl <;> rintro c ⟨⟩ <;> decide
      have hread := shellAt_append hname hattributes hend
      rw [String.ofList_toList] at hread
      rw [← hread]
      simp

/-- The text of a start tag tells its name and its attributes, whatever follows. -/
theorem eq_of_isStartTag {ending' name' : String} {rest' : List Char}
    (h : IsStartTag ending name pairs text) (h' : IsStartTag ending' name' pairs' text')
    (htexts : text ++ rest = text' ++ rest') :
    name = name' ∧ Attributes.ofList pairs = .ofList pairs' := by
  have hread := shellAt_of_isStartTag h rest
  rw [htexts, shellAt_of_isStartTag h' rest'] at hread
  simp only [Piece.read.injEq, Element.mk.injEq] at hread
  exact ⟨hread.1.1.symm, hread.1.2.1.symm⟩

/-- A start tag with its attributes rearranged is a text of the same tag. -/
theorem exists_tag_of_rearranges (h : IsStartTag ending name pairs text)
    (h' : IsStartTag ending name pairs' text') (hpairs : Attributes.Rearranges pairs pairs') :
    ∃ tag, Spells text tag ∧ Spells text' tag := by
  have hmap := Attributes.ofList_eq_of_rearranges hpairs
  cases h with
  | intro hending hname hattributes =>
      cases h' with
      | intro _ _ hattributes' =>
          rcases hending with rfl | rfl
          · exact ⟨_, .whole hname hattributes, hmap ▸ .whole hname hattributes'⟩
          · exact ⟨_, .opening hname hattributes, hmap ▸ .opening hname hattributes'⟩

/-- The text of every start tag says its name, its attributes and its end. -/
theorem exists_isStartTag {tag : Tag} (h : Spells text tag) (hstart : tag.isStart = true) :
    ∃ ending name pairs, IsStartTag ending name pairs text := by
  cases h with
  | @whole cs attributes pairs hname hattributes =>
      obtain ⟨name, rfl⟩ := exists_toList cs
      exact ⟨"/>", name, pairs, isStartTag_whole hname hattributes⟩
  | @opening cs attributes pairs hname hattributes =>
      obtain ⟨name, rfl⟩ := exists_toList cs
      exact ⟨">", name, pairs, isStartTag_opening hname hattributes⟩
  | closing _ => cases hstart

/-- An element begins with its start tag, which says its name and its attributes. -/
theorem exists_isStartTag_of_derives {e : Element} (h : Derives text e) :
    ∃ ending pairs tagText more, text = tagText ++ more ∧
      IsStartTag ending e.name pairs tagText ∧ e.attributes = .ofList pairs := by
  cases h with
  | @leaf cs attributes pairs hname hattributes =>
      obtain ⟨name, rfl⟩ := exists_toList cs
      rw [String.ofList_toList]
      exact ⟨"/>", pairs, _, [], (List.append_nil _).symm, isStartTag_whole hname hattributes, rfl⟩
  | @parent cs attributes inside pairs children hname hattributes hchildren =>
      obtain ⟨name, rfl⟩ := exists_toList cs
      rw [parentText_eq, String.ofList_toList, List.append_assoc]
      exact ⟨">", pairs, _, _, rfl, isStartTag_opening hname hattributes, rfl⟩

/-- At the start tags of a text there are the texts of such. -/
theorem exists_isStartTag_of_mem_startPlaces {source front : List Char} (cut : Cut source)
    (h : front ∈ cut.startPlaces) :
    ∃ ending name pairs text rest, IsStartTag ending name pairs text ∧
      source = front ++ text ++ rest := by
  obtain ⟨earlier, t, later, htags, hstart, rfl⟩ := exists_of_mem_startPlaces h
  obtain ⟨ending, name, pairs, htext⟩ := exists_isStartTag t.spells hstart
  refine ⟨ending, name, pairs, t.text, tagsText later ++ cut.after, htext, ?_⟩
  refine cut.source_eq.trans ?_
  simp [htags, tagsText_append, tagsText_cons]

theorem startTagEndingAt_eq_read {cs : List Char} {e : Element}
    (hending : ending = "/>" ∨ ending = ">") (h : startTagEndingAt ending cs = .read e rest) :
    ∃ pairs text, IsStartTag ending e.name pairs text ∧ e = ⟨e.name, .ofList pairs, []⟩ ∧
      cs = text ++ rest := by
  rw [startTagEndingAt] at h
  cases hshell : shellAt cs with
  | stuck cause after => rw [hshell] at h; cases h
  | read e' after =>
      obtain ⟨name, attributes, pairs, hname, hattributes, rfl, hcs⟩ := shellAt_eq_read hshell
      rw [hshell, Piece.andThen_read] at h
      cases hend : literalAt ending after with
      | stuck cause after' => rw [hend] at h; cases h
      | read _ after' =>
          rw [hend, Piece.andThen_read] at h
          cases h
          have hafter := eq_append_of_literalAt hend
          rw [← @String.toList_ofList name] at hname
          refine ⟨pairs, _, .intro hending hname hattributes, rfl, ?_⟩
          rw [hcs, hafter, String.toList_ofList]
          simp

theorem outcome_startTag {v w : View} {e : Element} (hv : v.Valid)
    (h : ((startTag ending).run v).outcome = .ok (e, w)) :
    startTagEndingAt ending v.rest = .read e w.rest :=
  (((reads_startTag ending).outcome_eq_ok_iff _ hv).1 h).1

end Grammar

open Grammar Attributes

/-- **Attributes are maps in which the last write of a name decides, in whatever order the names
are written.** A map lists its names in the strictly increasing order of their bytes.

What a start tag of either kind is read as, at any place, has the attributes that its text says:
the value of a name is that of the last pair of the name, and there is none without such a pair.
At every start tag of a document, so it is for the element that stands there; and with the pairs
of the tag rearranged, in any way that leaves those of one name in their order, and with other
white space if need be, the document is accepted with the same tree. So its markup and its outline
are the same.

Of any writes by hand, those that count are the latest write of all attributes and what follows it,
and the last of them that gives a name a value decides. Single writes may be rearranged in the
same way, and each of them leaves all names but its own as they are. -/
theorem last_attribute_decides :
    (∀ a : Attributes, a.entries.Pairwise fun x y => utf8Bytes x.1 < utf8Bytes y.1) ∧
    (∀ (ending : String) (v w : View) (e : Element), ending = "/>" ∨ ending = ">" → v.Valid →
      ((startTag ending).run v).outcome = .ok (e, w) →
      (∃ pairs text, IsStartTag ending e.name pairs text ∧ v.rest = text ++ w.rest) ∧
      ∀ name pairs text, IsStartTag ending name pairs text → v.rest = text ++ w.rest →
        ∀ n, IsLast pairs n (e.attributes.get? n)) ∧
    (∀ (m : Option Nat) (source : String) (root : Element),
      Document.parse m source = .accepted root →
      ∀ (cut : Cut source.toList) (front : List Char), front ∈ cut.startPlaces →
      (∃ ending name pairs text rest, IsStartTag ending name pairs text ∧
        source.toList = front ++ text ++ rest) ∧
      ∀ ending name pairs text rest, IsStartTag ending name pairs text →
        source.toList = front ++ text ++ rest →
        (∀ e, StandsBehind source.toList front e →
          e.name = name ∧ ∀ n, IsLast pairs n (e.attributes.get? n)) ∧
        ∀ pairs' text', IsStartTag ending name pairs' text' → Rearranges pairs pairs' →
          Document.parse m (String.ofList (front ++ text' ++ rest)) = .accepted root) ∧
    ∀ (e : Element) (writes : List Element.Write),
      (∃ base pairs, e.Since writes base pairs) ∧
      (∀ base pairs, e.Since writes base pairs →
        ∀ n, IsLast (base.entries ++ pairs) n ((e.writeAll writes).attributes.get? n)) ∧
      (∀ pairs pairs', Rearranges pairs pairs' →
        e.writeAll (writes ++ Element.eachPair pairs) =
          e.writeAll (writes ++ Element.eachPair pairs')) ∧
      ∀ name value n, n ≠ name →
        (e.withAttribute name value).attributes.get? n = e.attributes.get? n := by
  refine ⟨fun a => ?_, ?_, ?_, fun e writes => ⟨e.exists_since writes, ?_, ?_, ?_⟩⟩
  · exact a.sorted.imp fun hlt => (lt_iff_utf8Bytes_lt _ _).1 hlt
  · intro ending v w e hending hv hok
    obtain ⟨pairs, text, htext, heq, hrest⟩ :=
      startTagEndingAt_eq_read hending (outcome_startTag hv hok)
    refine ⟨⟨pairs, text, htext, hrest⟩, fun name' pairs' text' htext' hrest' n => ?_⟩
    obtain ⟨-, hmap⟩ := eq_of_isStartTag htext htext' (hrest.symm.trans hrest')
    rw [heq, hmap]
    exact isLast_ofList pairs' n
  · intro m source root haccepted cut front hfront
    refine ⟨exists_isStartTag_of_mem_startPlaces cut hfront, ?_⟩
    intro ending name pairs text rest htext hsource
    refine ⟨fun e hstands => ?_, fun pairs' text' htext' hpairs => ?_⟩
    · obtain ⟨whole, after, hwhole, hderives⟩ := hstands
      obtain ⟨ending', pairs', tagText, more, rfl, htag, hattributes⟩ :=
        exists_isStartTag_of_derives hderives
      have htexts : tagText ++ (more ++ after) = text ++ rest := by
        have hboth := hwhole.symm.trans hsource
        simpa using hboth
      obtain ⟨hname, hmap⟩ := eq_of_isStartTag htag htext htexts
      refine ⟨hname, fun n => ?_⟩
      rw [hattributes, hmap]
      exact isLast_ofList pairs n
    · obtain ⟨tag, hspells, hspells'⟩ := exists_tag_of_rearranges htext htext' hpairs
      exact Document.accepted_of_replaced_tag haccepted cut hfront hspells hspells' hsource
  · intro base pairs hsince n
    rw [Element.attributes_writeAll hsince]
    exact isLast_ofList _ n
  · intro pairs pairs' hpairs
    rw [Element.writeAll_append, Element.writeAll_append]
    exact Element.writeAll_eq_of_rearranges hpairs _
  · intro name value n hne
    exact (get?_insert e.attributes name value n).trans (if_neg hne)

/-- A tag with two values for one name, inside another element, and the same with the third pair in
front of the second one: read by itself, and in the two documents. By hand a name is written that
a write of all attributes takes away. -/
theorem last_attribute_decides_nested :
    ((startTag "/>").run (View.ofSource "<a y=\"1\" y=\"2\" x=\"3\"/></r>")).outcome =
      .ok (⟨"a", .ofList [("x", "3"), ("y", "2")], []⟩,
        ⟨"<a y=\"1\" y=\"2\" x=\"3\"/></r>", 22, ['<', '/', 'r', '>']⟩) ∧
    Document.parse none "<r><a y=\"1\" y=\"2\" x=\"3\"/></r>" =
      .accepted ⟨"r", ∅, [⟨"a", .ofList [("x", "3"), ("y", "2")], []⟩]⟩ ∧
    Document.parse none "<r><a y=\"1\" x=\"3\" y=\"2\"/></r>" =
      .accepted ⟨"r", ∅, [⟨"a", .ofList [("x", "3"), ("y", "2")], []⟩]⟩ ∧
    IsLast [("y", "1"), ("y", "2"), ("x", "3")] "y" (some "2") ∧
    IsLast [("y", "1"), ("y", "2")] "x" (((Element.ofName "a").writeAll
      [.one "x" "3", .all (.ofList [("y", "1")]), .one "y" "2"]).attributes.get? "x") := by
  have hread : ((startTag "/>").run (View.ofSource "<a y=\"1\" y=\"2\" x=\"3\"/></r>")).outcome =
      .ok (⟨"a", .ofList [("x", "3"), ("y", "2")], []⟩,
        ⟨"<a y=\"1\" y=\"2\" x=\"3\"/></r>", 22, ['<', '/', 'r', '>']⟩) := by decide +kernel
  have haccepted : Document.parse none "<r><a y=\"1\" y=\"2\" x=\"3\"/></r>" =
      .accepted ⟨"r", ∅, [⟨"a", .ofList [("x", "3"), ("y", "2")], []⟩]⟩ := by decide +kernel
  have hattributes : DerivesAttributes " y=\"1\" y=\"2\" x=\"3\"".toList
      [("y", "1"), ("y", "2"), ("x", "3")] :=
    @DerivesAttributes.some [' '] ['y'] ['1'] _ _ rfl nofun rfl rfl
      (@DerivesMore.next [' '] ['y'] ['2'] _ _ rfl rfl rfl
        (@DerivesMore.next [' '] ['x'] ['3'] [] [] rfl rfl rfl (.done rfl)))
  have hattributes' : DerivesAttributes " y=\"1\" x=\"3\" y=\"2\"".toList
      [("y", "1"), ("x", "3"), ("y", "2")] :=
    @DerivesAttributes.some [' '] ['y'] ['1'] _ _ rfl nofun rfl rfl
      (@DerivesMore.next [' '] ['x'] ['3'] _ _ rfl rfl rfl
        (@DerivesMore.next [' '] ['y'] ['2'] [] [] rfl rfl rfl (.done rfl)))
  have hname : isName "a".toList = true := by decide
  have hpairs : Rearranges [("y", "1"), ("y", "2"), ("x", "3")]
      [("y", "1"), ("x", "3"), ("y", "2")] := by
    refine ⟨by decide, fun name => ?_⟩
    by_cases hx : "x" = name
    · subst hx
      decide
    · simp [List.filter_cons, hx]
  obtain ⟨cut, hplaces⟩ : ∃ cut : Cut "<r><a y=\"1\" y=\"2\" x=\"3\"/></r>".toList,
      cut.startPlaces = [[], ['<', 'r', '>']] :=
    ⟨⟨[], [⟨_, _, @Spells.opening ['r'] _ _ rfl .none⟩,
      ⟨_, _, @Spells.whole ['a'] _ _ rfl hattributes⟩, ⟨_, _, @Spells.closing ['r'] rfl⟩],
      [], rfl, rfl, rfl⟩, rfl⟩
  have hplace : ['<', 'r', '>'] ∈ cut.startPlaces := by
    rw [hplaces]
    exact List.mem_cons_of_mem _ List.mem_cons_self
  have htag := IsStartTag.intro (Or.inl rfl) hname hattributes
  have htag' := IsStartTag.intro (Or.inl rfl) hname hattributes'
  have hrearranged := ((last_attribute_decides.2.2.1 none _ _ haccepted cut _ hplace).2 _ _ _ _
    ['<', '/', 'r', '>'] htag (by decide +kernel)).2 _ _ htag' hpairs
  have hlast := (last_attribute_decides.2.1 "/>" _ _ _ (Or.inl rfl) (View.valid_ofSource _) hread).2
    _ _ _ htag (by decide +kernel) "y"
  have hsince := @Element.Since.all (Element.ofName "a") [.one "x" "3"] (.ofList [("y", "1")])
    [("y", "2")]
  refine ⟨hread, haccepted, ?_, hlast, (last_attribute_decides.2.2.2 _ _).2.1 _ _ hsince "x"⟩
  have hsource : String.ofList (['<', 'r', '>'] ++ ('<' :: ("a".toList ++
      " y=\"1\" x=\"3\" y=\"2\"".toList ++ "/>".toList)) ++ ['<', '/', 'r', '>']) =
      "<r><a y=\"1\" x=\"3\" y=\"2\"/></r>" := by decide +kernel
  rw [← hsource]
  exact hrearranged

end TagTree
