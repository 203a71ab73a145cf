import TagTree.Element.Traversal

/-!
# The order of a traversal

The stack of `Element.visit` holds trees that are still to be walked through, and what the walk
lists is the elements of these trees, tree by tree (`Element.visit_eq`). So an element and its
descendants are its tree in the order of the document (`Element.preorder_eq`).
Asked for one element at a time, a walk answers the same and then ends (`Element.nextAfter?_eq`).
The places of a tree are paths of child numbers (`Element.paths`); in the order of the document
the paths increase, so each place comes up once. `Element.levelled` is the same order with the
level of each element.
-/

set_option autoImplicit false

namespace TagTree

namespace Element

theorem preorderAll_append (cs ds : List Element) :
    preorderAll (cs ++ ds) = preorderAll cs ++ preorderAll ds := by
  induction cs with
  | nil => rfl
  | cons c cs ih => rw [List.cons_append, preorderAll, preorderAll, ih, List.append_assoc]

/-- A walk lists the trees on its stack from the top, each in the order of the document. -/
theorem visit_eq (visited stack : List Element) :
    visit visited stack = visited.reverse ++ preorderAll stack := by
  fun_induction visit visited stack with
  | case1 visited => rw [preorderAll, List.append_nil]
  | case2 visited e stack ih =>
      cases e
      rw [ih, preorderAll_append, preorderAll, preorder]
      simp

/-- An element and the elements below it are its tree, in the order of the document. -/
theorem preorder_eq (e : Element) : e.preorder = e :: e.descendants := by
  cases e
  rw [preorder, descendants, visit_eq]
  rfl

theorem descendants_eq (e : Element) : e.descendants = preorderAll e.children := by
  rw [descendants, visit_eq]
  rfl

/-! ## Calls

A walk can also be made one element at a time, by whoever asks for the next one. -/

/-- The element at the top of the stack, if there is one, and the stack without it: its children
are in its stead. -/
def next? : List Element → Option (Element × List Element)
  | [] => none
  | e :: stack => some (e, e.children ++ stack)

/-- What is answered to the request for an element that follows `n` others. -/
def nextAfter? : Nat → List Element → Option Element
  | 0, stack => (next? stack).map Prod.fst
  | n + 1, stack => (next? stack).bind fun answer => nextAfter? n answer.2

theorem preorderAll_eq_next? (stack : List Element) :
    preorderAll stack =
      match next? stack with
      | none => []
      | some (e, rest) => e :: preorderAll rest := by
  cases stack with
  | nil => rfl
  | cons e stack =>
      simp only [next?, preorderAll_append]
      cases e
      rfl

/-- The requests are answered by the elements on the stack in the order of the document, one after
the other, and by none behind the last of them. -/
theorem nextAfter?_eq (n : Nat) (stack : List Element) :
    nextAfter? n stack = (preorderAll stack)[n]? := by
  induction n generalizing stack with
  | zero => rw [nextAfter?, preorderAll_eq_next?]; cases next? stack <;> rfl
  | succ n ih =>
      rw [nextAfter?, preorderAll_eq_next?]
      cases hnext : next? stack with
      | none => rfl
      | some answer => exact ih answer.2

/-! ## Paths -/

/-- The element at a path, which says at each level which child to go to, counted from zero. -/
def at? (e : Element) : List Nat → Option Element
  | [] => some e
  | i :: path => e.children[i]?.bind fun c => c.at? path

/-- The element at a path that begins with the choice of a tree. -/
def atAmong? (cs : List Element) : List Nat → Option Element
  | [] => none
  | i :: path => cs[i]?.bind fun c => c.at? path

mutual

/-- The paths to the elements of a tree, in the order of the document. -/
def paths : Element → List (List Nat)
  | ⟨_, _, children⟩ => [] :: pathsAmong children

/-- The paths to the elements of the trees. A tree behind others has a number higher by one for
each of them. -/
def pathsAmong : List Element → List (List Nat)
  | [] => []
  | c :: cs => c.paths.map (0 :: ·) ++ (pathsAmong cs).map (List.modifyHead (· + 1))

end

/-- A path that leaves the root goes on among its children. -/
theorem at?_eq_atAmong? (e : Element) {path : List Nat} (h : path ≠ []) :
    e.at? path = atAmong? e.children path := by
  cases path with
  | nil => exact absurd rfl h
  | cons i path => rfl

theorem atAmong?_succ (c : Element) (cs : List Element) (path : List Nat) :
    atAmong? (c :: cs) (path.modifyHead (· + 1)) = atAmong? cs path := by
  cases path <;> rfl

mutual

/-- A path is one of a tree if there is an element at it. -/
theorem mem_paths_iff : (e : Element) → (path : List Nat) →
    (path ∈ e.paths ↔ (e.at? path).isSome = true)
  | ⟨_, _, _⟩, [] => by simp [paths, at?]
  | ⟨name, attributes, children⟩, i :: path => by
      have hne : i :: path ≠ [] := List.cons_ne_nil i path
      rw [paths, List.mem_cons, at?_eq_atAmong? _ hne, mem_pathsAmong_iff children]
      exact or_iff_right hne

theorem mem_pathsAmong_iff : (cs : List Element) → (path : List Nat) →
    (path ∈ pathsAmong cs ↔ (atAmong? cs path).isSome = true)
  | [], path => by cases path <;> simp [pathsAmong, atAmong?]
  | c :: cs, path => by
      rw [pathsAmong, List.mem_append, List.mem_map, List.mem_map]
      simp only [mem_paths_iff c, mem_pathsAmong_iff cs]
      constructor
      · rintro (⟨more, h, rfl⟩ | ⟨more, h, rfl⟩)
        · exact h
        · rwa [atAmong?_succ]
      · intro h
        match path with
        | [] => cases h
        | 0 :: more => exact Or.inl ⟨more, h, rfl⟩
        | (i + 1) :: more => exact Or.inr ⟨i :: more, h, rfl⟩

end

theorem ne_nil_of_mem_pathsAmong {cs : List Element} {path : List Nat}
    (h : path ∈ pathsAmong cs) : path ≠ [] := by
  rintro rfl
  cases (mem_pathsAmong_iff cs []).1 h

mutual

/-- At the paths of a tree are its elements, in the order of the document. -/
theorem map_at?_paths : (e : Element) → e.paths.map e.at? = e.preorder.map some
  | ⟨name, attributes, children⟩ => by
      have hbelow : (pathsAmong children).map (at? ⟨name, attributes, children⟩) =
          (pathsAmong children).map (atAmong? children) := by
        exact List.map_congr_left fun path hpath =>
          at?_eq_atAmong? _ (ne_nil_of_mem_pathsAmong hpath)
      rw [paths, preorder, List.map_cons, List.map_cons, hbelow, map_atAmong?_pathsAmong children]
      rfl

theorem map_atAmong?_pathsAmong : (cs : List Element) →
    (pathsAmong cs).map (atAmong? cs) = (preorderAll cs).map some
  | [] => rfl
  | c :: cs => by
      have hlater : atAmong? (c :: cs) ∘ List.modifyHead (· + 1) = atAmong? cs :=
        funext (atAmong?_succ c cs)
      rw [pathsAmong, preorderAll, List.map_append, List.map_append, List.map_map, List.map_map,
        hlater, map_atAmong?_pathsAmong cs, ← map_at?_paths c]
      rfl

end

mutual

/-- The paths of a tree are in increasing order, so none of them is there twice. -/
theorem pairwise_paths : (e : Element) → e.paths.Pairwise (· < ·)
  | ⟨name, attributes, children⟩ => by
      rw [paths, List.pairwise_cons]
      refine ⟨fun path hpath => ?_, pairwise_pathsAmong children⟩
      cases path with
      | nil => exact absurd rfl (ne_nil_of_mem_pathsAmong hpath)
      | cons i path => exact List.nil_lt_cons i path

theorem pairwise_pathsAmong : (cs : List Element) → (pathsAmong cs).Pairwise (· < ·)
  | [] => .nil
  | c :: cs => by
      rw [pathsAmong, List.pairwise_append, List.pairwise_map, List.pairwise_map]
      refine ⟨?_, ?_, ?_⟩
      · exact (pairwise_paths c).imp fun h => List.cons_lt_cons_iff.2 (Or.inr ⟨rfl, h⟩)
      · refine (pairwise_pathsAmong cs).imp fun {path path'} h => ?_
        cases path' with
        | nil => cases List.not_lt_nil path h
        | cons j path' =>
            cases path with
            | nil => exact List.nil_lt_cons _ _
            | cons i path =>
                rcases List.cons_lt_cons_iff.1 h with hlt | ⟨rfl, hlt⟩
                · exact List.cons_lt_cons_iff.2 (Or.inl (Nat.succ_lt_succ hlt))
                · exact List.cons_lt_cons_iff.2 (Or.inr ⟨rfl, hlt⟩)
      · intro path hpath path' hpath'
        obtain ⟨more, -, rfl⟩ := List.mem_map.1 hpath
        obtain ⟨more', hmore', rfl⟩ := List.mem_map.1 hpath'
        cases more' with
        | nil => exact absurd rfl (ne_nil_of_mem_pathsAmong hmore')
        | cons j more' => exact List.cons_lt_cons_iff.2 (Or.inl (Nat.succ_pos j))

end

/-- The paths that lead below an element, in the order of the document. -/
def places (e : Element) : List (List Nat) :=
  pathsAmong e.children

theorem paths_eq (e : Element) : e.paths = [] :: e.places := by
  cases e
  rfl

theorem mem_places_iff (e : Element) (path : List Nat) :
    path ∈ e.places ↔ path ≠ [] ∧ (e.at? path).isSome = true := by
  rw [← mem_paths_iff, paths_eq, List.mem_cons]
  constructor
  · exact fun h => ⟨ne_nil_of_mem_pathsAmong h, Or.inr h⟩
  · exact fun ⟨hne, h⟩ => h.resolve_left hne

theorem pairwise_places (e : Element) : e.places.Pairwise (· < ·) :=
  pairwise_pathsAmong e.children

theorem map_at?_places (e : Element) : e.places.map e.at? = e.descendants.map some := by
  have hall := map_at?_paths e
  rw [paths_eq, preorder_eq, List.map_cons, List.map_cons] at hall
  exact List.tail_eq_of_cons_eq hall

/-! ## Levels -/

mutual

/-- The elements of a tree in the order of the document, each with its level, where the root lies
at `level`. -/
def levelled (level : Nat) : Element → List (Element × Nat)
  | ⟨name, attributes, children⟩ =>
    (⟨name, attributes, children⟩, level) :: levelledAll (level + 1) children

/-- The elements of the trees, tree by tree, where the roots lie at `level`. -/
def levelledAll (level : Nat) : List Element → List (Element × Nat)
  | [] => []
  | c :: cs => levelled level c ++ levelledAll level cs

end

mutual

theorem map_fst_levelled (level : Nat) :
    (e : Element) → (levelled level e).map Prod.fst = e.preorder
  | ⟨name, attributes, children⟩ => by
      rw [levelled, preorder, List.map_cons, map_fst_levelledAll (level + 1) children]

theorem map_fst_levelledAll (level : Nat) :
    (cs : List Element) → (levelledAll level cs).map Prod.fst = preorderAll cs
  | [] => rfl
  | c :: cs => by
      rw [levelledAll, preorderAll, List.map_append, map_fst_levelled level c,
        map_fst_levelledAll level cs]

end

/-- The levels belong to an element and its descendants, in this order. -/
theorem map_fst_levelled_eq (level : Nat) (e : Element) :
    (levelled level e).map Prod.fst = e :: e.descendants := by
  rw [map_fst_levelled, preorder_eq]

end Element

end TagTree
