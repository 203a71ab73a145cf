import TagTree.Text.View

/-!
# Lines and columns

A `Position` is a byte offset said in lines and columns, both counted from one. A line ends after
its line feed; a column is one character, however many bytes it takes. An offset inside a
character is located after that character, and one beyond the end of the text at its end.
-/

set_option autoImplicit false

namespace TagTree

/-- A line and a column, both counted from one. -/
structure Position where
  line : Nat
  column : Nat
deriving DecidableEq, Repr

namespace Position

/-- Where every text begins. -/
def start : Position := ⟨1, 1⟩

/-- The position after a character that stands at `p`. -/
def after (p : Position) (c : Char) : Position :=
  if c = '\n' then ⟨p.line + 1, 1⟩ else ⟨p.line, p.column + 1⟩

/-- The position reached from `p` after the characters of `cs` that begin in its first `n`
bytes. -/
def walk (p : Position) : List Char → Nat → Position
  | [], _ => p
  | c :: cs, n => if n = 0 then p else (p.after c).walk cs (n - c.utf8Size)

/-- The position of byte `offset` of the text. -/
def locate (source : String) (offset : Nat) : Position :=
  start.walk source.toList offset

/-! ## Lemmas -/

variable (p : Position)

@[simp] theorem walk_nil (n : Nat) : p.walk [] n = p := by
  rw [walk]

@[simp] theorem walk_zero (cs : List Char) : p.walk cs 0 = p := by
  cases cs with
  | nil => rfl
  | cons c cs => rw [walk, if_pos rfl]

theorem walk_cons (c : Char) (cs : List Char) {n : Nat} (hn : 0 < n) :
    p.walk (c :: cs) n = (p.after c).walk cs (n - c.utf8Size) := by
  rw [walk, if_neg (Nat.ne_of_gt hn)]

/-- A walk over a text, and on into what follows it. -/
theorem walk_add (cs ds : List Char) (n : Nat) :
    p.walk (cs ++ ds) (byteCount cs + n) = (p.walk cs (byteCount cs)).walk ds n := by
  induction cs generalizing p with
  | nil => simp
  | cons c cs ih =>
    have hc : 0 < c.utf8Size := c.utf8Size_pos
    have hon : c.utf8Size + byteCount cs + n - c.utf8Size = byteCount cs + n := by omega
    have hend : c.utf8Size + byteCount cs - c.utf8Size = byteCount cs := by omega
    rw [List.cons_append, byteCount_cons, walk_cons p c _ (by omega), hon, ih,
      walk_cons p c cs (by omega), hend]

/-- The position behind a text does not depend on what follows it. -/
theorem walk_append (cs ds : List Char) :
    p.walk (cs ++ ds) (byteCount cs) = p.walk cs (byteCount cs) := by
  have hadd := p.walk_add cs ds 0
  rwa [Nat.add_zero, walk_zero] at hadd

end Position

end TagTree
