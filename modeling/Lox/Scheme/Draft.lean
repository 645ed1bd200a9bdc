/-
Parenthesized text in the making.

A draft knows how many of its lists are still open, and a new line is indented by two
blanks for each of them.  That count is all there is to know about what was written, so
a list may be opened in one place and closed in quite another.
-/

namespace Lox.Scheme

/-- Text, and how many of the lists in it are open. -/
structure Draft where
  text : String
  depth : Nat
  deriving DecidableEq, Repr, Inhabited

namespace Draft

/-- Nothing written yet. -/
def empty : Draft := ⟨"", 0⟩

/-- Text as it is. -/
def write (d : Draft) (text : String) : Draft :=
  { d with text := d.text ++ text }

/-- Opens a list that starts with the given text. -/
def openList (d : Draft) (head : String) : Draft :=
  ⟨d.text ++ "(" ++ head, d.depth + 1⟩

/-- Closes the innermost open list, if there is one. -/
def close (d : Draft) : Draft :=
  if d.depth = 0 then d else ⟨d.text ++ ")", d.depth - 1⟩

/-- Closes so many lists. -/
def closeTimes : Nat → Draft → Draft
  | 0, d => d
  | n + 1, d => closeTimes n d.close

/-- Closes lists until no more than `depth` are open. -/
def closeTo (d : Draft) (depth : Nat) : Draft :=
  closeTimes (d.depth - depth) d

/-- Starts a new line. -/
def newline (d : Draft) : Draft :=
  d.write (String.ofList ('\n' :: List.replicate (2 * d.depth) ' '))

/-! ### Depths -/

@[simp] theorem write_depth (d : Draft) (text : String) : (d.write text).depth = d.depth :=
  rfl

@[simp] theorem openList_depth (d : Draft) (head : String) :
    (d.openList head).depth = d.depth + 1 :=
  rfl

@[simp] theorem newline_depth (d : Draft) : d.newline.depth = d.depth :=
  rfl

@[simp] theorem close_depth (d : Draft) : d.close.depth = d.depth - 1 := by
  unfold close
  split <;> simp_all

theorem closeTimes_depth (n : Nat) (d : Draft) : (closeTimes n d).depth = d.depth - n := by
  induction n generalizing d with
  | zero => rfl
  | succ n ih =>
      rw [closeTimes, ih, close_depth]
      omega

/-- Closing down to a depth never opens anything. -/
@[simp] theorem closeTo_depth (d : Draft) (depth : Nat) :
    (d.closeTo depth).depth = min d.depth depth := by
  rw [closeTo, closeTimes_depth]
  omega

end Draft

end Lox.Scheme
