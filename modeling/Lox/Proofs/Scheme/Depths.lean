/-
What a draft knows of its text.

A draft counts its open lists beside the text and never looks at the text again: how many
brackets there are to close, and how far a line is indented, is taken from the count alone.
The steps of the writing change count and text each on its own, and they come in any order.

Nevertheless the two cannot come apart as long as a bracket is written only where a list is
opened or closed, or together with its partner.  All other text has as many brackets of one
kind as of the other and closes none that it has not opened itself, so the count stays the
number of those brackets in the text that wait for a partner.
-/
import Lox.Scheme.Draft
import Mathlib.Data.List.Induction

namespace Lox.Scheme

/-! ### Brackets of a text -/

/-- From its start on, a text never has more closing brackets than opening ones. -/
def OpenedFirst (text : List Char) : Prop :=
  ∀ front, front <+: text → front.count ')' ≤ front.count '('

/-- Each bracket of a text has its partner there. -/
structure Paired (text : List Char) : Prop where
  even : text.count ')' = text.count '('
  openedFirst : OpenedFirst text

/-- A text without brackets. -/
def BracketFree (text : String) : Prop :=
  '(' ∉ text.toList ∧ ')' ∉ text.toList

instance (text : String) : Decidable (BracketFree text) :=
  inferInstanceAs (Decidable (_ ∧ _))

section Brackets

variable {text more : List Char}

theorem count_bracket : ['('].count '(' = 1 ∧ ['('].count ')' = 0 ∧
    [')'].count '(' = 0 ∧ [')'].count ')' = 1 :=
  ⟨rfl, rfl, rfl, rfl⟩

theorem OpenedFirst.count_le (h : OpenedFirst text) : text.count ')' ≤ text.count '(' :=
  h text List.prefix_rfl

theorem OpenedFirst.front (h : OpenedFirst (text ++ more)) : OpenedFirst text :=
  fun front hfront => h front (hfront.trans (List.prefix_append text more))

theorem OpenedFirst.append (h : OpenedFirst text) (hmore : OpenedFirst more) :
    OpenedFirst (text ++ more) := by
  intro front hfront
  rcases List.prefix_or_prefix_of_prefix hfront (List.prefix_append text more) with
    hinside | hbeyond
  · exact h front hinside
  · obtain ⟨start, rfl⟩ := hbeyond
    have hstart := hmore start ((List.prefix_append_right_inj text).mp hfront)
    rw [List.count_append, List.count_append]
    exact Nat.add_le_add h.count_le hstart

/-- A bracket may be closed where one is open. -/
theorem OpenedFirst.close (h : OpenedFirst text) (hopen : text.count ')' < text.count '(') :
    OpenedFirst (text ++ [')']) := by
  intro front hfront
  rcases List.prefix_concat_iff.mp hfront with rfl | hinside
  · have hbracket := count_bracket
    rw [List.count_append, List.count_append]
    omega
  · exact h front hinside

theorem openedFirst_bracket : OpenedFirst ['('] := by
  intro front hfront
  rcases List.prefix_cons_iff.mp hfront with rfl | ⟨rest, rfl, hrest⟩
  · decide
  · rw [List.prefix_nil.mp hrest]
    decide

theorem paired_of_not_mem (hopen : '(' ∉ text) (hclose : ')' ∉ text) : Paired text where
  even := by rw [List.count_eq_zero.mpr hopen, List.count_eq_zero.mpr hclose]
  openedFirst := fun front hfront => by
    rw [List.count_eq_zero.mpr fun hmem => hclose (hfront.subset hmem)]
    exact Nat.zero_le _

theorem BracketFree.paired {text : String} (h : BracketFree text) : Paired text.toList :=
  paired_of_not_mem h.1 h.2

/-! ### Brackets without a partner -/

/-- One character more: an opening bracket waits for its partner, and a closing one is the
partner of the innermost that waits. -/
def awaiting (waiting : List Nat) (character : Char × Nat) : List Nat :=
  if character.1 = '(' then character.2 :: waiting
  else if character.1 = ')' then waiting.tail
  else waiting

/-- The places of the opening brackets that have no partner, the innermost first. -/
def unmatched (text : List Char) : List Nat :=
  text.zipIdx.foldl awaiting []

theorem unmatched_concat (text : List Char) (c : Char) :
    unmatched (text ++ [c]) = awaiting (unmatched text) (c, text.length) := by
  rw [unmatched, List.zipIdx_append, List.foldl_append, Nat.zero_add]
  rfl

/-- As many brackets are without a partner as there are more opening than closing ones. -/
theorem unmatched_length (h : OpenedFirst text) :
    (unmatched text).length + text.count ')' = text.count '(' := by
  induction text using List.reverseRecOn with
  | nil => rfl
  | append_singleton text c ih =>
      have hfront := ih h.front
      have hbracket := count_bracket
      have hle := h.count_le
      rw [List.count_append, List.count_append] at hle ⊢
      rw [unmatched_concat, awaiting]
      split
      · rename_i hopen
        obtain rfl : c = '(' := hopen
        rw [List.length_cons]
        omega
      split
      · rename_i _ hclose
        obtain rfl : c = ')' := hclose
        -- One that waits is taken away only if there is one, which is what `hle` is for.
        rw [List.length_tail]
        omega
      · rename_i hopen hclose
        have hclosed : [c].count ')' = 0 :=
          List.count_eq_zero.mpr fun hmem => hclose (List.mem_singleton.mp hmem).symm
        have hopened : [c].count '(' = 0 :=
          List.count_eq_zero.mpr fun hmem => hopen (List.mem_singleton.mp hmem).symm
        rw [hclosed, hopened]
        exact hfront

end Brackets

/-! ### Steps of the writing -/

/-- A step of the writing. -/
inductive Edit where
  | openList (head : String)
  | write (text : String)
  | newline
  | close
  | closeTo (depth : Nat)
  deriving DecidableEq, Repr

/-- What text a step brings along is without brackets. -/
def Edit.BracketFree : Edit → Prop
  | .openList text | .write text => Scheme.BracketFree text
  | .newline | .close | .closeTo _ => True

instance : DecidablePred Edit.BracketFree
  | .openList text | .write text => inferInstanceAs (Decidable (Scheme.BracketFree text))
  | .newline | .close | .closeTo _ => inferInstanceAs (Decidable True)

namespace Draft

/-- What a step makes of a draft. -/
def edit (d : Draft) : Edit → Draft
  | .openList head => d.openList head
  | .write text => d.write text
  | .newline => d.newline
  | .close => d.close
  | .closeTo depth => d.closeTo depth

/-- What is there after some steps. -/
def ofEdits (edits : List Edit) : Draft :=
  edits.foldl edit empty

theorem ofEdits_concat (edits : List Edit) (edit : Edit) :
    ofEdits (edits ++ [edit]) = (ofEdits edits).edit edit := by
  rw [ofEdits, List.foldl_append]
  rfl

/-- The depth is the number of the opening brackets in the text less that of the closing
ones, and no bracket is closed before it was opened. -/
structure Counted (d : Draft) : Prop where
  depth : d.depth + d.text.toList.count ')' = d.text.toList.count '('
  openedFirst : OpenedFirst d.text.toList

/-! ### The count is kept -/

section Counted

variable {d : Draft}

theorem counted_empty : empty.Counted where
  depth := rfl
  openedFirst := (paired_of_not_mem (by decide) (by decide)).openedFirst

theorem Counted.write (h : d.Counted) {text : String} (htext : Paired text.toList) :
    (d.write text).Counted where
  depth := by
    have hdepth := h.depth
    rw [write_depth, Draft.write, String.toList_append, List.count_append, List.count_append,
      htext.even]
    omega
  openedFirst := by
    rw [Draft.write, String.toList_append]
    exact h.openedFirst.append htext.openedFirst

theorem Counted.openList (h : d.Counted) {head : String} (hhead : Paired head.toList) :
    (d.openList head).Counted := by
  have htext : (d.openList head).text.toList = d.text.toList ++ ['('] ++ head.toList := by
    rw [Draft.openList, String.toList_append, String.toList_append]
    rfl
  refine ⟨?_, ?_⟩
  · have hdepth := h.depth
    have hbracket := count_bracket
    rw [htext, openList_depth, List.count_append, List.count_append, List.count_append,
      List.count_append, hhead.even]
    omega
  · rw [htext]
    exact (h.openedFirst.append openedFirst_bracket).append hhead.openedFirst

/-- To close where no list is open changes nothing, so it needs no exception. -/
theorem Counted.close (h : d.Counted) : d.close.Counted := by
  by_cases hzero : d.depth = 0
  · rwa [Draft.close, if_pos hzero]
  · have hdepth := h.depth
    have htext : d.close.text.toList = d.text.toList ++ [')'] := by
      rw [Draft.close, if_neg hzero, String.toList_append]
      rfl
    refine ⟨?_, ?_⟩
    · have hbracket := count_bracket
      rw [htext, close_depth, List.count_append, List.count_append]
      omega
    · rw [htext]
      exact h.openedFirst.close (by omega)

theorem Counted.closeTimes (n : Nat) (h : d.Counted) : (closeTimes n d).Counted := by
  induction n generalizing d with
  | zero => exact h
  | succ n ih => exact ih h.close

theorem Counted.closeTo (h : d.Counted) (depth : Nat) : (d.closeTo depth).Counted :=
  h.closeTimes (d.depth - depth)

theorem Counted.newline (h : d.Counted) : d.newline.Counted :=
  h.write (paired_of_not_mem (by simp) (by simp))

/-- **Each step keeps the count.** -/
theorem Counted.edit (h : d.Counted) {edit : Edit} (hedit : edit.BracketFree) :
    (d.edit edit).Counted := by
  cases edit with
  | openList head => exact h.openList (BracketFree.paired hedit)
  | write text => exact h.write (BracketFree.paired hedit)
  | newline => exact h.newline
  | close => exact h.close
  | closeTo depth => exact h.closeTo depth

theorem counted_of_bracketFree {edits : List Edit} (h : ∀ edit ∈ edits, edit.BracketFree) :
    (ofEdits edits).Counted := by
  induction edits using List.reverseRecOn with
  | nil => exact counted_empty
  | append_singleton edits edit ih =>
      have hbefore := ih fun earlier hmem => h earlier (List.mem_append_left _ hmem)
      rw [ofEdits_concat]
      exact hbefore.edit (h edit (List.mem_append_right _ (List.mem_singleton_self edit)))

/-! ### What the count is good for -/

theorem Counted.unmatched_length (h : d.Counted) :
    (unmatched d.text.toList).length = d.depth := by
  have hlength := Scheme.unmatched_length h.openedFirst
  have hdepth := h.depth
  omega

/-- So many pairs of blanks. -/
theorem replicate_two_mul (places : List Nat) :
    List.replicate (2 * places.length) ' ' = places.flatMap fun _ => [' ', ' '] := by
  induction places with
  | nil => rfl
  | cons place rest ih =>
      rw [List.flatMap_cons, ← ih]
      rfl

/-- A new line is indented by two blanks for each bracket without a partner. -/
theorem Counted.newline_text (h : d.Counted) : d.newline.text.toList
    = d.text.toList ++ '\n' :: (unmatched d.text.toList).flatMap fun _ => [' ', ' '] := by
  rw [Draft.newline, Draft.write, String.toList_append, String.toList_ofList,
    ← h.unmatched_length, replicate_two_mul]

/-- Where no list is left open each bracket has its partner. -/
theorem Counted.paired (h : d.Counted) (hdepth : d.depth = 0) : Paired d.text.toList where
  even := by
    have hcount := h.depth
    omega
  openedFirst := h.openedFirst

/-- **The depth of a draft is that of its text.**  After each of any steps that bring no
brackets along, the depth is the number of opening brackets in the text less that of closing
ones, and no front of the text has more closing than opening ones.  Closing down to a depth
leaves the lesser of that depth and the one before, and a new line is indented by two blanks
for each bracket without a partner.  So each bracket has its partner once all lists are
closed. -/
theorem ofEdits_counted (edits : List Edit) (h : ∀ edit ∈ edits, edit.BracketFree) :
    (∀ before, before <+: edits → (ofEdits before).Counted) ∧
    (∀ before depth, before ++ [.closeTo depth] <+: edits →
      (ofEdits (before ++ [.closeTo depth])).depth = min (ofEdits before).depth depth) ∧
    (∀ before, before ++ [.newline] <+: edits →
      (ofEdits (before ++ [.newline])).text.toList = (ofEdits before).text.toList ++
        '\n' :: (unmatched (ofEdits before).text.toList).flatMap fun _ => [' ', ' ']) ∧
    Paired (ofEdits (edits ++ [.closeTo 0])).text.toList := by
  have hcounted : ∀ before, before <+: edits → (ofEdits before).Counted :=
    fun before hbefore => counted_of_bracketFree fun edit hmem => h edit (hbefore.subset hmem)
  refine ⟨hcounted, ?_, ?_, ?_⟩
  · intro before depth _
    rw [ofEdits_concat]
    exact closeTo_depth _ _
  · intro before hbefore
    rw [ofEdits_concat]
    exact (hcounted before ((List.prefix_append _ _).trans hbefore)).newline_text
  · rw [ofEdits_concat]
    refine ((hcounted edits List.prefix_rfl).closeTo 0).paired ?_
    rw [closeTo_depth, Nat.min_zero]

/-- Lists inside of each other, some closed one by one and some at once. -/
def nestedLists : List Edit :=
  [.openList "a", .openList "b", .newline, .write "x", .close, .openList "c", .openList "d",
    .closeTo 1, .newline]

theorem nestedLists_counted : (∀ edit ∈ nestedLists, edit.BracketFree) ∧
    Counted ⟨"(a(b\n    x)(c(d))\n  ", 1⟩ ∧
    (ofEdits (nestedLists.take 8)).depth = 1 ∧
    (ofEdits (nestedLists.take 3)).text.toList = "(a(b\n    ".toList ∧
    Paired "(a(b\n    x)(c(d))\n  )".toList := by
  have hfree : ∀ edit ∈ nestedLists, edit.BracketFree := by decide
  obtain ⟨hcounted, hclosed, hindented, hpaired⟩ := ofEdits_counted nestedLists hfree
  refine ⟨hfree, ?_, ?_, ?_, ?_⟩
  · exact hcounted nestedLists List.prefix_rfl
  · exact hclosed (nestedLists.take 7) 1 (by decide)
  · exact hindented (nestedLists.take 2) (by decide)
  · exact hpaired

end Counted

end Draft

end Lox.Scheme
