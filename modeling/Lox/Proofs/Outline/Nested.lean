/-
Parenthesized text and what is nested in it.

A text in which words and lists in parentheses are separated by single spaces says how they
are nested: a word ends where a space, a parenthesis or a line does, and a list where its
own parenthesis closes.  So two such texts that begin alike and may both end there are the
same words in the same lists (`Outline.eq_of_text`), whatever is behind them.
-/
import Mathlib.Data.List.TakeWhile
import Lox.Proofs.Scheme.Reading
import Lox.Syntax.Outline

namespace Lox

/-- Words, nested in lists. -/
inductive Outline where
  | word (text : String)
  | list (items : List Outline)

namespace Outline

mutual

/-- Nested words as text. -/
def text : Outline → String
  | word text => text
  | list items => "(" ++ " ".intercalate (texts items) ++ ")"

/-- Several of them. -/
def texts : List Outline → List String
  | [] => []
  | item :: rest => item.text :: texts rest

end

theorem texts_eq_map (items : List Outline) : texts items = items.map text := by
  induction items with
  | nil => rfl
  | cons item rest ih => rw [texts, ih, List.map_cons]

/-- A list with a head and further parts. -/
def headed (head : String) (parts : List Outline) : Outline :=
  list (word head :: parts)

@[simp] theorem text_headed (head : String) (parts : List Outline) :
    (headed head parts).text = outlineList head (parts.map text) := by
  rw [headed, text, texts, texts_eq_map, text, outlineList]

/-! ### Words that end -/

/-- A character that words can have in them. -/
def isInside (c : Char) : Bool :=
  !([' ', '(', ')', '\n'].contains c)

theorem isInside_of_isWordPart {c : Char} (h : Segment.isWordPart c = true) :
    isInside c = true := by
  have hother : c ≠ ' ' ∧ c ≠ '(' ∧ c ≠ ')' ∧ c ≠ '\n' := by
    refine ⟨?_, ?_, ?_, ?_⟩ <;> rintro rfl <;> exact absurd h (by decide)
  simp [isInside, hother]

/-- The text of a word. -/
structure IsWord (text : String) : Prop where
  nonempty : text.toList ≠ []
  inside : ∀ c ∈ text.toList, isInside c = true

instance (text : String) : Decidable (IsWord text) :=
  decidable_of_iff (text.toList ≠ [] ∧ text.toList.all isInside = true)
    ⟨fun h => ⟨h.1, List.all_eq_true.mp h.2⟩,
      fun h => ⟨h.nonempty, List.all_eq_true.mpr h.inside⟩⟩

/-- All its words are words. -/
inductive Plain : Outline → Prop
  | word {text : String} (h : IsWord text) : Plain (word text)
  | list {items : List Outline} (h : ∀ item ∈ items, item.Plain) : Plain (list items)

theorem plain_list {items : List Outline} : (list items).Plain ↔ ∀ item ∈ items, item.Plain :=
  ⟨fun | .list h => h, .list⟩

theorem plain_headed {head : String} {parts : List Outline} (hhead : IsWord head)
    (hparts : ∀ part ∈ parts, part.Plain) : (headed head parts).Plain :=
  .list (List.forall_mem_cons.mpr ⟨.word hhead, hparts⟩)

/-- Here a word ends. -/
def Ends (rest : List Char) : Prop :=
  ∀ c ∈ rest.head?, isInside c = false

theorem ends_close (rest : List Char) : Ends (')' :: rest) := by
  simp [Ends, isInside]

theorem ends_newline (rest : List Char) : Ends ('\n' :: rest) := by
  simp [Ends, isInside]

theorem ends_spaced (row : List String) (rest : List Char) :
    Ends (Scheme.spaced row ++ ')' :: rest) := by
  cases row with
  | nil => exact ends_close rest
  | cons text row => simp [Ends, isInside, Scheme.spaced]

/-- A word is everything up to where it ends. -/
theorem IsWord.takeWhile {text : String} (h : IsWord text) {rest : List Char} (hrest : Ends rest) :
    (text.toList ++ rest).takeWhile isInside = text.toList := by
  rw [List.takeWhile_append_of_pos h.inside]
  cases rest with
  | nil => simp
  | cons c rest => simp [hrest c rfl]

/-! ### Reading -/

section Reading

variable {text text' : String} {rest rest' : List Char}

theorem IsWord.eq (h : IsWord text) (h' : IsWord text') (hrest : Ends rest) (hrest' : Ends rest')
    (heq : text.toList ++ rest = text'.toList ++ rest') : text = text' ∧ rest = rest' := by
  have hsame := congrArg (List.takeWhile isInside) heq
  rw [h.takeWhile hrest, h'.takeWhile hrest', String.toList_inj] at hsame
  subst hsame
  exact ⟨rfl, List.append_cancel_left heq⟩

/-- A word begins neither like a list nor like what is behind one. -/
theorem IsWord.append_ne {c : Char} (h : IsWord text) (hc : isInside c = false) :
    text.toList ++ rest ≠ c :: rest' := by
  intro heq
  cases htext : text.toList with
  | nil => exact h.nonempty htext
  | cons d more =>
      rw [htext, List.cons_append] at heq
      have hd := h.inside d (by rw [htext]; exact List.mem_cons_self)
      rw [(List.cons.inj heq).1, hc] at hd
      cases hd

theorem toList_text_nil : (list []).text.toList = ['(', ')'] :=
  rfl

theorem toList_text_cons (item : Outline) (items : List Outline) :
    (list (item :: items)).text.toList
      = '(' :: (item.text.toList ++ (Scheme.spaced (texts items) ++ [')'])) := by
  rw [Outline.text, texts, String.toList_append, String.toList_append,
    Scheme.toList_intercalate_cons]
  simp

/-- A list begins with a parenthesis. -/
theorem toList_text_list (items : List Outline) :
    ∃ inside, (list items).text.toList = '(' :: inside := by
  cases items with
  | nil => exact ⟨_, toList_text_nil⟩
  | cons item items => exact ⟨_, toList_text_cons item items⟩

/-- What is nested begins with no closing parenthesis. -/
theorem Plain.append_ne_close {t : Outline} (h : t.Plain) :
    t.text.toList ++ rest ≠ ')' :: rest' := by
  cases h with
  | word h =>
      exact h.append_ne rfl
  | list =>
      intro heq
      obtain ⟨inside, htext⟩ := toList_text_list _
      rw [htext] at heq
      cases heq

mutual

/-- **What is nested is all in the text**, and the text says where it ends.  What is behind it
begins where a word ends, and so does whatever is behind the parts of a list. -/
theorem eq_of_text : ∀ {t t' : Outline} {rest rest' : List Char}, t.Plain → t'.Plain →
    Ends rest → Ends rest' → t.text.toList ++ rest = t'.text.toList ++ rest' →
    t = t' ∧ rest = rest'
  | word _, word _, _, _, .word h, .word h', hrest, hrest', heq => by
      obtain ⟨rfl, rfl⟩ := h.eq h' hrest hrest' heq
      exact ⟨rfl, rfl⟩
  | word _, list items, _, _, .word h, _, _, _, heq => by
      obtain ⟨inside, htext⟩ := toList_text_list items
      rw [htext] at heq
      exact absurd heq (h.append_ne rfl)
  | list items, word _, _, _, _, .word h', _, _, heq => by
      obtain ⟨inside, htext⟩ := toList_text_list items
      rw [htext] at heq
      exact absurd heq.symm (h'.append_ne rfl)
  | list [], list [], _, _, _, _, _, _, heq => by
      rw [toList_text_nil] at heq
      exact ⟨rfl, by simpa using heq⟩
  | list [], list (item :: items), _, _, _, .list h', _, _, heq => by
      simp only [toList_text_nil, toList_text_cons, List.cons_append, List.append_assoc,
        List.cons.injEq, true_and] at heq
      exact absurd heq.symm (h' item List.mem_cons_self).append_ne_close
  | list (item :: items), list [], _, _, .list h, _, _, _, heq => by
      simp only [toList_text_nil, toList_text_cons, List.cons_append, List.append_assoc,
        List.cons.injEq, true_and] at heq
      exact absurd heq (h item List.mem_cons_self).append_ne_close
  | list (item :: items), list (item' :: items'), rest, rest', .list h, .list h', _, _, heq => by
      rw [List.forall_mem_cons] at h h'
      simp only [toList_text_cons, List.cons_append, List.append_assoc, List.cons.injEq, true_and,
        List.nil_append] at heq
      obtain ⟨rfl, hbehind⟩ := eq_of_text h.1 h'.1 (ends_spaced _ _) (ends_spaced _ _) heq
      obtain ⟨rfl, rfl⟩ := eq_of_spaced h.2 h'.2 hbehind
      exact ⟨rfl, rfl⟩

theorem eq_of_spaced : ∀ {items items' : List Outline} {rest rest' : List Char},
    (∀ item ∈ items, item.Plain) → (∀ item ∈ items', item.Plain) →
    Scheme.spaced (texts items) ++ ')' :: rest = Scheme.spaced (texts items') ++ ')' :: rest' →
    items = items' ∧ rest = rest'
  | [], [], _, _, _, _, heq => ⟨rfl, (List.cons.inj heq).2⟩
  | [], _ :: _, _, _, _, _, heq => by
      cases heq
  | _ :: _, [], _, _, _, _, heq => by
      cases heq
  | item :: items, item' :: items', _, _, h, h', heq => by
      rw [List.forall_mem_cons] at h h'
      simp only [texts, Scheme.spaced, List.flatMap_cons, List.cons_append, List.append_assoc,
        List.cons.injEq, true_and] at heq
      obtain ⟨rfl, hbehind⟩ := eq_of_text h.1 h'.1 (ends_spaced _ _) (ends_spaced _ _) heq
      obtain ⟨rfl, rfl⟩ := eq_of_spaced h.2 h'.2 hbehind
      exact ⟨rfl, rfl⟩

end

/-- The same for several lines. -/
theorem eq_of_lines {ts ts' : List Outline} (h : ∀ t ∈ ts, t.Plain) (h' : ∀ t ∈ ts', t.Plain)
    (heq : (ts.flatMap fun t => t.text.toList ++ ['\n'])
      = ts'.flatMap fun t => t.text.toList ++ ['\n']) : ts = ts' := by
  induction ts generalizing ts' with
  | nil =>
      cases ts' with
      | nil => rfl
      | cons t ts' => simp at heq
  | cons t ts ih =>
      cases ts' with
      | nil => simp at heq
      | cons t' ts' =>
          rw [List.forall_mem_cons] at h h'
          simp only [List.flatMap_cons, List.append_assoc, List.cons_append,
            List.nil_append] at heq
          obtain ⟨rfl, hbehind⟩ := eq_of_text h.1 h'.1 (ends_newline _) (ends_newline _) heq
          rw [ih h.2 h'.2 (List.cons.inj hbehind).2]

end Reading

end Outline

end Lox
