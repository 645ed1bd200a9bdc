/-
Numbers in outlines.

A finite number is its digits, with a point in them at most and a minus in front if it is
negative; the digits tell which magnitude it is, and the sign is there to be seen.  So an
outline shows different numbers differently, and none like a word of letters.
-/
import Lox.Proofs.Decimal.Doubles
import Lox.Proofs.Decimal.Shortest
import Lox.Proofs.Outline.Nested

namespace Lox

open Decimal

variable {x y : Float} {b : Binary}

theorem toList_render (h : shape x = .finite b) :
    (numberLayout.render x).toList
      = if isNegative x then '-' :: b.shortest.inFull false else b.shortest.inFull false := by
  rw [Layout.render, h]
  exact String.toList_ofList

/-- The characters of a number. -/
theorem render_inside (h : shape x = .finite b) :
    ∀ c ∈ (numberLayout.render x).toList, c.isDigit = true ∨ c = '.' ∨ c = '-' := by
  obtain ⟨-, hdigits⟩ := inFull_digits b.shortest
  rw [toList_render h]
  intro c hc
  split at hc
  · rcases List.mem_cons.mp hc with rfl | hc
    · exact .inr (.inr rfl)
    · exact (hdigits c hc).imp_right .inl
  · exact (hdigits c hc).imp_right .inl

theorem isWord_render (h : shape x = .finite b) : Outline.IsWord (numberLayout.render x) := by
  refine ⟨fun hnil => ?_, fun c hc => ?_⟩
  · obtain ⟨⟨c, rest, htext, -⟩, -⟩ := inFull_digits b.shortest
    rw [toList_render h, htext] at hnil
    split at hnil <;> cases hnil
  · rcases render_inside h c hc with hdigit | rfl | rfl
    · exact Outline.isInside_of_isWordPart
        (by simp [Segment.isWordPart, Char.isAlphanum, hdigit])
    · rfl
    · rfl

/-- **Different finite numbers are shown differently.** -/
theorem eq_of_render {b' : Binary} (hx : shape x = .finite b) (hy : shape y = .finite b')
    (h : numberLayout.render x = numberLayout.render y) : x = y := by
  have htext := congrArg String.toList h
  rw [toList_render hx, toList_render hy] at htext
  -- Digits do not begin with a minus, so both have it or neither.
  obtain ⟨hsign, hdigits⟩ : isNegative x = isNegative y ∧
      b.shortest.inFull false = b'.shortest.inFull false := by
    obtain ⟨⟨c, rest, hb, hc⟩, -⟩ := inFull_digits b.shortest
    obtain ⟨⟨c', rest', hb', hc'⟩, -⟩ := inFull_digits b'.shortest
    rw [hb, hb'] at htext ⊢
    cases hnegative : isNegative x <;> cases hnegative' : isNegative y <;>
      simp only [hnegative, hnegative', if_true, Bool.false_eq_true, if_false,
        List.cons.injEq] at htext
    · exact ⟨rfl, by rw [htext.1, htext.2]⟩
    · rw [htext.1] at hc
      cases hc
    · rw [← htext.1] at hc'
      cases hc'
    · exact ⟨rfl, by rw [htext.2.1, htext.2.2]⟩
  obtain rfl := Binary.eq_of_shortest (formed_of_shape hx) (formed_of_shape hy)
    (Magnitude.value_eq_of_inFull hdigits)
  exact eq_of_shape hx hy hsign

end Lox
