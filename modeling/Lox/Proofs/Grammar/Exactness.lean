/-
Programs are exactly what the rules derive.

Declarations are read to the very end of the tokens, so nothing that can be read is left
over, and nothing that was dropped goes without a fault.
-/
import Lox.Proofs.Grammar.Fuel
import Lox.Proofs.Grammar.Soundness.Statements
import Lox.Proofs.Grammar.Completeness.Statements

namespace Lox.Grammar

open Reader

/-- Reading to the end moves forward, whatever faults there are. -/
theorem toEnd_reaches {fuel : Nat} {c : Cursor} (hfuel : 24 * c.rest.length + 17 ≤ fuel) :
    c.Reaches (toEnd fuel c).2 := by
  induction fuel generalizing c with
  | zero => omega
  | succ fuel ih =>
      rw [toEnd]
      split
      · exact .refl c
      · rename_i token rest hrest
        have hshort : c.rest.length = rest.length + 1 := by rw [hrest]; rfl
        obtain ⟨hreach, hless⟩ := recovering_reaches (keptDeclaration_orderly fuel c (by omega))
        rw [declaration_eq (by omega)]
        exact hreach.trans (ih (by omega))

/-- Numbers of occurrences are only ever used up. -/
theorem parse_lastId_le (tokens : List Token) (endLine lastId : Nat) :
    lastId ≤ (parse tokens endLine lastId).lastId :=
  (toEnd_reaches (c := ⟨tokens, endLine, lastId, []⟩)
    (show _ ≤ fuelFor tokens by simp only [fuelFor]; omega)).lastId

/-- Whatever is read to the end without a fault is a program. -/
theorem toEnd_sound : ∀ (fuel : Nat) {c c' : Cursor} {program : List Stmt},
    24 * c.rest.length + 17 ≤ fuel → toEnd fuel c = (program, c') → c'.faults = [] →
    c'.rest = [] ∧ c.faults = [] ∧ Derives.Declarations c.lastId c.rest c'.lastId program
  | 0, _, _, _, hfuel, _, _ => by omega
  | fuel + 1, c, c', program, hfuel, h, hnil => by
      rw [toEnd] at h
      split at h
      · rename_i hrest
        obtain ⟨rfl, rfl⟩ := Prod.mk.inj h
        exact ⟨hrest, hnil, hrest ▸ .none⟩
      · rename_i token rest hrest
        have hshort : c.rest.length = rest.length + 1 := by rw [hrest]; rfl
        have hkept := keptDeclaration_orderly fuel c (by omega)
        have hreach := (recovering_reaches hkept).2
        have hdropped := recovering_dropped hkept
        rw [declaration_eq (by omega)] at h
        obtain ⟨first, c₁, hfirst⟩ : ∃ first c₁,
            recovering (keptDeclaration (fuel - 1)) c = (some first, c₁) := by
          unfold recovering
          split <;> exact ⟨_, _, rfl⟩
        obtain ⟨others, c₂, hothers⟩ : ∃ others c₂, toEnd fuel c₁ = (others, c₂) :=
          ⟨_, _, rfl⟩
        simp only [hfirst, hothers, Prod.mk.injEq] at h hreach hdropped
        obtain ⟨rfl, rfl⟩ := h
        obtain ⟨hend, hnil₁, hothers⟩ := toEnd_sound fuel (by omega) hothers hnil
        cases first with
        | none => simp [hnil₁] at hdropped
        | some s =>
            obtain ⟨hnil₀, before, hbefore, hs⟩ :=
              keptDeclaration_sound fuel (by omega) (recovering_eq_some hfirst) hnil₁
            refine ⟨hend, hnil₀, ?_⟩
            rw [hbefore]
            exact .more hs hothers

/-- Declarations are read as the rules say, and then whatever stands behind them. -/
theorem toEnd_front {first last : Nat} {tokens : List Token} {program : List Stmt}
    (behind : List Token) (endLine : Nat) (faults : List Fault) (fuel : Nat)
    (h : Derives.Declarations first tokens last program) (hbehind : Avoids [.kwElse] behind)
    (hfuel : 24 * (tokens ++ behind).length + 17 ≤ fuel) :
    toEnd fuel ⟨tokens ++ behind, endLine, first, faults⟩
      = (program ++ (toEnd fuel ⟨behind, endLine, last, faults⟩).1,
          (toEnd fuel ⟨behind, endLine, last, faults⟩).2) := by
  induction program generalizing first tokens fuel with
  | nil =>
      cases h with
      | none => rfl
  | cons s rest ih =>
      cases h with
      | @more _ middle _ before others _ _ declaration row =>
          obtain ⟨fuel, rfl⟩ := Nat.exists_eq_succ_of_ne_zero (show fuel ≠ 0 by omega)
          rw [List.append_assoc] at hfuel ⊢
          have hread := declaration.reads (others ++ behind) endLine faults fuel
            (row.avoids hbehind) (by omega)
          have hfirst : Grammar.declaration fuel
              ⟨before ++ (others ++ behind), endLine, first, faults⟩
                = (some (some s), ⟨others ++ behind, endLine, middle, faults⟩) := by
            rw [declaration_eq (by omega)]
            exact recovering_of_some hread
          obtain ⟨token, more, rfl, -⟩ := declaration.starts
          simp only [List.length_append, List.length_cons] at hfuel
          have hothers := ih fuel row (by rw [List.length_append]; omega)
          have hsame : toEnd (fuel + 1) ⟨behind, endLine, last, faults⟩
              = toEnd fuel ⟨behind, endLine, last, faults⟩ :=
            toEnd_steady fuel _ (show 24 * behind.length + 17 ≤ fuel by omega)
          rw [hsame, toEnd_of_declaration rfl hfirst, hothers]
          rfl

/-- Declarations with nothing behind them are read to the very end. -/
theorem toEnd_complete {first last : Nat} {tokens : List Token} {program : List Stmt}
    (endLine : Nat) (faults : List Fault) (fuel : Nat)
    (h : Derives.Declarations first tokens last program) (hfuel : 24 * tokens.length + 17 ≤ fuel) :
    toEnd fuel ⟨tokens, endLine, first, faults⟩ = (program, ⟨[], endLine, last, faults⟩) := by
  have hfront := toEnd_front [] endLine faults fuel h (fun _ hnone => nomatch hnone)
    (by rw [List.append_nil]; exact hfuel)
  have hnothing := toEnd_of_nil (c := ⟨[], endLine, last, faults⟩) rfl fuel
  rw [List.append_nil, hnothing, List.append_nil] at hfront
  exact hfront

/-- What is read without a fault is a program. -/
theorem parse_sound {tokens : List Token} {endLine lastId : Nat}
    (h : (parse tokens endLine lastId).faults = []) :
    Derives.Program lastId tokens (parse tokens endLine lastId).lastId
      (parse tokens endLine lastId).program := by
  obtain ⟨-, -, hderives⟩ := toEnd_sound (fuelFor tokens) (c := ⟨tokens, endLine, lastId, []⟩)
    (by simp only [fuelFor]; omega) rfl h
  exact hderives

/-- What the rules derive is read, and nothing else with it. -/
theorem Derives.Program.parse_eq {first last : Nat} {tokens : List Token} {program : List Stmt}
    (h : Derives.Program first tokens last program) (endLine : Nat) :
    parse tokens endLine first = ⟨program, [], last⟩ := by
  have hread := toEnd_complete endLine [] (fuelFor tokens) h (by rw [fuelFor]; omega)
  rw [parse, hread]

/-- **A row of tokens has the trees that the rules derive, and no others.**  It is read
without a fault exactly if the rules derive it, and then what is read is the one tree
they allow. -/
theorem parse_iff_derives (tokens : List Token) (endLine lastId : Nat) :
    ((parse tokens endLine lastId).faults = [] ↔
      ∃ program last, Derives.Program lastId tokens last program) ∧
    ∀ program last, Derives.Program lastId tokens last program ↔
      parse tokens endLine lastId = ⟨program, [], last⟩ := by
  have hcomplete : ∀ program last, Derives.Program lastId tokens last program →
      parse tokens endLine lastId = ⟨program, [], last⟩ :=
    fun program last h => h.parse_eq endLine
  refine ⟨⟨fun hnil => ⟨_, _, parse_sound hnil⟩, ?_⟩, fun program last => ⟨hcomplete program last, ?_⟩⟩
  · rintro ⟨program, last, h⟩
    rw [hcomplete program last h]
  · intro h
    have hderives : Derives.Program lastId tokens (parse tokens endLine lastId).lastId
        (parse tokens endLine lastId).program := parse_sound (by rw [h])
    rwa [h] at hderives

/-! ### Programs one after the other -/

/-- A program behind another one, whose numbers go on where those of the other end, is one
program together with it. -/
theorem Derives.Program.append {first middle last : Nat} {before behind : List Token}
    {program others : List Stmt} (h : Derives.Program first before middle program)
    (hothers : Derives.Program middle behind last others) :
    Derives.Program first (before ++ behind) last (program ++ others) := by
  induction program generalizing first before with
  | nil =>
      cases h with
      | none => exact hothers
  | cons s rest ih =>
      cases h with
      | more declaration row =>
          rw [List.append_assoc, List.cons_append]
          exact .more declaration (ih row)

end Lox.Grammar
