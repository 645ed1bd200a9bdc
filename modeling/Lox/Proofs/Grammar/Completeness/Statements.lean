/-
A statement or a declaration that follows the rules is read without a fault, and as the
rules say.

The rules say nothing about what stands behind a statement, except that an `else` belongs
to the nearest `if`.  So a statement that is open is read as a whole unless an `else`
follows, and any other whatever follows.
-/
import Lox.Proofs.Grammar.Completeness.Expressions

namespace Lox.Grammar

open Reader

/-! ### Parts of statements -/

section Parts

variable {first last : Nat} {tokens : List Token}

/-- An expression at the loosest level is read up to a token that does not continue it. -/
theorem anyExpression_complete (behind : List Token) (endLine : Nat) (faults : List Fault)
    (fuel : Nat) {e : Expr} {closing : Token}
    (h : Derives.Expression .comma first tokens last e)
    (hclosing : closing.kind = .semicolon ∨ closing.kind = .rightParen)
    (hfuel : 24 * (tokens ++ closing :: behind).length + 14 ≤ fuel) :
    anyExpression fuel ⟨tokens ++ closing :: behind, endLine, first, faults⟩
      = (some e, ⟨closing :: behind, endLine, last, faults⟩) := by
  refine h.reads.whole _ _ _ _ (avoids_cons ?_) hfuel
  rcases hclosing with h | h <;> rw [h] <;> decide

theorem optionalExpression_complete (behind : List Token) (endLine : Nat)
    (faults : List Fault) (fuel : Nat) {stop : TokenKind} {value : Option Expr}
    (hstop : stop = .semicolon ∨ stop = .rightParen)
    (h : Derives.Clause stop first tokens last value)
    (hfuel : 24 * (tokens ++ behind).length + 14 ≤ fuel) :
    ∃ closing, closing.kind = stop ∧
      optionalExpression stop fuel ⟨tokens ++ behind, endLine, first, faults⟩
        = (some value, ⟨closing :: behind, endLine, last, faults⟩) := by
  cases h with
  | @absent closing isClosing =>
      refine ⟨closing, isClosing, ?_⟩
      rw [optionalExpression, bind_of_some (rfl : nextKind _ = _), if_pos (by simp [isClosing])]
      rfl
  | @present _ tokens closing e isClosing h =>
      refine ⟨closing, isClosing, ?_⟩
      have htokens : tokens ++ [closing] ++ behind = tokens ++ closing :: behind := by simp
      rw [htokens] at hfuel ⊢
      have hread := anyExpression_complete _ endLine faults _ h
        (by rw [isClosing]; exact hstop) hfuel
      have hhead : Avoids [stop] (tokens ++ closing :: behind) :=
        h.avoids (by rcases hstop with rfl | rfl <;> decide) _
      rw [optionalExpression, bind_of_some (rfl : nextKind _ = _), if_neg hhead.head_ne]
      exact map_of_some hread

theorem variableDeclaration_complete (behind : List Token) (endLine : Nat)
    (faults : List Fault) (fuel : Nat) {s : Stmt} (h : Derives.Variable first tokens last s)
    (hfuel : 24 * (tokens ++ behind).length ≤ fuel) :
    ∃ keyword rest, tokens = keyword :: rest ∧ keyword.kind = .kwVar ∧
      variableDeclaration fuel ⟨rest ++ behind, endLine, first, faults⟩
        = (some s, ⟨behind, endLine, last, faults⟩) := by
  cases h with
  | @plain keyword name semicolon _ isVar isName isSemicolon =>
      refine ⟨keyword, [name, semicolon], rfl, isVar, ?_⟩
      have hname := expect_cons "variable name"
        ⟨[name, semicolon] ++ behind, endLine, first, faults⟩ rfl isName
      have hnot : accept [.equal] ⟨semicolon :: behind, endLine, first, faults⟩
          = (some none, ⟨semicolon :: behind, endLine, first, faults⟩) :=
        accept_of_not (avoids_cons (by rw [isSemicolon]; decide))
      have hsemicolon := expect_cons "';' after variable declaration"
        ⟨semicolon :: behind, endLine, first, faults⟩ rfl isSemicolon
      have hnone : optionalInitializer fuel ⟨semicolon :: behind, endLine, first, faults⟩
          = (some none, ⟨semicolon :: behind, endLine, first, faults⟩) := bind_of_some hnot
      rw [variableDeclaration_eq, bind_of_some hname]
      exact (bind_of_some hnone).trans (bind_of_some hsemicolon)
  | @initialized keyword name equals semicolon _ _ tokens value isVar isName isEquals isSemicolon
      h =>
      refine ⟨keyword, name :: equals :: (tokens ++ [semicolon]), rfl, isVar, ?_⟩
      have hname := expect_cons "variable name"
        ⟨name :: equals :: (tokens ++ [semicolon]) ++ behind, endLine, first, faults⟩
        rfl isName
      have htokens : tokens ++ [semicolon] ++ behind = tokens ++ semicolon :: behind := by simp
      have haccept := accept_cons [.equal]
        ⟨equals :: (tokens ++ [semicolon] ++ behind), endLine, first, faults⟩ rfl
        (by simp [isEquals])
      have hread := anyExpression_complete behind endLine
        faults fuel h (Or.inl isSemicolon)
        (by simp only [List.length_append, List.length_cons, List.length_nil] at hfuel ⊢; omega)
      rw [← htokens] at hread
      have hsome : optionalInitializer fuel
            ⟨equals :: (tokens ++ [semicolon] ++ behind), endLine, first, faults⟩
          = (some (some value), ⟨semicolon :: behind, endLine, last, faults⟩) :=
        (bind_of_some haccept).trans (map_of_some hread)
      have hsemicolon := expect_cons "';' after variable declaration"
        ⟨semicolon :: behind, endLine, last, faults⟩ rfl isSemicolon
      rw [variableDeclaration_eq, bind_of_some hname]
      exact (bind_of_some hsome).trans (bind_of_some hsemicolon)

theorem expressionStatement_complete (behind : List Token) (endLine : Nat)
    (faults : List Fault) (fuel : Nat) {e : Expr}
    (h : Derives.Clause .semicolon first tokens last (some e))
    (hfuel : 24 * (tokens ++ behind).length + 14 ≤ fuel) :
    expressionStatement fuel ⟨tokens ++ behind, endLine, first, faults⟩
      = (some (.expression e), ⟨behind, endLine, last, faults⟩) := by
  cases h with
  | @present _ tokens semicolon _ isSemicolon h =>
      have htokens : tokens ++ [semicolon] ++ behind = tokens ++ semicolon :: behind := by simp
      rw [htokens] at hfuel ⊢
      have hread := anyExpression_complete _ endLine faults _ h
        (Or.inl isSemicolon) hfuel
      have hsemicolon := expect_cons "';' after expression"
        ⟨semicolon :: behind, endLine, last, faults⟩ rfl isSemicolon
      exact (bind_of_some hread).trans (bind_of_some hsemicolon)

theorem forInitializer_complete (behind : List Token) (endLine : Nat)
    (faults : List Fault) (fuel : Nat) {initializer : Option Stmt}
    (h : Derives.Initializer first tokens last initializer)
    (hfuel : 24 * (tokens ++ behind).length + 14 ≤ fuel) :
    forInitializer fuel ⟨tokens ++ behind, endLine, first, faults⟩
      = (some initializer, ⟨behind, endLine, last, faults⟩) := by
  cases h with
  | @var _ _ s h =>
      obtain ⟨keyword, rest, rfl, isVar, hread⟩ := variableDeclaration_complete
        behind endLine faults fuel h (by omega)
      have haccept := accept_cons [.semicolon, .kwVar]
        ⟨keyword :: (rest ++ behind), endLine, first, faults⟩ rfl (by simp [isVar])
      refine (bind_of_some haccept).trans ?_
      dsimp only
      rw [if_neg (by simp [isVar])]
      exact map_of_some hread
  | @clause _ _ value h =>
      cases value with
      | none =>
          cases h with
          | @absent semicolon isSemicolon =>
              have haccept := accept_cons [.semicolon, .kwVar]
                ⟨semicolon :: behind, endLine, first, faults⟩ rfl (by simp [isSemicolon])
              refine (bind_of_some haccept).trans ?_
              dsimp only
              rw [if_pos isSemicolon]
              rfl
      | some e =>
          have hread := expressionStatement_complete _ endLine faults _ h hfuel
          have hnot : accept [.semicolon, .kwVar] ⟨tokens ++ behind, endLine, first, faults⟩
              = (some none, ⟨tokens ++ behind, endLine, first, faults⟩) := by
            refine accept_of_not ?_
            cases h with
            | @present _ tokens semicolon _ isSemicolon h =>
                rw [List.append_assoc]
                exact h.avoids (by decide) _
          refine (bind_of_some hnot).trans ?_
          exact map_of_some hread

theorem optionalSuperclass_complete (behind : List Token) (endLine : Nat)
    (faults : List Fault) {superclass : Option Occurrence}
    (h : Derives.Superclass first tokens last superclass) {opening : Token}
    (isOpening : opening.kind = .leftBrace) :
    optionalSuperclass ⟨tokens ++ opening :: behind, endLine, first, faults⟩
      = (some superclass, ⟨opening :: behind, endLine, last, faults⟩) := by
  cases h with
  | absent =>
      have hnot : accept [.less] ⟨opening :: behind, endLine, first, faults⟩
          = (some none, ⟨opening :: behind, endLine, first, faults⟩) :=
        accept_of_not (avoids_cons (by rw [isOpening]; decide))
      exact bind_of_some hnot
  | @present less name _ isLess isName =>
      have haccept := accept_cons [.less]
        ⟨[less, name] ++ opening :: behind, endLine, first, faults⟩ rfl (by simp [isLess])
      have hname := expect_cons "superclass name"
        ⟨name :: opening :: behind, endLine, first, faults⟩ rfl isName
      exact (bind_of_some haccept).trans (bind_of_some hname)

theorem parenthesized_complete (left right : String) (behind : List Token) (endLine : Nat)
    (faults : List Fault) (fuel : Nat) {e : Expr} {opening closing : Token}
    (isOpening : opening.kind = .leftParen) (isClosing : closing.kind = .rightParen)
    (h : Derives.Expression .comma first tokens last e)
    (hfuel : 24 * (tokens ++ closing :: behind).length + 14 ≤ fuel) :
    parenthesized left right fuel
        ⟨opening :: (tokens ++ closing :: behind), endLine, first, faults⟩
      = (some e, ⟨behind, endLine, last, faults⟩) := by
  have hopening := expect_cons left
    ⟨opening :: (tokens ++ closing :: behind), endLine, first, faults⟩ rfl isOpening
  have hread := anyExpression_complete _ endLine faults _ h
    (Or.inr isClosing) hfuel
  have hclosing := expect_cons right
    ⟨closing :: behind, endLine, last, faults⟩ rfl isClosing
  rw [parenthesized, bind_of_some hopening, bind_of_some hread, bind_of_some hclosing]
  rfl

theorem paramsFrom_complete (behind : List Token) (first endLine : Nat)
    (faults : List Fault) {names : List Token} {closing : Token}
    (isClosing : closing.kind = .rightParen) : ∀ {tokens : List Token} (count fuel : Nat),
    Derives.Parameters tokens names → names ≠ [] → count + names.length ≤ 255 →
    24 * (tokens ++ closing :: behind).length ≤ fuel →
    paramsFrom fuel count ⟨tokens ++ closing :: behind, endLine, first, faults⟩
      = (some names, ⟨closing :: behind, endLine, first, faults⟩) := by
  intro tokens count fuel h
  induction h generalizing count fuel with
  | none => exact fun hnonempty => absurd rfl hnonempty
  | @last name isName =>
      intro _ few hfuel
      simp only [List.length_append, List.length_cons] at hfuel
      obtain ⟨fuel, rfl⟩ := Nat.exists_eq_succ_of_ne_zero (show fuel ≠ 0 by omega)
      have hcount := checkCount_of_lt .tooManyParameters
        (show count < 255 by simp only [List.length_singleton] at few; omega)
      have hname := expect_cons "parameter name"
        ⟨[name] ++ closing :: behind, endLine, first, faults⟩ rfl isName
      have hnot : accept [.comma] ⟨closing :: behind, endLine, first, faults⟩
          = (some none, ⟨closing :: behind, endLine, first, faults⟩) :=
        accept_of_not (avoids_cons (by rw [isClosing]; decide))
      rw [paramsFrom_succ, bind_of_some (hcount _), bind_of_some hname]
      exact bind_of_some hnot
  | @more name comma tokens names isName isComma hnonempty _ ih =>
      intro _ few hfuel
      simp only [List.length_append, List.length_cons] at hfuel few
      obtain ⟨fuel, rfl⟩ := Nat.exists_eq_succ_of_ne_zero (show fuel ≠ 0 by omega)
      have hcount := checkCount_of_lt .tooManyParameters (show count < 255 by omega)
      have hname := expect_cons "parameter name"
        ⟨name :: comma :: tokens ++ closing :: behind, endLine, first, faults⟩ rfl isName
      have haccept := accept_cons [.comma]
        ⟨comma :: (tokens ++ closing :: behind), endLine, first, faults⟩ rfl
        (by simp [isComma])
      have hothers := ih (count + 1) fuel hnonempty (by omega)
        (by simp only [List.length_append, List.length_cons]; omega)
      rw [paramsFrom_succ, bind_of_some (hcount _), bind_of_some hname]
      exact (bind_of_some haccept).trans (bind_of_some hothers)

theorem params_complete (behind : List Token) (first endLine : Nat) (faults : List Fault)
    (fuel : Nat) {names : List Token} {closing : Token} (isClosing : closing.kind = .rightParen)
    (h : Derives.Parameters tokens names)
    (few : names.length ≤ 255) (hfuel : 24 * (tokens ++ closing :: behind).length ≤ fuel) :
    params fuel ⟨tokens ++ closing :: behind, endLine, first, faults⟩
      = (some names, ⟨closing :: behind, endLine, first, faults⟩) := by
  rw [params, bind_of_some (rfl : nextKind _ = _)]
  by_cases hempty : names = []
  · subst hempty
    cases h
    rw [if_pos (by simp [isClosing])]
    rfl
  · have hhead : (tokens ++ closing :: behind).head?.map Token.kind ≠ some .rightParen := by
      cases h with
      | none => exact absurd rfl hempty
      | last isName => simp [isName]
      | more isName => simp [isName]
    rw [if_neg hhead]
    exact paramsFrom_complete behind first endLine faults isClosing 0 fuel h hempty (by omega)
      hfuel

end Parts

/-! ### Statements and declarations -/

/-- A statement begins with a token that neither a declaration nor what stands behind a
statement begins with. -/
theorem Derives.Statement.starts {isOpen : Bool} {first last : Nat} {tokens : List Token}
    {s : Stmt} (h : Derives.Statement isOpen first tokens last s) :
    ∃ token rest, tokens = token :: rest ∧
      token.kind ∉ [.kwClass, .kwFun, .kwVar, .rightBrace, .kwElse] := by
  cases h with
  | expression _ h =>
      obtain ⟨token, rest, rfl, hstart⟩ := h.starts
      refine ⟨token, _, rfl, ?_⟩
      revert hstart
      generalize token.kind = kind
      cases kind <;> decide
  | print h => exact ⟨_, _, rfl, by simp [h]⟩
  | breakLoop h => exact ⟨_, _, rfl, by simp [h]⟩
  | returnWith h => exact ⟨_, _, rfl, by simp [h]⟩
  | block h => exact ⟨_, _, rfl, by simp [h]⟩
  | whileLoop h => exact ⟨_, _, rfl, by simp [h]⟩
  | forLoop h => exact ⟨_, _, rfl, by simp [h]⟩
  | ifOnly h => exact ⟨_, _, rfl, by simp [h]⟩
  | ifElse h => exact ⟨_, _, rfl, by simp [h]⟩

theorem Derives.Declaration.starts {first last : Nat} {tokens : List Token} {s : Stmt}
    (h : Derives.Declaration first tokens last s) :
    ∃ token rest, tokens = token :: rest ∧ token.kind ∉ [.rightBrace, .kwElse] := by
  cases h with
  | statement h =>
      obtain ⟨token, rest, rfl, hstart⟩ := h.starts
      exact ⟨token, rest, rfl, by simp_all⟩
  | var h =>
      cases h with
      | plain h => exact ⟨_, _, rfl, by simp [h]⟩
      | initialized h => exact ⟨_, _, rfl, by simp [h]⟩
  | function h => exact ⟨_, _, rfl, by simp [h]⟩
  | classDecl h => exact ⟨_, _, rfl, by simp [h]⟩

/-- Nothing but the end of a block stands here. -/
def Ends (tokens : List Token) : Prop :=
  ∀ token ∈ tokens.head?, token.kind = .rightBrace

theorem Ends.avoids {tokens : List Token} (h : Ends tokens) : Avoids [.kwElse] tokens :=
  fun token htoken => by simp [h token htoken]

/-- Where no `else` stands, none comes with declarations in front. -/
theorem Derives.Declarations.avoids {first last : Nat} {tokens : List Token}
    {body : List Stmt} (h : Derives.Declarations first tokens last body) {behind : List Token}
    (hbehind : Avoids [.kwElse] behind) : Avoids [.kwElse] (tokens ++ behind) := by
  cases h with
  | none => exact hbehind
  | more h _ =>
      obtain ⟨token, rest, rfl, hstart⟩ := h.starts
      exact avoids_cons fun hmem => hstart (List.mem_cons_of_mem _ hmem)

/-- The statement is read up to its end, if no `else` stands there that belongs to it. -/
def ReadsStatement (isOpen : Bool) (first : Nat) (tokens : List Token) (last : Nat)
    (s : Stmt) : Prop :=
  ∀ (behind : List Token) (endLine : Nat) (faults : List Fault) (fuel : Nat),
    (isOpen = true → Avoids [.kwElse] behind) → 24 * (tokens ++ behind).length + 15 ≤ fuel →
    statement fuel ⟨tokens ++ behind, endLine, first, faults⟩
      = (some s, ⟨behind, endLine, last, faults⟩)

/-- The same for a declaration. -/
def ReadsDeclaration (first : Nat) (tokens : List Token) (last : Nat) (s : Stmt) : Prop :=
  ∀ (behind : List Token) (endLine : Nat) (faults : List Fault) (fuel : Nat),
    Avoids [.kwElse] behind → 24 * (tokens ++ behind).length + 16 ≤ fuel →
    keptDeclaration (fuel - 1) ⟨tokens ++ behind, endLine, first, faults⟩
      = (some s, ⟨behind, endLine, last, faults⟩)

/-- Declarations are read up to the end of a block. -/
def ReadsDeclarations (first : Nat) (tokens : List Token) (last : Nat) (body : List Stmt) :
    Prop :=
  ∀ (behind : List Token) (endLine : Nat) (faults : List Fault) (fuel : Nat),
    Ends behind → 24 * (tokens ++ behind).length + 17 ≤ fuel →
    declarations fuel ⟨tokens ++ behind, endLine, first, faults⟩
      = (some body, ⟨behind, endLine, last, faults⟩)

def ReadsFunction (first : Nat) (tokens : List Token) (last : Nat) (f : FunctionDecl) : Prop :=
  ∀ (role : String) (behind : List Token) (endLine : Nat) (faults : List Fault) (fuel : Nat),
    24 * (tokens ++ behind).length + 1 ≤ fuel →
    function fuel role ⟨tokens ++ behind, endLine, first, faults⟩
      = (some f, ⟨behind, endLine, last, faults⟩)

/-- Methods are read up to the end of a class. -/
def ReadsMethods (first : Nat) (tokens : List Token) (last : Nat) (fs : List FunctionDecl) :
    Prop :=
  ∀ (closing : Token) (behind : List Token) (endLine : Nat) (faults : List Fault) (fuel : Nat),
    closing.kind = .rightBrace → 24 * (tokens ++ closing :: behind).length + 2 ≤ fuel →
    methods fuel ⟨tokens ++ closing :: behind, endLine, first, faults⟩
      = (some fs, ⟨closing :: behind, endLine, last, faults⟩)

section Statements

variable {isOpen : Bool} {first second third middle last : Nat} {tokens : List Token}
  {s : Stmt} {body : List Stmt}

/-- A statement with a keyword is read by the rule for the keyword. -/
theorem ReadsStatement.of_keyword {keyword : Token}
    (hmem : keyword.kind ∈ [TokenKind.kwBreak, .kwFor, .kwIf, .kwPrint, .kwReturn, .kwWhile,
      .leftBrace])
    (h : ∀ (behind : List Token) (endLine : Nat) (faults : List Fault) (fuel : Nat),
      (isOpen = true → Avoids [.kwElse] behind) →
      24 * (tokens ++ behind).length + 38 ≤ fuel →
      statementAt keyword fuel ⟨tokens ++ behind, endLine, first, faults⟩
        = (some s, ⟨behind, endLine, last, faults⟩)) :
    ReadsStatement isOpen first (keyword :: tokens) last s := by
  intro behind endLine faults fuel hbehind hfuel
  simp only [List.length_append, List.length_cons] at hfuel
  obtain ⟨fuel, rfl⟩ := Nat.exists_eq_succ_of_ne_zero (show fuel ≠ 0 by omega)
  have haccept := accept_cons _ ⟨keyword :: tokens ++ behind, endLine, first, faults⟩
    rfl hmem
  rw [statement_succ, bind_of_some haccept]
  exact h behind endLine faults fuel hbehind (by simp only [List.length_append]; omega)

theorem ReadsStatement.expression {semicolon : Token} {e : Expr}
    (isSemicolon : semicolon.kind = .semicolon)
    (h : Derives.Expression .comma first tokens last e) :
    ReadsStatement false first (tokens ++ [semicolon]) last (.expression e) := by
  intro behind endLine faults fuel _ hfuel
  obtain ⟨fuel, rfl⟩ := Nat.exists_eq_succ_of_ne_zero (show fuel ≠ 0 by omega)
  have hnot : accept [.kwBreak, .kwFor, .kwIf, .kwPrint, .kwReturn, .kwWhile, .leftBrace]
      ⟨tokens ++ [semicolon] ++ behind, endLine, first, faults⟩
      = (some none, ⟨tokens ++ [semicolon] ++ behind, endLine, first, faults⟩) := by
    rw [List.append_assoc]
    exact accept_of_not (h.avoids (by decide) _)
  rw [statement_succ, bind_of_some hnot]
  exact expressionStatement_complete _ _ _ _ (.present isSemicolon h) (by omega)

theorem ReadsStatement.print {keyword semicolon : Token} {e : Expr}
    (isPrint : keyword.kind = .kwPrint) (isSemicolon : semicolon.kind = .semicolon)
    (h : Derives.Expression .comma first tokens last e) :
    ReadsStatement false first (keyword :: (tokens ++ [semicolon])) last (.print keyword e) := by
  refine .of_keyword (by simp [isPrint]) fun behind endLine faults fuel _ hfuel => ?_
  have htokens : tokens ++ [semicolon] ++ behind = tokens ++ semicolon :: behind := by simp
  rw [htokens] at hfuel ⊢
  have hread := anyExpression_complete behind endLine faults
    fuel h (Or.inl isSemicolon) (by omega)
  have hsemicolon := expect_cons "';' after value"
    ⟨semicolon :: behind, endLine, last, faults⟩ rfl isSemicolon
  simp only [statementAt, isPrint]
  exact (bind_of_some hread).trans (bind_of_some hsemicolon)

theorem ReadsStatement.breakLoop {keyword semicolon : Token}
    (isBreak : keyword.kind = .kwBreak) (isSemicolon : semicolon.kind = .semicolon) :
    ReadsStatement false first [keyword, semicolon] first (.breakLoop keyword) := by
  refine .of_keyword (by simp [isBreak]) fun behind endLine faults fuel _ _ => ?_
  have hsemicolon := expect_cons "';' after 'break'"
    ⟨[semicolon] ++ behind, endLine, first, faults⟩ rfl isSemicolon
  simp only [statementAt, isBreak]
  exact bind_of_some hsemicolon

theorem ReadsStatement.returnWith {keyword : Token} {value : Option Expr}
    (isReturn : keyword.kind = .kwReturn) (h : Derives.Clause .semicolon first tokens last value) :
    ReadsStatement false first (keyword :: tokens) last (.returnWith keyword value) := by
  refine .of_keyword (by simp [isReturn]) fun behind endLine faults fuel _ hfuel => ?_
  obtain ⟨semicolon, isSemicolon, hread⟩ := optionalExpression_complete behind
    endLine faults fuel (Or.inl rfl) h (by omega)
  have hsemicolon := expect_cons "';' after return value"
    ⟨semicolon :: behind, endLine, last, faults⟩ rfl isSemicolon
  simp only [statementAt, isReturn]
  exact (bind_of_some hread).trans (bind_of_some hsemicolon)

/-- The rest of a block. -/
theorem ReadsDeclarations.block (h : ReadsDeclarations first tokens last body)
    (behind : List Token) (endLine : Nat) (faults : List Fault) (fuel : Nat) {closing : Token}
    (isClosing : closing.kind = .rightBrace)
    (hfuel : 24 * (tokens ++ [closing] ++ behind).length + 18 ≤ fuel) :
    block fuel ⟨tokens ++ [closing] ++ behind, endLine, first, faults⟩
      = (some body, ⟨behind, endLine, last, faults⟩) := by
  have htokens : tokens ++ [closing] ++ behind = tokens ++ closing :: behind := by simp
  rw [htokens] at hfuel ⊢
  obtain ⟨fuel, rfl⟩ := Nat.exists_eq_succ_of_ne_zero (show fuel ≠ 0 by omega)
  have hread := h (closing :: behind) endLine faults fuel (by simpa [Ends] using isClosing)
    (by omega)
  have hclosing := expect_cons "'\x7d' after block"
    ⟨closing :: behind, endLine, last, faults⟩ rfl isClosing
  exact (bind_of_some hread).trans (bind_of_some hclosing)

theorem ReadsStatement.block {opening closing : Token} (isOpening : opening.kind = .leftBrace)
    (isClosing : closing.kind = .rightBrace) (h : ReadsDeclarations first tokens last body) :
    ReadsStatement false first (opening :: (tokens ++ [closing])) last (.block body) := by
  refine .of_keyword (by simp [isOpening]) fun behind endLine faults fuel _ hfuel => ?_
  simp only [statementAt, isOpening]
  exact map_of_some (h.block _ _ _ _ isClosing (by omega))

theorem ReadsStatement.whileLoop {keyword opening closing : Token} {tested repeated : List Token}
    {condition : Expr} (isWhile : keyword.kind = .kwWhile)
    (isOpening : opening.kind = .leftParen) (isClosing : closing.kind = .rightParen)
    (test : Derives.Expression .comma first tested middle condition)
    (loop : ReadsStatement isOpen middle repeated last s) :
    ReadsStatement isOpen first (keyword :: opening :: (tested ++ closing :: repeated)) last
      (.whileLoop condition s) := by
  refine .of_keyword (by simp [isWhile]) fun behind endLine faults fuel hbehind hfuel => ?_
  have htokens : opening :: (tested ++ closing :: repeated) ++ behind
      = opening :: (tested ++ closing :: (repeated ++ behind)) := by simp
  rw [htokens] at hfuel ⊢
  simp only [List.length_append, List.length_cons] at hfuel
  have htest := parenthesized_complete "'(' after 'while'" "')' after condition"
    (repeated ++ behind) endLine faults fuel isOpening isClosing test
    (by simp only [List.length_append, List.length_cons]; omega)
  have hloop := loop behind endLine faults fuel hbehind
    (by simp only [List.length_append]; omega)
  simp only [statementAt, isWhile]
  exact (bind_of_some htest).trans (bind_of_some hloop)

theorem ReadsStatement.ifOnly {keyword opening closing : Token} {tested chosen : List Token}
    {condition : Expr} (isIf : keyword.kind = .kwIf) (isOpening : opening.kind = .leftParen)
    (isClosing : closing.kind = .rightParen)
    (test : Derives.Expression .comma first tested middle condition)
    (thenBranch : ReadsStatement isOpen middle chosen last s) :
    ReadsStatement true first (keyword :: opening :: (tested ++ closing :: chosen)) last
      (.ifElse condition s none) := by
  refine .of_keyword (by simp [isIf]) fun behind endLine faults fuel hbehind hfuel => ?_
  have htokens : opening :: (tested ++ closing :: chosen) ++ behind
      = opening :: (tested ++ closing :: (chosen ++ behind)) := by simp
  rw [htokens] at hfuel ⊢
  simp only [List.length_append, List.length_cons] at hfuel
  have htest := parenthesized_complete "'(' after 'if'" "')' after if condition"
    (chosen ++ behind) endLine faults fuel isOpening isClosing test
    (by simp only [List.length_append, List.length_cons]; omega)
  have hchosen := thenBranch behind endLine faults fuel (fun _ => hbehind rfl)
    (by simp only [List.length_append]; omega)
  have hnot : accept [.kwElse] ⟨behind, endLine, last, faults⟩
      = (some none, ⟨behind, endLine, last, faults⟩) := accept_of_not (hbehind rfl)
  simp only [statementAt, isIf]
  rw [bind_of_some htest, bind_of_some hchosen]
  exact bind_of_some hnot

theorem ReadsStatement.ifElse {keyword opening closing otherwise : Token}
    {tested chosen other : List Token} {condition : Expr} {onTrue onFalse : Stmt}
    (isIf : keyword.kind = .kwIf) (isOpening : opening.kind = .leftParen)
    (isClosing : closing.kind = .rightParen) (isElse : otherwise.kind = .kwElse)
    (test : Derives.Expression .comma first tested second condition)
    (thenBranch : ReadsStatement false second chosen third onTrue)
    (elseBranch : ReadsStatement isOpen third other last onFalse) :
    ReadsStatement isOpen first
      (keyword :: opening :: (tested ++ closing :: (chosen ++ otherwise :: other))) last
      (.ifElse condition onTrue (some onFalse)) := by
  refine .of_keyword (by simp [isIf]) fun behind endLine faults fuel hbehind hfuel => ?_
  have htokens : opening :: (tested ++ closing :: (chosen ++ otherwise :: other)) ++ behind
      = opening :: (tested ++ closing :: (chosen ++ otherwise :: (other ++ behind))) := by simp
  rw [htokens] at hfuel ⊢
  simp only [List.length_append, List.length_cons] at hfuel
  have htest := parenthesized_complete "'(' after 'if'" "')' after if condition"
    (chosen ++ otherwise :: (other ++ behind)) endLine faults fuel isOpening isClosing test
    (by simp only [List.length_append, List.length_cons]; omega)
  have hchosen := thenBranch (otherwise :: (other ++ behind)) endLine faults fuel
    (fun h => absurd h (by decide)) (by simp only [List.length_append, List.length_cons]; omega)
  have haccept := accept_cons [.kwElse]
    ⟨otherwise :: (other ++ behind), endLine, third, faults⟩ rfl (by simp [isElse])
  have hother := elseBranch behind endLine faults fuel hbehind
    (by simp only [List.length_append]; omega)
  simp only [statementAt, isIf]
  rw [bind_of_some htest, bind_of_some hchosen]
  exact (bind_of_some haccept).trans (bind_of_some hother)

theorem ReadsStatement.forLoop {fourth : Nat} {keyword opening : Token}
    {start tested stepped repeated : List Token} {initializer : Option Stmt}
    {condition increment : Option Expr} (isFor : keyword.kind = .kwFor)
    (isOpening : opening.kind = .leftParen)
    (firstClause : Derives.Initializer first start second initializer)
    (secondClause : Derives.Clause .semicolon second tested third condition)
    (thirdClause : Derives.Clause .rightParen third stepped fourth increment)
    (loop : ReadsStatement isOpen fourth repeated last s) :
    ReadsStatement isOpen first
      (keyword :: opening :: (start ++ (tested ++ (stepped ++ repeated)))) last
      (Derives.forTree initializer condition increment s) := by
  refine .of_keyword (by simp [isFor]) fun behind endLine faults fuel hbehind hfuel => ?_
  have htokens : opening :: (start ++ (tested ++ (stepped ++ repeated))) ++ behind
      = opening :: (start ++ (tested ++ (stepped ++ (repeated ++ behind)))) := by simp
  rw [htokens] at hfuel ⊢
  simp only [List.length_append, List.length_cons] at hfuel
  obtain ⟨fuel, rfl⟩ := Nat.exists_eq_succ_of_ne_zero (show fuel ≠ 0 by omega)
  have hopening := expect_cons "'(' after 'for'"
    (c := ⟨opening :: (start ++ (tested ++ (stepped ++ (repeated ++ behind)))), endLine, first,
      faults⟩) rfl isOpening
  have hfirst := forInitializer_complete
    (tested ++ (stepped ++ (repeated ++ behind))) endLine
    faults fuel firstClause (by simp only [List.length_append]; omega)
  obtain ⟨semicolon, isSemicolon, hsecond⟩ := optionalExpression_complete
    (stepped ++ (repeated ++ behind)) endLine faults
    fuel (Or.inl rfl) secondClause (by simp only [List.length_append]; omega)
  have hsemicolon := expect_cons "';' after loop condition"
    ⟨semicolon :: (stepped ++ (repeated ++ behind)), endLine, third, faults⟩ rfl
    isSemicolon
  obtain ⟨closing, isClosing, hthird⟩ := optionalExpression_complete
    (repeated ++ behind) endLine faults fuel
    (Or.inr rfl) thirdClause (by simp only [List.length_append]; omega)
  have hclosing := expect_cons "')' after for clauses"
    ⟨closing :: (repeated ++ behind), endLine, fourth, faults⟩ rfl isClosing
  have hloop := loop behind endLine faults fuel hbehind
    (by simp only [List.length_append]; omega)
  simp only [statementAt, isFor]
  rw [forClauses_succ, bind_of_some hopening, bind_of_some hfirst, bind_of_some hsecond,
    bind_of_some hsemicolon, bind_of_some hthird, bind_of_some hclosing, bind_of_some hloop,
    Derives.forLoop_eq]
  rfl

/-- A declaration with a keyword is read by the rule for the keyword. -/
theorem ReadsDeclaration.of_keyword {keyword : Token}
    (hmem : keyword.kind ∈ [TokenKind.kwClass, .kwFun, .kwVar])
    (h : ∀ (behind : List Token) (endLine : Nat) (faults : List Fault) (fuel : Nat),
      24 * (tokens ++ behind).length + 38 ≤ fuel →
      declarationAt keyword fuel ⟨tokens ++ behind, endLine, first, faults⟩
        = (some s, ⟨behind, endLine, last, faults⟩)) :
    ReadsDeclaration first (keyword :: tokens) last s := by
  intro behind endLine faults fuel _ hfuel
  simp only [List.length_append, List.length_cons] at hfuel
  have haccept := accept_cons _ ⟨keyword :: tokens ++ behind, endLine, first, faults⟩
    rfl hmem
  rw [keptDeclaration, bind_of_some haccept]
  exact h behind endLine faults (fuel - 1) (by simp only [List.length_append]; omega)

theorem ReadsDeclaration.statement (h : ReadsStatement isOpen first tokens last s)
    (hstart : ∃ token rest, tokens = token :: rest ∧
      token.kind ∉ [.kwClass, .kwFun, .kwVar, .rightBrace, .kwElse]) :
    ReadsDeclaration first tokens last s := by
  intro behind endLine faults fuel hbehind hfuel
  have hnot : accept [.kwClass, .kwFun, .kwVar] ⟨tokens ++ behind, endLine, first, faults⟩
      = (some none, ⟨tokens ++ behind, endLine, first, faults⟩) := by
    obtain ⟨token, rest, rfl, hstart⟩ := hstart
    exact accept_of_not (avoids_cons fun hmem => hstart (by simp_all))
  rw [keptDeclaration, bind_of_some hnot]
  exact h behind endLine faults (fuel - 1) (fun _ => hbehind) (by omega)

theorem ReadsDeclaration.var (h : Derives.Variable first tokens last s) :
    ReadsDeclaration first tokens last s := by
  intro behind endLine faults fuel hbehind hfuel
  obtain ⟨keyword, rest, rfl, isVar, hread⟩ := variableDeclaration_complete behind
    endLine faults (fuel - 1) h (by omega)
  have haccept := accept_cons [.kwClass, .kwFun, .kwVar]
    ⟨keyword :: rest ++ behind, endLine, first, faults⟩ rfl (by simp [isVar])
  rw [keptDeclaration, bind_of_some haccept]
  simp only [declarationAt, isVar]
  exact hread

theorem ReadsDeclaration.function {keyword : Token} {f : FunctionDecl}
    (isFun : keyword.kind = .kwFun) (h : ReadsFunction first tokens last f) :
    ReadsDeclaration first (keyword :: tokens) last (.function f) := by
  refine .of_keyword (by simp [isFun]) fun behind endLine faults fuel hfuel => ?_
  simp only [declarationAt, isFun]
  exact map_of_some (h "function" behind endLine faults fuel (by omega))

theorem ReadsDeclaration.classDecl {keyword name opening closing : Token} {above : List Token}
    {superclass : Option Occurrence} {fs : List FunctionDecl}
    (isClass : keyword.kind = .kwClass) (isName : name.kind = .identifier)
    (isOpening : opening.kind = .leftBrace) (isClosing : closing.kind = .rightBrace)
    (inherited : Derives.Superclass first above middle superclass)
    (h : ReadsMethods middle tokens last fs) :
    ReadsDeclaration first (keyword :: name :: (above ++ opening :: (tokens ++ [closing]))) last
      (.classDecl name superclass fs) := by
  refine .of_keyword (by simp [isClass]) fun behind endLine faults fuel hfuel => ?_
  have htokens : name :: (above ++ opening :: (tokens ++ [closing])) ++ behind
      = name :: (above ++ opening :: (tokens ++ closing :: behind)) := by simp
  rw [htokens] at hfuel ⊢
  simp only [List.length_append, List.length_cons] at hfuel
  obtain ⟨fuel, rfl⟩ := Nat.exists_eq_succ_of_ne_zero (show fuel ≠ 0 by omega)
  have hname := expect_cons "class name"
    ⟨name :: (above ++ opening :: (tokens ++ closing :: behind)), endLine, first, faults⟩
    rfl isName
  have habove := optionalSuperclass_complete (tokens ++ closing :: behind)
    endLine faults inherited isOpening
  have hopening := expect_cons "'\x7b' before class body"
    ⟨opening :: (tokens ++ closing :: behind), endLine, middle, faults⟩ rfl isOpening
  have hmethods := h closing behind endLine faults fuel isClosing
    (by simp only [List.length_append, List.length_cons]; omega)
  have hclosing := expect_cons "'\x7d' after class body"
    ⟨closing :: behind, endLine, last, faults⟩ rfl isClosing
  simp only [declarationAt, isClass]
  rw [classDeclaration_succ, bind_of_some hname, bind_of_some habove, bind_of_some hopening,
    bind_of_some hmethods]
  exact bind_of_some hclosing

theorem readsDeclarations_nil : ReadsDeclarations first [] first [] := by
  intro behind endLine faults fuel hends hfuel
  obtain ⟨fuel, rfl⟩ := Nat.exists_eq_succ_of_ne_zero (show fuel ≠ 0 by omega)
  rw [declarations, bind_of_some (rfl : nextKind _ = _)]
  cases behind with
  | nil => rfl
  | cons closing behind =>
      have isClosing : closing.kind = .rightBrace := hends closing rfl
      simp only [List.nil_append, List.head?_cons, Option.map_some, isClosing]
      rfl

theorem recovering_of_some {α : Type} {p : Reader α} {c c' : Cursor} {a : α}
    (h : p c = (some a, c')) : recovering p c = (some (some a), c') := by
  rw [recovering, h]

theorem ReadsDeclarations.more {before behind : List Token}
    (hstart : ∃ token rest, before = token :: rest ∧ token.kind ∉ [.rightBrace, .kwElse])
    (hfollow : ∀ after, Ends after → Avoids [.kwElse] (behind ++ after))
    (h : ReadsDeclaration first before middle s) (hrow : ReadsDeclarations middle behind last body) :
    ReadsDeclarations first (before ++ behind) last (s :: body) := by
  intro after endLine faults fuel hends hfuel
  rw [List.append_assoc] at hfuel ⊢
  obtain ⟨fuel, rfl⟩ := Nat.exists_eq_succ_of_ne_zero (show fuel ≠ 0 by omega)
  have hread := h (behind ++ after) endLine faults fuel (hfollow after hends) (by omega)
  have hkept : declaration fuel ⟨before ++ (behind ++ after), endLine, first, faults⟩
      = (some (some s), ⟨behind ++ after, endLine, middle, faults⟩) := by
    rw [declaration_eq (by omega)]
    exact recovering_of_some hread
  obtain ⟨token, rest, rfl, hstart⟩ := hstart
  have hothers := hrow after endLine faults fuel hends
    (by simp only [List.length_append, List.length_cons] at hfuel ⊢; omega)
  rw [declarations_of_head fuel rfl fun h => hstart (by simp [h]), bind_of_some hkept,
    bind_of_some hothers]
  rfl

theorem ReadsFunction.mk {name opening closing start stop : Token}
    {named tokens params : List Token} (isName : name.kind = .identifier)
    (isOpening : opening.kind = .leftParen) (isClosing : closing.kind = .rightParen)
    (isStart : start.kind = .leftBrace) (isStop : stop.kind = .rightBrace)
    (few : params.length ≤ 255) (parameters : Derives.Parameters named params)
    (h : ReadsDeclarations first tokens last body) :
    ReadsFunction first (name :: opening :: (named ++ closing :: start :: (tokens ++ [stop]))) last
      ⟨name, params, body⟩ := by
  intro role behind endLine faults fuel hfuel
  have htokens : name :: opening :: (named ++ closing :: start :: (tokens ++ [stop])) ++ behind
      = name :: opening :: (named ++ closing :: (start :: (tokens ++ [stop] ++ behind))) := by simp
  rw [htokens] at hfuel ⊢
  simp only [List.length_append, List.length_cons, List.length_nil] at hfuel
  obtain ⟨fuel, rfl⟩ := Nat.exists_eq_succ_of_ne_zero (show fuel ≠ 0 by omega)
  have hname := expect_cons (role ++ " name") ⟨name :: opening :: (named ++
    closing :: (start :: (tokens ++ [stop] ++ behind))), endLine, first, faults⟩ rfl isName
  have hopening := expect_cons ("'(' after " ++ role ++ " name") ⟨opening ::
    (named ++ closing :: (start :: (tokens ++ [stop] ++ behind))), endLine, first, faults⟩ rfl
    isOpening
  have hparams := params_complete (start :: (tokens ++ [stop] ++ behind)) first
    endLine faults fuel isClosing parameters few
    (by simp only [List.length_append, List.length_cons, List.length_nil]; omega)
  have hclosing := expect_cons "')' after parameters"
    ⟨closing :: (start :: (tokens ++ [stop] ++ behind)), endLine, first, faults⟩ rfl
    isClosing
  have hstart := expect_cons ("'\x7b' before " ++ role ++ " body")
    ⟨start :: (tokens ++ [stop] ++ behind), endLine, first, faults⟩ rfl isStart
  have hbody := h.block behind endLine faults fuel
    isStop (by simp only [List.length_append, List.length_cons, List.length_nil]; omega)
  rw [function, bind_of_some hname, bind_of_some hopening, bind_of_some hparams,
    bind_of_some hclosing, bind_of_some hstart]
  exact bind_of_some hbody

theorem readsMethods_nil : ReadsMethods first [] first [] := by
  intro closing behind endLine faults fuel isClosing hfuel
  obtain ⟨fuel, rfl⟩ := Nat.exists_eq_succ_of_ne_zero (show fuel ≠ 0 by omega)
  rw [methods, bind_of_some (rfl : nextKind _ = _)]
  simp only [List.nil_append, List.head?_cons, Option.map_some, isClosing]
  rfl

theorem ReadsMethods.more {before behind : List Token} {f : FunctionDecl}
    {fs : List FunctionDecl}
    (hstart : ∃ token rest, before = token :: rest ∧ token.kind = .identifier)
    (h : ReadsFunction first before middle f) (hrow : ReadsMethods middle behind last fs) :
    ReadsMethods first (before ++ behind) last (f :: fs) := by
  intro closing after endLine faults fuel isClosing hfuel
  rw [List.append_assoc] at hfuel ⊢
  obtain ⟨fuel, rfl⟩ := Nat.exists_eq_succ_of_ne_zero (show fuel ≠ 0 by omega)
  have hread := h "method" (behind ++ closing :: after) endLine faults fuel (by omega)
  have hothers := hrow closing after endLine faults fuel isClosing
    (by
      obtain ⟨token, rest, rfl, -⟩ := hstart
      simp only [List.length_append, List.length_cons] at hfuel ⊢
      omega)
  obtain ⟨token, rest, rfl, isName⟩ := hstart
  rw [methods, bind_of_some (rfl : nextKind _ = _)]
  simp only [List.cons_append, List.head?_cons, Option.map_some, isName]
  rw [← List.cons_append, bind_of_some hread, bind_of_some hothers]
  rfl

end Statements

theorem Derives.Function.starts {first last : Nat} {tokens : List Token} {f : FunctionDecl}
    (h : Derives.Function first tokens last f) :
    ∃ token rest, tokens = token :: rest ∧ token.kind = .identifier := by
  cases h with
  | mk isName => exact ⟨_, _, rfl, isName⟩

mutual

theorem Derives.Statement.reads {isOpen : Bool} {first last : Nat} {tokens : List Token}
    {s : Stmt} (h : Derives.Statement isOpen first tokens last s) :
    ReadsStatement isOpen first tokens last s :=
  match h with
  | .expression isSemicolon value => .expression isSemicolon value
  | .print isPrint isSemicolon value => .print isPrint isSemicolon value
  | .breakLoop isBreak isSemicolon => .breakLoop isBreak isSemicolon
  | .returnWith isReturn clause => .returnWith isReturn clause
  | .block isOpening isClosing inside => .block isOpening isClosing inside.reads
  | .whileLoop isWhile isOpening isClosing test loop =>
      .whileLoop isWhile isOpening isClosing test loop.reads
  | .forLoop isFor isOpening firstClause secondClause thirdClause loop =>
      .forLoop isFor isOpening firstClause secondClause thirdClause loop.reads
  | .ifOnly isIf isOpening isClosing test thenBranch =>
      .ifOnly isIf isOpening isClosing test thenBranch.reads
  | .ifElse isIf isOpening isClosing isElse test thenBranch elseBranch =>
      .ifElse isIf isOpening isClosing isElse test thenBranch.reads elseBranch.reads

theorem Derives.Declaration.reads {first last : Nat} {tokens : List Token} {s : Stmt}
    (h : Derives.Declaration first tokens last s) : ReadsDeclaration first tokens last s :=
  match h with
  | .statement h => .statement h.reads h.starts
  | .var h => .var h
  | .function isFun h => .function isFun h.reads
  | .classDecl isClass isName isOpening isClosing inherited h =>
      .classDecl isClass isName isOpening isClosing inherited h.reads

theorem Derives.Declarations.reads {first last : Nat} {tokens : List Token} {body : List Stmt}
    (h : Derives.Declarations first tokens last body) :
    ReadsDeclarations first tokens last body :=
  match h with
  | .none => readsDeclarations_nil
  | .more h row => .more h.starts (fun _ hends => row.avoids hends.avoids) h.reads row.reads

theorem Derives.Function.reads {first last : Nat} {tokens : List Token} {f : FunctionDecl}
    (h : Derives.Function first tokens last f) : ReadsFunction first tokens last f :=
  match h with
  | .mk isName isOpening isClosing isStart isStop few parameters inside =>
      .mk isName isOpening isClosing isStart isStop few parameters inside.reads

theorem Derives.Methods.reads {first last : Nat} {tokens : List Token} {fs : List FunctionDecl}
    (h : Derives.Methods first tokens last fs) : ReadsMethods first tokens last fs :=
  match h with
  | .none => readsMethods_nil
  | .more h row => .more h.starts h.reads row.reads

end

end Lox.Grammar
