/-
An operator without a left operand.

Such an operator is reported, and what would be its right operand is read at the level of the
operator and dropped.  So of an expression behind it only the first part is read: everything up
to a comma, an equals sign, a question mark or a looser operator, which is a whole expression of
that level (`Derives.Expression.leading`).  Nothing is wrong with that part, so there is no other
fault, and what is left of the statement is skipped: no token of an expression looks like the
beginning of a statement, and recovery stops behind the semicolon.
-/
import Lox.Proofs.Grammar.Keywords
import Lox.Proofs.Grammar.Relabelling

namespace Lox.Grammar

open Reader

variable {level operand : Level} {first last : Nat} {tokens : List Token} {e : Expr}

/-! ### The numbers restrict nothing -/

namespace Derives

mutual

/-- An expression is one wherever its numbers start. -/
theorem Expression.restart {level : Level} {first last : Nat} {tokens : List Token} {e : Expr}
    (h : Expression level first tokens last e) (start : Nat) :
    ∃ last' e', Expression level start tokens last' e' :=
  match h with
  | .inner contains h => by
      obtain ⟨_, _, h⟩ := h.restart start
      exact ⟨_, _, .inner contains h⟩
  | .binary joins isOperator hleft hright => by
      obtain ⟨middle, _, hleft⟩ := hleft.restart start
      obtain ⟨_, _, hright⟩ := hright.restart middle
      exact ⟨_, _, .binary joins isOperator hleft hright⟩
  | .logical connects isOperator hleft hright => by
      obtain ⟨middle, _, hleft⟩ := hleft.restart start
      obtain ⟨_, _, hright⟩ := hright.restart middle
      exact ⟨_, _, .logical connects isOperator hleft hright⟩
  | .unequal isOperator hleft hright => by
      obtain ⟨middle, _, hleft⟩ := hleft.restart start
      obtain ⟨_, _, hright⟩ := hright.restart middle
      exact ⟨_, _, .unequal isOperator hleft hright⟩
  | .assignName isName isEquals hvalue => by
      obtain ⟨_, _, hvalue⟩ := hvalue.restart (start + 1)
      exact ⟨_, _, .assignName isName isEquals hvalue⟩
  | .assignProperty isDot isName isEquals hobject hvalue => by
      obtain ⟨middle, _, hobject⟩ := hobject.restart start
      obtain ⟨_, _, hvalue⟩ := hvalue.restart middle
      exact ⟨_, _, .assignProperty isDot isName isEquals hobject hvalue⟩
  | .conditional isQuestion isColon htest hchosen hother => by
      obtain ⟨second, _, htest⟩ := htest.restart start
      obtain ⟨third, _, hchosen⟩ := hchosen.restart second
      obtain ⟨_, _, hother⟩ := hother.restart third
      exact ⟨_, _, .conditional isQuestion isColon htest hchosen hother⟩
  | .unary isOperator h => by
      obtain ⟨_, _, h⟩ := h.restart start
      exact ⟨_, _, .unary isOperator h⟩
  | .callEmpty isOpening isClosing h => by
      obtain ⟨_, _, h⟩ := h.restart start
      exact ⟨_, _, .callEmpty isOpening isClosing h⟩
  | .call isOpening isClosing few h row => by
      obtain ⟨middle, _, h⟩ := h.restart start
      obtain ⟨_, _, row, hlength⟩ := row.restart middle
      exact ⟨_, _, .call isOpening isClosing (hlength ▸ few) h row⟩
  | .property isDot isName h => by
      obtain ⟨_, _, h⟩ := h.restart start
      exact ⟨_, _, .property isDot isName h⟩
  | .constant h => ⟨_, _, .constant h⟩
  | .name isName => ⟨_, _, .name isName⟩
  | .this isThis => ⟨_, _, .this isThis⟩
  | .super isSuper isDot isName => ⟨_, _, .super isSuper isDot isName⟩
  | .group isOpening isClosing h => by
      obtain ⟨_, _, h⟩ := h.restart start
      exact ⟨_, _, .group isOpening isClosing h⟩

theorem Arguments.restart {first last : Nat} {tokens : List Token} {es : List Expr}
    (h : Arguments first tokens last es) (start : Nat) :
    ∃ last' es', Arguments start tokens last' es' ∧ es.length = es'.length :=
  match h with
  | .last h => by
      obtain ⟨_, _, h⟩ := h.restart start
      exact ⟨_, _, .last h, rfl⟩
  | .more isComma h row => by
      obtain ⟨middle, _, h⟩ := h.restart start
      obtain ⟨_, _, row, hlength⟩ := row.restart middle
      exact ⟨_, _, .more isComma h row, congrArg (· + 1) hlength⟩

end

end Derives

/-- The tokens are an expression, with some tree and some numbers. -/
def IsExpression (tokens : List Token) : Prop :=
  ∃ first last e, Derives.Expression .comma first tokens last e

/-! ### The operand of an operator that has only one -/

theorem Avoids.append {kinds : List TokenKind} {behind : List Token} (h : Avoids kinds tokens)
    (hbehind : Avoids kinds behind) : Avoids kinds (tokens ++ behind) := by
  cases tokens with
  | nil => exact hbehind
  | cons token rest => exact avoids_cons (h token rfl)

/-- The operators that cannot stand where an operand should. -/
def orphanKinds : List TokenKind :=
  [.equalEqual, .bangEqual, .greater, .greaterEqual, .less, .lessEqual, .plus, .slash, .star]

/-- The levels that these operators are of. -/
def orphanLevels : List Level :=
  [.equality, .comparison, .term, .factor]

/-- Each has a level of its own, and the fault is found there. -/
theorem ofOrphan?_of_mem {kind : TokenKind} (h : kind ∈ orphanKinds) :
    ∃ level ∈ orphanLevels, Level.ofOrphan? kind = some level ∧ kind ∈ level.operators := by
  revert kind
  decide

namespace Derives

/-- What continues an operand continues everything that it may be the first part of, up to the
level where it is itself the whole. -/
theorem Contains.continues_inner {outer inner : Level} (h : Contains outer inner)
    (hoperand : operand ∈ orphanLevels) (hne : outer ≠ operand)
    (hsub : operand.continues ⊆ outer.continues) : operand.continues ⊆ inner.continues := by
  revert operand
  cases h <;> decide

/-- The operators of looser levels do not continue an operand. -/
theorem not_mem_continues_of_looser (hoperand : operand ∈ orphanLevels) (hne : level ≠ operand)
    (hsub : operand.continues ⊆ level.continues) {kind : TokenKind}
    (hkind : kind ∈ level.operators) : kind ∉ operand.continues := by
  revert operand kind
  cases level <;> decide

/-- Neither do an equals sign, a question mark and a semicolon. -/
theorem not_mem_continues (hoperand : operand ∈ orphanLevels) {kind : TokenKind}
    (hkind : kind ∈ [TokenKind.equal, .question, .semicolon]) : kind ∉ operand.continues := by
  revert operand kind
  decide

/-- Tighter levels have none of their operators. -/
theorem not_continues_of_tight (hoperand : operand ∈ orphanLevels)
    (hlevel : level ∈ [Level.unary, .call, .primary]) :
    ¬operand.continues ⊆ level.continues := by
  have hnone : ∀ operand ∈ orphanLevels, ∀ level ∈ [Level.unary, .call, .primary],
      ¬operand.continues ⊆ level.continues := by
    decide
  exact hnone operand hoperand level hlevel

/-- The condition of a ternary may begin with any of their operands. -/
theorem continues_or (hoperand : operand ∈ orphanLevels) :
    operand.continues ⊆ Level.or.continues := by
  revert operand
  decide

/-- Any of their operands may come first of all. -/
theorem continues_comma (hoperand : operand ∈ orphanLevels) :
    operand.continues ⊆ Level.comma.continues := by
  revert operand
  decide

/-- A name with its calls and properties is an operand of any operator. -/
theorem Expression.isOperand (h : Expression .call first tokens last e)
    (hoperand : operand ∈ orphanLevels) : Expression operand first tokens last e := by
  have hfactor : Expression .factor first tokens last e := .inner .factor (.inner .unary h)
  have hterm : Expression .term first tokens last e := .inner .term hfactor
  have hcomparison : Expression .comparison first tokens last e := .inner .comparison hterm
  simp only [orphanLevels, List.mem_cons, List.not_mem_nil, or_false] at hoperand
  rcases hoperand with rfl | rfl | rfl | rfl
  · exact .inner .equality hcomparison
  · exact hcomparison
  · exact hterm
  · exact hfactor

/-- The row begins with an operand, and nothing behind that continues it. -/
def Leading (operand : Level) (first : Nat) (tokens : List Token) : Prop :=
  ∃ front rest last e, tokens = front ++ rest ∧ Expression operand first front last e ∧
    Avoids operand.continues rest

theorem Expression.leads (h : Expression operand first tokens last e) :
    Leading operand first tokens :=
  ⟨tokens, [], last, e, (List.append_nil _).symm, h, fun _ hnone => nomatch hnone⟩

/-- More may stand behind, if it does not begin with what continues the operand. -/
theorem Leading.append (h : Leading operand first tokens) {behind : List Token}
    (hbehind : Avoids operand.continues behind) : Leading operand first (tokens ++ behind) := by
  obtain ⟨front, rest, last, e, rfl, hfront, hrest⟩ := h
  exact ⟨front, rest ++ behind, last, e, List.append_assoc _ _ _, hfront, hrest.append hbehind⟩

/-- **Every expression begins with an operand**, of any level that is not looser than its own. -/
theorem Expression.leading {operand level : Level} {first last : Nat} {tokens : List Token}
    {e : Expr} (h : Expression level first tokens last e) (hoperand : operand ∈ orphanLevels)
    (hlevel : operand.continues ⊆ level.continues) : Leading operand first tokens := by
  by_cases hsame : level = operand
  · exact (hsame ▸ h).leads
  -- A looser operator is behind the first part, and does not continue it.
  have hlooser {kind : TokenKind} {operator : Token} (hkind : operator.kind = kind)
      (hmem : kind ∈ level.operators) (behind : List Token) :
      Avoids operand.continues (operator :: behind) :=
    avoids_cons (hkind ▸ not_mem_continues_of_looser hoperand hsame hlevel hmem)
  match h with
  | .inner contains h =>
      exact h.leading hoperand (contains.continues_inner hoperand hsame hlevel)
  | .binary joins isOperator hleft _ =>
      exact (hleft.leading hoperand hlevel).append (hlooser isOperator joins.operator.2.1 _)
  | .logical connects isOperator hleft _ =>
      exact (hleft.leading hoperand hlevel).append (hlooser isOperator connects.operator.2.1 _)
  | .unequal isOperator hleft _ =>
      exact (hleft.leading hoperand hlevel).append (hlooser isOperator (by decide) _)
  | .assignName isName isEquals _ =>
      have hname : Expression .call first _ (first + 1) _ := .inner .call (.name isName)
      exact (hname.isOperand hoperand).leads.append
        (avoids_cons (isEquals ▸ not_mem_continues hoperand List.mem_cons_self))
  | @Expression.assignProperty dot key equals _ _ _ before behind _ _ isDot isName isEquals
      hobject _ =>
      have hproperty := (Expression.property isDot isName hobject).isOperand hoperand
      have htokens : before ++ dot :: key :: equals :: behind
          = before ++ [dot, key] ++ equals :: behind := by
        simp
      rw [htokens]
      exact hproperty.leads.append
        (avoids_cons (isEquals ▸ not_mem_continues hoperand List.mem_cons_self))
  | .conditional isQuestion _ htest _ _ =>
      exact (htest.leading hoperand (continues_or hoperand)).append
        (avoids_cons (isQuestion ▸ not_mem_continues hoperand (by decide)))
  | .unary _ _ | .callEmpty _ _ _ | .call _ _ _ _ _ | .property _ _ _ | .constant _ | .name _
  | .this _ | .super _ _ _ | .group _ _ _ =>
      exact absurd hlevel (not_continues_of_tight hoperand (by decide))

end Derives

/-! ### The production for the fault -/

section Reading

variable {c c' : Cursor} {op semicolon : Token} {behind : List Token}

/-- The first part of the operand is read and dropped, and nothing is said about it. -/
theorem noOperand_of_leading (hop : Level.ofOrphan? op.kind = some operand)
    (hmem : op.kind ∈ operand.operators) (hrest : c.rest = op :: (tokens ++ behind))
    (hleading : Derives.Leading operand c.lastId tokens)
    (hbehind : Avoids operand.continues behind) :
    ∃ left last, left <:+ tokens ∧
      ∀ fuel, 24 * (tokens ++ behind).length + 14 ≤ fuel → noOperand (fuel + 1) c
        = (none, ⟨left ++ behind, c.endLine, last,
            c.faults ++ [Fault.atToken op .missingLeftOperand]⟩) := by
  obtain ⟨front, left, last, e, rfl, hfront, hleft⟩ := hleading
  refine ⟨left, last, List.suffix_append front left, fun fuel hfuel => ?_⟩
  rw [List.append_assoc] at hrest hfuel
  let reported : Cursor :=
    { c with faults := c.faults ++ [Fault.atToken op .missingLeftOperand] }
  have hreport : faultHere .missingLeftOperand c = (some (), reported) := by
    simp only [faultHere, hrest, reported]
  have htaken : accept operand.operators reported
      = (some (some op), { reported with rest := front ++ (left ++ behind) }) :=
    accept_cons _ _ hrest hmem
  have hdepth := operand.depth_le
  have hread := hfront.reads.whole (left ++ behind) c.endLine reported.faults fuel
    (hleft.append hbehind) (by omega)
  have hdropped : attempt (expression fuel operand)
      { reported with rest := front ++ (left ++ behind) }
      = (some (some e), ⟨left ++ behind, c.endLine, last, reported.faults⟩) := by
    rw [attempt, hread]
  have hhead : (c.rest.head?.map Token.kind).bind Level.ofOrphan? = some operand := by
    rw [hrest]
    exact hop
  rw [noOperand, bind_of_some (rfl : nextKind c = _), hhead]
  dsimp only
  rw [bind_of_some hreport, bind_of_some htaken, bind_of_some hdropped]
  rfl

/-- Every reader of an expression gets to the place where an operand should be first, and gives up
if there is none. -/
theorem expression_of_primary (enough : Nat) (hhead : Avoids [.bang, .minus] c.rest)
    (hprimary : ∀ fuel, enough ≤ fuel → primary fuel c = (none, c')) :
    ∀ fuel level, enough + level.depth ≤ fuel → expression fuel level c = (none, c') := by
  intro fuel
  induction fuel with
  | zero =>
      intro level hfuel
      have hdepth : 0 < level.depth := by cases level <;> decide
      omega
  | succ fuel ih =>
      intro level hfuel
      by_cases hjoined : level.isJoined
      · have hdepth := Level.depth_tighter hjoined
        rw [expression_joined hjoined]
        exact bind_of_none (ih level.tighter (by omega))
      cases level with
      | assignment => exact bind_of_none (ih .conditional (by simp only [Level.depth] at *; omega))
      | conditional => exact bind_of_none (ih .or (by simp only [Level.depth] at *; omega))
      | unary =>
          rw [expression, bind_of_some (accept_of_not hhead)]
          exact ih .call (by simp only [Level.depth] at *; omega)
      | call => exact bind_of_none (ih .primary (by simp only [Level.depth] at *; omega))
      | primary => exact hprimary fuel (by simp only [Level.depth] at hfuel; omega)
      | _ => exact absurd rfl hjoined

/-- Of an expression that begins with such an operator, the first part of the operand is read, and
the operator is reported. -/
theorem anyExpression_of_orphan (hop : op.kind ∈ orphanKinds)
    (hrest : c.rest = op :: (tokens ++ behind))
    (hleading : ∀ operand ∈ orphanLevels, Derives.Leading operand c.lastId tokens ∧
      Avoids operand.continues behind) :
    ∃ left last, left <:+ tokens ∧
      ∀ fuel, 24 * (tokens ++ behind).length + 30 ≤ fuel → anyExpression fuel c
        = (none, ⟨left ++ behind, c.endLine, last,
            c.faults ++ [Fault.atToken op .missingLeftOperand]⟩) := by
  obtain ⟨operand, hoperand, horphan, hmem⟩ := ofOrphan?_of_mem hop
  obtain ⟨hoperand, hbehind⟩ := hleading operand hoperand
  obtain ⟨left, last, hleft, hread⟩ := noOperand_of_leading horphan hmem hrest hoperand hbehind
  have hhead (kinds : List TokenKind) (hkinds : ∀ kind ∈ kinds, kind ∉ orphanKinds) :
      Avoids kinds c.rest := by
    rw [hrest]
    exact avoids_cons fun hmem => hkinds _ hmem hop
  refine ⟨left, last, hleft, fun fuel hfuel => ?_⟩
  refine expression_of_primary (24 * (tokens ++ behind).length + 16)
    (hhead _ (by decide)) (fun fuel hfuel => ?_) fuel .comma hfuel
  obtain ⟨fuel, rfl⟩ := Nat.exists_eq_add_of_le' (show 2 ≤ fuel by omega)
  have hnone : accept [.kwFalse, .kwTrue, .kwNil, .string, .number, .identifier, .kwThis,
      .kwSuper, .leftParen] c = (some none, c) :=
    accept_of_not (hhead _ (by decide))
  rw [primary_succ, bind_of_some hnone]
  exact hread fuel (by omega)

end Reading

/-! ### The statement -/

/-- What stands in front of the expression of a statement: nothing, or the keyword that prints. -/
inductive Opens : List Token → Prop
  | expression : Opens []
  | print {keyword : Token} (isPrint : keyword.kind = .kwPrint) : Opens [keyword]

section Statement

variable {op semicolon : Token} {opening : List Token}

/-- The statement is abandoned where its expression is. -/
theorem keptDeclaration_of_orphan (hopening : Opens opening) (hop : op.kind ∈ orphanKinds)
    {behind : List Token} {first : Nat}
    (hleading : ∀ operand ∈ orphanLevels, Derives.Leading operand first tokens ∧
      Avoids operand.continues behind) (endLine : Nat) :
    ∃ left last, left <:+ tokens ∧ ∀ fuel, 24 * (tokens ++ behind).length + 32 ≤ fuel →
      keptDeclaration fuel ⟨opening ++ op :: (tokens ++ behind), endLine, first, []⟩
        = (none, ⟨left ++ behind, endLine, last, [Fault.atToken op .missingLeftOperand]⟩) := by
  let inner : Cursor := ⟨op :: (tokens ++ behind), endLine, first, []⟩
  have hrest : inner.rest = op :: (tokens ++ behind) := rfl
  obtain ⟨left, last, hleft, hread⟩ := anyExpression_of_orphan hop hrest hleading
  refine ⟨left, last, hleft, fun fuel hfuel => ?_⟩
  obtain ⟨fuel, rfl⟩ := Nat.exists_eq_succ_of_ne_zero (show fuel ≠ 0 by omega)
  have hvalue := hread fuel (by omega)
  unfold keptDeclaration
  cases hopening with
  | expression =>
      have hnot (kinds : List TokenKind) (hkinds : ∀ kind ∈ kinds, kind ∉ orphanKinds) :
          accept kinds inner = (some none, inner) :=
        accept_of_not (avoids_cons fun hmem => hkinds _ hmem hop)
      rw [List.nil_append, bind_of_some (hnot _ (by decide))]
      dsimp only
      rw [statement_succ, bind_of_some (hnot _ (by decide))]
      exact bind_of_none hvalue
  | @print keyword isPrint =>
      let c : Cursor := ⟨keyword :: op :: (tokens ++ behind), endLine, first, []⟩
      have hnot : accept [.kwClass, .kwFun, .kwVar] c = (some none, c) :=
        accept_of_not (avoids_cons (by rw [isPrint]; decide))
      have htaken : accept [.kwBreak, .kwFor, .kwIf, .kwPrint, .kwReturn, .kwWhile, .leftBrace] c
          = (some (some keyword), inner) :=
        accept_cons _ _ rfl (by rw [isPrint]; decide)
      rw [List.singleton_append, bind_of_some hnot]
      dsimp only
      rw [statement_succ, bind_of_some htaken]
      simp only [statementAt, isPrint]
      exact bind_of_none hvalue

/-- No token of the statement looks like the beginning of another one. -/
theorem Opens.stretch (hopening : Opens opening) (hop : op.kind ∈ orphanKinds)
    (hexpression : IsExpression tokens) : Stretch (opening ++ op :: tokens) := by
  obtain ⟨first, last, e, h⟩ := hexpression
  have hkinds : ∀ token ∈ op :: tokens, token.kind ∈ expressionKinds := by
    have hown : ∀ kind ∈ orphanKinds, kind ∈ expressionKinds := by decide
    exact List.forall_mem_cons.mpr ⟨hown _ hop, h.plain⟩
  have hplain (kinds : List TokenKind) (hnone : ∀ kind ∈ kinds, kind ∉ expressionKinds) :
      ∀ token ∈ op :: tokens, token.kind ∉ kinds :=
    fun token htoken hmem => hnone _ hmem (hkinds token htoken)
  cases hopening with
  | expression =>
      exact ⟨hplain _ (by decide), fun token htoken =>
        hplain _ (by decide) token (List.mem_of_mem_tail htoken),
        avoids_cons (hplain _ (by decide) op List.mem_cons_self)⟩
  | print isPrint =>
      exact ⟨List.forall_mem_cons.mpr ⟨by rw [isPrint]; decide, hplain _ (by decide)⟩,
        hplain _ (by decide), avoids_cons (by rw [isPrint]; decide)⟩

/-- By itself the statement is that one fault. -/
theorem parse_of_orphan (hopening : Opens opening) (hop : op.kind ∈ orphanKinds)
    (hexpression : IsExpression tokens) (hsemicolon : semicolon.kind = .semicolon)
    (endLine first : Nat) :
    ∃ last, parse (opening ++ op :: tokens ++ [semicolon]) endLine first
      = ⟨[], [Fault.atToken op .missingLeftOperand], last⟩ := by
  have hstretch := hopening.stretch hop hexpression
  have hleading : ∀ operand ∈ orphanLevels, Derives.Leading operand first tokens ∧
      Avoids operand.continues [semicolon] := by
    intro operand hoperand
    obtain ⟨_, _, _, h⟩ := hexpression
    obtain ⟨_, _, h⟩ := h.restart first
    exact ⟨h.leading hoperand (Derives.continues_comma hoperand),
      avoids_cons (hsemicolon ▸ Derives.not_mem_continues hoperand (by decide))⟩
  obtain ⟨left, last, hleft, hread⟩ := keptDeclaration_of_orphan hopening hop hleading endLine
  -- What is left of the statement is skipped, with the semicolon.
  have hrecover : recover (left ++ [semicolon]) = [] :=
    hstretch.recover (hleft.trans ((List.suffix_cons op tokens).trans
      (List.suffix_append opening _))) hsemicolon []
  have hrow : opening ++ op :: tokens ++ [semicolon]
      = opening ++ op :: (tokens ++ [semicolon]) := by
    simp
  let start : Cursor := ⟨opening ++ op :: (tokens ++ [semicolon]), endLine, first, []⟩
  have hdeclaration (fuel : Nat) (hfuel : 24 * (tokens ++ [semicolon]).length + 33 ≤ fuel) :
      declaration fuel start
        = (some none, ⟨[], endLine, last, [Fault.atToken op .missingLeftOperand]⟩) := by
    rw [declaration_eq (by omega), recovering, hread (fuel - 1) (by omega)]
    dsimp only
    rw [hrecover]
  obtain ⟨token, rest, hhead⟩ : ∃ token rest, start.rest = token :: rest :=
    List.exists_cons_of_ne_nil (by simp [start])
  obtain ⟨fuel, hfuel⟩ : ∃ fuel, fuelFor (opening ++ op :: (tokens ++ [semicolon])) = fuel + 1 ∧
      24 * (tokens ++ [semicolon]).length + 33 ≤ fuel := by
    refine ⟨_, (Nat.succ_pred_eq_of_pos (by simp [fuelFor])).symm, ?_⟩
    simp only [fuelFor, List.length_append, List.length_cons, Nat.pred_eq_sub_one]
    omega
  refine ⟨last, ?_⟩
  rw [hrow, parse, hfuel.1, toEnd_of_declaration hhead (hdeclaration fuel hfuel.2),
    toEnd_of_nil rfl]
  rfl

/-- **A missing left operand is reported once.**  An operator that stands where the expression of
a statement should begin, with any expression and a semicolon behind it, is one fault at that
operator.  Nothing is kept of the statement, and whatever follows is read as if it stood alone,
except that the operand that was dropped has used up numbers. -/
theorem missing_operand_reported_once (hopening : Opens opening) (hop : op.kind ∈ orphanKinds)
    (hexpression : IsExpression tokens) (hsemicolon : semicolon.kind = .semicolon)
    (behind : List Token) (endLine lastId : Nat) :
    let fault := Fault.atToken op .missingLeftOperand
    let alone := parse behind endLine lastId
    fault.cause.message = "Missing left-hand operand." ∧
      ∃ skipped, parse (opening ++ op :: tokens ++ semicolon :: behind) endLine lastId
        = ⟨alone.program.map (Stmt.renumber (· + skipped)), fault :: alone.faults,
            alone.lastId + skipped⟩ := by
  intro fault alone
  refine ⟨rfl, ?_⟩
  obtain ⟨last, hown⟩ := parse_of_orphan hopening hop hexpression hsemicolon endLine lastId
  have hle : lastId ≤ last := by
    have hle := parse_lastId_le (opening ++ op :: tokens ++ [semicolon]) endLine lastId
    rw [hown] at hle
    exact hle
  obtain ⟨skipped, rfl⟩ := Nat.exists_eq_add_of_le hle
  have hnothing : parse [] endLine lastId = ⟨[], [], lastId⟩ := rfl
  have hapart := parse_apart behind endLine endLine endLine lastId
    (congrArg Parsed.faults hnothing) (hopening.stretch hop hexpression) hsemicolon
  dsimp only at hapart
  rw [hnothing, hown, parse_ahead] at hapart
  exact ⟨skipped, hapart⟩

/-- Of `+ a == b` only the `a` is read behind the operator, and the statement behind it is kept. -/
theorem missing_operand_in_front_of_equality :
    ∃ opening op tokens semicolon behind, Opens opening ∧ op.kind ∈ orphanKinds ∧
      IsExpression tokens ∧ semicolon.kind = .semicolon ∧
      ∃ skipped, parse (opening ++ op :: tokens ++ semicolon :: behind) 1 0
        = ⟨[.expression (.use ⟨⟨.identifier, "c", 1⟩, 1 + skipped⟩)],
            [⟨1, .lexeme "+", .missingLeftOperand⟩], 1 + skipped⟩ := by
  let semicolon : Token := ⟨.semicolon, ";", 1⟩
  let opening : List Token := [⟨.kwPrint, "print", 1⟩]
  let name (text : String) : Token := ⟨.identifier, text, 1⟩
  let equal : Token := ⟨.equalEqual, "==", 1⟩
  let op : Token := ⟨.plus, "+", 1⟩
  have hname (text : String) (first : Nat) : Derives.Expression .call first [name text] (first + 1)
      (.use ⟨name text, first + 1⟩) :=
    .inner .call (.name rfl)
  have hequality : Derives.Expression .equality 0 ([name "a"] ++ equal :: [name "b"]) 2
      (.binary equal (.use ⟨name "a", 1⟩) (.use ⟨name "b", 2⟩)) :=
    .binary .equal rfl ((hname "a" 0).isOperand (by decide)) ((hname "b" 1).isOperand (by decide))
  have hexpression : IsExpression ([name "a"] ++ equal :: [name "b"]) :=
    ⟨0, 2, _, .inner .comma (.inner .assignment (.inner .conditional (.inner .or
      (.inner .and hequality))))⟩
  have hbehind : parse [name "c", semicolon] 1 0 = ⟨[.expression (.use ⟨name "c", 1⟩)], [], 1⟩ := by
    cbv
  have hopening : Opens opening := .print rfl
  have hop : op.kind ∈ orphanKinds := by decide
  obtain ⟨-, skipped, hread⟩ := missing_operand_reported_once hopening hop hexpression
    (rfl : semicolon.kind = .semicolon) [name "c", semicolon] 1 0
  rw [hbehind] at hread
  exact ⟨_, op, _, semicolon, _, hopening, hop, hexpression, rfl, skipped, hread⟩

end Statement

end Lox.Grammar
