/-
The counter of the readers only has to be large enough.

With a counter at which a reader never runs out, one more changes nothing: what is read, what is
left and which faults there are stays the same, also where what is read is abandoned.  So a row
of tokens is read alike as a program of its own and as the rest of a longer one, for which the
counter is larger.
-/
import Lox.Proofs.Grammar.Progress

namespace Lox.Grammar

namespace Reader

variable {α β : Type} {p q : Reader α} {c : Cursor}

/-- Two readers that begin alike read alike, if they go on alike from where the first part
leads to. -/
theorem bind_congr_of_eq {f g : α → Reader β} (h : p c = q c)
    (hf : ∀ a c', q c = (some a, c') → f a c' = g a c') : (p >>= f) c = (q >>= g) c := by
  rw [bind_apply, bind_apply, h]
  cases hread : q c with
  | mk result c' =>
      cases result with
      | none => rfl
      | some a => exact hf a c' hread

/-- So they do if they go on alike with so many tokens less. -/
theorem bind_congr {f g : α → Reader β} {least : Nat} (h : p c = q c) (hq : Orderly q least c)
    (hf : ∀ a c', c'.rest.length + least ≤ c.rest.length → f a c' = g a c') :
    (p >>= f) c = (q >>= g) c :=
  bind_congr_of_eq h fun a c' hread => hf a c' (hq.length_of_some hread)

/-- Two readers that differ in their first parts only. -/
theorem bind_congr_left {f : α → Reader β} (h : p c = q c) : (p >>= f) c = (q >>= f) c := by
  rw [bind_apply, bind_apply, h]

theorem accept_bind_congr {kinds : List TokenKind} {f g : Option Token → Reader β}
    (hnone : (∀ token ∈ c.rest.head?, token.kind ∉ kinds) → f none c = g none c)
    (hsome : ∀ token rest, c.rest.length = rest.length + 1 →
      f (some token) { c with rest := rest } = g (some token) { c with rest := rest }) :
    (accept kinds >>= f) c = (accept kinds >>= g) c := by
  rcases accept_cases kinds c with ⟨h, hnot⟩ | ⟨token, rest, hrest, -, h⟩
  · rw [bind_of_some h, bind_of_some h]
    exact hnone hnot
  · rw [bind_of_some h, bind_of_some h]
    exact hsome token rest (by rw [hrest]; rfl)

theorem expect_bind_congr {kind : TokenKind} {what : String} {f g : Token → Reader β}
    (h : ∀ token c', c'.rest.length + 1 ≤ c.rest.length → f token c' = g token c') :
    (expect kind what >>= f) c = (expect kind what >>= g) c :=
  bind_congr rfl orderly_expect h

theorem nextKind_bind_congr {f g : Option TokenKind → Reader β}
    (h : f (c.rest.head?.map Token.kind) c = g (c.rest.head?.map Token.kind) c) :
    (nextKind >>= f) c = (nextKind >>= g) c :=
  h

theorem recovering_congr (h : p c = q c) : recovering p c = recovering q c := by
  rw [recovering, recovering, h]

theorem attempt_congr (h : p c = q c) : attempt p c = attempt q c := by
  rw [attempt, attempt, h]

end Reader

open Reader

/-! ### Expressions -/

/-- What begins like an operator without an operand begins with an operator of that level. -/
theorem Level.exists_of_orphan {tokens : List Token} {level : Level}
    (h : (tokens.head?.map Token.kind).bind Level.ofOrphan? = some level) :
    ∃ token ∈ tokens.head?, token.kind ∈ level.operators := by
  cases tokens with
  | nil => exact nomatch h
  | cons token rest => exact ⟨token, rfl, Level.mem_operators_of_ofOrphan? h⟩

mutual

theorem expression_steady : ∀ (fuel : Nat) (level : Level) (c : Cursor),
    24 * c.rest.length + level.depth ≤ fuel →
    expression (fuel + 1) level c = expression fuel level c
  | 0, level, c, h => by cases level <;> simp [Level.depth] at h
  | fuel + 1, level, c, h => by
      by_cases hjoined : level.isJoined
      · have hdepth := Level.depth_tighter hjoined
        rw [expression_joined hjoined, expression_joined hjoined]
        exact bind_congr (expression_steady fuel level.tighter c (by omega))
          (expression_orderly fuel level.tighter c (by omega)) fun left c' hlength =>
            operations_steady fuel level left c' (by omega)
      cases level with
      | assignment =>
          have h : 24 * c.rest.length + 12 ≤ fuel := Nat.le_of_succ_le_succ h
          refine bind_congr (expression_steady fuel .conditional c h)
            (expression_orderly fuel .conditional c h) fun target c₁ hlength₁ => ?_
          refine accept_bind_congr (fun _ => rfl) fun equals rest hshort => ?_
          have hvalue : 24 * rest.length + 13 ≤ fuel := by omega
          exact bind_congr_left (expression_steady fuel .assignment { c₁ with rest := rest } hvalue)
      | conditional =>
          have h : 24 * c.rest.length + 11 ≤ fuel := Nat.le_of_succ_le_succ h
          refine bind_congr (expression_steady fuel .or c h) (expression_orderly fuel .or c h)
            fun condition c₁ hlength₁ => ?_
          refine accept_bind_congr (fun _ => rfl) fun question rest hshort => ?_
          have hchosen : 24 * rest.length + 14 ≤ fuel := by omega
          refine bind_congr (expression_steady fuel .comma { c₁ with rest := rest } hchosen)
            (expression_orderly fuel .comma { c₁ with rest := rest } hchosen)
            fun onTrue c₂ hlength₂ => ?_
          have hlength₂ : c₂.rest.length + 1 ≤ rest.length := hlength₂
          refine expect_bind_congr fun colon c₃ hlength₃ => ?_
          have hother : 24 * c₃.rest.length + 12 ≤ fuel := by omega
          exact bind_congr_left (expression_steady fuel .conditional c₃ hother)
      | unary =>
          have h : 24 * c.rest.length + 4 ≤ fuel := Nat.le_of_succ_le_succ h
          refine accept_bind_congr (fun _ => expression_steady fuel .call c h)
            fun operator rest hshort => ?_
          have hoperand : 24 * rest.length + 5 ≤ fuel := by omega
          exact bind_congr_left (expression_steady fuel .unary { c with rest := rest } hoperand)
      | call =>
          have h : 24 * c.rest.length + 3 ≤ fuel := Nat.le_of_succ_le_succ h
          exact bind_congr (expression_steady fuel .primary c h)
            (expression_orderly fuel .primary c h) fun callee c₁ hlength₁ =>
              suffixes_steady fuel callee c₁ (by omega)
      | primary =>
          have h : 24 * c.rest.length + 2 ≤ fuel := Nat.le_of_succ_le_succ h
          exact primary_steady fuel c h
      | _ => exact absurd rfl hjoined

theorem operations_steady : ∀ (fuel : Nat) (level : Level) (left : Expr) (c : Cursor),
    24 * c.rest.length + 1 ≤ fuel →
    operations (fuel + 1) level left c = operations fuel level left c
  | 0, _, _, _, h => by omega
  | fuel + 1, level, left, c, h => by
      have hdepth := level.tighter.depth_le
      refine accept_bind_congr (fun _ => rfl) fun operator rest hshort => ?_
      have hright : 24 * rest.length + level.tighter.depth ≤ fuel := by omega
      refine bind_congr (expression_steady fuel level.tighter { c with rest := rest } hright)
        (expression_orderly fuel level.tighter { c with rest := rest } hright)
        fun right c₁ hlength₁ => ?_
      have hlength₁ : c₁.rest.length + 1 ≤ rest.length := hlength₁
      exact operations_steady fuel level _ c₁ (by omega)

theorem suffixes_steady : ∀ (fuel : Nat) (callee : Expr) (c : Cursor),
    24 * c.rest.length + 1 ≤ fuel → suffixes (fuel + 1) callee c = suffixes fuel callee c
  | 0, _, _, h => by omega
  | fuel + 1, callee, c, h => by
      refine accept_bind_congr (fun _ => rfl) fun token rest hshort => ?_
      by_cases hparen : token.kind = .leftParen
      · simp only [hparen, if_pos]
        have hrow : 24 * rest.length + 15 ≤ fuel := by omega
        refine bind_congr (arguments_steady fuel { c with rest := rest } hrow)
          (arguments_orderly fuel { c with rest := rest } hrow) fun arguments c₁ hlength₁ => ?_
        have hlength₁ : c₁.rest.length + 0 ≤ rest.length := hlength₁
        exact expect_bind_congr fun paren c₂ hlength₂ => suffixes_steady fuel _ c₂ (by omega)
      · simp only [hparen, if_false]
        refine expect_bind_congr fun property c₁ hlength₁ => ?_
        have hlength₁ : c₁.rest.length + 1 ≤ rest.length := hlength₁
        exact suffixes_steady fuel _ c₁ (by omega)

theorem arguments_steady : ∀ (fuel : Nat) (c : Cursor),
    24 * c.rest.length + 15 ≤ fuel → arguments (fuel + 1) c = arguments fuel c
  | 0, _, h => by omega
  | fuel + 1, c, h => by
      refine nextKind_bind_congr ?_
      split
      · rfl
      · exact argumentsFrom_steady fuel 0 c (by omega)

theorem argumentsFrom_steady : ∀ (fuel count : Nat) (c : Cursor),
    24 * c.rest.length + 14 ≤ fuel →
    argumentsFrom (fuel + 1) count c = argumentsFrom fuel count c
  | 0, _, _, h => by omega
  | fuel + 1, count, c, h => by
      rw [argumentsFrom_succ (fuel + 1) count, argumentsFrom_succ fuel count]
      refine bind_congr rfl (checkCount_orderly _ _ _) fun _ c₁ hlength₁ => ?_
      have hargument : 24 * c₁.rest.length + 13 ≤ fuel := by omega
      refine bind_congr (expression_steady fuel .assignment c₁ hargument)
        (expression_orderly fuel .assignment c₁ hargument) fun argument c₂ hlength₂ => ?_
      refine accept_bind_congr (fun _ => rfl) fun comma rest hshort => ?_
      have hothers : 24 * rest.length + 14 ≤ fuel := by omega
      exact bind_congr_left (argumentsFrom_steady fuel (count + 1) { c₂ with rest := rest } hothers)

theorem primary_steady : ∀ (fuel : Nat) (c : Cursor),
    24 * c.rest.length + 2 ≤ fuel → primary (fuel + 1) c = primary fuel c
  | 0, _, h => by omega
  | fuel + 1, c, h => by
      rw [primary_succ, primary_succ]
      refine accept_bind_congr (fun _ => noOperand_steady fuel c (by omega))
        fun token rest hshort => ?_
      dsimp only
      unfold primaryAt
      generalize token.kind = kind
      cases kind with
      | leftParen =>
          have hinner : 24 * rest.length + 14 ≤ fuel := by omega
          exact bind_congr_left (expression_steady fuel .comma { c with rest := rest } hinner)
      | _ => rfl

theorem noOperand_steady : ∀ (fuel : Nat) (c : Cursor),
    24 * c.rest.length + 1 ≤ fuel → noOperand (fuel + 1) c = noOperand fuel c
  | 0, _, h => by omega
  | fuel + 1, c, h => by
      refine nextKind_bind_congr ?_
      generalize hlevel : (c.rest.head?.map Token.kind).bind Level.ofOrphan? = orphan
      cases orphan with
      | none => rfl
      | some level =>
          have hdepth := level.depth_le
          obtain ⟨fault, hfault⟩ : ∃ fault, faultHere .missingLeftOperand c
              = (some (), { c with faults := c.faults ++ [fault] }) := ⟨_, rfl⟩
          dsimp only
          rw [bind_of_some hfault, bind_of_some hfault]
          refine accept_bind_congr (fun hnone => ?_) fun operator rest hshort => ?_
          · obtain ⟨token, htoken, hkind⟩ := Level.exists_of_orphan hlevel
            exact absurd hkind (hnone token htoken)
          · have hshort : c.rest.length = rest.length + 1 := hshort
            exact bind_congr_left (attempt_congr (expression_steady fuel level _
              (show 24 * rest.length + level.depth ≤ fuel by omega)))

end

theorem anyExpression_steady (fuel : Nat) (c : Cursor) (h : 24 * c.rest.length + 14 ≤ fuel) :
    anyExpression (fuel + 1) c = anyExpression fuel c :=
  expression_steady fuel .comma c h

/-! ### Optional parts -/

theorem optionalExpression_steady (stop : TokenKind) (fuel : Nat) (c : Cursor)
    (h : 24 * c.rest.length + 14 ≤ fuel) :
    optionalExpression stop (fuel + 1) c = optionalExpression stop fuel c := by
  refine nextKind_bind_congr ?_
  split
  · rfl
  · exact bind_congr_left (anyExpression_steady fuel c h)

theorem optionalInitializer_steady (fuel : Nat) (c : Cursor) (h : 24 * c.rest.length ≤ fuel) :
    optionalInitializer (fuel + 1) c = optionalInitializer fuel c := by
  refine accept_bind_congr (fun _ => rfl) fun equals rest hshort => ?_
  exact bind_congr_left (anyExpression_steady fuel { c with rest := rest }
    (show 24 * rest.length + 14 ≤ fuel by omega))

theorem variableDeclaration_steady (fuel : Nat) (c : Cursor) (h : 24 * c.rest.length ≤ fuel) :
    variableDeclaration (fuel + 1) c = variableDeclaration fuel c := by
  rw [variableDeclaration_eq, variableDeclaration_eq]
  refine expect_bind_congr fun name c₁ hlength₁ => ?_
  exact bind_congr_left (optionalInitializer_steady fuel c₁ (by omega))

theorem expressionStatement_steady (fuel : Nat) (c : Cursor)
    (h : 24 * c.rest.length + 14 ≤ fuel) :
    expressionStatement (fuel + 1) c = expressionStatement fuel c :=
  bind_congr_left (anyExpression_steady fuel c h)

theorem forInitializer_steady (fuel : Nat) (c : Cursor) (h : 24 * c.rest.length + 14 ≤ fuel) :
    forInitializer (fuel + 1) c = forInitializer fuel c := by
  refine accept_bind_congr (fun _ => bind_congr_left (expressionStatement_steady fuel c h))
    fun token rest hshort => ?_
  dsimp only
  split
  · rfl
  · exact bind_congr_left (variableDeclaration_steady fuel { c with rest := rest }
      (show 24 * rest.length ≤ fuel by omega))

theorem returnStatement_steady (keyword : Token) (fuel : Nat) (c : Cursor)
    (h : 24 * c.rest.length + 14 ≤ fuel) :
    returnStatement keyword (fuel + 1) c = returnStatement keyword fuel c :=
  bind_congr_left (optionalExpression_steady .semicolon fuel c h)

theorem parenthesized_steady (opening closing : String) (fuel : Nat) (c : Cursor)
    (h : 24 * c.rest.length ≤ fuel) :
    parenthesized opening closing (fuel + 1) c = parenthesized opening closing fuel c :=
  expect_bind_congr fun _ c₁ hlength₁ =>
    bind_congr_left (anyExpression_steady fuel c₁ (by omega))

theorem paramsFrom_steady : ∀ (fuel count : Nat) (c : Cursor),
    24 * c.rest.length + 1 ≤ fuel → paramsFrom (fuel + 1) count c = paramsFrom fuel count c
  | 0, _, _, h => by omega
  | fuel + 1, count, c, h => by
      rw [paramsFrom_succ (fuel + 1) count, paramsFrom_succ fuel count]
      refine bind_congr rfl (checkCount_orderly _ _ _) fun _ c₁ hlength₁ => ?_
      refine expect_bind_congr fun param c₂ hlength₂ => ?_
      refine accept_bind_congr (fun _ => rfl) fun comma rest hshort => ?_
      exact bind_congr_left (paramsFrom_steady fuel (count + 1) { c₂ with rest := rest }
        (show 24 * rest.length + 1 ≤ fuel by omega))

theorem params_steady (fuel : Nat) (c : Cursor) (h : 24 * c.rest.length + 1 ≤ fuel) :
    params (fuel + 1) c = params fuel c := by
  refine nextKind_bind_congr ?_
  split
  · rfl
  · exact paramsFrom_steady fuel 0 c h

/-! ### Statements and declarations -/

mutual

theorem keptDeclaration_steady : ∀ (fuel : Nat) (c : Cursor),
    24 * c.rest.length + 16 ≤ fuel → keptDeclaration fuel c = keptDeclaration (fuel - 1) c
  | 0, _, h => by omega
  | fuel + 1, c, h => by
      refine accept_bind_congr (fun _ => statement_steady fuel c (by omega))
        fun token rest hshort => ?_
      dsimp only
      unfold declarationAt
      generalize token.kind = kind
      cases kind with
      | kwClass =>
          exact classDeclaration_steady fuel { c with rest := rest }
            (show 24 * rest.length + 1 ≤ fuel by omega)
      | kwFun =>
          exact bind_congr_left (function_steady fuel "function" { c with rest := rest }
            (show 24 * rest.length + 1 ≤ fuel by omega))
      | _ =>
          exact variableDeclaration_steady fuel { c with rest := rest }
            (show 24 * rest.length ≤ fuel by omega)

theorem classDeclaration_steady : ∀ (fuel : Nat) (c : Cursor),
    24 * c.rest.length + 1 ≤ fuel → classDeclaration (fuel + 1) c = classDeclaration fuel c
  | 0, _, h => by omega
  | fuel + 1, c, h => by
      rw [classDeclaration_succ, classDeclaration_succ]
      refine expect_bind_congr fun name c₁ hlength₁ => ?_
      refine bind_congr rfl (optionalSuperclass_orderly c₁) fun superclass c₂ hlength₂ => ?_
      refine expect_bind_congr fun _ c₃ hlength₃ => ?_
      exact bind_congr_left (methods_steady fuel c₃ (by omega))

theorem methods_steady : ∀ (fuel : Nat) (c : Cursor),
    24 * c.rest.length + 2 ≤ fuel → methods (fuel + 1) c = methods fuel c
  | 0, _, h => by omega
  | fuel + 1, c, h => by
      cases hrest : c.rest with
      | nil => exact nextKind_bind_congr (by rw [hrest]; rfl)
      | cons token rest =>
          by_cases hkind : token.kind = .rightBrace
          · refine nextKind_bind_congr ?_
            rw [hrest, List.head?_cons, Option.map_some, hkind]
          rw [methods_of_head (fuel + 1) hrest hkind, methods_of_head fuel hrest hkind]
          refine bind_congr (function_steady fuel "method" c (by omega))
            (function_orderly fuel "method" c (by omega)) fun method c₁ hlength₁ => ?_
          exact bind_congr_left (methods_steady fuel c₁ (by omega))

theorem function_steady : ∀ (fuel : Nat) (role : String) (c : Cursor),
    24 * c.rest.length + 1 ≤ fuel → function (fuel + 1) role c = function fuel role c
  | 0, _, _, h => by omega
  | fuel + 1, role, c, h => by
      refine expect_bind_congr fun name c₁ hlength₁ => ?_
      refine expect_bind_congr fun _ c₂ hlength₂ => ?_
      refine bind_congr (params_steady fuel c₂ (by omega)) (params_orderly fuel c₂ (by omega))
        fun params c₃ hlength₃ => ?_
      refine expect_bind_congr fun _ c₄ hlength₄ => ?_
      refine expect_bind_congr fun _ c₅ hlength₅ => ?_
      exact bind_congr_left (block_steady fuel c₅ (by omega))

theorem block_steady : ∀ (fuel : Nat) (c : Cursor),
    24 * c.rest.length + 18 ≤ fuel → block (fuel + 1) c = block fuel c
  | 0, _, h => by omega
  | fuel + 1, c, h => bind_congr_left (declarations_steady fuel c (by omega))

theorem declarations_steady : ∀ (fuel : Nat) (c : Cursor),
    24 * c.rest.length + 17 ≤ fuel → declarations (fuel + 1) c = declarations fuel c
  | 0, _, h => by omega
  | fuel + 1, c, h => by
      cases hrest : c.rest with
      | nil => exact nextKind_bind_congr (by rw [hrest]; rfl)
      | cons token rest =>
          by_cases hkind : token.kind = .rightBrace
          · refine nextKind_bind_congr ?_
            rw [hrest, List.head?_cons, Option.map_some, hkind]
          have hshort : c.rest.length = rest.length + 1 := by rw [hrest]; rfl
          have hkept := keptDeclaration_orderly fuel c (by omega)
          rw [declarations_of_head (fuel + 1) hrest hkind, declarations_of_head fuel hrest hkind,
            declaration_eq (Nat.succ_pos fuel), declaration_eq (by omega)]
          refine bind_congr_of_eq (recovering_congr (keptDeclaration_steady fuel c (by omega)))
            fun first c₁ hread => ?_
          -- Whether it was kept or not, a declaration has taken a token.
          have hless := (recovering_reaches hkept).2
          rw [hread] at hless
          exact bind_congr_left (declarations_steady fuel c₁ (by simp only at hless; omega))

theorem statement_steady : ∀ (fuel : Nat) (c : Cursor),
    24 * c.rest.length + 15 ≤ fuel → statement (fuel + 1) c = statement fuel c
  | 0, _, h => by omega
  | fuel + 1, c, h => by
      rw [statement_succ, statement_succ]
      refine accept_bind_congr (fun _ => expressionStatement_steady fuel c (by omega))
        fun token rest hshort => ?_
      generalize hc₀ : ({ c with rest := rest } : Cursor) = c₀
      have hlength₀ : c₀.rest.length + 1 = c.rest.length := by rw [hshort, ← hc₀]
      dsimp only
      unfold statementAt
      generalize token.kind = kind
      cases kind with
      | kwBreak => rfl
      | kwFor => exact forClauses_steady fuel c₀ (by omega)
      | kwIf =>
          refine bind_congr (parenthesized_steady _ _ fuel c₀ (by omega))
            (parenthesized_orderly _ _ fuel c₀ (by omega)) fun condition c₁ hlength₁ => ?_
          refine bind_congr (statement_steady fuel c₁ (by omega))
            (statement_orderly fuel c₁ (by omega)) fun onTrue c₂ hlength₂ => ?_
          refine accept_bind_congr (fun _ => rfl) fun otherwise rest₂ hshort₂ => ?_
          exact bind_congr_left (statement_steady fuel { c₂ with rest := rest₂ }
            (show 24 * rest₂.length + 15 ≤ fuel by omega))
      | kwPrint => exact bind_congr_left (anyExpression_steady fuel c₀ (by omega))
      | kwReturn => exact returnStatement_steady token fuel c₀ (by omega)
      | kwWhile =>
          refine bind_congr (parenthesized_steady _ _ fuel c₀ (by omega))
            (parenthesized_orderly _ _ fuel c₀ (by omega)) fun condition c₁ hlength₁ => ?_
          exact bind_congr_left (statement_steady fuel c₁ (by omega))
      | _ => exact bind_congr_left (block_steady fuel c₀ (by omega))

theorem forClauses_steady : ∀ (fuel : Nat) (c : Cursor),
    24 * c.rest.length + 1 ≤ fuel → forClauses (fuel + 1) c = forClauses fuel c
  | 0, _, h => by omega
  | fuel + 1, c, h => by
      rw [forClauses_succ, forClauses_succ]
      refine expect_bind_congr fun _ c₁ hlength₁ => ?_
      refine bind_congr (forInitializer_steady fuel c₁ (by omega))
        (forInitializer_orderly fuel c₁ (by omega)) fun initializer c₂ hlength₂ => ?_
      refine bind_congr (optionalExpression_steady _ fuel c₂ (by omega))
        (optionalExpression_orderly _ fuel c₂ (by omega)) fun condition c₃ hlength₃ => ?_
      refine expect_bind_congr fun _ c₄ hlength₄ => ?_
      refine bind_congr (optionalExpression_steady _ fuel c₄ (by omega))
        (optionalExpression_orderly _ fuel c₄ (by omega)) fun increment c₅ hlength₅ => ?_
      refine expect_bind_congr fun _ c₆ hlength₆ => ?_
      exact bind_congr_left (statement_steady fuel c₆ (by omega))

end

/-! ### Whole programs -/

theorem declaration_steady (fuel : Nat) (c : Cursor) (h : 24 * c.rest.length + 16 ≤ fuel) :
    declaration (fuel + 1) c = declaration fuel c := by
  rw [declaration_eq (Nat.succ_pos fuel), declaration_eq (by omega)]
  exact recovering_congr (keptDeclaration_steady fuel c h)

/-- In front of a token there are fewer tokens left behind the first declaration. -/
theorem declaration_rest_lt {fuel : Nat} {c : Cursor} {token : Token} {rest : List Token}
    (hrest : c.rest = token :: rest) (h : 24 * c.rest.length + 16 ≤ fuel) :
    (declaration fuel c).2.rest.length + 1 ≤ c.rest.length := by
  have hless := (recovering_reaches (keptDeclaration_orderly fuel c h)).2
  have hshort : c.rest.length = rest.length + 1 := by rw [hrest]; rfl
  rw [declaration_eq (by omega)]
  omega

theorem toEnd_steady : ∀ (fuel : Nat) (c : Cursor),
    24 * c.rest.length + 17 ≤ fuel → toEnd (fuel + 1) c = toEnd fuel c
  | 0, _, h => by omega
  | fuel + 1, c, h => by
      rw [toEnd, toEnd]
      split
      · rfl
      · rename_i token rest hrest
        have hless : (declaration fuel c).2.rest.length + 1 ≤ c.rest.length :=
          declaration_rest_lt hrest (by omega)
        rw [declaration_steady fuel c (by omega)]
        dsimp only
        rw [toEnd_steady fuel _ (by omega)]

/-- Reading to the end does not depend on the counter. -/
theorem toEnd_of_le {fuel more : Nat} {c : Cursor} (h : 24 * c.rest.length + 17 ≤ fuel)
    (hle : fuel ≤ more) : toEnd more c = toEnd fuel c := by
  induction hle with
  | refl => rfl
  | step hle ih => rw [toEnd_steady _ c (Nat.le_trans h hle), ih]

end Lox.Grammar
