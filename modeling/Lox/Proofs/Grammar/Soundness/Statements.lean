/-
What is read as a statement or a declaration without a fault follows the rules.

The counter matters here, as it does not for expressions: a declaration that is abandoned
is dropped, and only with enough fuel does that leave a fault behind.  And the token
behind a statement matters: where an `if` has read no `else`, none stands there, and so
the `if` that does read it is the nearest one.
-/
import Lox.Proofs.Grammar.Soundness.Expressions

namespace Lox.Grammar

open Reader

/-! ### Parts of statements -/

theorem anyExpression_sound {fuel : Nat} {c c' : Cursor} {e : Expr}
    (h : anyExpression fuel c = (some e, c')) : Yields (Derives.Expression .comma) c c' e :=
  expression_sound fuel h

/-- An optional expression and the token behind it. -/
theorem optionalExpression_sound {stop : TokenKind} {fuel : Nat} {c c' : Cursor}
    {value : Option Expr} {closing : Token} {rest : List Token}
    (h : optionalExpression stop fuel c = (some value, c'))
    (hrest : c'.rest = closing :: rest) (hclosing : closing.kind = stop) :
    Yields (Derives.Clause stop) c { c' with rest := rest } value := by
  intro hnil
  rw [optionalExpression, bind_of_some (rfl : nextKind c = _)] at h
  split at h
  · obtain ⟨rfl, rfl⟩ := pure_eq_some h
    exact ⟨hnil, [closing], hrest, .absent hclosing⟩
  · obtain ⟨e, hread, rfl⟩ := map_eq_some h
    obtain ⟨hnil₀, taken, htaken, hvalue⟩ := anyExpression_sound hread hnil
    refine ⟨hnil₀, taken ++ [closing], ?_, .present hclosing hvalue⟩
    rw [htaken, hrest]
    simp

theorem variableDeclaration_sound {fuel : Nat} {c c' : Cursor} {s : Stmt} {keyword : Token}
    {rest : List Token} (hrest : c.rest = keyword :: rest) (isVar : keyword.kind = .kwVar)
    (h : variableDeclaration fuel { c with rest := rest } = (some s, c')) :
    Yields Derives.Variable c c' s := by
  intro hnil
  rw [variableDeclaration_eq] at h
  obtain ⟨name, rest₁, hrest₁, hname, h⟩ := expect_bind_eq_some h
  obtain ⟨initializer, c₂, hinitializer, h⟩ := bind_eq_some h
  obtain ⟨semicolon, rest₃, hrest₃, hsemicolon, h⟩ := expect_bind_eq_some h
  obtain ⟨rfl, rfl⟩ := pure_eq_some h
  simp only at hrest₁
  rcases accept_bind_eq_some hinitializer with ⟨h, -⟩ | ⟨equals, rest₂, hrest₂, hmem, h⟩
  · obtain ⟨rfl, rfl⟩ := pure_eq_some h
    refine ⟨hnil, [keyword, name, semicolon], ?_, .plain isVar hname hsemicolon⟩
    simp only at hrest₃
    rw [hrest, hrest₁, hrest₃]
    rfl
  · obtain ⟨value, hread, rfl⟩ := map_eq_some h
    obtain ⟨hnil₀, taken, htaken, hvalue⟩ := anyExpression_sound hread hnil
    refine ⟨hnil₀, keyword :: name :: equals :: (taken ++ [semicolon]), ?_,
      .initialized isVar hname (by simpa using hmem) hsemicolon hvalue⟩
    simp only at hrest₂ htaken
    rw [hrest, hrest₁, hrest₂, htaken, hrest₃]
    simp

theorem expressionStatement_sound {fuel : Nat} {c c' : Cursor} {s : Stmt}
    (h : expressionStatement fuel c = (some s, c')) :
    ∃ e, s = .expression e ∧
      Yields (fun first tokens last e => Derives.Clause .semicolon first tokens last (some e))
        c c' e := by
  obtain ⟨e, c₁, hvalue, h⟩ := bind_eq_some h
  obtain ⟨semicolon, rest, hrest, hsemicolon, h⟩ := expect_bind_eq_some h
  obtain ⟨rfl, rfl⟩ := pure_eq_some h
  refine ⟨e, rfl, fun hnil => ?_⟩
  obtain ⟨hnil₀, taken, htaken, hvalue⟩ := anyExpression_sound hvalue hnil
  refine ⟨hnil₀, taken ++ [semicolon], ?_, .present hsemicolon hvalue⟩
  rw [htaken, hrest]
  simp

theorem forInitializer_sound {fuel : Nat} {c c' : Cursor} {initializer : Option Stmt}
    (h : forInitializer fuel c = (some initializer, c')) :
    Yields Derives.Initializer c c' initializer := by
  rcases accept_bind_eq_some h with ⟨h, -⟩ | ⟨token, rest, hrest, hmem, h⟩
  · obtain ⟨s, hread, rfl⟩ := map_eq_some h
    obtain ⟨e, rfl, hclause⟩ := expressionStatement_sound hread
    intro hnil
    obtain ⟨hnil₀, taken, htaken, hclause⟩ := hclause hnil
    exact ⟨hnil₀, taken, htaken, .clause hclause⟩
  · by_cases hkind : token.kind = .semicolon
    · simp only [hkind, if_pos] at h
      obtain ⟨rfl, rfl⟩ := pure_eq_some h
      exact fun hnil => ⟨hnil, [token], hrest, .clause (.absent hkind)⟩
    · simp only [hkind, if_false] at h
      obtain ⟨s, hread, rfl⟩ := map_eq_some h
      intro hnil
      have hvar : token.kind = .kwVar := by simpa [hkind] using hmem
      obtain ⟨hnil₀, taken, htaken, hs⟩ := variableDeclaration_sound hrest hvar hread hnil
      exact ⟨hnil₀, taken, htaken, .var hs⟩

theorem optionalSuperclass_sound {c c' : Cursor} {superclass : Option Occurrence}
    (h : optionalSuperclass c = (some superclass, c')) :
    Yields Derives.Superclass c c' superclass := by
  intro hnil
  rcases accept_bind_eq_some h with ⟨h, -⟩ | ⟨less, rest, hrest, hmem, h⟩
  · obtain ⟨rfl, rfl⟩ := pure_eq_some h
    exact ⟨hnil, [], rfl, .absent⟩
  · obtain ⟨name, rest₁, hrest₁, hname, h⟩ := expect_bind_eq_some h
    obtain ⟨rfl, rfl⟩ := pure_eq_some h
    refine ⟨hnil, [less, name], ?_, .present (by simpa using hmem) hname⟩
    simp only at hrest₁
    rw [hrest, hrest₁]
    rfl

theorem paramsFrom_sound : ∀ (fuel : Nat) {count : Nat} {names : List Token}
    {c c' : Cursor}, paramsFrom fuel count c = (some names, c') →
    Yields (fun first tokens last names => last = first ∧ names ≠ [] ∧
      Derives.Parameters tokens names ∧ count + names.length ≤ 255) c c' names
  | 0, count, names, c, c', h => by simp [paramsFrom, abandon] at h
  | fuel + 1, count, names, c, c', h => by
      rw [paramsFrom_succ] at h
      obtain ⟨_, c₀, hcheck, h⟩ := bind_eq_some h
      obtain ⟨name, rest, hrest, hname, h⟩ := expect_bind_eq_some h
      intro hnil
      rcases accept_bind_eq_some h with ⟨h, -⟩ | ⟨comma, rest₁, hrest₁, hmem, h⟩
      · obtain ⟨rfl, rfl⟩ := pure_eq_some h
        obtain ⟨rfl, hcount⟩ := checkCount_sound hcheck hnil
        exact ⟨hnil, [name], hrest, rfl, by simp, .last hname,
          by simp only [List.length_singleton]; omega⟩
      · obtain ⟨others, c₂, hothers, h⟩ := bind_eq_some h
        obtain ⟨rfl, rfl⟩ := pure_eq_some h
        obtain ⟨hnil₀, row, hrow', hlast, hnonempty, hrow, hfew⟩ :=
          paramsFrom_sound fuel hothers hnil
        obtain ⟨rfl, hcount⟩ := checkCount_sound hcheck hnil₀
        refine ⟨hnil₀, name :: comma :: row, ?_, hlast, by simp,
          .more hname (by simpa using hmem) hnonempty hrow,
          by simp only [List.length_cons]; omega⟩
        simp only at hrest₁ hrow'
        rw [hrest, hrest₁, hrow']
        rfl

theorem params_sound {fuel : Nat} {names : List Token} {c c' : Cursor}
    (h : params fuel c = (some names, c')) :
    Yields (fun first tokens last names => last = first ∧ names.length ≤ 255 ∧
      Derives.Parameters tokens names) c c' names := by
  intro hnil
  rw [params, bind_of_some (rfl : nextKind c = _)] at h
  split at h
  · obtain ⟨rfl, rfl⟩ := pure_eq_some h
    exact ⟨hnil, [], rfl, rfl, by simp, .none⟩
  · obtain ⟨hnil₀, taken, htaken, hlast, -, hrow, hfew⟩ := paramsFrom_sound fuel h hnil
    exact ⟨hnil₀, taken, htaken, hlast, by omega, hrow⟩

theorem parenthesized_sound {opening closing : String} {fuel : Nat} {c c' : Cursor}
    {e : Expr} (h : parenthesized opening closing fuel c = (some e, c')) :
    Yields (fun first tokens last e => ∃ between left right, tokens = left :: (between ++ [right])
      ∧ left.kind = .leftParen ∧ right.kind = .rightParen ∧
      Derives.Expression .comma first between last e) c c' e := by
  intro hnil
  obtain ⟨left, rest, hrest, hleft, h⟩ := expect_bind_eq_some h
  obtain ⟨condition, c₁, hcondition, h⟩ := bind_eq_some h
  obtain ⟨right, rest₁, hrest₁, hright, h⟩ := expect_bind_eq_some h
  obtain ⟨rfl, rfl⟩ := pure_eq_some h
  obtain ⟨hnil₀, between, hbetween, hcondition⟩ := anyExpression_sound hcondition hnil
  refine ⟨hnil₀, left :: (between ++ [right]), ?_, between, left, right, rfl, hleft, hright,
    hcondition⟩
  simp only at hbetween
  rw [hrest, hbetween, hrest₁]
  simp

/-! ### Statements and declarations -/

/-- A statement was read, and if an `else` behind it would belong to it, there is none. -/
def YieldsStatement (c c' : Cursor) (s : Stmt) : Prop :=
  c'.faults = [] → c.faults = [] ∧ ∃ isOpen taken, c.rest = taken ++ c'.rest ∧
    Derives.Statement isOpen c.lastId taken c'.lastId s ∧
    (isOpen = true → ∀ token ∈ c'.rest.head?, token.kind ≠ .kwElse)

/-- A statement of a kind that no `else` can follow. -/
theorem yieldsStatement_of_closed {c c' : Cursor} {s : Stmt}
    (h : Yields (Derives.Statement false) c c' s) : YieldsStatement c c' s := by
  intro hnil
  obtain ⟨hnil₀, taken, htaken, hs⟩ := h hnil
  exact ⟨hnil₀, false, taken, htaken, hs, by simp⟩

/-- An expression and its semicolon are a statement. -/
theorem Derives.statement_of_clause {first last : Nat} {tokens : List Token} {e : Expr}
    (h : Derives.Clause .semicolon first tokens last (some e)) :
    Derives.Statement false first tokens last (.expression e) := by
  cases h with
  | present isClosing value => exact .expression isClosing value

/-- What was kept in a recovery was read without one. -/
theorem recovering_eq_some {α : Type} {p : Reader α} {c c' : Cursor} {a : α}
    (h : recovering p c = (some (some a), c')) : p c = (some a, c') := by
  unfold recovering at h
  split at h
  · rename_i hp
    rw [hp]
    simpa using h
  · simp at h

mutual

theorem keptDeclaration_sound : ∀ (fuel : Nat) {c c' : Cursor} {s : Stmt},
    24 * c.rest.length + 16 ≤ fuel → keptDeclaration (fuel - 1) c = (some s, c') →
    Yields Derives.Declaration c c' s
  | 0, _, _, _, hfuel, _ => by omega
  | fuel + 1, c, c', s, hfuel, h => by
      intro hnil
      rcases accept_bind_eq_some h with ⟨h, -⟩ | ⟨token, rest, hrest, hmem, h⟩
      · obtain ⟨hnil₀, isOpen, taken, htaken, hs, -⟩ :=
          statement_sound fuel (by omega) h hnil
        exact ⟨hnil₀, taken, htaken, .statement hs⟩
      have hshort : c.rest.length = rest.length + 1 := by rw [hrest]; rfl
      obtain ⟨p, hp, h⟩ : ∃ p, declarationAt token fuel = p ∧
          p { c with rest := rest } = (some s, c') := ⟨_, rfl, h⟩
      unfold declarationAt at hp
      split at hp <;> subst hp
      · rename_i hkind
        exact classDeclaration_sound fuel (show 24 * rest.length + 1 ≤ fuel by omega) hrest
          hkind h hnil
      · rename_i hkind
        obtain ⟨declared, hread, rfl⟩ := map_eq_some h
        obtain ⟨hnil₀, taken, htaken, hdeclared⟩ :=
          function_sound fuel (show 24 * rest.length + 1 ≤ fuel by omega) hread hnil
        refine ⟨hnil₀, token :: taken, ?_, .function hkind hdeclared⟩
        simp only at htaken
        rw [hrest, htaken, List.cons_append]
      · have hkind : token.kind = .kwVar := by
          simp only [List.mem_cons, List.not_mem_nil, or_false] at hmem
          rcases hmem with h | h | h <;> first | exact h | contradiction
        obtain ⟨hnil₀, taken, htaken, hs⟩ := variableDeclaration_sound hrest hkind h hnil
        exact ⟨hnil₀, taken, htaken, .var hs⟩

theorem classDeclaration_sound : ∀ (fuel : Nat) {c c' : Cursor} {s : Stmt}
    {keyword : Token} {rest : List Token}, 24 * rest.length + 1 ≤ fuel →
    c.rest = keyword :: rest → keyword.kind = .kwClass →
    classDeclaration fuel { c with rest := rest } = (some s, c') →
    Yields Derives.Declaration c c' s
  | 0, _, _, _, _, _, hfuel, _, _, _ => by omega
  | fuel + 1, c, c', s, keyword, rest, hfuel, hrest, hkeyword, h => by
      intro hnil
      rw [classDeclaration_succ] at h
      obtain ⟨name, rest₁, hrest₁, hname, h⟩ := expect_bind_eq_some h
      obtain ⟨superclass, c₂, hsuper, h⟩ := bind_eq_some h
      obtain ⟨opening, rest₃, hrest₃, hopening, h⟩ := expect_bind_eq_some h
      obtain ⟨declared, c₄, hdeclared, h⟩ := bind_eq_some h
      obtain ⟨closing, rest₅, hrest₅, hclosing, h⟩ := expect_bind_eq_some h
      obtain ⟨rfl, rfl⟩ := pure_eq_some h
      have hlength := (optionalSuperclass_orderly _).length_of_some hsuper
      simp only at hrest₁ hlength
      have hfuel₃ : 24 * rest₃.length + 2 ≤ fuel := by
        simp only [hrest₁, hrest₃, List.length_cons] at hlength hfuel
        omega
      obtain ⟨hnil₂, inside, hinside, hdeclared⟩ := methods_sound fuel hfuel₃ hdeclared hnil
      obtain ⟨hnil₀, above, habove, hsuper⟩ := optionalSuperclass_sound hsuper hnil₂
      refine ⟨hnil₀, keyword :: name :: (above ++ opening :: (inside ++ [closing])), ?_,
        .classDecl hkeyword hname hopening hclosing hsuper hdeclared⟩
      simp only at habove hinside
      rw [hrest, hrest₁, habove, hrest₃, hinside, hrest₅]
      simp

theorem methods_sound : ∀ (fuel : Nat) {c c' : Cursor} {fs : List FunctionDecl},
    24 * c.rest.length + 2 ≤ fuel → methods fuel c = (some fs, c') →
    Yields Derives.Methods c c' fs
  | 0, _, _, _, hfuel, _ => by omega
  | fuel + 1, c, c', fs, hfuel, h => by
      intro hnil
      obtain ⟨kind, c₀, hkind, h⟩ := bind_eq_some h
      obtain ⟨rfl, rfl⟩ : c.rest.head?.map Token.kind = kind ∧ c = c₀ := by
        simpa [nextKind] using hkind
      obtain ⟨p, hp, h⟩ : ∃ p, (match c.rest.head?.map Token.kind with
          | none | some .rightBrace => pure []
          | some _ => do
              let method ← function fuel "method"
              let others ← methods fuel
              pure (method :: others)) = p ∧ p c = (some fs, c') := ⟨_, rfl, h⟩
      split at hp <;> subst hp
      · obtain ⟨rfl, rfl⟩ := pure_eq_some h
        exact ⟨hnil, [], rfl, .none⟩
      · obtain ⟨rfl, rfl⟩ := pure_eq_some h
        exact ⟨hnil, [], rfl, .none⟩
      · obtain ⟨method, c₁, hmethod, h⟩ := bind_eq_some h
        obtain ⟨others, c₂, hothers, h⟩ := bind_eq_some h
        obtain ⟨rfl, rfl⟩ := pure_eq_some h
        have hlength := (function_orderly fuel "method" c (by omega)).length_of_some hmethod
        obtain ⟨hnil₁, behind, hbehind, hothers⟩ := methods_sound fuel (by omega) hothers hnil
        obtain ⟨hnil₀, before, hbefore, hmethod⟩ := function_sound fuel (by omega) hmethod hnil₁
        exact ⟨hnil₀, before ++ behind, by rw [hbefore, hbehind, List.append_assoc],
          .more hmethod hothers⟩

theorem function_sound : ∀ (fuel : Nat) {role : String} {c c' : Cursor} {f : FunctionDecl},
    24 * c.rest.length + 1 ≤ fuel → function fuel role c = (some f, c') →
    Yields Derives.Function c c' f
  | 0, _, _, _, _, hfuel, _ => by omega
  | fuel + 1, role, c, c', f, hfuel, h => by
      intro hnil
      obtain ⟨name, rest₁, hrest₁, hname, h⟩ := expect_bind_eq_some h
      obtain ⟨opening, rest₂, hrest₂, hopening, h⟩ := expect_bind_eq_some h
      obtain ⟨names, c₃, hnames, h⟩ := bind_eq_some h
      obtain ⟨closing, rest₄, hrest₄, hclosing, h⟩ := expect_bind_eq_some h
      obtain ⟨start, rest₅, hrest₅, hstart, h⟩ := expect_bind_eq_some h
      obtain ⟨body, c₆, hbody, h⟩ := bind_eq_some h
      obtain ⟨rfl, rfl⟩ := pure_eq_some h
      simp only at hrest₂ hrest₅
      have hfuel₂ : 24 * rest₂.length + 1 ≤ fuel := by
        simp only [hrest₁, hrest₂, List.length_cons] at hfuel
        omega
      have hlength := (params_orderly fuel _ hfuel₂).length_of_some hnames
      have hfuel₅ : 24 * rest₅.length + 18 ≤ fuel := by
        simp only [hrest₄, hrest₅, List.length_cons] at hlength
        omega
      obtain ⟨hnil₃, stop, inside, hinside, hstop, hbody⟩ := block_sound fuel hfuel₅ hbody hnil
      obtain ⟨hnil₀, row, hrow, hlast, hfew, hnames⟩ := params_sound hnames hnil₃
      refine ⟨hnil₀, name :: opening :: (row ++ closing :: start :: (inside ++ [stop])), ?_, ?_⟩
      · simp only at hrow hinside
        rw [hrest₁, hrest₂, hrow, hrest₄, hrest₅, hinside]
        simp
      · simp only at hlast hbody
        rw [hlast] at hbody
        exact .mk hname hopening hclosing hstart hstop hfew hnames hbody

theorem block_sound : ∀ (fuel : Nat) {c c' : Cursor} {body : List Stmt},
    24 * c.rest.length + 18 ≤ fuel → block fuel c = (some body, c') → c'.faults = [] →
    c.faults = [] ∧ ∃ stop inside, c.rest = inside ++ stop :: c'.rest ∧
      stop.kind = .rightBrace ∧ Derives.Declarations c.lastId inside c'.lastId body
  | 0, _, _, _, hfuel, _ => by omega
  | fuel + 1, c, c', body, hfuel, h => by
      intro hnil
      obtain ⟨body, c₁, hbody, h⟩ := bind_eq_some h
      obtain ⟨stop, rest₂, hrest₂, hstop, h⟩ := expect_bind_eq_some h
      obtain ⟨rfl, rfl⟩ := pure_eq_some h
      obtain ⟨hnil₀, inside, hinside, hbody⟩ := declarations_sound fuel (by omega) hbody hnil
      exact ⟨hnil₀, stop, inside, by rw [hinside, hrest₂], hstop, hbody⟩

theorem declarations_sound : ∀ (fuel : Nat) {c c' : Cursor} {body : List Stmt},
    24 * c.rest.length + 17 ≤ fuel → declarations fuel c = (some body, c') →
    Yields Derives.Declarations c c' body
  | 0, _, _, _, hfuel, _ => by omega
  | fuel + 1, c, c', body, hfuel, h => by
      intro hnil
      obtain ⟨kind, c₀, hkind, h⟩ := bind_eq_some h
      obtain ⟨rfl, rfl⟩ : c.rest.head?.map Token.kind = kind ∧ c = c₀ := by
        simpa [nextKind] using hkind
      obtain ⟨p, hp, h⟩ : ∃ p, (match c.rest.head?.map Token.kind with
          | none | some .rightBrace => pure []
          | some _ => do
              let first ← declaration fuel
              let others ← declarations fuel
              pure (first.toList ++ others)) = p ∧ p c = (some body, c') := ⟨_, rfl, h⟩
      split at hp <;> subst hp
      · obtain ⟨rfl, rfl⟩ := pure_eq_some h
        exact ⟨hnil, [], rfl, .none⟩
      · obtain ⟨rfl, rfl⟩ := pure_eq_some h
        exact ⟨hnil, [], rfl, .none⟩
      · rename_i hkind
        obtain ⟨first, c₁, hfirst, h⟩ := bind_eq_some h
        obtain ⟨others, c₂, hothers, h⟩ := bind_eq_some h
        obtain ⟨rfl, rfl⟩ := pure_eq_some h
        have hpos : 0 < c.rest.length := by
          cases hrest : c.rest with
          | nil => simp [hrest] at hkind
          | cons token rest => simp
        rw [declaration_eq (by omega)] at hfirst
        have hkept := keptDeclaration_orderly fuel c (by omega)
        have hshort := (recovering_reaches hkept).2
        have hdropped := recovering_dropped hkept
        rw [hfirst] at hshort hdropped
        simp only at hshort hdropped
        obtain ⟨hnil₁, behind, hbehind, hothers⟩ :=
          declarations_sound fuel (by omega) hothers hnil
        cases first with
        | none => simp [hnil₁] at hdropped
        | some s =>
            obtain ⟨hnil₀, before, hbefore, hs⟩ :=
              keptDeclaration_sound fuel (by omega) (recovering_eq_some hfirst) hnil₁
            exact ⟨hnil₀, before ++ behind, by rw [hbefore, hbehind, List.append_assoc],
              .more hs hothers⟩

theorem statement_sound : ∀ (fuel : Nat) {c c' : Cursor} {s : Stmt},
    24 * c.rest.length + 15 ≤ fuel → statement fuel c = (some s, c') → YieldsStatement c c' s
  | 0, _, _, _, hfuel, _ => by omega
  | fuel + 1, c, c', s, hfuel, h => by
      rw [statement_succ] at h
      rcases accept_bind_eq_some h with ⟨h, -⟩ | ⟨token, rest, hrest, hmem, h⟩
      · obtain ⟨e, rfl, hclause⟩ := expressionStatement_sound h
        refine yieldsStatement_of_closed fun hnil => ?_
        obtain ⟨hnil₀, taken, htaken, hclause⟩ := hclause hnil
        exact ⟨hnil₀, taken, htaken, Derives.statement_of_clause hclause⟩
      have hshort : c.rest.length = rest.length + 1 := by rw [hrest]; rfl
      obtain ⟨p, hp, h⟩ : ∃ p, statementAt token fuel = p ∧
          p { c with rest := rest } = (some s, c') := ⟨_, rfl, h⟩
      unfold statementAt at hp
      split at hp <;> subst hp
      · rename_i hkind
        obtain ⟨semicolon, rest₁, hrest₁, hsemicolon, h⟩ := expect_bind_eq_some h
        obtain ⟨rfl, rfl⟩ := pure_eq_some h
        refine yieldsStatement_of_closed fun hnil =>
          ⟨hnil, [token, semicolon], ?_, .breakLoop hkind hsemicolon⟩
        simp only at hrest₁
        rw [hrest, hrest₁]
        rfl
      · rename_i hkind
        exact forClauses_sound fuel (show 24 * rest.length + 1 ≤ fuel by omega) hrest hkind h
      · rename_i hkind
        obtain ⟨condition, c₁, htest, h⟩ := bind_eq_some h
        have hlength₁ := (parenthesized_orderly _ _ fuel _
          (show 24 * rest.length ≤ fuel by omega)).length_of_some htest
        have htest := parenthesized_sound htest
        obtain ⟨onTrue, c₂, hchosen, h⟩ := bind_eq_some h
        simp only at hlength₁
        have hlength₂ := (statement_orderly fuel c₁ (by omega)).length_of_some hchosen
        have hchosen := statement_sound fuel (by omega) hchosen
        intro hnil
        rcases accept_bind_eq_some h with ⟨h, hnot⟩ | ⟨otherwise, rest₃, hrest₃, hmem₃, h⟩
        · obtain ⟨rfl, rfl⟩ := pure_eq_some h
          obtain ⟨hnil₁, isOpen, chosen, hchosen', hchosen, -⟩ := hchosen hnil
          obtain ⟨hnil₀, _, htest', between, left, right, rfl, hleft, hright, htest⟩ :=
            htest hnil₁
          refine ⟨hnil₀, true, token :: left :: (between ++ right :: chosen), ?_,
            .ifOnly hkind hleft hright htest hchosen, fun _ => by simpa using hnot⟩
          simp only at htest'
          rw [hrest, htest', hchosen']
          simp
        · obtain ⟨onFalse, c₄, hother, h⟩ := bind_eq_some h
          obtain ⟨rfl, rfl⟩ := pure_eq_some h
          have hshort₃ : c₂.rest.length = rest₃.length + 1 := by rw [hrest₃]; rfl
          have hfuel₃ : 24 * rest₃.length + 15 ≤ fuel := by omega
          obtain ⟨hnil₃, isOpen, other, hother', hother, hfollow⟩ :=
            statement_sound fuel hfuel₃ hother hnil
          obtain ⟨hnil₁, wasOpen, chosen, hchosen', hchosen, hclosed⟩ := hchosen hnil₃
          obtain ⟨hnil₀, _, htest', between, left, right, rfl, hleft, hright, htest⟩ :=
            htest hnil₁
          have helse : otherwise.kind = .kwElse := by simpa using hmem₃
          -- The `else` was taken here, so it does not belong to the statement before it.
          have hclosed : wasOpen = false := by
            cases wasOpen with
            | false => rfl
            | true => exact absurd helse (hclosed rfl otherwise (by simp [hrest₃]))
          subst hclosed
          refine ⟨hnil₀, isOpen, token :: left :: (between ++ right :: (chosen ++
            otherwise :: other)), ?_, .ifElse hkind hleft hright helse htest hchosen hother,
            hfollow⟩
          simp only at htest' hother'
          rw [hrest, htest', hchosen', hrest₃, hother']
          simp
      · rename_i hkind
        obtain ⟨value, c₁, hvalue, h⟩ := bind_eq_some h
        obtain ⟨semicolon, rest₂, hrest₂, hsemicolon, h⟩ := expect_bind_eq_some h
        obtain ⟨rfl, rfl⟩ := pure_eq_some h
        refine yieldsStatement_of_closed fun hnil => ?_
        obtain ⟨hnil₀, taken, htaken, hvalue⟩ := anyExpression_sound hvalue hnil
        refine ⟨hnil₀, token :: (taken ++ [semicolon]), ?_, .print hkind hsemicolon hvalue⟩
        simp only at htaken
        rw [hrest, htaken, hrest₂]
        simp
      · rename_i hkind
        obtain ⟨value, c₁, hvalue, h⟩ := bind_eq_some h
        obtain ⟨semicolon, rest₂, hrest₂, hsemicolon, h⟩ := expect_bind_eq_some h
        obtain ⟨rfl, rfl⟩ := pure_eq_some h
        refine yieldsStatement_of_closed fun hnil => ?_
        obtain ⟨hnil₀, taken, htaken, hclause⟩ :=
          optionalExpression_sound hvalue hrest₂ hsemicolon hnil
        refine ⟨hnil₀, token :: taken, ?_, .returnWith hkind hclause⟩
        simp only at htaken
        rw [hrest, htaken]
        rfl
      · rename_i hkind
        obtain ⟨condition, c₁, htest, h⟩ := bind_eq_some h
        obtain ⟨body, c₂, hbody, h⟩ := bind_eq_some h
        obtain ⟨rfl, rfl⟩ := pure_eq_some h
        have hlength₁ := (parenthesized_orderly _ _ fuel _
          (show 24 * rest.length ≤ fuel by omega)).length_of_some htest
        simp only at hlength₁
        intro hnil
        obtain ⟨hnil₁, isOpen, repeated, hrepeated, hbody, hfollow⟩ :=
          statement_sound fuel (by omega) hbody hnil
        obtain ⟨hnil₀, _, htest', between, left, right, rfl, hleft, hright, htest⟩ :=
          parenthesized_sound htest hnil₁
        refine ⟨hnil₀, isOpen, token :: left :: (between ++ right :: repeated), ?_,
          .whileLoop hkind hleft hright htest hbody, hfollow⟩
        simp only at htest'
        rw [hrest, htest', hrepeated]
        simp
      · have hkind : token.kind = .leftBrace := by
          simp only [List.mem_cons, List.not_mem_nil, or_false] at hmem
          rcases hmem with h | h | h | h | h | h | h <;> first | exact h | contradiction
        obtain ⟨body, hbody, rfl⟩ := map_eq_some h
        refine yieldsStatement_of_closed fun hnil => ?_
        obtain ⟨hnil₀, stop, inside, hinside, hstop, hbody⟩ :=
          block_sound fuel (show 24 * rest.length + 18 ≤ fuel by omega) hbody hnil
        refine ⟨hnil₀, token :: (inside ++ [stop]), ?_, .block hkind hstop hbody⟩
        simp only at hinside
        rw [hrest, hinside]
        simp

theorem forClauses_sound : ∀ (fuel : Nat) {c c' : Cursor} {s : Stmt} {keyword : Token}
    {rest : List Token}, 24 * rest.length + 1 ≤ fuel → c.rest = keyword :: rest →
    keyword.kind = .kwFor → forClauses fuel { c with rest := rest } = (some s, c') →
    YieldsStatement c c' s
  | 0, _, _, _, _, _, hfuel, _, _, _ => by omega
  | fuel + 1, c, c', s, keyword, rest, hfuel, hrest, hkeyword, h => by
      rw [forClauses_succ] at h
      obtain ⟨opening, rest₁, hrest₁, hopening, h⟩ := expect_bind_eq_some h
      obtain ⟨initializer, c₂, hinitializer, h⟩ := bind_eq_some h
      obtain ⟨condition, c₃, hcondition, h⟩ := bind_eq_some h
      obtain ⟨semicolon, rest₄, hrest₄, hsemicolon, h⟩ := expect_bind_eq_some h
      obtain ⟨increment, c₅, hincrement, h⟩ := bind_eq_some h
      obtain ⟨closing, rest₆, hrest₆, hclosing, h⟩ := expect_bind_eq_some h
      obtain ⟨body, c₇, hbody, h⟩ := bind_eq_some h
      obtain ⟨rfl, rfl⟩ := pure_eq_some h
      simp only at hrest₁
      have hfuel₁ : 24 * rest₁.length + 14 ≤ fuel := by
        simp only [hrest₁, List.length_cons] at hfuel
        omega
      have hlength₂ := (forInitializer_orderly fuel _ hfuel₁).length_of_some hinitializer
      simp only at hlength₂
      have hlength₃ := (optionalExpression_orderly _ fuel c₂ (by omega)).length_of_some hcondition
      have hshort₄ : c₃.rest.length = rest₄.length + 1 := by rw [hrest₄]; rfl
      have hlength₅ := (optionalExpression_orderly _ fuel _
        (show 24 * rest₄.length + 14 ≤ fuel by omega)).length_of_some hincrement
      have hshort₆ : c₅.rest.length = rest₆.length + 1 := by rw [hrest₆]; rfl
      simp only at hlength₅
      intro hnil
      obtain ⟨hnil₆, isOpen, repeated, hrepeated, hbody, hfollow⟩ :=
        statement_sound fuel (show 24 * rest₆.length + 15 ≤ fuel by omega) hbody hnil
      obtain ⟨hnil₄, stepped, hstepped, hincrement⟩ :=
        optionalExpression_sound hincrement hrest₆ hclosing hnil₆
      obtain ⟨hnil₂, tested, htested, hcondition⟩ :=
        optionalExpression_sound hcondition hrest₄ hsemicolon hnil₄
      obtain ⟨hnil₀, start, hstart, hinitializer⟩ := forInitializer_sound hinitializer hnil₂
      refine ⟨hnil₀, isOpen, keyword :: opening :: (start ++ (tested ++ (stepped ++ repeated))),
        ?_, ?_, hfollow⟩
      · simp only at hstart htested hstepped hrepeated
        rw [hrest, hrest₁, hstart, htested, hstepped, hrepeated]
        simp
      · rw [Derives.forLoop_eq]
        exact .forLoop hkeyword hopening hinitializer hcondition hincrement hbody

end

end Lox.Grammar
