/-
Reading comes to an end.

Without a counter the rules call each other for as long as it takes.  That is not for ever: a
rule mentions itself behind a token or at a tighter level, so two dozen calls for each token that
is left are enough, whatever the tokens are.  With calls nested so deeply a rule does what its
reader does with a counter of that size (`Faithful.nested`), which is known to be orderly.

What the loops rely on is that each turn takes a token: a declaration does, since recovery skips
one if the declaration itself has taken none; and a method does, or else the class is abandoned.
-/
import Lox.Proofs.Grammar.Exactness
import Lox.Proofs.Grammar.Rules

namespace Lox.Grammar

open Reader

/-! ### Doing what a reader does -/

namespace Unbounded

variable {α β : Type} {q : Unbounded α} {p : Reader α} {g : α → Unbounded β} {f : α → Reader β}
  {c : Cursor}

/-- At the cursor there is a result, and it is that of the reader. -/
def Performs (q : Unbounded α) (p : Reader α) (c : Cursor) : Prop :=
  q c = of p c

theorem bind_apply (q : Unbounded α) (g : α → Unbounded β) (c : Cursor) :
    (q >>= g) c = (q c).bind fun
      | (.ok a, c') => g a c'
      | (.error e, c') => some (.error e, c') := by
  show (q c).bind _ = _
  congr 1
  funext ⟨result, c'⟩
  cases result <;> rfl

namespace Performs

theorem step (p : Reader α) (c : Cursor) : (of p).Performs p c :=
  rfl

theorem pure (a : α) (c : Cursor) : (Pure.pure a : Unbounded α).Performs (Pure.pure a) c :=
  rfl

theorem of_eq {p' : Reader α} (heq : p c = p' c) (h : q.Performs p' c) : q.Performs p c := by
  unfold Performs at h ⊢
  rw [h, of, of, heq]

/-- One behind the other, if the second does so where the first one leads to. -/
theorem bind_of_eq (h : q.Performs p c)
    (hf : ∀ a c', p c = (some a, c') → (g a).Performs (f a) c') :
    (q >>= g).Performs (p >>= f) c := by
  unfold Performs at h ⊢
  rw [bind_apply, h, of, of, Reader.bind_apply]
  cases hread : p c with
  | mk result c' =>
      cases result with
      | none => rfl
      | some a => exact hf a c' hread

theorem bind {least : Nat} (h : q.Performs p c) (hp : Orderly p least c)
    (hf : ∀ a c', c'.rest.length + least ≤ c.rest.length → (g a).Performs (f a) c') :
    (q >>= g).Performs (p >>= f) c :=
  h.bind_of_eq fun a c' hread => hf a c' (hp.length_of_some hread)

/-- A step behind that has an end wherever it starts. -/
theorem bind_step (h : q.Performs p c) (hf : ∀ a c', (g a).Performs (f a) c') :
    (q >>= g).Performs (p >>= f) c :=
  h.bind_of_eq fun a c' _ => hf a c'

theorem map (h : q.Performs p c) (k : α → β) : (k <$> q).Performs (k <$> p) c := by
  rw [map_eq_pure_bind, map_eq_pure_bind]
  exact h.bind_step fun a c' => .pure (k a) c'

theorem accept_bind {kinds : List TokenKind} {g : Option Token → Unbounded β}
    {f : Option Token → Reader β}
    (hnone : (∀ token ∈ c.rest.head?, token.kind ∉ kinds) → (g none).Performs (f none) c)
    (hsome : ∀ token rest, c.rest.length = rest.length + 1 →
      (g (some token)).Performs (f (some token)) { c with rest := rest }) :
    (of (accept kinds) >>= g).Performs (accept kinds >>= f) c := by
  refine (step _ c).bind_of_eq fun token? c' hread => ?_
  rcases accept_cases kinds c with ⟨h, hnot⟩ | ⟨token, rest, hrest, -, h⟩
  all_goals
    rw [h, Prod.mk.injEq, Option.some.injEq] at hread
    obtain ⟨rfl, rfl⟩ := hread
  · exact hnone hnot
  · exact hsome token rest (by rw [hrest]; rfl)

theorem expect_bind {kind : TokenKind} {what : String} {g : Token → Unbounded β}
    {f : Token → Reader β}
    (h : ∀ token c', c'.rest.length + 1 ≤ c.rest.length → (g token).Performs (f token) c') :
    (of (expect kind what) >>= g).Performs (expect kind what >>= f) c :=
  (step _ c).bind orderly_expect h

theorem nextKind_bind {g : Option TokenKind → Unbounded β} {f : Option TokenKind → Reader β}
    (h : (g (c.rest.head?.map Token.kind)).Performs (f (c.rest.head?.map Token.kind)) c) :
    (of nextKind >>= g).Performs (nextKind >>= f) c :=
  h

/-- A row up to a closing brace or the end goes on in front of anything else. -/
theorem row {q : Unbounded (List β)} {p : Reader (List β)}
    (h : ∀ kind, c.rest.head?.map Token.kind = some kind → q.Performs p c) :
    (of nextKind >>= fun
      | none | some .rightBrace => Pure.pure []
      | some _ => q).Performs
    (nextKind >>= fun
      | none | some .rightBrace => Pure.pure []
      | some _ => p) c := by
  refine .nextKind_bind ?_
  split
  · exact .pure [] c
  · exact .pure [] c
  · rename_i hhead
    exact h _ hhead

theorem attempt (h : q.Performs p c) : q.attempt.Performs (Reader.attempt p) c := by
  unfold Performs at h ⊢
  rw [Unbounded.attempt, h, of, of, Reader.attempt]
  rcases p c with ⟨_ | a, c'⟩ <;> rfl

theorem recovering (h : q.Performs p c) : q.recovering.Performs (Grammar.recovering p) c := by
  unfold Performs at h ⊢
  rw [Unbounded.recovering, h, of, of, Grammar.recovering]
  rcases p c with ⟨_ | a, c'⟩ <;> rfl

end Performs

end Unbounded

namespace Rule

/-! ### The reader of a rule -/

/-- The whole program, as a reader. -/
def programReader (fuel : Nat) : Reader (List Stmt) :=
  fun c => (some (toEnd fuel c).1, (toEnd fuel c).2)

/-- A declaration is recovered from, so reading goes on behind it. -/
theorem declaration_goes_on {fuel : Nat} (h : 0 < fuel) (c : Cursor) :
    ∃ first c', Grammar.declaration fuel c = (some first, c') := by
  rw [declaration_eq h]
  unfold recovering
  split <;> exact ⟨_, _, rfl⟩

theorem programReader_succ {fuel : Nat} (h : 0 < fuel) (c : Cursor) :
    programReader (fuel + 1) c = (do
      match ← nextKind with
      | none => pure []
      | some _ => do
          let first ← Grammar.declaration fuel
          let others ← programReader fuel
          pure (first.toList ++ others)) c := by
  rw [bind_of_some (rfl : nextKind c = _), programReader]
  cases hrest : c.rest with
  | nil =>
      rw [toEnd_of_nil hrest]
      rfl
  | cons token rest =>
      obtain ⟨first, c', hfirst⟩ := declaration_goes_on h c
      rw [toEnd_of_declaration hrest hfirst]
      show _ = (Grammar.declaration fuel >>= _) c
      rw [bind_of_some hfirst]
      rfl

/-- The reader that counts. -/
def counted (fuel : Nat) {α : Type} : Rule α → Reader α
  | expression level => Grammar.expression fuel level
  | operations level left => Grammar.operations fuel level left
  | suffixes callee => Grammar.suffixes fuel callee
  | arguments => Grammar.arguments fuel
  | argumentsFrom count => Grammar.argumentsFrom fuel count
  | primary => Grammar.primary fuel
  | noOperand => Grammar.noOperand fuel
  | paramsFrom count => Grammar.paramsFrom fuel count
  | declaration => Grammar.declaration fuel
  | classDeclaration => Grammar.classDeclaration fuel
  | methods => Grammar.methods fuel
  | function role => Grammar.function fuel role
  | block => Grammar.block fuel
  | declarations => Grammar.declarations fuel
  | statement => Grammar.statement fuel
  | forClauses => Grammar.forClauses fuel
  | program => programReader fuel

/-- How many calls are nested in front of the first token, at most. -/
def depth {α : Type} : Rule α → Nat
  | expression level => level.depth
  | operations _ _ | suffixes _ | noOperand | paramsFrom _ | classDeclaration | function _
  | forClauses => 1
  | primary | methods => 2
  | argumentsFrom _ => 14
  | arguments | statement => 15
  | declaration => 16
  | declarations | program => 17
  | block => 18

/-- Whoever is called does what the reader of the rule does with the counter. -/
def Faithful (call : {β : Type} → Rule β → Unbounded β) (fuel : Nat) : Prop :=
  ∀ {β : Type} (rule : Rule β) (c : Cursor), 24 * c.rest.length + rule.depth ≤ fuel →
    (call rule).Performs (rule.counted fuel) c

namespace Faithful

open Unbounded

variable {call : {β : Type} → Rule β → Unbounded β} {fuel : Nat} {c : Cursor}

/-! ### Expressions -/

theorem expression (h : Faithful call fuel) (level : Level)
    (hfuel : 24 * c.rest.length + level.depth ≤ fuel + 1) :
    (readExpression call level).Performs (Grammar.expression (fuel + 1) level) c := by
  by_cases hjoined : level.isJoined
  · have hdepth := Level.depth_tighter hjoined
    have hread : readExpression call level = (do
        let left ← call (.expression level.tighter)
        call (.operations level left)) := by
      cases level <;> first | rfl | exact absurd hjoined (by decide)
    rw [expression_joined hjoined, hread]
    exact (h (.expression level.tighter) c (show 24 * _ + level.tighter.depth ≤ _ by omega)).bind
      (expression_orderly fuel level.tighter c (by omega)) fun left c' hlength =>
        h (.operations level left) c' (show 24 * _ + 1 ≤ _ by omega)
  cases level with
  | assignment =>
      have hfuel : 24 * c.rest.length + 12 ≤ fuel := Nat.le_of_succ_le_succ hfuel
      refine (h (.expression .conditional) c hfuel).bind
        (expression_orderly fuel .conditional c hfuel) fun target c₁ hlength₁ => ?_
      refine .accept_bind (fun _ => .pure target c₁) fun equals rest hshort => ?_
      have hvalue : 24 * rest.length + 13 ≤ fuel := by omega
      exact (h (.expression .assignment) { c₁ with rest := rest } hvalue).bind_step
        fun value c₂ => .step _ c₂
  | conditional =>
      have hfuel : 24 * c.rest.length + 11 ≤ fuel := Nat.le_of_succ_le_succ hfuel
      refine (h (.expression .or) c hfuel).bind (expression_orderly fuel .or c hfuel)
        fun condition c₁ hlength₁ => ?_
      refine .accept_bind (fun _ => .pure condition c₁) fun question rest hshort => ?_
      have hchosen : 24 * rest.length + 14 ≤ fuel := by omega
      refine (h (.expression .comma) { c₁ with rest := rest } hchosen).bind
        (expression_orderly fuel .comma { c₁ with rest := rest } hchosen)
        fun onTrue c₂ hlength₂ => ?_
      have hlength₂ : c₂.rest.length + 1 ≤ rest.length := hlength₂
      refine .expect_bind fun colon c₃ hlength₃ => ?_
      have hother : 24 * c₃.rest.length + 12 ≤ fuel := by omega
      exact (h (.expression .conditional) c₃ hother).bind_step fun onFalse c₄ => .pure _ c₄
  | unary =>
      have hfuel : 24 * c.rest.length + 4 ≤ fuel := Nat.le_of_succ_le_succ hfuel
      refine .accept_bind (fun _ => h (.expression .call) c hfuel) fun operator rest hshort => ?_
      have hoperand : 24 * rest.length + 5 ≤ fuel := by omega
      exact (h (.expression .unary) { c with rest := rest } hoperand).bind_step
        fun operand c₁ => .pure _ c₁
  | call =>
      have hfuel : 24 * c.rest.length + 3 ≤ fuel := Nat.le_of_succ_le_succ hfuel
      exact (h (.expression .primary) c hfuel).bind (expression_orderly fuel .primary c hfuel)
        fun callee c₁ hlength₁ => h (.suffixes callee) c₁ (show 24 * _ + 1 ≤ _ by omega)
  | primary =>
      have hfuel : 24 * c.rest.length + 2 ≤ fuel := Nat.le_of_succ_le_succ hfuel
      exact h .primary c hfuel
  | _ => exact absurd rfl hjoined

theorem operations (h : Faithful call fuel) (level : Level) (left : Expr)
    (hfuel : 24 * c.rest.length + 1 ≤ fuel + 1) :
    ((Rule.operations level left).read call).Performs
      (Grammar.operations (fuel + 1) level left) c := by
  have hdepth := level.tighter.depth_le
  refine .accept_bind (fun _ => .pure left c) fun operator rest hshort => ?_
  have hright : 24 * rest.length + level.tighter.depth ≤ fuel := by omega
  refine (h (.expression level.tighter) { c with rest := rest } hright).bind
    (expression_orderly fuel level.tighter { c with rest := rest } hright)
    fun right c₁ hlength₁ => ?_
  have hlength₁ : c₁.rest.length + 1 ≤ rest.length := hlength₁
  exact h (.operations level (combine operator left right)) c₁ (show 24 * _ + 1 ≤ _ by omega)

theorem suffixes (h : Faithful call fuel) (callee : Expr)
    (hfuel : 24 * c.rest.length + 1 ≤ fuel + 1) :
    ((Rule.suffixes callee).read call).Performs (Grammar.suffixes (fuel + 1) callee) c := by
  refine .accept_bind (fun _ => .pure callee c) fun token rest hshort => ?_
  by_cases hparen : token.kind = .leftParen
  · simp only [hparen, if_pos]
    have hrow : 24 * rest.length + 15 ≤ fuel := by omega
    refine (h .arguments { c with rest := rest } hrow).bind
      (arguments_orderly fuel { c with rest := rest } hrow) fun row c₁ hlength₁ => ?_
    have hlength₁ : c₁.rest.length + 0 ≤ rest.length := hlength₁
    exact .expect_bind fun paren c₂ hlength₂ =>
      h (.suffixes (.call callee paren row)) c₂ (show 24 * _ + 1 ≤ _ by omega)
  · simp only [hparen, if_false]
    refine .expect_bind fun property c₁ hlength₁ => ?_
    have hlength₁ : c₁.rest.length + 1 ≤ rest.length := hlength₁
    exact h (.suffixes (.get callee property)) c₁ (show 24 * _ + 1 ≤ _ by omega)

theorem arguments (h : Faithful call fuel) (hfuel : 24 * c.rest.length + 15 ≤ fuel + 1) :
    (Rule.arguments.read call).Performs (Grammar.arguments (fuel + 1)) c := by
  refine .nextKind_bind ?_
  split
  · exact .pure [] c
  · exact h (.argumentsFrom 0) c (show 24 * _ + 14 ≤ _ by omega)

theorem argumentsFrom (h : Faithful call fuel) (count : Nat)
    (hfuel : 24 * c.rest.length + 14 ≤ fuel + 1) :
    ((Rule.argumentsFrom count).read call).Performs
      (Grammar.argumentsFrom (fuel + 1) count) c := by
  rw [argumentsFrom_succ]
  refine Performs.bind (.step _ c) (checkCount_orderly _ _ _) fun _ c₁ hlength₁ => ?_
  have hargument : 24 * c₁.rest.length + 13 ≤ fuel := by omega
  refine (h (.expression .assignment) c₁ hargument).bind
    (expression_orderly fuel .assignment c₁ hargument) fun argument c₂ hlength₂ => ?_
  refine .accept_bind (fun _ => .pure [argument] c₂) fun comma rest hshort => ?_
  have hothers : 24 * rest.length + (Rule.argumentsFrom (count + 1)).depth ≤ fuel := by
    show 24 * rest.length + 14 ≤ fuel
    omega
  exact (h (.argumentsFrom (count + 1)) { c₂ with rest := rest } hothers).bind_step
    fun others c₃ => .pure _ c₃

theorem primary (h : Faithful call fuel) (hfuel : 24 * c.rest.length + 2 ≤ fuel + 1) :
    (readPrimary call).Performs (Grammar.primary (fuel + 1)) c := by
  rw [primary_succ]
  refine .accept_bind (fun _ => h .noOperand c (show 24 * _ + 1 ≤ _ by omega))
    fun token rest hshort => ?_
  dsimp only
  by_cases hparen : token.kind = .leftParen
  · have hinner : 24 * rest.length + 14 ≤ fuel := by omega
    simp only [primaryAt, hparen, if_pos]
    refine (h (.expression .comma) { c with rest := rest } hinner).bind_step fun inner c₁ => ?_
    exact .expect_bind fun _ c₂ _ => .pure _ c₂
  · have hatom : primaryAt token fuel = primaryAt token 0 := by
      unfold primaryAt
      generalize token.kind = kind at hparen
      cases kind <;> first | rfl | exact absurd rfl hparen
    rw [if_neg hparen, hatom]
    exact .step _ _

theorem noOperand (h : Faithful call fuel) (hfuel : 24 * c.rest.length + 1 ≤ fuel + 1) :
    (readNoOperand call).Performs (Grammar.noOperand (fuel + 1)) c := by
  refine .nextKind_bind ?_
  generalize hlevel : (c.rest.head?.map Token.kind).bind Level.ofOrphan? = orphan
  cases orphan with
  | none => exact .step _ c
  | some level =>
      have hdepth := level.depth_le
      refine Performs.bind_of_eq (.step _ c) fun _ c₁ hfault => ?_
      obtain ⟨-, rfl⟩ := Prod.mk.inj hfault
      -- The operator is there, and it is taken before its operand is read.
      refine .accept_bind (fun hnone => ?_) fun operator rest hshort => ?_
      · obtain ⟨token, htoken, hkind⟩ := Level.exists_of_orphan hlevel
        exact absurd hkind (hnone token htoken)
      · have hshort : c.rest.length = rest.length + 1 := hshort
        have hdropped : 24 * rest.length + level.depth ≤ fuel := by omega
        exact (h (.expression level) _ hdropped).attempt.bind_step fun _ c₂ => .step _ c₂

/-! ### Optional parts -/

theorem anyExpression (h : Faithful call fuel) (hfuel : 24 * c.rest.length + 14 ≤ fuel) :
    (call (.expression .comma)).Performs (Grammar.anyExpression fuel) c :=
  h (.expression .comma) c hfuel

theorem optional (h : Faithful call fuel) (stop : TokenKind)
    (hfuel : 24 * c.rest.length + 14 ≤ fuel) :
    (readOptional call stop).Performs (optionalExpression stop fuel) c := by
  refine .nextKind_bind ?_
  split
  · exact .pure none c
  · exact (h.anyExpression hfuel).map some

theorem initializer (h : Faithful call fuel) (hfuel : 24 * c.rest.length ≤ fuel) :
    (readInitializer call).Performs (optionalInitializer fuel) c := by
  refine .accept_bind (fun _ => .pure none c) fun equals rest hshort => ?_
  have hvalue : 24 * rest.length + 14 ≤ fuel := by omega
  exact (h (.expression .comma) { c with rest := rest } hvalue).map some

theorem variableDeclaration (h : Faithful call fuel) (hfuel : 24 * c.rest.length ≤ fuel) :
    (readVariable call).Performs (Grammar.variableDeclaration fuel) c := by
  rw [variableDeclaration_eq]
  refine .expect_bind fun name c₁ hlength₁ => ?_
  have hinitializer : 24 * c₁.rest.length ≤ fuel := by omega
  refine (h.initializer hinitializer).bind_step fun value c₂ => ?_
  exact .expect_bind fun _ c₃ _ => .pure _ c₃

theorem expressionStatement (h : Faithful call fuel) (hfuel : 24 * c.rest.length + 14 ≤ fuel) :
    (readExpressionStatement call).Performs (Grammar.expressionStatement fuel) c :=
  (h.anyExpression hfuel).bind_step fun _ _ => .expect_bind fun _ c₂ _ => .pure _ c₂

theorem forInitializer (h : Faithful call fuel) (hfuel : 24 * c.rest.length + 14 ≤ fuel) :
    (readForInitializer call).Performs (Grammar.forInitializer fuel) c := by
  refine .accept_bind (fun _ => (h.expressionStatement hfuel).map some)
    fun token rest hshort => ?_
  dsimp only
  split
  · exact .pure none _
  · have hvariable : 24 * rest.length ≤ fuel := by omega
    exact Performs.map (h.variableDeclaration hvariable) some

theorem parenthesized (h : Faithful call fuel) (opening closing : String)
    (hfuel : 24 * c.rest.length ≤ fuel) :
    (readParenthesized call opening closing).Performs
      (Grammar.parenthesized opening closing fuel) c := by
  refine .expect_bind fun _ c₁ hlength₁ => ?_
  refine (h.anyExpression (show 24 * c₁.rest.length + 14 ≤ fuel by omega)).bind_step
    fun condition c₂ => ?_
  exact .expect_bind fun _ c₃ _ => .pure _ c₃

theorem paramsFrom (h : Faithful call fuel) (count : Nat)
    (hfuel : 24 * c.rest.length + 1 ≤ fuel + 1) :
    ((Rule.paramsFrom count).read call).Performs (Grammar.paramsFrom (fuel + 1) count) c := by
  rw [paramsFrom_succ]
  refine Performs.bind (.step _ c) (checkCount_orderly _ _ _) fun _ c₁ hlength₁ => ?_
  refine .expect_bind fun param c₂ hlength₂ => ?_
  refine .accept_bind (fun _ => .pure [param] c₂) fun comma rest hshort => ?_
  have hothers : 24 * rest.length + (Rule.paramsFrom (count + 1)).depth ≤ fuel := by
    show 24 * rest.length + 1 ≤ fuel
    omega
  exact (h (.paramsFrom (count + 1)) { c₂ with rest := rest } hothers).bind_step
    fun others c₃ => .pure _ c₃

theorem params (h : Faithful call fuel) (hfuel : 24 * c.rest.length + 1 ≤ fuel) :
    (readParams call).Performs (Grammar.params fuel) c := by
  refine .nextKind_bind ?_
  split
  · exact .pure [] c
  · exact h (.paramsFrom 0) c hfuel

/-! ### Statements and declarations -/

theorem declaration (h : Faithful call fuel) (hfuel : 24 * c.rest.length + 16 ≤ fuel + 1) :
    (Rule.declaration.read call).Performs (Grammar.declaration (fuel + 1)) c := by
  refine @Performs.recovering _ _ (keptDeclaration fuel) _ ?_
  refine .accept_bind (fun _ => h .statement c (show 24 * _ + 15 ≤ _ by omega))
    fun token rest hshort => ?_
  dsimp only
  unfold declarationAt
  generalize token.kind = kind
  cases kind with
  | kwClass =>
      exact h .classDeclaration { c with rest := rest }
        (show 24 * rest.length + 1 ≤ fuel by omega)
  | kwFun =>
      exact Performs.map (h (.function "function") { c with rest := rest }
        (show 24 * rest.length + 1 ≤ fuel by omega)) _
  | _ =>
      have hvariable : 24 * rest.length ≤ fuel := by omega
      exact h.variableDeclaration hvariable

theorem classDeclaration (h : Faithful call fuel) (hfuel : 24 * c.rest.length + 1 ≤ fuel + 1) :
    (Rule.classDeclaration.read call).Performs (Grammar.classDeclaration (fuel + 1)) c := by
  rw [classDeclaration_succ]
  refine .expect_bind fun name c₁ hlength₁ => ?_
  refine Performs.bind (.step _ c₁) (optionalSuperclass_orderly c₁)
    fun superclass c₂ hlength₂ => ?_
  refine .expect_bind fun _ c₃ hlength₃ => ?_
  refine (h .methods c₃ (show 24 * _ + 2 ≤ _ by omega)).bind_step fun declared c₄ => ?_
  exact .expect_bind fun _ c₅ _ => .pure _ c₅

theorem methods (h : Faithful call fuel) (hfuel : 24 * c.rest.length + 2 ≤ fuel + 1) :
    (Rule.methods.read call).Performs (Grammar.methods (fuel + 1)) c := by
  refine .row fun kind hhead => ?_
  refine (h (.function "method") c (show 24 * _ + 1 ≤ _ by omega)).bind
    (function_orderly fuel "method" c (by omega)) fun method c₁ hlength₁ => ?_
  exact (h .methods c₁ (show 24 * _ + 2 ≤ _ by omega)).bind_step fun others c₂ => .pure _ c₂

theorem function (h : Faithful call fuel) (role : String)
    (hfuel : 24 * c.rest.length + 1 ≤ fuel + 1) :
    ((Rule.function role).read call).Performs (Grammar.function (fuel + 1) role) c := by
  refine .expect_bind fun name c₁ hlength₁ => ?_
  refine .expect_bind fun _ c₂ hlength₂ => ?_
  refine (h.params (show 24 * c₂.rest.length + 1 ≤ fuel by omega)).bind
    (params_orderly fuel c₂ (by omega)) fun names c₃ hlength₃ => ?_
  refine .expect_bind fun _ c₄ hlength₄ => ?_
  refine .expect_bind fun _ c₅ hlength₅ => ?_
  exact (h .block c₅ (show 24 * _ + 18 ≤ _ by omega)).bind_step fun body c₆ => .pure _ c₆

theorem block (h : Faithful call fuel) (hfuel : 24 * c.rest.length + 18 ≤ fuel + 1) :
    (Rule.block.read call).Performs (Grammar.block (fuel + 1)) c := by
  refine (h .declarations c (show 24 * _ + 17 ≤ _ by omega)).bind_step fun body c₁ => ?_
  exact .expect_bind fun _ c₂ _ => .pure _ c₂

/-- Behind a declaration there are fewer tokens left. -/
theorem declaration_bind {β : Type} {g : Option Stmt → Unbounded β} {f : Option Stmt → Reader β}
    {kind : TokenKind} (h : Faithful call fuel) (hhead : c.rest.head?.map Token.kind = some kind)
    (hfuel : 24 * c.rest.length + 16 ≤ fuel)
    (hf : ∀ first c', c'.rest.length + 1 ≤ c.rest.length → (g first).Performs (f first) c') :
    (call .declaration >>= g).Performs (Grammar.declaration fuel >>= f) c := by
  obtain ⟨token, rest, hrest⟩ : ∃ token rest, c.rest = token :: rest := by
    cases hrest : c.rest with
    | nil =>
        rw [hrest] at hhead
        exact nomatch hhead
    | cons token rest => exact ⟨token, rest, rfl⟩
  refine (h .declaration c hfuel).bind_of_eq fun first c' hread => hf first c' ?_
  have hless := declaration_rest_lt hrest hfuel
  rw [show Grammar.declaration fuel c = _ from hread] at hless
  exact hless

theorem declarations (h : Faithful call fuel) (hfuel : 24 * c.rest.length + 17 ≤ fuel + 1) :
    (Rule.declarations.read call).Performs (Grammar.declarations (fuel + 1)) c := by
  refine .row fun kind hhead => ?_
  refine h.declaration_bind hhead (by omega) fun first c₁ hlength₁ => ?_
  exact (h .declarations c₁ (show 24 * _ + 17 ≤ _ by omega)).bind_step fun others c₂ => .pure _ c₂

theorem statement (h : Faithful call fuel) (hfuel : 24 * c.rest.length + 15 ≤ fuel + 1) :
    (Rule.statement.read call).Performs (Grammar.statement (fuel + 1)) c := by
  rw [statement_succ]
  refine .accept_bind (fun _ => h.expressionStatement (by omega)) fun token rest hshort => ?_
  generalize hc₀ : ({ c with rest := rest } : Cursor) = c₀
  have hlength₀ : c₀.rest.length + 1 = c.rest.length := by rw [hshort, ← hc₀]
  dsimp only
  unfold readStatementAt statementAt
  generalize token.kind = kind
  cases kind with
  | kwBreak => exact .expect_bind fun _ c₁ _ => .pure _ c₁
  | kwFor => exact h .forClauses c₀ (show 24 * _ + 1 ≤ _ by omega)
  | kwIf =>
      refine (h.parenthesized _ _ (by omega)).bind (parenthesized_orderly _ _ fuel c₀ (by omega))
        fun condition c₁ hlength₁ => ?_
      refine (h .statement c₁ (show 24 * _ + 15 ≤ _ by omega)).bind
        (statement_orderly fuel c₁ (by omega)) fun onTrue c₂ hlength₂ => ?_
      refine .accept_bind (fun _ => .pure _ c₂) fun otherwise rest₂ hshort₂ => ?_
      exact (h .statement { c₂ with rest := rest₂ }
        (show 24 * rest₂.length + 15 ≤ fuel by omega)).bind_step fun onFalse c₃ => .pure _ c₃
  | kwPrint =>
      refine (h.anyExpression (by omega)).bind_step fun value c₁ => ?_
      exact .expect_bind fun _ c₂ _ => .pure _ c₂
  | kwReturn =>
      refine (h.optional .semicolon (by omega)).bind_step fun value c₁ => ?_
      exact .expect_bind fun _ c₂ _ => .pure _ c₂
  | kwWhile =>
      refine (h.parenthesized _ _ (by omega)).bind (parenthesized_orderly _ _ fuel c₀ (by omega))
        fun condition c₁ hlength₁ => ?_
      exact (h .statement c₁ (show 24 * _ + 15 ≤ _ by omega)).bind_step
        fun body c₂ => .pure _ c₂
  | _ => exact Performs.map (h .block c₀ (show 24 * _ + 18 ≤ _ by omega)) _

theorem forClauses (h : Faithful call fuel) (hfuel : 24 * c.rest.length + 1 ≤ fuel + 1) :
    (Rule.forClauses.read call).Performs (Grammar.forClauses (fuel + 1)) c := by
  rw [forClauses_succ]
  refine .expect_bind fun _ c₁ hlength₁ => ?_
  refine (h.forInitializer (by omega)).bind (forInitializer_orderly fuel c₁ (by omega))
    fun initializer c₂ hlength₂ => ?_
  refine (h.optional _ (by omega)).bind (optionalExpression_orderly _ fuel c₂ (by omega))
    fun condition c₃ hlength₃ => ?_
  refine .expect_bind fun _ c₄ hlength₄ => ?_
  refine (h.optional _ (by omega)).bind (optionalExpression_orderly _ fuel c₄ (by omega))
    fun increment c₅ hlength₅ => ?_
  refine .expect_bind fun _ c₆ hlength₆ => ?_
  exact (h .statement c₆ (show 24 * _ + 15 ≤ _ by omega)).bind_step fun body c₇ => .pure _ c₇

theorem program (h : Faithful call fuel) (hfuel : 24 * c.rest.length + 17 ≤ fuel + 1) :
    (Rule.program.read call).Performs (programReader (fuel + 1)) c := by
  refine .of_eq (programReader_succ (by omega) c) (.nextKind_bind ?_)
  cases hhead : c.rest.head?.map Token.kind with
  | none => exact .pure [] c
  | some kind =>
      refine h.declaration_bind hhead (by omega) fun first c₁ hlength₁ => ?_
      exact (h .program c₁ (show 24 * _ + 17 ≤ _ by omega)).bind_step fun others c₂ => .pure _ c₂

/-- **With calls nested deeply enough every rule has a result**, and that is what its reader
reads. -/
theorem nested : ∀ fuel : Nat, Faithful (Rule.nested fuel) fuel
  | 0, _, rule, c, hfuel => by
      have hdepth : 0 < rule.depth := by
        cases rule with
        | expression level => cases level <;> decide
        | _ => exact Nat.succ_pos _
      omega
  | fuel + 1, _, rule, c, hfuel => by
      have h : Faithful (Rule.nested fuel) fuel := nested fuel
      cases rule with
      | expression level => exact h.expression level hfuel
      | operations level left => exact h.operations level left hfuel
      | suffixes callee => exact h.suffixes callee hfuel
      | arguments => exact h.arguments hfuel
      | argumentsFrom count => exact h.argumentsFrom count hfuel
      | primary => exact h.primary hfuel
      | noOperand => exact h.noOperand hfuel
      | paramsFrom count => exact h.paramsFrom count hfuel
      | declaration => exact h.declaration hfuel
      | classDeclaration => exact h.classDeclaration hfuel
      | methods => exact h.methods hfuel
      | function role => exact h.function role hfuel
      | block => exact h.block hfuel
      | declarations => exact h.declarations hfuel
      | statement => exact h.statement hfuel
      | forClauses => exact h.forClauses hfuel
      | program => exact h.program hfuel

end Faithful

/-! ### What the readers of the rules have in common -/

section Counted

variable {α : Type} {rule : Rule α} {fuel : Nat} {c : Cursor}

/-- The counter does not matter once it is large enough. -/
theorem counted_steady (hfuel : 24 * c.rest.length + rule.depth ≤ fuel) :
    rule.counted (fuel + 1) c = rule.counted fuel c := by
  cases rule with
  | expression level => exact expression_steady fuel level c hfuel
  | operations level left => exact operations_steady fuel level left c hfuel
  | suffixes callee => exact suffixes_steady fuel callee c hfuel
  | arguments => exact arguments_steady fuel c hfuel
  | argumentsFrom count => exact argumentsFrom_steady fuel count c hfuel
  | primary => exact primary_steady fuel c hfuel
  | noOperand => exact noOperand_steady fuel c hfuel
  | paramsFrom count => exact paramsFrom_steady fuel count c hfuel
  | declaration => exact declaration_steady fuel c hfuel
  | classDeclaration => exact classDeclaration_steady fuel c hfuel
  | methods => exact methods_steady fuel c hfuel
  | function role => exact function_steady fuel role c hfuel
  | block => exact block_steady fuel c hfuel
  | declarations => exact declarations_steady fuel c hfuel
  | statement => exact statement_steady fuel c hfuel
  | forClauses => exact forClauses_steady fuel c hfuel
  | program =>
      show programReader (fuel + 1) c = programReader fuel c
      rw [programReader, programReader, toEnd_steady fuel c hfuel]

theorem counted_of_le {more : Nat} (hfuel : 24 * c.rest.length + rule.depth ≤ fuel)
    (hle : fuel ≤ more) : rule.counted more c = rule.counted fuel c := by
  induction hle with
  | refl => rfl
  | step hle ih => rw [counted_steady (Nat.le_trans hfuel hle), ih]

/-- No reader gets behind the last token. -/
theorem counted_reaches (hfuel : 24 * c.rest.length + rule.depth ≤ fuel) :
    c.Reaches (rule.counted fuel c).2 := by
  cases rule with
  | expression level => exact (expression_orderly fuel level c hfuel).reaches
  | operations level left => exact (operations_orderly fuel level left c hfuel).reaches
  | suffixes callee => exact (suffixes_orderly fuel callee c hfuel).reaches
  | arguments => exact (arguments_orderly fuel c hfuel).reaches
  | argumentsFrom count => exact (argumentsFrom_orderly fuel count c hfuel).reaches
  | primary => exact (primary_orderly fuel c hfuel).reaches
  | noOperand => exact (noOperand_orderly fuel c hfuel).reaches
  | paramsFrom count => exact (paramsFrom_orderly fuel count c hfuel).reaches
  | declaration =>
      have hfuel : 24 * c.rest.length + 16 ≤ fuel := hfuel
      show c.Reaches (Grammar.declaration fuel c).2
      rw [declaration_eq (by omega)]
      exact (recovering_reaches (keptDeclaration_orderly fuel c hfuel)).1
  | classDeclaration => exact (classDeclaration_orderly fuel c hfuel).reaches
  | methods => exact (methods_orderly fuel c hfuel).reaches
  | function role => exact (function_orderly fuel role c hfuel).reaches
  | block => exact (block_orderly fuel c hfuel).reaches
  | declarations => exact (declarations_orderly fuel c hfuel).reaches
  | statement => exact (statement_orderly fuel c hfuel).reaches
  | forClauses => exact (forClauses_orderly fuel c hfuel).reaches
  | program => exact toEnd_reaches hfuel

end Counted

/-! ### Coming to an end -/

/-- From the cursor on the rule comes to an end, with this result and there: that is so however
deeply calls may be nested, from some depth on. -/
def Ends {α : Type} (rule : Rule α) (c : Cursor) (result : Except Unit α) (c' : Cursor) : Prop :=
  ∃ least, ∀ depth, least ≤ depth → nested depth rule c = some (result, c')

section Ends

variable {α β : Type} {rule : Rule α} {c c' : Cursor} {fuel : Nat}

theorem nested_eq (hfuel : 24 * c.rest.length + rule.depth ≤ fuel) {depth : Nat}
    (hdepth : fuel ≤ depth) : nested depth rule c = Unbounded.of (rule.counted fuel) c := by
  have hperforms := Faithful.nested depth rule c (Nat.le_trans hfuel hdepth)
  exact hperforms.of_eq (counted_of_le hfuel hdepth).symm

theorem ends_of_some (hfuel : 24 * c.rest.length + rule.depth ≤ fuel) {a : α}
    (h : rule.counted fuel c = (some a, c')) : rule.Ends c (.ok a) c' := by
  refine ⟨fuel, fun depth hdepth => ?_⟩
  rw [nested_eq hfuel hdepth, Unbounded.of, h]

theorem ends_of_none (hfuel : 24 * c.rest.length + rule.depth ≤ fuel)
    (h : rule.counted fuel c = (none, c')) : rule.Ends c (.error ()) c' := by
  refine ⟨fuel, fun depth hdepth => ?_⟩
  rw [nested_eq hfuel hdepth, Unbounded.of, h]

/-- Every rule comes to an end wherever it starts, and not behind the last token. -/
theorem ends (rule : Rule α) (c : Cursor) :
    ∃ result c', rule.Ends c result c' ∧ c'.rest <:+ c.rest := by
  have hfuel := Nat.le_refl (24 * c.rest.length + rule.depth)
  have hreach := counted_reaches hfuel
  rcases h : rule.counted (24 * c.rest.length + rule.depth) c with ⟨_ | a, c'⟩
  · exact ⟨_, c', ends_of_none hfuel h, by simpa only [h] using hreach.rest⟩
  · exact ⟨_, c', ends_of_some hfuel h, by simpa only [h] using hreach.rest⟩

theorem suffix_of_length_lt {token : Token} {rest tokens : List Token}
    (h : tokens <:+ token :: rest) (hlength : tokens.length ≤ rest.length) : tokens <:+ rest := by
  rcases List.suffix_cons_iff.mp h with rfl | h
  · exact absurd hlength (by simp)
  · exact h

/-- In front of a token a declaration is read to its end, and takes at least the token. -/
theorem declaration_advances {token : Token} {rest : List Token} (hrest : c.rest = token :: rest) :
    ∃ first c', declaration.Ends c (.ok first) c' ∧ c'.rest <:+ rest := by
  let fuel := 24 * c.rest.length + declaration.depth
  have hfuel : 24 * c.rest.length + declaration.depth ≤ fuel := Nat.le_refl _
  obtain ⟨first, c', h⟩ := declaration_goes_on (show 0 < fuel from Nat.succ_pos _) c
  have hread : counted fuel declaration c = (some first, c') := h
  have hsuffix := (counted_reaches hfuel).rest
  have hless := declaration_rest_lt hrest hfuel
  rw [hread, hrest] at hsuffix
  rw [h, hrest, List.length_cons] at hless
  exact ⟨first, c', ends_of_some hfuel hread, suffix_of_length_lt hsuffix (by simpa using hless)⟩

/-- In front of a token a function is read to its end, and if it is kept, it takes at least the
token. -/
theorem function_advances (role : String) {token : Token} {rest : List Token}
    (hrest : c.rest = token :: rest) :
    ∃ result c', (function role).Ends c result c' ∧ c'.rest <:+ c.rest ∧
      ∀ declared, result = .ok declared → c'.rest <:+ rest := by
  let fuel := 24 * c.rest.length + (function role).depth
  have hfuel : 24 * c.rest.length + (function role).depth ≤ fuel := Nat.le_refl _
  have hsuffix := (counted_reaches hfuel).rest
  have htaken := (function_orderly fuel role c hfuel).taken
  rcases h : Grammar.function fuel role c with ⟨_ | declared, c'⟩
  all_goals
    have hread : counted fuel (function role) c = (_, c') := h
    rw [hread] at hsuffix
  · exact ⟨_, c', ends_of_none hfuel hread, hsuffix, fun _ hok => nomatch hok⟩
  · have hless : c'.rest.length + 1 ≤ c.rest.length := by
      rw [h] at htaken
      exact htaken (by simp)
    refine ⟨_, c', ends_of_some hfuel hread, hsuffix, fun _ _ => ?_⟩
    rw [hrest] at hsuffix hless
    exact suffix_of_length_lt hsuffix (by simpa using hless)

/-! ### The turns of a loop -/

/-- A turn of a loop: an item is read to its end.  If it is kept, at least the next token is
taken, and the loop goes on from there; if it is abandoned, so is the loop. -/
def Turn (loop : Rule (List β)) (item : Rule α) (add : α → List β → List β) (c : Cursor)
    (rest : List Token) : Prop :=
  ∃ result c', item.Ends c result c' ∧ c'.rest <:+ c.rest ∧
    match result with
    | .ok a => c'.rest <:+ rest ∧
        ∀ outcome last, loop.Ends c' outcome last → loop.Ends c (outcome.map (add a)) last
    | .error e => loop.Ends c (.error e) c'

/-- What is read as an item and more of the loop is a turn. -/
theorem turn_of_read {loop : Rule (List β)} {item : Rule α} {add : α → List β → List β}
    {rest : List Token} {result : Except Unit α}
    (hread : ∀ depth, nested (depth + 1) loop c = (do
      let a ← nested depth item
      let others ← nested depth loop
      pure (add a others) : Unbounded (List β)) c)
    (hitem : item.Ends c result c') (hsuffix : c'.rest <:+ c.rest)
    (hadvances : ∀ a, result = .ok a → c'.rest <:+ rest) : Turn loop item add c rest := by
  refine ⟨result, c', hitem, hsuffix, ?_⟩
  obtain ⟨least, hitem⟩ := hitem
  cases result with
  | error e =>
      refine ⟨least + 1, fun depth hdepth => ?_⟩
      obtain ⟨depth, rfl⟩ := Nat.exists_eq_succ_of_ne_zero (show depth ≠ 0 by omega)
      rw [hread, Unbounded.bind_apply, hitem depth (by omega)]
      rfl
  | ok a =>
      refine ⟨hadvances a rfl, fun outcome last hloop => ?_⟩
      obtain ⟨least', hloop⟩ := hloop
      refine ⟨least + least' + 1, fun depth hdepth => ?_⟩
      obtain ⟨depth, rfl⟩ := Nat.exists_eq_succ_of_ne_zero (show depth ≠ 0 by omega)
      rw [hread, Unbounded.bind_apply, hitem depth (by omega)]
      show (nested depth loop >>= fun others => pure (add a others)) c' = _
      rw [Unbounded.bind_apply, hloop depth (by omega)]
      cases outcome <;> rfl

end Ends

section Loops

variable {c : Cursor} {token : Token} {rest : List Token} (hrest : c.rest = token :: rest)

include hrest

theorem nextKind_apply {α : Type} (g : Option TokenKind → Unbounded α) :
    (Unbounded.of nextKind >>= g) c = g (some token.kind) c := by
  show g (c.rest.head?.map Token.kind) c = _
  rw [hrest]
  rfl

/-- A turn of the loop over the whole program is a declaration. -/
theorem program_turn :
    Turn program declaration (fun first others => first.toList ++ others) c rest := by
  obtain ⟨first, c', hends, hsuffix⟩ := declaration_advances hrest
  refine turn_of_read (fun depth => nextKind_apply hrest _) hends ?_ fun _ _ => hsuffix
  exact hrest ▸ hsuffix.trans (List.suffix_cons token rest)

/-- So is a turn of the loop over a block, in front of anything but the closing brace. -/
theorem declarations_turn (hkind : token.kind ≠ .rightBrace) :
    Turn declarations declaration (fun first others => first.toList ++ others) c rest := by
  obtain ⟨first, c', hends, hsuffix⟩ := declaration_advances hrest
  refine turn_of_read (fun depth => ?_) hends ?_ fun _ _ => hsuffix
  · refine (nextKind_apply hrest _).trans ?_
    generalize token.kind = kind at hkind
    cases kind <;> first | rfl | exact absurd rfl hkind
  · exact hrest ▸ hsuffix.trans (List.suffix_cons token rest)

/-- A turn of the loop over the body of a class is a method. -/
theorem methods_turn (hkind : token.kind ≠ .rightBrace) :
    Turn methods (function "method") List.cons c rest := by
  obtain ⟨result, c', hends, hsuffix, hadvances⟩ := function_advances "method" hrest
  refine turn_of_read (fun depth => ?_) hends hsuffix hadvances
  refine (nextKind_apply hrest _).trans ?_
  generalize token.kind = kind at hkind
  cases kind <;> first | rfl | exact absurd rfl hkind

end Loops

end Rule

/-! ### Whole programs -/

/-- Nothing is left when a program has been read. -/
theorem toEnd_rest {fuel : Nat} {c : Cursor} (hfuel : 24 * c.rest.length + 17 ≤ fuel) :
    (toEnd fuel c).2.rest = [] := by
  induction fuel generalizing c with
  | zero => omega
  | succ fuel ih =>
      cases hrest : c.rest with
      | nil => rw [toEnd_of_nil hrest, hrest]
      | cons token rest =>
          have hless := declaration_rest_lt hrest (show _ + 16 ≤ fuel by omega)
          rw [toEnd_of_declaration hrest rfl]
          exact ih (by omega)

/-- **Reading ends on any tokens.**  With calls nested no deeper than two dozen for each token, a
program is read to its end: what is kept is what `parse` keeps, and no token is left.  Every rule
comes to an end wherever it starts, and never gets behind the last token.  In front of a token a
declaration takes at least that token, whether it is kept or not, and so does every turn of the
loops over a program, a block and the body of a class, unless a method is abandoned and the class
with it. -/
theorem parse_terminates (tokens : List Token) (endLine lastId : Nat) :
    (∃ last : Cursor,
      (∀ depth, fuelFor tokens ≤ depth →
        Rule.nested depth .program ⟨tokens, endLine, lastId, []⟩
          = some (.ok (parse tokens endLine lastId).program, last)) ∧
      last.rest = [] ∧ last.faults = (parse tokens endLine lastId).faults ∧
      last.lastId = (parse tokens endLine lastId).lastId) ∧
    (∀ (α : Type) (rule : Rule α) (c : Cursor),
      ∃ result c', rule.Ends c result c' ∧ c'.rest <:+ c.rest) ∧
    ∀ (c : Cursor) (token : Token) (rest : List Token), c.rest = token :: rest →
      (∃ first c', Rule.declaration.Ends c (.ok first) c' ∧ c'.rest <:+ rest) ∧
      Rule.Turn .program .declaration (fun first others => first.toList ++ others) c rest ∧
      (token.kind ≠ .rightBrace →
        Rule.Turn .declarations .declaration (fun first others => first.toList ++ others) c rest ∧
        Rule.Turn .methods (.function "method") List.cons c rest) := by
  refine ⟨?_, fun _ => Rule.ends, fun c token rest hrest => ⟨Rule.declaration_advances hrest,
    Rule.program_turn hrest, fun hkind =>
      ⟨Rule.declarations_turn hrest hkind, Rule.methods_turn hrest hkind⟩⟩⟩
  let start : Cursor := ⟨tokens, endLine, lastId, []⟩
  have hfuel : 24 * start.rest.length + Rule.program.depth ≤ fuelFor tokens := by
    show 24 * tokens.length + 17 ≤ 24 * (tokens.length + 2)
    omega
  have hend := toEnd_rest hfuel
  have hnested (depth : Nat) (hdepth : fuelFor tokens ≤ depth) : Rule.nested depth .program start
      = some (.ok (toEnd (fuelFor tokens) start).1, (toEnd (fuelFor tokens) start).2) :=
    Rule.nested_eq hfuel hdepth
  unfold parse
  generalize toEnd (fuelFor tokens) start = outcome at hend hnested
  exact ⟨outcome.2, hnested, hend, rfl, rfl⟩

/-- Calls that may not be nested as deeply as the grammar has levels have no result. -/
example : Rule.nested 9 .program ⟨[⟨.plus, "+", 1⟩], 1, 0, []⟩ = none := by
  cbv

end Lox.Grammar
