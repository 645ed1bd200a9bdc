/-
The words in the trees that the rules derive.

Each token of a derived tree is a token of the row it was derived from, and of a kind
that suits what it does, except for the two operators that stand for an inequality.  So
a vocabulary that has room for these has room for the tree.
-/
import Lox.Proofs.Grammar.Trees
import Lox.Proofs.Syntax.Words

namespace Lox.Grammar.Derives

/-- Tokens may do what their kinds are for, and an inequality may be split in two. -/
structure Allows (v : Vocabulary) (tokens : List Token) : Prop where
  token : ∀ token ∈ tokens, ∀ role : Role, token.kind ∈ role.kinds → v role token
  unequal : ∀ token ∈ tokens, token.kind = .bangEqual →
    v .sign ⟨.bang, "!", token.line⟩ ∧ v .operator ⟨.equalEqual, "==", token.line⟩

section Allows

variable {v : Vocabulary} {token : Token} {before behind tokens : List Token}

theorem allows_any (tokens : List Token) : Allows .any tokens :=
  ⟨fun _ _ _ _ => trivial, fun _ _ _ => ⟨trivial, trivial⟩⟩

/-- Failures may point at every token that was read, but for the two operators that stand for an
inequality: these do not fail, wherever they come from. -/
theorem allows_blamed {P : Token → Prop} (h : ∀ token ∈ tokens, token.kind ≠ .bang →
    token.kind ≠ .equalEqual → P token) : Allows (.blamed P) tokens := by
  refine ⟨fun token htoken role hrole => ?_, fun _ _ _ => ⟨.inl rfl, .inl rfl⟩⟩
  have hplain (hbang : TokenKind.bang ∉ role.kinds) (hequal : TokenKind.equalEqual ∉ role.kinds) :
      P token :=
    h token htoken (fun hkind => hbang (hkind ▸ hrole)) (fun hkind => hequal (hkind ▸ hrole))
  cases role with
  | sign =>
      by_cases hkind : token.kind = .bang
      · exact .inl hkind
      · refine .inr (h token htoken hkind fun hequal => ?_)
        rw [hequal] at hrole
        exact absurd hrole (by decide)
  | operator =>
      by_cases hkind : token.kind = .equalEqual
      · exact .inl hkind
      · refine .inr (h token htoken (fun hbang => ?_) hkind)
        rw [hbang] at hrole
        exact absurd hrole (by decide)
  | _ => exact hplain (by decide) (by decide)

theorem allows_cons : Allows v (token :: behind) ↔ Allows v [token] ∧ Allows v behind := by
  constructor
  · intro h
    exact ⟨⟨fun t ht => h.token t (by simp_all), fun t ht => h.unequal t (by simp_all)⟩,
      fun t ht => h.token t (by simp [ht]), fun t ht => h.unequal t (by simp [ht])⟩
  · rintro ⟨htoken, hbehind⟩
    refine ⟨fun t ht => ?_, fun t ht => ?_⟩
    · rcases List.mem_cons.mp ht with rfl | ht
      · exact htoken.token t (by simp)
      · exact hbehind.token t ht
    · rcases List.mem_cons.mp ht with rfl | ht
      · exact htoken.unequal t (by simp)
      · exact hbehind.unequal t ht

theorem allows_append : Allows v (before ++ behind) ↔ Allows v before ∧ Allows v behind := by
  constructor
  · intro h
    exact ⟨⟨fun t ht => h.token t (by simp [ht]), fun t ht => h.unequal t (by simp [ht])⟩,
      fun t ht => h.token t (by simp [ht]), fun t ht => h.unequal t (by simp [ht])⟩
  · rintro ⟨hbefore, hbehind⟩
    refine ⟨fun t ht => ?_, fun t ht => ?_⟩
    · rcases List.mem_append.mp ht with ht | ht
      · exact hbefore.token t ht
      · exact hbehind.token t ht
    · rcases List.mem_append.mp ht with ht | ht
      · exact hbefore.unequal t ht
      · exact hbehind.unequal t ht

/-- A single token may do what its kind is for. -/
theorem Allows.role (h : Allows v [token]) {role : Role} {kind : TokenKind}
    (hkind : token.kind = kind) (hrole : kind ∈ role.kinds) : v role token :=
  h.token token (by simp) role (hkind ▸ hrole)

end Allows

/-! ### Expressions -/

theorem Joins.operator_kinds {level operand : Level} {kind : TokenKind}
    (h : Joins level kind operand) : kind ∈ Role.operator.kinds := by
  cases h <;> decide

theorem Connects.connective_kinds {level operand : Level} {kind : TokenKind}
    (h : Connects level kind operand) : kind ∈ Role.connective.kinds := by
  cases h <;> decide

mutual

theorem Expression.worded {v : Vocabulary} {level : Level} {first last : Nat} {tokens : List Token}
    {e : Expr} (h : Expression level first tokens last e) : Allows v tokens → e.Worded v :=
  match h with
  | .inner _ h => h.worded
  | .unary isOperator h => fun hv => by
      obtain ⟨hsign, hbehind⟩ := allows_cons.mp hv
      rcases isOperator with hkind | hkind
      · exact .unary (hsign.role hkind (by decide)) (h.worded hbehind)
      · exact .unary (hsign.role hkind (by decide)) (h.worded hbehind)
  | .callEmpty _ isClosing h => fun hv => by
      obtain ⟨hbefore, hbehind⟩ := allows_append.mp hv
      exact .call (h.worded hbefore) ((allows_cons.mp hbehind).2.role isClosing (by decide))
        (by simp)
  | .property _ isName h => fun hv => by
      obtain ⟨hbefore, hbehind⟩ := allows_append.mp hv
      exact .get (h.worded hbefore) ((allows_cons.mp hbehind).2.role isName (by decide))
  | .group _ _ h => fun hv => .group (h.worded (allows_append.mp (allows_cons.mp hv).2).1)
  | .binary joins isOperator hleft hright => fun hv => by
      obtain ⟨hbefore, hbehind⟩ := allows_append.mp hv
      obtain ⟨hoperator, hbehind⟩ := allows_cons.mp hbehind
      exact .binary (hoperator.role isOperator joins.operator_kinds) (hleft.worded hbefore)
        (hright.worded hbehind)
  | .logical connects isOperator hleft hright => fun hv => by
      obtain ⟨hbefore, hbehind⟩ := allows_append.mp hv
      obtain ⟨hoperator, hbehind⟩ := allows_cons.mp hbehind
      exact .logical (hoperator.role isOperator connects.connective_kinds) (hleft.worded hbefore)
        (hright.worded hbehind)
  | .unequal isOperator hleft hright => fun hv => by
      obtain ⟨hbefore, hbehind⟩ := allows_append.mp hv
      obtain ⟨hoperator, hbehind⟩ := allows_cons.mp hbehind
      obtain ⟨hsign, hequal⟩ := hoperator.unequal _ (by simp) isOperator
      exact .unary hsign (.binary hequal (hleft.worded hbefore) (hright.worded hbehind))
  | .assignName isName _ h => fun hv => by
      obtain ⟨hname, hbehind⟩ := allows_cons.mp hv
      exact .assign (hname.role isName (by decide)) (h.worded (allows_cons.mp hbehind).2)
  | .assignProperty _ isName _ hobject hvalue => fun hv => by
      obtain ⟨hbefore, hbehind⟩ := allows_append.mp hv
      obtain ⟨hname, hbehind⟩ := allows_cons.mp (allows_cons.mp hbehind).2
      exact .set (hobject.worded hbefore) (hname.role isName (by decide))
        (hvalue.worded (allows_cons.mp hbehind).2)
  | .conditional _ _ htest hchosen hother => fun hv => by
      obtain ⟨htested, hbehind⟩ := allows_append.mp hv
      obtain ⟨hthen, hbehind⟩ := allows_append.mp (allows_cons.mp hbehind).2
      exact .conditional (htest.worded htested) (hchosen.worded hthen)
        (hother.worded (allows_cons.mp hbehind).2)
  | .call _ isClosing _ hcallee hrow => fun hv => by
      obtain ⟨hbefore, hbehind⟩ := allows_append.mp hv
      obtain ⟨hbetween, hclosing⟩ := allows_append.mp (allows_cons.mp hbehind).2
      exact .call (hcallee.worded hbefore) (hclosing.role isClosing (by decide))
        (hrow.worded hbetween)
  | .constant h => fun _ => by cases h <;> exact .literal
  | .name isName => fun hv => .use (hv.role isName (by decide))
  | .this isThis => fun hv => .this (hv.role isThis (by decide))
  | .super isSuper _ isName => fun hv => by
      obtain ⟨hkeyword, hbehind⟩ := allows_cons.mp hv
      exact .super (hkeyword.role isSuper (by decide))
        ((allows_cons.mp hbehind).2.role isName (by decide))

theorem Arguments.worded {v : Vocabulary} {first last : Nat} {tokens : List Token} {es : List Expr}
    (h : Arguments first tokens last es) : Allows v tokens → ∀ e ∈ es, e.Worded v :=
  match h with
  | .last h => fun hv => by simpa using h.worded hv
  | .more _ h hrow => fun hv => by
      obtain ⟨hbefore, hbehind⟩ := allows_append.mp hv
      exact List.forall_mem_cons.mpr ⟨h.worded hbefore, hrow.worded (allows_cons.mp hbehind).2⟩

end

/-! ### Statements and declarations -/

section Parts

variable {v : Vocabulary} {first last : Nat} {tokens : List Token}

theorem Parameters.worded {names : List Token} (h : Parameters tokens names) :
    Allows v tokens → ∀ name ∈ names, v .name name := by
  induction h with
  | none => simp
  | last isName =>
      intro hv
      simpa using hv.role isName (by decide)
  | more isName _ _ _ ih =>
      intro hv
      obtain ⟨hname, hbehind⟩ := allows_cons.mp hv
      exact List.forall_mem_cons.mpr
        ⟨hname.role isName (by decide), ih (allows_cons.mp hbehind).2⟩

theorem Clause.worded {kind : TokenKind} {value : Option Expr}
    (h : Clause kind first tokens last value) (hv : Allows v tokens) :
    ∀ e ∈ value, e.Worded v := by
  cases h with
  | absent => simp
  | present _ h => simpa using h.worded (allows_append.mp hv).1

theorem Variable.worded {s : Stmt} (h : Variable first tokens last s) (hv : Allows v tokens) :
    s.Worded v := by
  cases h with
  | plain _ isName =>
      obtain ⟨hname, -⟩ := allows_cons.mp (allows_cons.mp hv).2
      exact .var (hname.role isName (by decide)) (by simp)
  | initialized _ isName _ _ h =>
      obtain ⟨hname, hbehind⟩ := allows_cons.mp (allows_cons.mp hv).2
      obtain ⟨hvalue, -⟩ := allows_append.mp (allows_cons.mp hbehind).2
      exact .var (hname.role isName (by decide)) (by simpa using h.worded hvalue)

theorem Initializer.worded {s : Option Stmt} (h : Initializer first tokens last s)
    (hv : Allows v tokens) : ∀ start ∈ s, start.Worded v := by
  cases h with
  | var h => simpa using h.worded hv
  | @clause _ _ value h =>
      cases value with
      | none => simp
      | some e => simpa using Stmt.Worded.expression (h.worded hv e rfl)

theorem Superclass.worded {superclass : Option Occurrence}
    (h : Superclass first tokens last superclass) (hv : Allows v tokens) :
    ∀ occurrence ∈ superclass, v .name occurrence.name := by
  cases h with
  | absent => simp
  | present _ isName => simpa using (allows_cons.mp hv).2.role isName (by decide)

end Parts

theorem forTree_worded {v : Vocabulary} {initializer : Option Stmt}
    {condition increment : Option Expr} {body : Stmt} (hstart : ∀ s ∈ initializer, s.Worded v)
    (htest : ∀ e ∈ condition, e.Worded v) (hstep : ∀ e ∈ increment, e.Worded v)
    (hbody : body.Worded v) (hnested : body.isDeclaration = false) :
    (forTree initializer condition increment body).Worded v := by
  have hrepeated : ∀ (inner : Stmt), inner = increment.elim body (fun step =>
      .block [body, .expression step]) → inner.Worded v ∧ inner.isDeclaration = false := by
    rintro inner rfl
    cases increment with
    | none => exact ⟨hbody, hnested⟩
    | some step => exact ⟨.block (by simp [hbody, Stmt.Worded.expression (hstep step rfl)]), rfl⟩
  obtain ⟨hinner, hplain⟩ := hrepeated _ rfl
  have hcondition : (condition.getD (.literal (.bool true))).Worded v := by
    cases condition with
    | none => exact .literal
    | some e => exact htest e rfl
  have hloop := Stmt.Worded.whileLoop hcondition hinner hplain
  cases initializer with
  | none => exact hloop
  | some start => exact .block (by simp [hstart start rfl, hloop])

mutual

theorem Statement.worded {v : Vocabulary} {isOpen : Bool} {first last : Nat} {tokens : List Token}
    {s : Stmt} (h : Statement isOpen first tokens last s) : Allows v tokens → s.Worded v :=
  match h with
  | .expression _ h => fun hv => .expression (h.worded (allows_append.mp hv).1)
  | .print isPrint _ h => fun hv => by
      obtain ⟨hkeyword, hbehind⟩ := allows_cons.mp hv
      exact .print (hkeyword.role isPrint (by decide)) (h.worded (allows_append.mp hbehind).1)
  | .breakLoop isBreak _ => fun hv =>
      .breakLoop ((allows_cons.mp hv).1.role isBreak (by decide))
  | .returnWith isReturn h => fun hv => by
      obtain ⟨hkeyword, hbehind⟩ := allows_cons.mp hv
      exact .returnWith (hkeyword.role isReturn (by decide)) (h.worded hbehind)
  | .block _ _ h => fun hv => .block (h.worded (allows_append.mp (allows_cons.mp hv).2).1)
  | .whileLoop _ _ _ htest hloop => fun hv => by
      obtain ⟨htested, hbehind⟩ := allows_append.mp (allows_cons.mp (allows_cons.mp hv).2).2
      exact .whileLoop (htest.worded htested) (hloop.worded (allows_cons.mp hbehind).2)
        hloop.not_declaration
  | .forLoop _ _ hfirst hsecond hthird hloop => fun hv => by
      obtain ⟨hstart, hbehind⟩ := allows_append.mp (allows_cons.mp (allows_cons.mp hv).2).2
      obtain ⟨htested, hbehind⟩ := allows_append.mp hbehind
      obtain ⟨hstepped, hrepeated⟩ := allows_append.mp hbehind
      exact forTree_worded (hfirst.worded hstart) (hsecond.worded htested)
        (hthird.worded hstepped) (hloop.worded hrepeated) hloop.not_declaration
  | .ifOnly _ _ _ htest hthen => fun hv => by
      obtain ⟨htested, hbehind⟩ := allows_append.mp (allows_cons.mp (allows_cons.mp hv).2).2
      exact .ifElse (htest.worded htested) (hthen.worded (allows_cons.mp hbehind).2)
        hthen.not_declaration (by simp) (by simp)
  | .ifElse _ _ _ _ htest hthen helse => fun hv => by
      obtain ⟨htested, hbehind⟩ := allows_append.mp (allows_cons.mp (allows_cons.mp hv).2).2
      obtain ⟨hchosen, hbehind⟩ := allows_append.mp (allows_cons.mp hbehind).2
      exact .ifElse (htest.worded htested) (hthen.worded hchosen) hthen.not_declaration
        (by simpa using helse.worded (allows_cons.mp hbehind).2)
        (by simpa using helse.not_declaration)

theorem Declaration.worded {v : Vocabulary} {first last : Nat} {tokens : List Token} {s : Stmt}
    (h : Declaration first tokens last s) : Allows v tokens → s.Worded v :=
  match h with
  | .statement h => h.worded
  | .var h => h.worded
  | .function _ h => fun hv => .function (h.worded (allows_cons.mp hv).2)
  | .classDecl _ isName _ _ habove hmethods => fun hv => by
      obtain ⟨hname, hbehind⟩ := allows_cons.mp (allows_cons.mp hv).2
      obtain ⟨hsuper, hbehind⟩ := allows_append.mp hbehind
      obtain ⟨hinside, -⟩ := allows_append.mp (allows_cons.mp hbehind).2
      exact .classDecl (hname.role isName (by decide)) (habove.worded hsuper)
        (hmethods.worded hinside)

theorem Declarations.worded {v : Vocabulary} {first last : Nat} {tokens : List Token}
    {body : List Stmt} (h : Declarations first tokens last body) :
    Allows v tokens → ∀ s ∈ body, s.Worded v :=
  match h with
  | .none => fun _ => by simp
  | .more h hrow => fun hv => by
      obtain ⟨hbefore, hbehind⟩ := allows_append.mp hv
      exact List.forall_mem_cons.mpr ⟨h.worded hbefore, hrow.worded hbehind⟩

theorem Function.worded {v : Vocabulary} {first last : Nat} {tokens : List Token}
    {f : FunctionDecl} (h : Function first tokens last f) : Allows v tokens → f.Worded v :=
  match h with
  | .mk isName _ _ _ _ _ hparams hbody => fun hv => by
      obtain ⟨hname, hbehind⟩ := allows_cons.mp hv
      obtain ⟨hnamed, hbehind⟩ := allows_append.mp (allows_cons.mp hbehind).2
      obtain ⟨hinside, -⟩ := allows_append.mp (allows_cons.mp (allows_cons.mp hbehind).2).2
      exact .mk (hname.role isName (by decide)) (hparams.worded hnamed) (hbody.worded hinside)

theorem Methods.worded {v : Vocabulary} {first last : Nat} {tokens : List Token}
    {fs : List FunctionDecl} (h : Methods first tokens last fs) :
    Allows v tokens → ∀ f ∈ fs, f.Worded v :=
  match h with
  | .none => fun _ => by simp
  | .more h hrow => fun hv => by
      obtain ⟨hbefore, hbehind⟩ := allows_append.mp hv
      exact List.forall_mem_cons.mpr ⟨h.worded hbefore, hrow.worded hbehind⟩

end

end Lox.Grammar.Derives
