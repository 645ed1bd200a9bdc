/-
What the rules put where.

A statement that begins with a keyword keeps that keyword, and so do `this` and `super`; each
is of the one kind that the rule for it asks for.  The number in a literal is read off the
digits of a token.  The trees that stand for a `for` or an inequality add nothing to that.
-/
import Lox.Proofs.Grammar.Derivation
import Lox.Proofs.Syntax.Places

namespace Lox

namespace Node

/-- Something is true of a part and of everything in it. -/
inductive Everywhere (P : Node → Prop) : Node → Prop
  | mk {n : Node} (here : P n) (inside : ∀ part ∈ n.parts, Everywhere P part) : Everywhere P n

theorem everywhere_hereditary (P : Node → Prop) : Hereditary (Everywhere P)
  | _, .mk _ inside => inside

theorem Everywhere.here {P : Node → Prop} {n : Node} : n.Everywhere P → P n
  | .mk here _ => here

/-- The keyword of a part is the one that is written there, and so is a number. -/
def Written : Node → Prop
  | stmt (.print keyword _) => keyword.kind = .kwPrint
  | stmt (.breakLoop keyword) => keyword.kind = .kwBreak
  | stmt (.returnWith keyword _) => keyword.kind = .kwReturn
  | expr (.this receiver) => receiver.name.kind = .kwThis
  | expr (.super keyword _) => keyword.name.kind = .kwSuper
  | expr (.literal (.number value)) => ∃ text, value = Decimal.read text
  | _ => True

end Node

open Node

theorem Token.written_literal {token : Token} {value : Literal} (h : token.literal? = some value) :
    (expr (.literal value)).Written := by
  unfold Token.literal? at h
  split at h <;> cases h
  · trivial
  · exact ⟨_, rfl⟩

namespace Grammar.Derives

variable {first last : Nat} {tokens : List Token}

/-! ### Expressions -/

theorem Constant.everywhere_written {token : Token} {e : Expr} (h : Constant token e) :
    (expr e).Everywhere Written := by
  cases h with
  | written h => exact .mk (Token.written_literal h) (by simp [parts, ofExpr])
  | _ => exact .mk trivial (by simp [parts, ofExpr])

mutual

theorem Expression.written {level : Level} {first last : Nat} {tokens : List Token} {e : Expr}
    (h : Expression level first tokens last e) : (expr e).Everywhere Written :=
  match h with
  | .inner _ h => h.written
  | .unary _ h | .property _ _ h | .group _ _ h | .callEmpty _ _ h | .assignName _ _ h =>
      .mk trivial (by simpa [parts, ofExpr] using h.written)
  | .binary _ _ hleft hright | .logical _ _ hleft hright =>
      .mk trivial (by simpa [parts, ofExpr] using ⟨hleft.written, hright.written⟩)
  | .unequal _ hleft hright => by
      refine .mk trivial fun part hpart => ?_
      obtain rfl := List.mem_singleton.mp hpart
      exact .mk trivial (by simpa [parts, ofExpr] using ⟨hleft.written, hright.written⟩)
  | .assignProperty _ _ _ hobject hvalue =>
      .mk trivial (by simpa [parts, ofExpr] using ⟨hvalue.written, hobject.written⟩)
  | .conditional _ _ htest hchosen hother =>
      .mk trivial (by
        simpa [parts, ofExpr] using ⟨htest.written, hchosen.written, hother.written⟩)
  | .call _ _ _ hcallee hrow =>
      .mk trivial (by simpa [parts, ofExpr] using ⟨hcallee.written, hrow.written⟩)
  | .constant h => h.everywhere_written
  | .name _ => .mk trivial (by simp [parts, ofExpr])
  | .this isThis => .mk isThis (by simp [parts, ofExpr])
  | .super isSuper _ _ => .mk isSuper (by simp [parts, ofExpr])

theorem Arguments.written {first last : Nat} {tokens : List Token} {es : List Expr}
    (h : Arguments first tokens last es) : ∀ e ∈ es, (expr e).Everywhere Written :=
  match h with
  | .last h => by simpa using h.written
  | .more _ h hrow => List.forall_mem_cons.mpr ⟨h.written, hrow.written⟩

end

/-! ### Statements and declarations -/

theorem Clause.written {kind : TokenKind} {value : Option Expr}
    (h : Clause kind first tokens last value) : ∀ e ∈ value, (expr e).Everywhere Written := by
  cases h with
  | absent => simp
  | present _ h => simpa using h.written

theorem Variable.written {s : Stmt} (h : Variable first tokens last s) :
    (stmt s).Everywhere Written := by
  cases h with
  | plain => exact .mk trivial (by simp [parts, ofStmt])
  | initialized _ _ _ _ h => exact .mk trivial (by simpa [parts, ofStmt] using h.written)

theorem Initializer.written {s : Option Stmt} (h : Initializer first tokens last s) :
    ∀ start ∈ s, (stmt start).Everywhere Written := by
  cases h with
  | var h => simpa using h.written
  | @clause _ _ value h =>
      cases value with
      | none => simp
      | some e =>
          have hvalue := h.written e rfl
          simpa using Everywhere.mk (n := stmt (.expression e)) trivial
            (by simpa [parts, ofStmt] using hvalue)

theorem forTree_written {initializer : Option Stmt} {condition increment : Option Expr}
    {body : Stmt} (hstart : ∀ s ∈ initializer, (stmt s).Everywhere Written)
    (htest : ∀ e ∈ condition, (expr e).Everywhere Written)
    (hstep : ∀ e ∈ increment, (expr e).Everywhere Written)
    (hbody : (stmt body).Everywhere Written) :
    (stmt (forTree initializer condition increment body)).Everywhere Written := by
  have hrepeated : ∀ inner : Stmt, inner = increment.elim body (fun step =>
      .block [body, .expression step]) → (stmt inner).Everywhere Written := by
    rintro inner rfl
    cases increment with
    | none => exact hbody
    | some step =>
        have hexpression : (stmt (.expression step)).Everywhere Written :=
          .mk trivial (by simpa [parts, ofStmt] using hstep step rfl)
        exact .mk trivial (by simpa [parts, ofStmt] using ⟨hbody, hexpression⟩)
  have hcondition : (expr (condition.getD (.literal (.bool true)))).Everywhere Written := by
    cases condition with
    | none => exact .mk trivial (by simp [parts, ofExpr])
    | some e => exact htest e rfl
  have hloop : ∀ inner, (stmt inner).Everywhere Written →
      (stmt (.whileLoop (condition.getD (.literal (.bool true))) inner)).Everywhere Written :=
    fun inner hinner => .mk trivial (by simpa [parts, ofStmt] using ⟨hcondition, hinner⟩)
  have hwhole := hloop _ (hrepeated _ rfl)
  cases initializer with
  | none => exact hwhole
  | some start =>
      exact .mk trivial (by simpa [forTree, parts, ofStmt] using ⟨hstart start rfl, hwhole⟩)

mutual

theorem Statement.written {isOpen : Bool} {first last : Nat} {tokens : List Token} {s : Stmt}
    (h : Statement isOpen first tokens last s) : (stmt s).Everywhere Written :=
  match h with
  | .expression _ h => .mk trivial (by simpa [parts, ofStmt] using h.written)
  | .print isPrint _ h => .mk isPrint (by simpa [parts, ofStmt] using h.written)
  | .breakLoop isBreak _ => .mk isBreak (by simp [parts, ofStmt])
  | .returnWith isReturn h => .mk isReturn (by simpa [parts, ofStmt] using h.written)
  | .block _ _ h => .mk trivial (by simpa [parts, ofStmt] using h.written)
  | .whileLoop _ _ _ htest hloop =>
      .mk trivial (by simpa [parts, ofStmt] using ⟨htest.written, hloop.written⟩)
  | .forLoop _ _ hfirst hsecond hthird hloop =>
      forTree_written hfirst.written hsecond.written hthird.written hloop.written
  | .ifOnly _ _ _ htest hchosen =>
      .mk trivial (by simpa [parts, ofStmt] using ⟨htest.written, hchosen.written⟩)
  | .ifElse _ _ _ _ htest hchosen hother =>
      .mk trivial (by
        simpa [parts, ofStmt] using ⟨htest.written, hchosen.written, hother.written⟩)

theorem Declaration.written {first last : Nat} {tokens : List Token} {s : Stmt}
    (h : Declaration first tokens last s) : (stmt s).Everywhere Written :=
  match h with
  | .statement h => h.written
  | .var h => h.written
  | .function _ h =>
      .mk trivial (by
        simpa [parts, ofStmt] using Everywhere.mk (n := Node.function _) trivial h.written)
  | .classDecl _ _ _ _ _ hmethods => by
      refine .mk trivial fun part hpart => ?_
      simp only [parts, ofStmt, List.mem_append, List.mem_map] at hpart
      rcases hpart with ⟨occurrence, -, rfl⟩ | ⟨f, hf, rfl⟩
      · exact .mk trivial (by simp [parts, ofExpr])
      · exact .mk trivial (hmethods.written f hf)

theorem Declarations.written {first last : Nat} {tokens : List Token} {body : List Stmt}
    (h : Declarations first tokens last body) : ∀ s ∈ body, (stmt s).Everywhere Written :=
  match h with
  | .none => by simp
  | .more h hrow => List.forall_mem_cons.mpr ⟨h.written, hrow.written⟩

theorem Function.written {first last : Nat} {tokens : List Token} {f : FunctionDecl}
    (h : Function first tokens last f) : ∀ part ∈ ofFunction f, part.Everywhere Written :=
  match h with
  | .mk _ _ _ _ _ _ _ hbody => by
      simp only [ofFunction, List.forall_mem_append, List.forall_mem_map]
      exact ⟨fun param _ => .mk trivial (by simp [parts]), hbody.written⟩

theorem Methods.written {first last : Nat} {tokens : List Token} {fs : List FunctionDecl}
    (h : Methods first tokens last fs) :
    ∀ f ∈ fs, ∀ part ∈ ofFunction f, part.Everywhere Written :=
  match h with
  | .none => by simp
  | .more h hrow => List.forall_mem_cons.mpr ⟨h.written, hrow.written⟩

end

/-- Everything in a program is where it is written. -/
theorem Program.written {program : List Stmt} (h : Program first tokens last program) {p : Place}
    (hp : p.IsIn program) : p.node.Written :=
  (hp.of_hereditary (everywhere_hereditary Written)
    (.mk trivial (List.forall_mem_map.mpr (Declarations.written h)))).here

end Grammar.Derives

end Lox
