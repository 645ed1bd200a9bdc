/-
The words in a tree.

A token stands in a tree because of what it does there: it is a name, an operator, a
keyword, or it closes a call.  `Worded` says of a tree that each of its tokens is
allowed to do what it does, and besides, whatever is allowed, that the branches of an
`if` and the body of a loop are no declarations.
-/
import Lox.Proofs.Syntax.Trees

namespace Lox

/-- What a token does in a tree. -/
inductive Role where
  /-- It names a variable, a function, a class, a parameter or a property. -/
  | name
  /-- It is an operator in front of its operand. -/
  | sign
  /-- It is an operator between its operands. -/
  | operator
  /-- It is an operator that may leave its right operand aside. -/
  | connective
  /-- It is the keyword of a statement, or of an expression made of keywords. -/
  | keyword
  /-- It closes a call. -/
  | closing
  deriving DecidableEq, Repr

/-- The kinds of the tokens that can do something. -/
def Role.kinds : Role → List TokenKind
  | name => [.identifier]
  | sign => [.bang, .minus]
  | operator =>
      [.comma, .equalEqual, .greater, .greaterEqual, .less, .lessEqual, .minus, .plus, .slash,
        .star]
  | connective => [.kwAnd, .kwOr]
  | keyword => [.kwPrint, .kwBreak, .kwReturn, .kwThis, .kwSuper]
  | closing => [.rightParen]

/-- Which tokens may do what. -/
abbrev Vocabulary := Role → Token → Prop

/-- Any token may do anything. -/
def Vocabulary.any : Vocabulary :=
  fun _ _ => True

/-- Tokens that failures may point at, and operators that do not fail. -/
def Vocabulary.blamed (P : Token → Prop) : Vocabulary
  | .sign, token => token.kind = .bang ∨ P token
  | .operator, token => token.kind = .equalEqual ∨ P token
  | _, token => P token

/-- Every token in an expression may do what it does. -/
inductive Expr.Worded (v : Vocabulary) : Expr → Prop
  | literal {value : Literal} : Worded v (.literal value)
  | group {inner : Expr} (h : inner.Worded v) : Worded v (.group inner)
  | unary {operator : Token} {operand : Expr} (hsign : v .sign operator) (h : operand.Worded v) :
      Worded v (.unary operator operand)
  | binary {operator : Token} {left right : Expr} (hoperator : v .operator operator)
      (hleft : left.Worded v) (hright : right.Worded v) : Worded v (.binary operator left right)
  | logical {operator : Token} {left right : Expr} (hoperator : v .connective operator)
      (hleft : left.Worded v) (hright : right.Worded v) : Worded v (.logical operator left right)
  | conditional {condition onTrue onFalse : Expr} (hcondition : condition.Worded v)
      (hTrue : onTrue.Worded v) (hFalse : onFalse.Worded v) :
      Worded v (.conditional condition onTrue onFalse)
  | use {occurrence : Occurrence} (hname : v .name occurrence.name) : Worded v (.use occurrence)
  | assign {target : Occurrence} {value : Expr} (hname : v .name target.name)
      (hvalue : value.Worded v) : Worded v (.assign target value)
  | call {callee : Expr} {paren : Token} {arguments : List Expr} (hcallee : callee.Worded v)
      (hparen : v .closing paren) (harguments : ∀ e ∈ arguments, e.Worded v) :
      Worded v (.call callee paren arguments)
  | get {object : Expr} {property : Token} (hobject : object.Worded v)
      (hname : v .name property) : Worded v (.get object property)
  | set {object : Expr} {property : Token} {value : Expr} (hobject : object.Worded v)
      (hname : v .name property) (hvalue : value.Worded v) : Worded v (.set object property value)
  | this {receiver : Occurrence} (hkeyword : v .keyword receiver.name) : Worded v (.this receiver)
  | super {keyword : Occurrence} {method : Token} (hkeyword : v .keyword keyword.name)
      (hname : v .name method) : Worded v (.super keyword method)

mutual

/-- Every token in a statement may do what it does, and what is nested without a block is
no declaration. -/
inductive Stmt.Worded (v : Vocabulary) : Stmt → Prop
  | expression {value : Expr} (h : value.Worded v) : Stmt.Worded v (.expression value)
  | print {keyword : Token} {value : Expr} (hkeyword : v .keyword keyword) (h : value.Worded v) :
      Stmt.Worded v (.print keyword value)
  | var {name : Token} {initializer : Option Expr} (hname : v .name name)
      (h : ∀ value ∈ initializer, value.Worded v) : Stmt.Worded v (.var name initializer)
  | block {body : List Stmt} (h : ∀ s ∈ body, s.Worded v) : Stmt.Worded v (.block body)
  | ifElse {condition : Expr} {onTrue : Stmt} {onFalse : Option Stmt}
      (hcondition : condition.Worded v) (hTrue : onTrue.Worded v)
      (hnested : onTrue.isDeclaration = false) (hFalse : ∀ s ∈ onFalse, s.Worded v)
      (hnested' : ∀ s ∈ onFalse, s.isDeclaration = false) :
      Stmt.Worded v (.ifElse condition onTrue onFalse)
  | whileLoop {condition : Expr} {body : Stmt} (hcondition : condition.Worded v)
      (hbody : body.Worded v) (hnested : body.isDeclaration = false) :
      Stmt.Worded v (.whileLoop condition body)
  | breakLoop {keyword : Token} (hkeyword : v .keyword keyword) :
      Stmt.Worded v (.breakLoop keyword)
  | function {declaration : FunctionDecl} (h : declaration.Worded v) :
      Stmt.Worded v (.function declaration)
  | returnWith {keyword : Token} {value : Option Expr} (hkeyword : v .keyword keyword)
      (h : ∀ e ∈ value, e.Worded v) : Stmt.Worded v (.returnWith keyword value)
  | classDecl {name : Token} {superclass : Option Occurrence} {methods : List FunctionDecl}
      (hname : v .name name) (habove : ∀ occurrence ∈ superclass, v .name occurrence.name)
      (hmethods : ∀ f ∈ methods, f.Worded v) : Stmt.Worded v (.classDecl name superclass methods)

/-- The same for a function. -/
inductive FunctionDecl.Worded (v : Vocabulary) : FunctionDecl → Prop
  | mk {name : Token} {params : List Token} {body : List Stmt} (hname : v .name name)
      (hparams : ∀ param ∈ params, v .name param) (hbody : ∀ s ∈ body, s.Worded v) :
      FunctionDecl.Worded v ⟨name, params, body⟩

end

end Lox
