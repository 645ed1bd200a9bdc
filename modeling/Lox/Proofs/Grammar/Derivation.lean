/-
The grammar of programs, as rules of derivation.

A rule says which rows of tokens have a tree of some kind, and which tree that is.
Nothing here reads: a row is cut wherever the rules allow it, and it is a theorem, not
a part of the rules, that they allow one tree at most.

Occurrences are numbered while a row is taken apart, from left to right, so every rule
carries two numbers around the row: the latest before it and the latest behind it.  The
numbers restrict nothing.  An assignment is numbered behind its value, and the name
before the equals sign uses up a number that no occurrence keeps.

Where `else` may go with two `if`s it belongs to the nearer one.  In the rules: a
statement is *open* if it ends with an `if` that has no `else`, and what stands between
an `if` and its `else` is not open.
-/
import Lox.Grammar.Program

namespace Lox.Grammar.Derives

/-! ### Expressions -/

/-- `Joins level kind operand`: an operator of the kind stands between an expression of
the level and one of the level `operand`, and the whole is of the level again. -/
inductive Joins : Level → TokenKind → Level → Prop
  | comma : Joins .comma .comma .assignment
  | equal : Joins .equality .equalEqual .comparison
  | greater : Joins .comparison .greater .term
  | greaterEqual : Joins .comparison .greaterEqual .term
  | less : Joins .comparison .less .term
  | lessEqual : Joins .comparison .lessEqual .term
  | minus : Joins .term .minus .factor
  | plus : Joins .term .plus .factor
  | slash : Joins .factor .slash .unary
  | star : Joins .factor .star .unary

/-- The same for the operators that may leave their right operand aside. -/
inductive Connects : Level → TokenKind → Level → Prop
  | or : Connects .or .kwOr .and
  | and : Connects .and .kwAnd .equality

/-- `Contains outer inner`: an expression of the inner level is one of the outer. -/
inductive Contains : Level → Level → Prop
  | comma : Contains .comma .assignment
  | assignment : Contains .assignment .conditional
  | conditional : Contains .conditional .or
  | or : Contains .or .and
  | and : Contains .and .equality
  | equality : Contains .equality .comparison
  | comparison : Contains .comparison .term
  | term : Contains .term .factor
  | factor : Contains .factor .unary
  | unary : Contains .unary .call
  | call : Contains .call .primary

/-- The tokens that are expressions by themselves and mention no name. -/
inductive Constant : Token → Expr → Prop
  | false {token : Token} (h : token.kind = .kwFalse) : Constant token (.literal (.bool false))
  | true {token : Token} (h : token.kind = .kwTrue) : Constant token (.literal (.bool true))
  | nil {token : Token} (h : token.kind = .kwNil) : Constant token (.literal .nil)
  | written {token : Token} {value : Literal} (h : token.literal? = some value) :
      Constant token (.literal value)

mutual

/-- `Expression level first tokens last e`: the tokens are an expression of the level,
its tree is `e`, and its occurrences are numbered from `first + 1` to `last`. -/
inductive Expression : Level → Nat → List Token → Nat → Expr → Prop
  | inner {outer inner : Level} {first last : Nat} {tokens : List Token} {e : Expr}
      (contains : Contains outer inner) (expression : Expression inner first tokens last e) :
      Expression outer first tokens last e
  | binary {level operand : Level} {kind : TokenKind} {operator : Token}
      {first middle last : Nat} {before behind : List Token} {left right : Expr}
      (joins : Joins level kind operand) (isOperator : operator.kind = kind)
      (leftOperand : Expression level first before middle left)
      (rightOperand : Expression operand middle behind last right) :
      Expression level first (before ++ operator :: behind) last (.binary operator left right)
  | logical {level operand : Level} {kind : TokenKind} {operator : Token}
      {first middle last : Nat} {before behind : List Token} {left right : Expr}
      (connects : Connects level kind operand) (isOperator : operator.kind = kind)
      (leftOperand : Expression level first before middle left)
      (rightOperand : Expression operand middle behind last right) :
      Expression level first (before ++ operator :: behind) last
        (.logical operator left right)
  | unequal {operator : Token} {first middle last : Nat} {before behind : List Token}
      {left right : Expr} (isOperator : operator.kind = .bangEqual)
      (leftOperand : Expression .equality first before middle left)
      (rightOperand : Expression .comparison middle behind last right) :
      Expression .equality first (before ++ operator :: behind) last
        (.unary ⟨.bang, "!", operator.line⟩
          (.binary ⟨.equalEqual, "==", operator.line⟩ left right))
  | assignName {name equals : Token} {first last : Nat} {tokens : List Token} {value : Expr}
      (isName : name.kind = .identifier) (isEquals : equals.kind = .equal)
      (assigned : Expression .assignment (first + 1) tokens last value) :
      Expression .assignment first (name :: equals :: tokens) (last + 1)
        (.assign ⟨name, last + 1⟩ value)
  | assignProperty {dot name equals : Token} {first middle last : Nat}
      {before behind : List Token} {object value : Expr}
      (isDot : dot.kind = .dot) (isName : name.kind = .identifier)
      (isEquals : equals.kind = .equal)
      (holder : Expression .call first before middle object)
      (assigned : Expression .assignment middle behind last value) :
      Expression .assignment first (before ++ dot :: name :: equals :: behind) last
        (.set object name value)
  | conditional {question colon : Token} {first second third last : Nat}
      {tested chosen other : List Token} {condition onTrue onFalse : Expr}
      (isQuestion : question.kind = .question) (isColon : colon.kind = .colon)
      (test : Expression .or first tested second condition)
      (thenBranch : Expression .comma second chosen third onTrue)
      (elseBranch : Expression .conditional third other last onFalse) :
      Expression .conditional first (tested ++ question :: (chosen ++ colon :: other)) last
        (.conditional condition onTrue onFalse)
  | unary {operator : Token} {first last : Nat} {tokens : List Token} {operand : Expr}
      (isOperator : operator.kind = .bang ∨ operator.kind = .minus)
      (inside : Expression .unary first tokens last operand) :
      Expression .unary first (operator :: tokens) last (.unary operator operand)
  | callEmpty {opening closing : Token} {first last : Nat} {tokens : List Token}
      {callee : Expr} (isOpening : opening.kind = .leftParen)
      (isClosing : closing.kind = .rightParen)
      (called : Expression .call first tokens last callee) :
      Expression .call first (tokens ++ [opening, closing]) last (.call callee closing [])
  | call {opening closing : Token} {first middle last : Nat} {before between : List Token}
      {callee : Expr} {arguments : List Expr} (isOpening : opening.kind = .leftParen)
      (isClosing : closing.kind = .rightParen) (few : arguments.length ≤ 255)
      (called : Expression .call first before middle callee)
      (row : Arguments middle between last arguments) :
      Expression .call first (before ++ opening :: (between ++ [closing])) last
        (.call callee closing arguments)
  | property {dot name : Token} {first last : Nat} {tokens : List Token} {object : Expr}
      (isDot : dot.kind = .dot) (isName : name.kind = .identifier)
      (holder : Expression .call first tokens last object) :
      Expression .call first (tokens ++ [dot, name]) last (.get object name)
  | constant {token : Token} {first : Nat} {e : Expr} (constant : Constant token e) :
      Expression .primary first [token] first e
  | name {token : Token} {first : Nat} (isName : token.kind = .identifier) :
      Expression .primary first [token] (first + 1) (.use ⟨token, first + 1⟩)
  | this {token : Token} {first : Nat} (isThis : token.kind = .kwThis) :
      Expression .primary first [token] (first + 1) (.this ⟨token, first + 1⟩)
  | super {keyword dot method : Token} {first : Nat} (isSuper : keyword.kind = .kwSuper)
      (isDot : dot.kind = .dot) (isName : method.kind = .identifier) :
      Expression .primary first [keyword, dot, method] (first + 1)
        (.super ⟨keyword, first + 1⟩ method)
  | group {opening closing : Token} {first last : Nat} {tokens : List Token} {e : Expr}
      (isOpening : opening.kind = .leftParen) (isClosing : closing.kind = .rightParen)
      (inside : Expression .comma first tokens last e) :
      Expression .primary first (opening :: (tokens ++ [closing])) last (.group e)

/-- At least one argument, with commas between them. -/
inductive Arguments : Nat → List Token → Nat → List Expr → Prop
  | last {first last : Nat} {tokens : List Token} {e : Expr}
      (argument : Expression .assignment first tokens last e) :
      Arguments first tokens last [e]
  | more {comma : Token} {first middle last : Nat} {before behind : List Token} {e : Expr}
      {others : List Expr} (isComma : comma.kind = .comma)
      (argument : Expression .assignment first before middle e)
      (row : Arguments middle behind last others) :
      Arguments first (before ++ comma :: behind) last (e :: others)

end

/-! ### Statements and declarations -/

/-- Names with commas between them, and none at all. -/
inductive Parameters : List Token → List Token → Prop
  | none : Parameters [] []
  | last {name : Token} (isName : name.kind = .identifier) : Parameters [name] [name]
  | more {name comma : Token} {tokens names : List Token} (isName : name.kind = .identifier)
      (isComma : comma.kind = .comma) (nonempty : names ≠ [])
      (row : Parameters tokens names) :
      Parameters (name :: comma :: tokens) (name :: names)

/-- An expression with a token of the kind behind it, or that token alone. -/
inductive Clause : TokenKind → Nat → List Token → Nat → Option Expr → Prop
  | absent {kind : TokenKind} {first : Nat} {closing : Token} (isClosing : closing.kind = kind) :
      Clause kind first [closing] first none
  | present {kind : TokenKind} {first last : Nat} {tokens : List Token} {closing : Token}
      {e : Expr} (isClosing : closing.kind = kind)
      (expression : Expression .comma first tokens last e) :
      Clause kind first (tokens ++ [closing]) last (some e)

/-- A variable with or without an initializer. -/
inductive Variable : Nat → List Token → Nat → Stmt → Prop
  | plain {keyword name semicolon : Token} {first : Nat} (isVar : keyword.kind = .kwVar)
      (isName : name.kind = .identifier) (isSemicolon : semicolon.kind = .semicolon) :
      Variable first [keyword, name, semicolon] first (.var name none)
  | initialized {keyword name equals semicolon : Token} {first last : Nat}
      {tokens : List Token} {value : Expr} (isVar : keyword.kind = .kwVar)
      (isName : name.kind = .identifier) (isEquals : equals.kind = .equal)
      (isSemicolon : semicolon.kind = .semicolon)
      (initializer : Expression .comma first tokens last value) :
      Variable first (keyword :: name :: equals :: (tokens ++ [semicolon])) last
        (.var name (some value))

/-- What comes first between the parentheses of a `for`. -/
inductive Initializer : Nat → List Token → Nat → Option Stmt → Prop
  | var {first last : Nat} {tokens : List Token} {s : Stmt}
      (declared : Variable first tokens last s) : Initializer first tokens last (some s)
  | clause {first last : Nat} {tokens : List Token} {value : Option Expr}
      (clause : Clause .semicolon first tokens last value) :
      Initializer first tokens last (value.map .expression)

/-- The superclass of a class, if it has one. -/
inductive Superclass : Nat → List Token → Nat → Option Occurrence → Prop
  | absent {first : Nat} : Superclass first [] first none
  | present {less name : Token} {first : Nat} (isLess : less.kind = .less)
      (isName : name.kind = .identifier) :
      Superclass first [less, name] (first + 1) (some ⟨name, first + 1⟩)

/-- The tree of a `for`: a `while` whose body ends with the increment, in a block that
begins with the initializer.  A condition that is left out is true. -/
def forTree (initializer : Option Stmt) (condition increment : Option Expr) (body : Stmt) :
    Stmt :=
  let body := increment.elim body (fun step => .block [body, .expression step])
  let loop := Stmt.whileLoop (condition.getD (.literal (.bool true))) body
  initializer.elim loop (fun start => .block [start, loop])

/-- It is the tree that is read. -/
theorem forLoop_eq (initializer : Option Stmt) (condition increment : Option Expr)
    (body : Stmt) : forLoop initializer (condition.getD (.literal (.bool true))) increment body
      = forTree initializer condition increment body := by
  cases initializer <;> cases increment <;> rfl

mutual

/-- `Statement isOpen first tokens last s`: the tokens are a statement with the tree
`s`; if it is open, an `else` behind it would belong to it. -/
inductive Statement : Bool → Nat → List Token → Nat → Stmt → Prop
  | expression {semicolon : Token} {first last : Nat} {tokens : List Token} {e : Expr}
      (isSemicolon : semicolon.kind = .semicolon)
      (value : Expression .comma first tokens last e) :
      Statement false first (tokens ++ [semicolon]) last (.expression e)
  | print {keyword semicolon : Token} {first last : Nat} {tokens : List Token} {e : Expr}
      (isPrint : keyword.kind = .kwPrint) (isSemicolon : semicolon.kind = .semicolon)
      (value : Expression .comma first tokens last e) :
      Statement false first (keyword :: (tokens ++ [semicolon])) last (.print keyword e)
  | breakLoop {keyword semicolon : Token} {first : Nat} (isBreak : keyword.kind = .kwBreak)
      (isSemicolon : semicolon.kind = .semicolon) :
      Statement false first [keyword, semicolon] first (.breakLoop keyword)
  | returnWith {keyword : Token} {first last : Nat} {tokens : List Token}
      {value : Option Expr} (isReturn : keyword.kind = .kwReturn)
      (clause : Clause .semicolon first tokens last value) :
      Statement false first (keyword :: tokens) last (.returnWith keyword value)
  | block {opening closing : Token} {first last : Nat} {tokens : List Token}
      {body : List Stmt} (isOpening : opening.kind = .leftBrace)
      (isClosing : closing.kind = .rightBrace)
      (inside : Declarations first tokens last body) :
      Statement false first (opening :: (tokens ++ [closing])) last (.block body)
  | whileLoop {isOpen : Bool} {keyword opening closing : Token} {first middle last : Nat}
      {tested repeated : List Token} {condition : Expr} {body : Stmt}
      (isWhile : keyword.kind = .kwWhile) (isOpening : opening.kind = .leftParen)
      (isClosing : closing.kind = .rightParen)
      (test : Expression .comma first tested middle condition)
      (loop : Statement isOpen middle repeated last body) :
      Statement isOpen first (keyword :: opening :: (tested ++ closing :: repeated)) last
        (.whileLoop condition body)
  | forLoop {isOpen : Bool} {keyword opening : Token} {first second third fourth last : Nat}
      {start tested stepped repeated : List Token} {initializer : Option Stmt}
      {condition increment : Option Expr} {body : Stmt}
      (isFor : keyword.kind = .kwFor) (isOpening : opening.kind = .leftParen)
      (firstClause : Initializer first start second initializer)
      (secondClause : Clause .semicolon second tested third condition)
      (thirdClause : Clause .rightParen third stepped fourth increment)
      (loop : Statement isOpen fourth repeated last body) :
      Statement isOpen first
        (keyword :: opening :: (start ++ (tested ++ (stepped ++ repeated)))) last
        (forTree initializer condition increment body)
  | ifOnly {isOpen : Bool} {keyword opening closing : Token} {first middle last : Nat}
      {tested chosen : List Token} {condition : Expr} {onTrue : Stmt}
      (isIf : keyword.kind = .kwIf) (isOpening : opening.kind = .leftParen)
      (isClosing : closing.kind = .rightParen)
      (test : Expression .comma first tested middle condition)
      (thenBranch : Statement isOpen middle chosen last onTrue) :
      Statement true first (keyword :: opening :: (tested ++ closing :: chosen)) last
        (.ifElse condition onTrue none)
  | ifElse {isOpen : Bool} {keyword opening closing otherwise : Token}
      {first second third last : Nat} {tested chosen other : List Token} {condition : Expr}
      {onTrue onFalse : Stmt}
      (isIf : keyword.kind = .kwIf) (isOpening : opening.kind = .leftParen)
      (isClosing : closing.kind = .rightParen) (isElse : otherwise.kind = .kwElse)
      (test : Expression .comma first tested second condition)
      (thenBranch : Statement false second chosen third onTrue)
      (elseBranch : Statement isOpen third other last onFalse) :
      Statement isOpen first
        (keyword :: opening :: (tested ++ closing :: (chosen ++ otherwise :: other))) last
        (.ifElse condition onTrue (some onFalse))

/-- `Declaration first tokens last s`: the tokens are a declaration or a statement. -/
inductive Declaration : Nat → List Token → Nat → Stmt → Prop
  | statement {isOpen : Bool} {first last : Nat} {tokens : List Token} {s : Stmt}
      (statement : Statement isOpen first tokens last s) : Declaration first tokens last s
  | var {first last : Nat} {tokens : List Token} {s : Stmt}
      (declared : Variable first tokens last s) : Declaration first tokens last s
  | function {keyword : Token} {first last : Nat} {tokens : List Token}
      {declared : FunctionDecl} (isFun : keyword.kind = .kwFun)
      (function : Function first tokens last declared) :
      Declaration first (keyword :: tokens) last (.function declared)
  | classDecl {keyword name opening closing : Token} {first middle last : Nat}
      {above tokens : List Token} {superclass : Option Occurrence}
      {declared : List FunctionDecl} (isClass : keyword.kind = .kwClass)
      (isName : name.kind = .identifier) (isOpening : opening.kind = .leftBrace)
      (isClosing : closing.kind = .rightBrace)
      (inherited : Superclass first above middle superclass)
      (methods : Methods middle tokens last declared) :
      Declaration first (keyword :: name :: (above ++ opening :: (tokens ++ [closing]))) last
        (.classDecl name superclass declared)

/-- Declarations and statements one after the other. -/
inductive Declarations : Nat → List Token → Nat → List Stmt → Prop
  | none {first : Nat} : Declarations first [] first []
  | more {first middle last : Nat} {before behind : List Token} {s : Stmt} {rest : List Stmt}
      (declaration : Declaration first before middle s)
      (row : Declarations middle behind last rest) :
      Declarations first (before ++ behind) last (s :: rest)

/-- A function or a method from its name on. -/
inductive Function : Nat → List Token → Nat → FunctionDecl → Prop
  | mk {name opening closing start stop : Token} {first last : Nat}
      {named tokens params : List Token} {body : List Stmt}
      (isName : name.kind = .identifier) (isOpening : opening.kind = .leftParen)
      (isClosing : closing.kind = .rightParen) (isStart : start.kind = .leftBrace)
      (isStop : stop.kind = .rightBrace) (few : params.length ≤ 255)
      (parameters : Parameters named params)
      (inside : Declarations first tokens last body) :
      Function first
        (name :: opening :: (named ++ closing :: start :: (tokens ++ [stop]))) last
        ⟨name, params, body⟩

/-- Methods one after the other. -/
inductive Methods : Nat → List Token → Nat → List FunctionDecl → Prop
  | none {first : Nat} : Methods first [] first []
  | more {first middle last : Nat} {before behind : List Token} {method : FunctionDecl}
      {rest : List FunctionDecl} (function : Function first before middle method)
      (row : Methods middle behind last rest) :
      Methods first (before ++ behind) last (method :: rest)

end

/-- A whole program is a row of declarations. -/
def Program (first : Nat) (tokens : List Token) (last : Nat) (program : List Stmt) : Prop :=
  Declarations first tokens last program

end Lox.Grammar.Derives
