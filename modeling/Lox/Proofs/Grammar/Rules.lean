/-
The grammar without a counter.

The readers of the grammar count down, so that they come to an end whatever they are given.
Here are the same rules once more, as what they are without: what a rule reads, given how the
rules that it mentions are read (`Rule.read`).  Nothing is said about whether that comes to an
end.

It does if the calls that the rules make of each other are nested to some depth and no deeper.
`nested` reads with calls of a given depth, and has no result at all if that is not enough, in
contrast to a reader that abandons what it reads.
-/
import Lox.Proofs.Grammar.Steps

namespace Lox.Grammar

open Reader

/-! ### Reading that may have no end -/

/-- A step of the reading that may have no end: then there is no result.  If there is one, it
says whether what was read is kept or abandoned, and where the reading stands. -/
abbrev Unbounded (α : Type) : Type :=
  ExceptT Unit (StateT Cursor Option) α

namespace Unbounded

variable {α : Type}

/-- A step that has an end. -/
def of (p : Reader α) : Unbounded α :=
  fun c =>
    match p c with
    | (some a, c') => some (.ok a, c')
    | (none, c') => some (.error (), c')

/-- Never comes to an end. -/
def endless : Unbounded α :=
  fun _ => none

/-- Reads without being abandoned: whatever was kept or not, the reading goes on. -/
def attempt (p : Unbounded α) : Unbounded (Option α) :=
  fun c => (p c).map fun (result, c') => (.ok result.toOption, c')

/-- Reads a declaration; if it is abandoned, nothing is kept and reading resumes at the
next one. -/
def recovering (p : Unbounded α) : Unbounded (Option α) :=
  fun c => (p c).map fun
    | (.ok a, c') => (.ok (some a), c')
    | (.error _, c') => (.ok none, { c' with rest := recover c'.rest })

end Unbounded

/-! ### The rules -/

/-- The rules that mention each other, with what they hand on. -/
inductive Rule : Type → Type where
  | expression (level : Level) : Rule Expr
  | operations (level : Level) (left : Expr) : Rule Expr
  | suffixes (callee : Expr) : Rule Expr
  | arguments : Rule (List Expr)
  | argumentsFrom (count : Nat) : Rule (List Expr)
  | primary : Rule Expr
  | noOperand : Rule Expr
  | paramsFrom (count : Nat) : Rule (List Token)
  | declaration : Rule (Option Stmt)
  | classDeclaration : Rule Stmt
  | methods : Rule (List FunctionDecl)
  | function (role : String) : Rule FunctionDecl
  | block : Rule (List Stmt)
  | declarations : Rule (List Stmt)
  | statement : Rule Stmt
  | forClauses : Rule Stmt
  | program : Rule (List Stmt)

namespace Rule

open Unbounded

section

-- How the rules that a rule mentions are read.
variable (call : {β : Type} → Rule β → Unbounded β)

/-- An expression of a level. -/
def readExpression : Level → Unbounded Expr
  | .assignment => do
      let target ← call (.expression .conditional)
      match ← of (accept [.equal]) with
      | none => pure target
      | some equals => do
          let value ← call (.expression .assignment)
          of (assignTo target equals value)
  | .conditional => do
      let condition ← call (.expression .or)
      match ← of (accept [.question]) with
      | none => pure condition
      | some _ => do
          let onTrue ← call (.expression .comma)
          let _ ← of (expect .colon "':' after then branch of conditional expression")
          let onFalse ← call (.expression .conditional)
          pure (.conditional condition onTrue onFalse)
  | .unary => do
      match ← of (accept [.bang, .minus]) with
      | some operator => do
          let operand ← call (.expression .unary)
          pure (.unary operator operand)
      | none => call (.expression .call)
  | .call => do
      let callee ← call (.expression .primary)
      call (.suffixes callee)
  | .primary => call .primary
  | joined => do
      let left ← call (.expression joined.tighter)
      call (.operations joined left)

/-- A literal, a name, or an expression in parentheses. -/
def readPrimary : Unbounded Expr := do
  match ← of (accept [.kwFalse, .kwTrue, .kwNil, .string, .number, .identifier, .kwThis,
      .kwSuper, .leftParen]) with
  | none => call .noOperand
  | some token =>
      if token.kind = .leftParen then do
        let inner ← call (.expression .comma)
        let _ ← of (expect .rightParen "')' after expression")
        pure (.group inner)
      else
        -- No other token calls for a rule, so the counter is never looked at.
        of (primaryAt token 0)

/-- There is no operand.  If a binary operator stands in its place, the fault is at that
operator, and what would have been its right operand is read and dropped. -/
def readNoOperand : Unbounded Expr := do
  match (← of nextKind).bind Level.ofOrphan? with
  | none => of (faultHere (.expected "expression") >>= fun _ => abandon)
  | some level => do
      let _ ← of (faultHere .missingLeftOperand)
      let _ ← of (accept level.operators)
      let _ ← Unbounded.attempt (call (.expression level))
      of abandon

/-- An expression, unless the token that ends it comes at once. -/
def readOptional (stop : TokenKind) : Unbounded (Option Expr) := do
  if (← of nextKind) = some stop then pure none else some <$> call (.expression .comma)

/-- The initializer of a variable. -/
def readInitializer : Unbounded (Option Expr) := do
  match ← of (accept [.equal]) with
  | none => pure none
  | some _ => some <$> call (.expression .comma)

/-- The initializer and the semicolon of a variable whose name comes next. -/
def readVariable : Unbounded Stmt := do
  let name ← of (expect .identifier "variable name")
  let initializer ← readInitializer call
  let _ ← of (expect .semicolon "';' after variable declaration")
  pure (.var name initializer)

/-- An expression and its semicolon. -/
def readExpressionStatement : Unbounded Stmt := do
  let value ← call (.expression .comma)
  let _ ← of (expect .semicolon "';' after expression")
  pure (.expression value)

/-- The first clause of a `for`. -/
def readForInitializer : Unbounded (Option Stmt) := do
  match ← of (accept [.semicolon, .kwVar]) with
  | none => some <$> readExpressionStatement call
  | some token =>
      if token.kind = .semicolon then pure none else some <$> readVariable call

/-- A condition in parentheses, when the keyword in front of it has been read. -/
def readParenthesized (opening closing : String) : Unbounded Expr := do
  let _ ← of (expect .leftParen opening)
  let condition ← call (.expression .comma)
  let _ ← of (expect .rightParen closing)
  pure condition

/-- The parameters of a function, none if the closing parenthesis comes first. -/
def readParams : Unbounded (List Token) := do
  if (← of nextKind) = some .rightParen then pure [] else call (.paramsFrom 0)

/-- A declaration or a statement that is not yet recovered from. -/
def readDeclaration : Unbounded Stmt := do
  match ← of (accept [.kwClass, .kwFun, .kwVar]) with
  | none => call .statement
  | some token =>
      match token.kind with
      | .kwClass => call .classDeclaration
      | .kwFun => .function <$> call (.function "function")
      | _ => readVariable call

/-- The statement that a keyword begins. -/
def readStatementAt (token : Token) : Unbounded Stmt :=
  match token.kind with
  | .kwBreak => do
      let _ ← of (expect .semicolon "';' after 'break'")
      pure (.breakLoop token)
  | .kwFor => call .forClauses
  | .kwIf => do
      let condition ← readParenthesized call "'(' after 'if'" "')' after if condition"
      let onTrue ← call .statement
      match ← of (accept [.kwElse]) with
      | none => pure (.ifElse condition onTrue none)
      | some _ => do
          let onFalse ← call .statement
          pure (.ifElse condition onTrue (some onFalse))
  | .kwPrint => do
      let value ← call (.expression .comma)
      let _ ← of (expect .semicolon "';' after value")
      pure (.print token value)
  | .kwReturn => do
      let value ← readOptional call .semicolon
      let _ ← of (expect .semicolon "';' after return value")
      pure (.returnWith token value)
  | .kwWhile => do
      let condition ← readParenthesized call "'(' after 'while'" "')' after condition"
      let body ← call .statement
      pure (.whileLoop condition body)
  | _ => .block <$> call .block

/-- What a rule reads, with the others read as they are given. -/
def read {α : Type} : Rule α → Unbounded α
  | expression level => readExpression call level
  | operations level left => do
      match ← of (accept level.operators) with
      | none => pure left
      | some operator => do
          let right ← call (.expression level.tighter)
          call (.operations level (combine operator left right))
  | suffixes callee => do
      match ← of (accept [.leftParen, .dot]) with
      | none => pure callee
      | some token =>
          if token.kind = .leftParen then do
            let row ← call .arguments
            let paren ← of (expect .rightParen "')' after arguments")
            call (.suffixes (.call callee paren row))
          else do
            let property ← of (expect .identifier "property name after '.'")
            call (.suffixes (.get callee property))
  | arguments => do
      if (← of nextKind) = some .rightParen then pure [] else call (.argumentsFrom 0)
  | argumentsFrom count => do
      let _ ← of (checkCount count .tooManyArguments)
      let argument ← call (.expression .assignment)
      match ← of (accept [.comma]) with
      | none => pure [argument]
      | some _ => do
          let others ← call (.argumentsFrom (count + 1))
          pure (argument :: others)
  | primary => readPrimary call
  | noOperand => readNoOperand call
  | paramsFrom count => do
      let _ ← of (checkCount count .tooManyParameters)
      let param ← of (expect .identifier "parameter name")
      match ← of (accept [.comma]) with
      | none => pure [param]
      | some _ => do
          let others ← call (.paramsFrom (count + 1))
          pure (param :: others)
  | declaration => Unbounded.recovering (readDeclaration call)
  | classDeclaration => do
      let name ← of (expect .identifier "class name")
      let superclass ← of optionalSuperclass
      let _ ← of (expect .leftBrace "'\x7b' before class body")
      let declared ← call .methods
      let _ ← of (expect .rightBrace "'\x7d' after class body")
      pure (.classDecl name superclass declared)
  | methods => do
      match ← of nextKind with
      | none | some .rightBrace => pure []
      | some _ => do
          let method ← call (.function "method")
          let others ← call .methods
          pure (method :: others)
  | function role => do
      let name ← of (expect .identifier (role ++ " name"))
      let _ ← of (expect .leftParen ("'(' after " ++ role ++ " name"))
      let names ← readParams call
      let _ ← of (expect .rightParen "')' after parameters")
      let _ ← of (expect .leftBrace ("'\x7b' before " ++ role ++ " body"))
      let body ← call .block
      pure ⟨name, names, body⟩
  | block => do
      let body ← call .declarations
      let _ ← of (expect .rightBrace "'\x7d' after block")
      pure body
  | declarations => do
      match ← of nextKind with
      | none | some .rightBrace => pure []
      | some _ => do
          let first ← call .declaration
          let others ← call .declarations
          pure (first.toList ++ others)
  | statement => do
      match ← of (accept [.kwBreak, .kwFor, .kwIf, .kwPrint, .kwReturn, .kwWhile, .leftBrace]) with
      | none => readExpressionStatement call
      | some token => readStatementAt call token
  | forClauses => do
      let _ ← of (expect .leftParen "'(' after 'for'")
      let initializer ← readForInitializer call
      let condition ← readOptional call .semicolon
      let _ ← of (expect .semicolon "';' after loop condition")
      let increment ← readOptional call .rightParen
      let _ ← of (expect .rightParen "')' after for clauses")
      let body ← call .statement
      pure (forLoop initializer (condition.getD (.literal (.bool true))) increment body)
  | program => do
      match ← of nextKind with
      | none => pure []
      | some _ => do
          let first ← call .declaration
          let others ← call .program
          pure (first.toList ++ others)

end

/-- What a rule reads with calls nested to some depth.  If that is not enough, there is no
result. -/
def nested : Nat → {α : Type} → Rule α → Unbounded α
  | 0, _, _ => endless
  | depth + 1, _, rule => rule.read (nested depth)

end Rule

end Lox.Grammar
