/-
The grammar of programs.

The readers below call each other as the grammar's rules mention each other.  A rule
mentions itself either behind a token or one level tighter, and there are a dozen
levels, so the depth of the calls is bounded by the number of tokens; `fuelFor` is such
a bound, and the counter that the readers count down never stops them.

Two things are written in the grammar and nowhere in the tree.  A `for` is a `while`
whose body runs the increment last, inside a block that holds the initializer; and
`a != b` is the negation of `a == b`, with an operator token for each half.
-/
import Lox.Grammar.Level
import Lox.Grammar.Reader

namespace Lox.Grammar

open Reader

/-- The most parameters or arguments a list of them may have. -/
def maxArguments : Nat := 255

/-! ### Trees from their parts -/

/-- Two operands and the operator between them. -/
def combine (operator : Token) (left right : Expr) : Expr :=
  match operator.kind with
  | .kwAnd | .kwOr => .logical operator left right
  | .bangEqual =>
      .unary ⟨.bang, "!", operator.line⟩
        (.binary ⟨.equalEqual, "==", operator.line⟩ left right)
  | _ => .binary operator left right

/-- An assignment to what was read as an expression.  Only a variable or a property can
be assigned to; anything else is a fault at the equals sign and stays as it is. -/
def assignTo (target : Expr) (equals : Token) (value : Expr) : Reader Expr :=
  match target with
  | .use occurrence => do
      let id ← freshId
      pure (.assign ⟨occurrence.name, id⟩ value)
  | .get object property => pure (.set object property value)
  | other => do
      faultAt equals .invalidTarget
      pure other

/-- A loop with an optional initializer in front and an optional increment behind. -/
def forLoop (initializer : Option Stmt) (condition : Expr) (increment : Option Expr)
    (body : Stmt) : Stmt :=
  let body :=
    match increment with
    | some step => .block [body, .expression step]
    | none => body
  match initializer with
  | some first => .block [first, .whileLoop condition body]
  | none => .whileLoop condition body

/-! ### Expressions -/

mutual

/-- An expression of a level. -/
def expression : Nat → Level → Reader Expr
  | 0, _ => abandon
  | fuel + 1, level =>
      match level with
      | .assignment => do
          let target ← expression fuel .conditional
          match ← accept [.equal] with
          | none => pure target
          | some equals => do
              let value ← expression fuel .assignment
              assignTo target equals value
      | .conditional => do
          let condition ← expression fuel .or
          match ← accept [.question] with
          | none => pure condition
          | some _ => do
              let onTrue ← expression fuel .comma
              let _ ← expect .colon "':' after then branch of conditional expression"
              let onFalse ← expression fuel .conditional
              pure (.conditional condition onTrue onFalse)
      | .unary => do
          match ← accept [.bang, .minus] with
          | some operator => do
              let operand ← expression fuel .unary
              pure (.unary operator operand)
          | none => expression fuel .call
      | .call => do
          let callee ← expression fuel .primary
          suffixes fuel callee
      | .primary => primary fuel
      | joined => do
          let left ← expression fuel joined.tighter
          operations fuel joined left

/-- The operators of a level and their right operands, as far as they go. -/
def operations : Nat → Level → Expr → Reader Expr
  | 0, _, _ => abandon
  | fuel + 1, level, left => do
      match ← accept level.operators with
      | none => pure left
      | some operator => do
          let right ← expression fuel level.tighter
          operations fuel level (combine operator left right)

/-- The calls and property accesses behind an expression, as far as they go. -/
def suffixes : Nat → Expr → Reader Expr
  | 0, _ => abandon
  | fuel + 1, callee => do
      match ← accept [.leftParen, .dot] with
      | none => pure callee
      | some token =>
          if token.kind = .leftParen then do
            let arguments ← arguments fuel
            let paren ← expect .rightParen "')' after arguments"
            suffixes fuel (.call callee paren arguments)
          else do
            let property ← expect .identifier "property name after '.'"
            suffixes fuel (.get callee property)

/-- The arguments of a call, none if the closing parenthesis comes first. -/
def arguments : Nat → Reader (List Expr)
  | 0 => abandon
  | fuel + 1 => do
      if (← nextKind) = some .rightParen then pure []
      else argumentsFrom fuel 0

/-- At least one argument, when so many have been read before. -/
def argumentsFrom : Nat → Nat → Reader (List Expr)
  | 0, _ => abandon
  | fuel + 1, count => do
      if maxArguments ≤ count then faultHere .tooManyArguments
      let argument ← expression fuel .assignment
      match ← accept [.comma] with
      | none => pure [argument]
      | some _ => do
          let others ← argumentsFrom fuel (count + 1)
          pure (argument :: others)

/-- A literal, a name, or an expression in parentheses. -/
def primary : Nat → Reader Expr
  | 0 => abandon
  | fuel + 1 => do
      match ← accept [.kwFalse, .kwTrue, .kwNil, .string, .number, .identifier, .kwThis,
          .kwSuper, .leftParen] with
      | none => noOperand fuel
      | some token =>
          match token.kind with
          | .kwFalse => pure (.literal (.bool false))
          | .kwTrue => pure (.literal (.bool true))
          | .kwNil => pure (.literal .nil)
          | .identifier => do
              let id ← freshId
              pure (.use ⟨token, id⟩)
          | .kwThis => do
              let id ← freshId
              pure (.this ⟨token, id⟩)
          | .kwSuper => do
              let _ ← expect .dot "'.' after 'super'"
              let method ← expect .identifier "superclass method name"
              let id ← freshId
              pure (.super ⟨token, id⟩ method)
          | .leftParen => do
              let inner ← expression fuel .comma
              let _ ← expect .rightParen "')' after expression"
              pure (.group inner)
          | _ => pure (.literal (token.literal?.getD .nil))

/-- There is no operand.  If a binary operator stands in its place, the fault is at that
operator, and what would have been its right operand is read and dropped. -/
def noOperand : Nat → Reader Expr
  | 0 => abandon
  | fuel + 1 => do
      match (← nextKind).bind Level.ofOrphan? with
      | none => do
          faultHere (.expected "expression")
          abandon
      | some level => do
          faultHere .missingLeftOperand
          let _ ← accept level.operators
          let _ ← attempt (expression fuel level)
          abandon

end

/-- An expression at the loosest level. -/
def anyExpression (fuel : Nat) : Reader Expr :=
  expression fuel .comma

/-! ### Statements and declarations -/

/-- The initializer and the semicolon of a variable whose name comes next. -/
def variableDeclaration (fuel : Nat) : Reader Stmt := do
  let name ← expect .identifier "variable name"
  let initializer ←
    match ← accept [.equal] with
    | none => pure none
    | some _ => some <$> anyExpression fuel
  let _ ← expect .semicolon "';' after variable declaration"
  pure (.var name initializer)

/-- An expression and its semicolon. -/
def expressionStatement (fuel : Nat) : Reader Stmt := do
  let value ← anyExpression fuel
  let _ ← expect .semicolon "';' after expression"
  pure (.expression value)

/-- At least one parameter, when so many have been read before. -/
def paramsFrom : Nat → Nat → Reader (List Token)
  | 0, _ => abandon
  | fuel + 1, count => do
      if maxArguments ≤ count then faultHere .tooManyParameters
      let param ← expect .identifier "parameter name"
      match ← accept [.comma] with
      | none => pure [param]
      | some _ => do
          let others ← paramsFrom fuel (count + 1)
          pure (param :: others)

/-- The parameters of a function, none if the closing parenthesis comes first. -/
def params (fuel : Nat) : Reader (List Token) := do
  if (← nextKind) = some .rightParen then pure []
  else paramsFrom fuel 0

mutual

/-- A declaration or a statement, or nothing if it was abandoned. -/
def declaration : Nat → Reader (Option Stmt)
  | 0 => abandon
  | fuel + 1 => recovering (do
      match ← accept [.kwClass, .kwFun, .kwVar] with
      | none => statement fuel
      | some token =>
          match token.kind with
          | .kwClass => classDeclaration fuel
          | .kwFun => .function <$> function fuel "function"
          | _ => variableDeclaration fuel)

/-- A class whose name comes next. -/
def classDeclaration : Nat → Reader Stmt
  | 0 => abandon
  | fuel + 1 => do
      let name ← expect .identifier "class name"
      let superclass ←
        match ← accept [.less] with
        | none => pure none
        | some _ => do
            let superName ← expect .identifier "superclass name"
            let id ← freshId
            pure (some ⟨superName, id⟩)
      let _ ← expect .leftBrace "'\x7b' before class body"
      let methods ← methods fuel
      let _ ← expect .rightBrace "'\x7d' after class body"
      pure (.classDecl name superclass methods)

/-- The methods of a class, up to the closing brace. -/
def methods : Nat → Reader (List FunctionDecl)
  | 0 => abandon
  | fuel + 1 => do
      match ← nextKind with
      | none | some .rightBrace => pure []
      | some _ => do
          let method ← function fuel "method"
          let others ← methods fuel
          pure (method :: others)

/-- A function or a method whose name comes next. -/
def function : Nat → String → Reader FunctionDecl
  | 0, _ => abandon
  | fuel + 1, role => do
      let name ← expect .identifier (role ++ " name")
      let _ ← expect .leftParen ("'(' after " ++ role ++ " name")
      let params ← params fuel
      let _ ← expect .rightParen "')' after parameters"
      let _ ← expect .leftBrace ("'\x7b' before " ++ role ++ " body")
      let body ← block fuel
      pure ⟨name, params, body⟩

/-- The rest of a block, when its opening brace has been read. -/
def block : Nat → Reader (List Stmt)
  | 0 => abandon
  | fuel + 1 => do
      let body ← declarations fuel
      let _ ← expect .rightBrace "'\x7d' after block"
      pure body

/-- Declarations up to a closing brace or the end. -/
def declarations : Nat → Reader (List Stmt)
  | 0 => abandon
  | fuel + 1 => do
      match ← nextKind with
      | none | some .rightBrace => pure []
      | some _ => do
          let first ← declaration fuel
          let others ← declarations fuel
          pure (first.toList ++ others)

/-- A statement that is no declaration. -/
def statement : Nat → Reader Stmt
  | 0 => abandon
  | fuel + 1 => do
      match ← accept [.kwBreak, .kwFor, .kwIf, .kwPrint, .kwReturn, .kwWhile, .leftBrace] with
      | none => expressionStatement fuel
      | some token =>
          match token.kind with
          | .kwBreak => do
              let _ ← expect .semicolon "';' after 'break'"
              pure (.breakLoop token)
          | .kwFor => forClauses fuel
          | .kwIf => do
              let _ ← expect .leftParen "'(' after 'if'"
              let condition ← anyExpression fuel
              let _ ← expect .rightParen "')' after if condition"
              let onTrue ← statement fuel
              match ← accept [.kwElse] with
              | none => pure (.ifElse condition onTrue none)
              | some _ => do
                  let onFalse ← statement fuel
                  pure (.ifElse condition onTrue (some onFalse))
          | .kwPrint => do
              let value ← anyExpression fuel
              let _ ← expect .semicolon "';' after value"
              pure (.print token value)
          | .kwReturn => do
              let value ←
                if (← nextKind) = some .semicolon then pure none
                else some <$> anyExpression fuel
              let _ ← expect .semicolon "';' after return value"
              pure (.returnWith token value)
          | .kwWhile => do
              let _ ← expect .leftParen "'(' after 'while'"
              let condition ← anyExpression fuel
              let _ ← expect .rightParen "')' after condition"
              let body ← statement fuel
              pure (.whileLoop condition body)
          | _ => .block <$> block fuel

/-- A loop with clauses, when its keyword has been read. -/
def forClauses : Nat → Reader Stmt
  | 0 => abandon
  | fuel + 1 => do
      let _ ← expect .leftParen "'(' after 'for'"
      let initializer ←
        match ← accept [.semicolon, .kwVar] with
        | none => some <$> expressionStatement fuel
        | some token =>
            if token.kind = .semicolon then pure none
            else some <$> variableDeclaration fuel
      let condition ←
        if (← nextKind) = some .semicolon then pure (.literal (.bool true))
        else anyExpression fuel
      let _ ← expect .semicolon "';' after loop condition"
      let increment ←
        if (← nextKind) = some .rightParen then pure none
        else some <$> anyExpression fuel
      let _ ← expect .rightParen "')' after for clauses"
      let body ← statement fuel
      pure (forLoop initializer condition increment body)

end

/-! ### Whole programs -/

/-- Declarations to the very end. -/
def toEnd : Nat → Cursor → List Stmt × Cursor
  | 0, c => ([], c)
  | fuel + 1, c =>
      match c.rest with
      | [] => ([], c)
      | _ :: _ =>
          let (first, c) := declaration fuel c
          let (others, c) := toEnd fuel c
          (first.join.toList ++ others, c)

/-- A number that the depth of the grammar's calls stays below on so many tokens. -/
def fuelFor (tokens : List Token) : Nat :=
  24 * (tokens.length + 2)

/-- What was read of a program: the declarations kept, the faults in the order in which
they were found, and the number of the latest occurrence. -/
structure Parsed where
  program : List Stmt
  faults : List Fault
  lastId : Nat
  deriving Inhabited

/-- Reads a program.  Occurrences are numbered from `lastId + 1` on. -/
def parse (tokens : List Token) (endLine lastId : Nat) : Parsed :=
  let (program, c) := toEnd (fuelFor tokens) ⟨tokens, endLine, lastId, []⟩
  ⟨program, c.faults, c.lastId⟩

end Lox.Grammar
