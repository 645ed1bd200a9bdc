/-
Reading tokens with faults on the way.

A reader looks at the tokens that are left, may take some of them from the front, and
either keeps what it read or abandons it.  Faults are recorded as they are found and
never lost: abandoning drops the tree, not the record, so the reading can go on behind
the faulty part.

The end of the source is the empty list of tokens.  Nothing can be taken there, so no
reader can run past it.
-/
import Lox.Fault
import Lox.Syntax.Tree

namespace Lox.Grammar

/-- Where the reading stands: the tokens left, the number of the latest occurrence, and
the faults so far, the earliest first. -/
structure Cursor where
  rest : List Token
  endLine : Nat
  lastId : Nat
  faults : List Fault
  deriving DecidableEq, Repr, Inhabited

/-- A step of the reading; no result means that what was being read is abandoned. -/
def Reader (α : Type) : Type :=
  Cursor → Option α × Cursor

namespace Reader

/-- Reads nothing and keeps `a`. -/
protected def pure {α : Type} (a : α) : Reader α :=
  fun c => (some a, c)

/-- Reads on with what was kept; an abandoned part abandons the whole. -/
protected def bind {α β : Type} (p : Reader α) (f : α → Reader β) : Reader β :=
  fun c =>
    match p c with
    | (some a, c') => f a c'
    | (none, c') => (none, c')

instance : Monad Reader where
  pure := Reader.pure
  bind := Reader.bind

theorem pure_apply {α : Type} (a : α) (c : Cursor) : (pure a : Reader α) c = (some a, c) :=
  rfl

theorem bind_apply {α β : Type} (p : Reader α) (f : α → Reader β) (c : Cursor) :
    (p >>= f) c =
      match p c with
      | (some a, c') => f a c'
      | (none, c') => (none, c') :=
  rfl

/-! ### The steps everything is read by -/

/-- Gives up what is being read. -/
def abandon {α : Type} : Reader α :=
  fun c => (none, c)

/-- The kind of the next token. -/
def nextKind : Reader (Option TokenKind) :=
  fun c => (some (c.rest.head?.map Token.kind), c)

/-- Takes the next token, if its kind is one of those given. -/
def accept (kinds : List TokenKind) : Reader (Option Token) :=
  fun c =>
    match c.rest with
    | token :: rest =>
        if kinds.contains token.kind then (some (some token), { c with rest := rest })
        else (some none, c)
    | [] => (some none, c)

/-- Records a fault at a token that was read. -/
def faultAt (token : Token) (cause : Fault.Cause) : Reader Unit :=
  fun c => (some (), { c with faults := c.faults ++ [Fault.atToken token cause] })

/-- Records a fault at the next token, or at the end. -/
def faultHere (cause : Fault.Cause) : Reader Unit :=
  fun c =>
    let fault :=
      match c.rest with
      | token :: _ => Fault.atToken token cause
      | [] => Fault.atEnd c.endLine cause
    (some (), { c with faults := c.faults ++ [fault] })

/-- Takes a token of the given kind; without one, says what was expected and gives up. -/
def expect (kind : TokenKind) (what : String) : Reader Token := do
  match ← accept [kind] with
  | some token => pure token
  | none =>
      faultHere (.expected what)
      abandon

/-- A number that no other occurrence has. -/
def freshId : Reader Nat :=
  fun c => (some (c.lastId + 1), { c with lastId := c.lastId + 1 })

/-- Reads without being abandoned: whatever was kept or not, the reading goes on. -/
def attempt {α : Type} (p : Reader α) : Reader (Option α) :=
  fun c =>
    let (result, c') := p c
    (some result, c')

end Reader

/-! ### Recovery

After a fault that abandons a declaration, reading resumes where the next one probably
starts: behind a semicolon, or at a keyword that only a declaration or a statement
begins with.  The token at the fault itself is always skipped, so the reading advances.
-/

/-- The keywords at which a new declaration is taken to start. -/
def restarts (kind : TokenKind) : Bool :=
  [.kwClass, .kwFun, .kwVar, .kwFor, .kwIf, .kwWhile, .kwPrint, .kwReturn].contains kind

/-- The tokens from which reading resumes. -/
def recover : List Token → List Token
  | [] => []
  | skipped :: rest =>
      match rest with
      | [] => []
      | next :: _ =>
          if skipped.kind = .semicolon || restarts next.kind then rest else recover rest

/-- Reads a declaration; if it is abandoned, nothing is kept and reading resumes at the
next one. -/
def recovering {α : Type} (p : Reader α) : Reader (Option α) :=
  fun c =>
    match p c with
    | (some a, c') => (some (some a), c')
    | (none, c') => (some none, { c' with rest := recover c'.rest })

/-- Recovery leaves fewer tokens, unless there were none. -/
theorem recover_length (tokens : List Token) : (recover tokens).length ≤ tokens.length - 1 := by
  fun_induction recover tokens with
  | case1 => simp
  | case2 => simp
  | case3 => simp
  | case4 skipped next rest _ ih =>
      simp only [List.length_cons] at ih ⊢
      omega

end Lox.Grammar
