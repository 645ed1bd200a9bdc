/-
Tokens: the words a Lox source is made of.

A token is a kind, the text it was read from and the line on which that text ends.
What a string or a number literal denotes is not stored beside its text: it is a
function of kind and text, `Token.literal?`, so the two cannot disagree.  The end of
the source is no token either; whoever needs it carries its line.
-/
import Lox.Decimal.Reading

namespace Lox

/-- What a token is, apart from its text. -/
inductive TokenKind where
  | leftParen | rightParen | leftBrace | rightBrace
  | comma | dot | minus | plus | semicolon | slash | star | question | colon
  | bang | bangEqual | equal | equalEqual
  | greater | greaterEqual | less | lessEqual
  | identifier | string | number
  | kwAnd | kwBreak | kwClass | kwElse | kwFalse | kwFun | kwFor | kwIf | kwNil
  | kwOr | kwPrint | kwReturn | kwSuper | kwThis | kwTrue | kwVar | kwWhile
  deriving DecidableEq, Repr, Inhabited

/-- A word of the source, with the line at its end. -/
structure Token where
  kind : TokenKind
  lexeme : String
  line : Nat
  deriving DecidableEq, Repr, Inhabited

/-- A value that is written down in the source. -/
inductive Literal where
  | string (text : String)
  | number (value : Float)
  | nil
  | bool (value : Bool)
  deriving DecidableEq, Inhabited

/-! ### Keywords

An identifier that is spelled like a keyword is that keyword, so the table is
consulted once a whole word has been read.
-/

/-- The reserved words. -/
def keywords : List (String × TokenKind) :=
  [("and", .kwAnd), ("break", .kwBreak), ("class", .kwClass), ("else", .kwElse),
   ("false", .kwFalse), ("for", .kwFor), ("fun", .kwFun), ("if", .kwIf), ("nil", .kwNil),
   ("or", .kwOr), ("print", .kwPrint), ("return", .kwReturn), ("super", .kwSuper),
   ("this", .kwThis), ("true", .kwTrue), ("var", .kwVar), ("while", .kwWhile)]

/-- The kind of a whole word: its keyword, or else an identifier. -/
def TokenKind.ofWord (word : String) : TokenKind :=
  (keywords.lookup word).getD .identifier

namespace Token

/-- The text between the first and the last character of a quoted string. -/
def unquote (text : List Char) : List Char :=
  text.tail.dropLast

/-- The value a string or number token stands for; no other token has one. -/
def literal? (token : Token) : Option Literal :=
  match token.kind with
  | .string => some (.string (String.ofList (unquote token.lexeme.toList)))
  | .number => some (.number (Decimal.read token.lexeme.toList))
  | _ => none

end Token

end Lox
