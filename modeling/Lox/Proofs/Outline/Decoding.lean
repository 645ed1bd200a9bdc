/-
Trees from outlines.

What an outline nests is read back part by part: a word is a name, a constant or a number, and
the head of a list, together with how many parts it has, says what the list is.  A head that
stands for nothing else is an operator.  Of what an outline does not show, the labels of the
tree, nothing can come back; everything else does (`Expr.shows`, `Stmt.shows`), provided that
numbers come back from their texts and that each part of the program is as it was written.
-/
import Lox.Proofs.Decimal.Numbers
import Lox.Proofs.Grammar.Written
import Lox.Proofs.Outline.Numbers
import Lox.Proofs.Outline.Trees
import Lox.Proofs.Outline.Words
import Lox.Proofs.Syntax.Shapes

namespace Lox

/-- What is left of an expression without its labels. -/
abbrev Expr.bare (e : Expr) : Expr :=
  e.relabel (fun _ => 0) fun _ => 0

/-- What is left of a statement without its labels. -/
abbrev Stmt.bare (s : Stmt) : Stmt :=
  s.relabel (fun _ => 0) fun _ => 0

/-- What is left of a function without its labels. -/
abbrev FunctionDecl.bare (f : FunctionDecl) : FunctionDecl :=
  f.relabel (fun _ => 0) fun _ => 0

namespace Outline

/-! ### Reading back -/

/-- A word by itself, if numbers are what `number` reads them as. -/
def ofWord (number : String → Float) (text : String) : Expr :=
  if text.toList.any Segment.isWordStart then
    match (spelled text).kind with
    | .kwNil => .literal .nil
    | .kwTrue => .literal (.bool true)
    | .kwFalse => .literal (.bool false)
    | .kwThis => .this ⟨spelled text, 0⟩
    | _ => .use ⟨spelled text, 0⟩
  else .literal (.number (number text))

/-- A list with this head and these parts; what no outline has is taken for `nil`. -/
def operation (head : String) (parts : List Expr) : Expr :=
  match head, parts with
  | "group", [inner] => .group inner
  | "?:", [condition, onTrue, onFalse] => .conditional condition onTrue onFalse
  | "=", [.use target, value] => .assign target value
  | "call", callee :: arguments => .call callee (spelled ")") arguments
  | "get", [object, .use property] => .get object property.name
  | "set", [object, .use property, value] => .set object property.name value
  | "super", [.use method] => .super ⟨spelled "super", 0⟩ method.name
  | _, [operand] => .unary (spelled head) operand
  | _, [left, right] =>
      if Role.connective.kinds.contains (spelled head).kind then
        .logical (spelled head) left right
      else .binary (spelled head) left right
  | _, _ => .literal .nil

section Decoding

variable (number : String → Float)

mutual

/-- The expression with this outline. -/
def toExpr : Outline → Expr
  | word text => ofWord number text
  | list (word head :: parts) => operation head (toExprs parts)
  | list _ => .literal .nil

/-- The expressions with these outlines. -/
def toExprs : List Outline → List Expr
  | [] => []
  | item :: rest => item.toExpr :: toExprs rest

end

/-- The function that a statement declares. -/
def declared : Stmt → FunctionDecl
  | .function declaration => declaration
  | _ => default

mutual

/-- The statement with this outline. -/
def toStmt : Outline → Stmt
  | list [word "print", value] => .print (spelled "print") (value.toExpr number)
  | list [word "var", word text] => .var (spelled text) none
  | list [word "var", word text, value] => .var (spelled text) (some (value.toExpr number))
  | list (word "block" :: body) => .block (toStmts body)
  | list [word "if", condition, onTrue] =>
      .ifElse (condition.toExpr number) onTrue.toStmt none
  | list [word "if", condition, onTrue, onFalse] =>
      .ifElse (condition.toExpr number) onTrue.toStmt (some onFalse.toStmt)
  | list [word "while", condition, body] => .whileLoop (condition.toExpr number) body.toStmt
  | list [word "break"] => .breakLoop (spelled "break")
  | list [word "fun", word text, list params, list body] =>
      .function ⟨spelled text, params.map fun param => spelled param.text, toStmts body⟩
  | list [word "return"] => .returnWith (spelled "return") none
  | list [word "return", value] => .returnWith (spelled "return") (some (value.toExpr number))
  -- Methods are lists, so a word behind the name can only belong to a superclass.
  | list (word "class" :: word text :: word "<" :: word above :: methods) =>
      .classDecl (spelled text) (some ⟨spelled above, 0⟩) ((toStmts methods).map declared)
  | list (word "class" :: word text :: methods) =>
      .classDecl (spelled text) none ((toStmts methods).map declared)
  | other => .expression (other.toExpr number)

/-- The statements with these outlines. -/
def toStmts : List Outline → List Stmt
  | [] => []
  | item :: rest => item.toStmt :: toStmts rest

end

end Decoding

/-! ### Words and lists that come back -/

/-- Something can be read back from what an outline nests. -/
structure Shows {α : Type} (read : Outline → α) (t : Outline) (a : α) : Prop where
  plain : t.Plain
  reads : read t = a

theorem Shows.plains {α : Type} {read : Outline → α} {ts : List Outline} {row : List α}
    (h : List.Forall₂ (Shows read) ts row) : ∀ t ∈ ts, t.Plain := by
  induction h with
  | nil => simp
  | cons hfirst _ ih => exact List.forall_mem_cons.mpr ⟨hfirst.plain, ih⟩

variable {number : String → Float}

theorem toExprs_of_shows {ts : List Outline} {row : List Expr}
    (h : List.Forall₂ (Shows (toExpr number)) ts row) : toExprs number ts = row := by
  induction h with
  | nil => rfl
  | cons hfirst _ ih => rw [toExprs, hfirst.reads, ih]

theorem toStmts_of_shows {ts : List Outline} {row : List Stmt}
    (h : List.Forall₂ (Shows (toStmt number)) ts row) : toStmts number ts = row := by
  induction h with
  | nil => rfl
  | cons hfirst _ ih => rw [toStmts, hfirst.reads, ih]

theorem shows_headed {head : String} {parts : List Outline} {operands : List Expr} {e : Expr}
    (hhead : IsWord head) (hparts : List.Forall₂ (Shows (toExpr number)) parts operands)
    (h : operation head operands = e) : Shows (toExpr number) (headed head parts) e :=
  ⟨plain_headed hhead (Shows.plains hparts), by
    rw [headed, toExpr, toExprs_of_shows hparts, h]⟩

theorem plain_name {name : Token} (h : Vocabulary.lexemes .name name) : name.nested.Plain :=
  .word (h.isWord (by decide))

theorem shows_name {name : Token} (h : Vocabulary.lexemes .name name) :
    Shows (toExpr number) name.nested (.use ⟨name.reline fun _ => 0, 0⟩) := by
  refine ⟨plain_name h, ?_⟩
  have hkind : name.kind = .identifier := List.mem_singleton.mp h.1
  rw [Token.nested, toExpr, ofWord, if_pos (List.any_eq_true.mpr h.isIdentifier.start),
    h.spelled_eq, Token.reline_kind, hkind]

/-! ### Operators that come back -/

theorem operation_unary {text : String} (h : text ∈ Role.sign.texts) (operand : Expr) :
    operation text [operand] = .unary (spelled text) operand := by
  rw [show Role.sign.texts = ["!", "-"] by decide] at h
  simp only [List.mem_cons, List.not_mem_nil, or_false] at h
  rcases h with rfl | rfl <;> rfl

theorem operation_logical {text : String} (h : text ∈ Role.connective.texts) (left right : Expr) :
    operation text [left, right] = .logical (spelled text) left right := by
  rw [show Role.connective.texts = ["and", "or"] by decide] at h
  simp only [List.mem_cons, List.not_mem_nil, or_false] at h
  rcases h with rfl | rfl <;> rfl

theorem operation_binary {text : String} (h : text ∈ Role.operator.texts) (left right : Expr) :
    operation text [left, right] = .binary (spelled text) left right := by
  rw [show Role.operator.texts = ["-", ",", "==", ">", ">=", "<", "<=", "+", "/", "*"] by decide]
    at h
  simp only [List.mem_cons, List.not_mem_nil, or_false] at h
  rcases h with rfl | rfl | rfl | rfl | rfl | rfl | rfl | rfl | rfl | rfl <;> rfl

end Outline

/-! ### Trees that come back -/

/-- A literal that is shown as what it is.  A string is shown without its quotes, and infinity as a
word that could be a name. -/
def Literal.IsShown : Literal → Prop
  | .string _ => False
  | .number value => Decimal.shape value ≠ .infinite
  | _ => True

/-- A part is as it was written, and if it is a literal it is shown as what it is. -/
structure Node.Told (n : Node) : Prop where
  worded : n.Worded .lexemes
  written : n.Written
  literal : ∀ value, n = .expr (.literal value) → value.IsShown

open Outline
open Node (parts ofExpr ofStmt ofFunction)

/-- Numbers come back from their texts, and each part with the property `P`, which goes over to
the parts in it, is as it was written. -/
structure Tells (number : String → Float) (P : Node → Prop) : Prop where
  number : ∀ x b, Decimal.shape x = .finite b → number (numberLayout.render x) = x
  hereditary : Node.Hereditary P
  told : ∀ n, P n → n.Told

section Trees

variable {number : String → Float} {P : Node → Prop}

theorem Tells.inside (ht : Tells number P) {n part : Node} (h : P n) (hpart : part ∈ n.parts) :
    P part :=
  ht.hereditary n h part hpart

theorem Tells.literal (ht : Tells number P) {value : Literal}
    (h : P (.expr (.literal value))) :
    Shows (toExpr number) (.word value.display) (.literal value) := by
  have hshown := (ht.told _ h).literal value rfl
  cases value with
  | string text => exact hshown.elim
  | nil => exact ⟨.word (by decide), rfl⟩
  | bool value => cases value <;> exact ⟨.word (by decide), rfl⟩
  | number value =>
      obtain ⟨text, hread⟩ := (ht.told _ h).written
      obtain ⟨b, hshape⟩ : ∃ b, Decimal.shape value = .finite b := by
        cases hshape : Decimal.shape value with
        | finite b => exact ⟨b, rfl⟩
        | infinite => exact absurd hshape hshown
        | notANumber => exact absurd (hread ▸ hshape) (Decimal.shape_read text)
      refine ⟨.word (isWord_render hshape), ?_⟩
      have hletters : ((numberLayout.render value).toList.any Segment.isWordStart) = false := by
        rw [List.any_eq_false]
        intro c hc
        rcases render_inside hshape c hc with hdigit | rfl | rfl
        · intro hstart
          rw [Segment.not_isDigit_of_isWordStart hstart] at hdigit
          cases hdigit
        · decide
        · decide
      rw [toExpr, ofWord, Literal.display, hletters, if_neg (by decide), ht.number value b hshape]

mutual

theorem Expr.shows (ht : Tells number P) : ∀ e : Expr, P (.expr e) →
    Shows (toExpr number) e.nested e.bare
  | .literal _, h => ht.literal h
  | .group inner, h => by
      have hinner := Expr.shows ht inner (ht.inside h (by simp [parts, ofExpr]))
      exact shows_headed (by decide) (.cons hinner .nil) rfl
  | .unary operator operand, h => by
      have hoperand := Expr.shows ht operand (ht.inside h (by simp [parts, ofExpr]))
      cases (ht.told _ h).worded with
      | unary hsign _ =>
          refine shows_headed (hsign.isWord (by decide)) (.cons hoperand .nil) ?_
          rw [operation_unary (hsign.mem_texts (by decide)), hsign.spelled_eq]
          rfl
  | .binary operator left right, h => by
      have hleft := Expr.shows ht left (ht.inside h (by simp [parts, ofExpr]))
      have hright := Expr.shows ht right (ht.inside h (by simp [parts, ofExpr]))
      cases (ht.told _ h).worded with
      | binary hoperator _ _ =>
          refine shows_headed (hoperator.isWord (by decide)) (.cons hleft (.cons hright .nil)) ?_
          rw [operation_binary (hoperator.mem_texts (by decide)), hoperator.spelled_eq]
          rfl
  | .logical operator left right, h => by
      have hleft := Expr.shows ht left (ht.inside h (by simp [parts, ofExpr]))
      have hright := Expr.shows ht right (ht.inside h (by simp [parts, ofExpr]))
      cases (ht.told _ h).worded with
      | logical hoperator _ _ =>
          refine shows_headed (hoperator.isWord (by decide)) (.cons hleft (.cons hright .nil)) ?_
          rw [operation_logical (hoperator.mem_texts (by decide)), hoperator.spelled_eq]
          rfl
  | .conditional condition onTrue onFalse, h => by
      have hcondition := Expr.shows ht condition (ht.inside h (by simp [parts, ofExpr]))
      have hTrue := Expr.shows ht onTrue (ht.inside h (by simp [parts, ofExpr]))
      have hFalse := Expr.shows ht onFalse (ht.inside h (by simp [parts, ofExpr]))
      exact shows_headed (by decide) (.cons hcondition (.cons hTrue (.cons hFalse .nil))) rfl
  | .use occurrence, h => by
      cases (ht.told _ h).worded with
      | use hname => exact shows_name hname
  | .assign target value, h => by
      have hvalue := Expr.shows ht value (ht.inside h (by simp [parts, ofExpr]))
      cases (ht.told _ h).worded with
      | assign hname _ =>
          exact shows_headed (by decide) (.cons (shows_name hname) (.cons hvalue .nil)) rfl
  | .call callee paren arguments, h => by
      have hcallee := Expr.shows ht callee (ht.inside h (by simp [parts, ofExpr]))
      have harguments := Expr.showsAll ht arguments fun e he =>
        ht.inside h (by simp [parts, ofExpr, he])
      cases (ht.told _ h).worded with
      | call _ hparen _ =>
          have hkind : paren.kind = .rightParen := List.mem_singleton.mp hparen.1
          have hclosing := hparen.spelled_eq_of_kind
            (show (")", TokenKind.rightParen) ∈ spellings by decide) hkind
          refine shows_headed (by decide) (.cons hcallee harguments) ?_
          show _ = Expr.call _ (paren.reline fun _ => 0) _
          rw [← hclosing]
          rfl
  | .get object property, h => by
      have hobject := Expr.shows ht object (ht.inside h (by simp [parts, ofExpr]))
      cases (ht.told _ h).worded with
      | get _ hname =>
          exact shows_headed (by decide) (.cons hobject (.cons (shows_name hname) .nil)) rfl
  | .set object property value, h => by
      have hobject := Expr.shows ht object (ht.inside h (by simp [parts, ofExpr]))
      have hvalue := Expr.shows ht value (ht.inside h (by simp [parts, ofExpr]))
      cases (ht.told _ h).worded with
      | set _ hname _ =>
          exact shows_headed (by decide)
            (.cons hobject (.cons (shows_name hname) (.cons hvalue .nil))) rfl
  | .this receiver, h => by
      cases (ht.told _ h).worded with
      | this hkeyword =>
          have hthis := hkeyword.spelled_eq_of_kind
            (show ("this", TokenKind.kwThis) ∈ spellings by decide) (ht.told _ h).written
          refine ⟨.word (by decide), ?_⟩
          rw [Expr.bare, Expr.relabel, Occurrence.relabel, ← hthis]
          rfl
  | .super keyword method, h => by
      cases (ht.told _ h).worded with
      | super hkeyword hname =>
          have hsuper := hkeyword.spelled_eq_of_kind
            (show ("super", TokenKind.kwSuper) ∈ spellings by decide) (ht.told _ h).written
          refine shows_headed (by decide) (.cons (shows_name hname) .nil) ?_
          rw [Expr.bare, Expr.relabel, Occurrence.relabel, ← hsuper]
          rfl

theorem Expr.showsAll (ht : Tells number P) : ∀ es : List Expr, (∀ e ∈ es, P (.expr e)) →
    List.Forall₂ (Shows (toExpr number)) (Expr.nestedAll es)
      (Expr.relabelAll (fun _ => 0) (fun _ => 0) es)
  | [], _ => .nil
  | e :: rest, h =>
      .cons (Expr.shows ht e (h e List.mem_cons_self))
        (Expr.showsAll ht rest fun e he => h e (List.mem_cons_of_mem _ he))

end

/-! ### Statements -/

/-- What begins like this is an expression. -/
def expressionHeads : List String :=
  ["group", "?:", "=", "call", "get", "set", "super"] ++ Role.sign.texts ++ Role.operator.texts ++
    Role.connective.texts

/-- Only statements have a head of their own; with any other head a list is an expression, whatever
is in it. -/
theorem toStmt_headed {head : String} (h : head ∈ expressionHeads) (parts : List Outline) :
    toStmt number (headed head parts) = .expression (toExpr number (headed head parts)) := by
  rw [show expressionHeads = ["group", "?:", "=", "call", "get", "set", "super", "!", "-", "-",
    ",", "==", ">", ">=", "<", "<=", "+", "/", "*", "and", "or"] by decide] at h
  simp only [List.mem_cons, List.not_mem_nil, or_false] at h
  rcases h with rfl | rfl | rfl | rfl | rfl | rfl | rfl | rfl | rfl | rfl | rfl | rfl | rfl | rfl |
    rfl | rfl | rfl | rfl | rfl | rfl | rfl <;> rfl

theorem toStmt_nested {e : Expr} (h : e.Worded .lexemes) :
    toStmt number e.nested = .expression (toExpr number e.nested) := by
  cases h with
  | literal | use | this => rfl
  | group | conditional | assign | call | get | set | super => exact toStmt_headed (by decide) _
  | unary hsign _ =>
      exact toStmt_headed (by simp [expressionHeads, hsign.mem_texts]) _
  | binary hoperator _ _ =>
      exact toStmt_headed (by simp [expressionHeads, hoperator.mem_texts]) _
  | logical hoperator _ _ =>
      exact toStmt_headed (by simp [expressionHeads, hoperator.mem_texts]) _

/-- A method is no name of a superclass. -/
theorem toStmt_class (name : Token) (methods : List FunctionDecl) :
    toStmt number (headed "class" (name.nested :: FunctionDecl.nestedAll methods))
      = .classDecl (spelled name.lexeme) none
          ((toStmts number (FunctionDecl.nestedAll methods)).map declared) := by
  cases methods with
  | nil => rfl
  | cons f rest =>
      cases f
      rfl

/-- A function in a part with the property. -/
structure Tells.Function (P : Node → Prop) (f : FunctionDecl) : Prop where
  worded : f.Worded .lexemes
  inside : ∀ part ∈ ofFunction f, P part

theorem Tells.expression (ht : Tells number P) {e : Expr} (h : P (.expr e)) :
    Shows (toStmt number) e.nested (.expression e.bare) := by
  obtain ⟨hplain, hreads⟩ := Expr.shows ht e h
  exact ⟨hplain, by rw [toStmt_nested (ht.told _ h).worded, hreads]⟩

mutual

theorem Stmt.shows (ht : Tells number P) : ∀ s : Stmt, P (.stmt s) →
    Shows (toStmt number) s.nested s.bare
  | .expression value, h => ht.expression (ht.inside h (by simp [parts, ofStmt]))
  | .print keyword value, h => by
      obtain ⟨hplain, hreads⟩ := Expr.shows ht value (ht.inside h (by simp [parts, ofStmt]))
      cases (ht.told _ h).worded with
      | print hkeyword _ =>
          have hprint := hkeyword.spelled_eq_of_kind
            (show ("print", TokenKind.kwPrint) ∈ spellings by decide) (ht.told _ h).written
          refine ⟨plain_headed (by decide) (by simpa using hplain), ?_⟩
          show Stmt.print (spelled "print") (toExpr number value.nested)
            = .print (keyword.reline fun _ => 0) value.bare
          rw [hprint, hreads]
  | .var name none, h => by
      cases (ht.told _ h).worded with
      | var hname _ =>
          refine ⟨plain_headed (by decide) (by simpa using plain_name hname), ?_⟩
          show Stmt.var (spelled name.lexeme) none = .var (name.reline fun _ => 0) none
          rw [hname.spelled_eq]
  | .var name (some value), h => by
      obtain ⟨hplain, hreads⟩ := Expr.shows ht value (ht.inside h (by simp [parts, ofStmt]))
      cases (ht.told _ h).worded with
      | var hname _ =>
          refine ⟨plain_headed (by decide) (by simpa using ⟨plain_name hname, hplain⟩), ?_⟩
          show Stmt.var (spelled name.lexeme) (some (toExpr number value.nested))
            = .var (name.reline fun _ => 0) (some value.bare)
          rw [hname.spelled_eq, hreads]
  | .block body, h => by
      have hbody := Stmt.showsAll ht body fun s hs => ht.inside h (by simp [parts, ofStmt, hs])
      refine ⟨plain_headed (by decide) (Shows.plains hbody), ?_⟩
      show Stmt.block (toStmts number (Stmt.nestedAll body)) = _
      rw [toStmts_of_shows hbody]
      rfl
  | .ifElse condition onTrue none, h => by
      obtain ⟨hcondition, htest⟩ :=
        Expr.shows ht condition (ht.inside h (by simp [parts, ofStmt]))
      obtain ⟨hTrue, hchosen⟩ := Stmt.shows ht onTrue (ht.inside h (by simp [parts, ofStmt]))
      refine ⟨plain_headed (by decide) (by simpa using ⟨hcondition, hTrue⟩), ?_⟩
      show Stmt.ifElse (toExpr number condition.nested) (toStmt number onTrue.nested) none
        = .ifElse condition.bare onTrue.bare none
      rw [htest, hchosen]
  | .ifElse condition onTrue (some onFalse), h => by
      obtain ⟨hcondition, htest⟩ :=
        Expr.shows ht condition (ht.inside h (by simp [parts, ofStmt]))
      obtain ⟨hTrue, hchosen⟩ := Stmt.shows ht onTrue (ht.inside h (by simp [parts, ofStmt]))
      obtain ⟨hFalse, hother⟩ := Stmt.shows ht onFalse (ht.inside h (by simp [parts, ofStmt]))
      refine ⟨plain_headed (by decide) (by simpa using ⟨hcondition, hTrue, hFalse⟩), ?_⟩
      show Stmt.ifElse (toExpr number condition.nested) (toStmt number onTrue.nested)
          (some (toStmt number onFalse.nested))
        = .ifElse condition.bare onTrue.bare (some onFalse.bare)
      rw [htest, hchosen, hother]
  | .whileLoop condition body, h => by
      obtain ⟨hcondition, htest⟩ :=
        Expr.shows ht condition (ht.inside h (by simp [parts, ofStmt]))
      obtain ⟨hbody, hloop⟩ := Stmt.shows ht body (ht.inside h (by simp [parts, ofStmt]))
      refine ⟨plain_headed (by decide) (by simpa using ⟨hcondition, hbody⟩), ?_⟩
      show Stmt.whileLoop (toExpr number condition.nested) (toStmt number body.nested)
        = .whileLoop condition.bare body.bare
      rw [htest, hloop]
  | .breakLoop keyword, h => by
      cases (ht.told _ h).worded with
      | breakLoop hkeyword =>
          have hbreak := hkeyword.spelled_eq_of_kind
            (show ("break", TokenKind.kwBreak) ∈ spellings by decide) (ht.told _ h).written
          refine ⟨plain_headed (by decide) (by simp), ?_⟩
          exact congrArg Stmt.breakLoop hbreak
  | .function f, h => by
      have hf : P (.function f) := ht.inside h (by simp [parts, ofStmt])
      exact FunctionDecl.shows ht f ⟨(ht.told _ hf).worded, ht.hereditary _ hf⟩
  | .returnWith keyword none, h => by
      cases (ht.told _ h).worded with
      | returnWith hkeyword _ =>
          have hreturn := hkeyword.spelled_eq_of_kind
            (show ("return", TokenKind.kwReturn) ∈ spellings by decide) (ht.told _ h).written
          refine ⟨plain_headed (by decide) (by simp), ?_⟩
          exact congrArg (Stmt.returnWith · none) hreturn
  | .returnWith keyword (some value), h => by
      obtain ⟨hplain, hreads⟩ := Expr.shows ht value (ht.inside h (by simp [parts, ofStmt]))
      cases (ht.told _ h).worded with
      | returnWith hkeyword _ =>
          have hreturn := hkeyword.spelled_eq_of_kind
            (show ("return", TokenKind.kwReturn) ∈ spellings by decide) (ht.told _ h).written
          refine ⟨plain_headed (by decide) (by simpa using hplain), ?_⟩
          show Stmt.returnWith (spelled "return") (some (toExpr number value.nested))
            = .returnWith (keyword.reline fun _ => 0) (some value.bare)
          rw [hreturn, hreads]
  | .classDecl name none methods, h => by
      have hmethods := FunctionDecl.showsAll ht methods fun f hf =>
        have hmethod : P (.method f) := ht.inside h (by simp [parts, ofStmt, hf])
        ⟨(ht.told _ hmethod).worded, ht.hereditary _ hmethod⟩
      cases (ht.told _ h).worded with
      | classDecl hname _ _ =>
          refine ⟨plain_headed (by decide)
            (List.forall_mem_cons.mpr ⟨plain_name hname, Shows.plains hmethods⟩), ?_⟩
          rw [Stmt.nested, toStmt_class, toStmts_of_shows hmethods, hname.spelled_eq, List.map_map]
          exact congrArg _ (List.map_id _)
  | .classDecl name (some superclass) methods, h => by
      have hmethods := FunctionDecl.showsAll ht methods fun f hf =>
        have hmethod : P (.method f) := ht.inside h (by simp [parts, ofStmt, hf])
        ⟨(ht.told _ hmethod).worded, ht.hereditary _ hmethod⟩
      cases (ht.told _ h).worded with
      | classDecl hname habove _ =>
          have hsuper := habove superclass rfl
          refine ⟨plain_headed (by decide) ?_, ?_⟩
          · exact List.forall_mem_cons.mpr ⟨plain_name hname, List.forall_mem_cons.mpr
              ⟨.word (by decide), List.forall_mem_cons.mpr
                ⟨plain_name hsuper, Shows.plains hmethods⟩⟩⟩
          · show Stmt.classDecl (spelled name.lexeme) (some ⟨spelled superclass.name.lexeme, 0⟩)
              ((toStmts number (FunctionDecl.nestedAll methods)).map declared) = _
            rw [toStmts_of_shows hmethods, hname.spelled_eq, hsuper.spelled_eq, List.map_map]
            exact congrArg _ (List.map_id _)

theorem Stmt.showsAll (ht : Tells number P) : ∀ ss : List Stmt, (∀ s ∈ ss, P (.stmt s)) →
    List.Forall₂ (Shows (toStmt number)) (Stmt.nestedAll ss)
      (Stmt.relabelAll (fun _ => 0) (fun _ => 0) ss)
  | [], _ => .nil
  | s :: rest, h =>
      .cons (Stmt.shows ht s (h s List.mem_cons_self))
        (Stmt.showsAll ht rest fun s hs => h s (List.mem_cons_of_mem _ hs))

theorem FunctionDecl.shows (ht : Tells number P) : ∀ f : FunctionDecl, Tells.Function P f →
    Shows (toStmt number) f.nested (.function f.bare)
  | ⟨name, params, body⟩, h => by
      have hbody := Stmt.showsAll ht body fun s hs => h.inside _ (by simp [ofFunction, hs])
      cases h.worded with
      | mk hname hparams _ =>
          have hrow : (params.map Token.nested).map (fun param => spelled param.text)
              = params.map (Token.reline fun _ => 0) := by
            rw [List.map_map]
            exact List.map_congr_left fun param hparam => (hparams param hparam).spelled_eq
          refine ⟨plain_headed (by decide) ?_, ?_⟩
          · simp only [List.forall_mem_cons, plain_list, List.forall_mem_map]
            exact ⟨plain_name hname, fun param hparam => plain_name (hparams param hparam),
              Shows.plains hbody, by simp⟩
          · show Stmt.function ⟨spelled name.lexeme, (params.map Token.nested).map
              (fun param => spelled param.text), toStmts number (Stmt.nestedAll body)⟩ = _
            rw [hrow, hname.spelled_eq, toStmts_of_shows hbody]
            rfl

theorem FunctionDecl.showsAll (ht : Tells number P) : ∀ fs : List FunctionDecl,
    (∀ f ∈ fs, Tells.Function P f) →
    List.Forall₂ (Shows (toStmt number)) (FunctionDecl.nestedAll fs)
      ((FunctionDecl.relabelAll (fun _ => 0) (fun _ => 0) fs).map .function)
  | [], _ => .nil
  | f :: rest, h =>
      .cons (FunctionDecl.shows ht f (h f List.mem_cons_self))
        (FunctionDecl.showsAll ht rest fun f hf => h f (List.mem_cons_of_mem _ hf))

end

end Trees

end Lox
