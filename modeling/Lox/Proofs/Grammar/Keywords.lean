/-
How many keywords a program begins statements with.

Reading resumes at a keyword that only a declaration or a statement begins with, so such
keywords stand nowhere else: each of them that is read without a fault is a statement of
its own in the tree, a `for` being the `while` that it is read as.  A row of tokens with
fewer of them is therefore another program.
-/
import Lox.Proofs.Grammar.Recovery

namespace Lox

/-! ### In trees -/

mutual

/-- How many statements begin with a keyword, in a statement and with it. -/
def Stmt.keyworded : Stmt → Nat
  | .expression _ | .breakLoop _ => 0
  | .print _ _ | .var _ _ | .returnWith _ _ => 1
  | .block body => Stmt.keywordedAll body
  | .ifElse _ onTrue none => onTrue.keyworded + 1
  | .ifElse _ onTrue (some onFalse) => onTrue.keyworded + onFalse.keyworded + 1
  | .whileLoop _ body => body.keyworded + 1
  | .function declaration => declaration.keyworded + 1
  | .classDecl _ _ methods => FunctionDecl.keywordedAll methods + 1

/-- How many statements begin with a keyword, in several statements and with them. -/
def Stmt.keywordedAll : List Stmt → Nat
  | [] => 0
  | s :: rest => s.keyworded + Stmt.keywordedAll rest

/-- How many statements of a function begin with a keyword. -/
def FunctionDecl.keyworded : FunctionDecl → Nat
  | ⟨_, _, body⟩ => Stmt.keywordedAll body

/-- How many statements of several functions begin with a keyword. -/
def FunctionDecl.keywordedAll : List FunctionDecl → Nat
  | [] => 0
  | f :: rest => f.keyworded + FunctionDecl.keywordedAll rest

end

namespace Grammar

open Reader

/-! ### In tokens -/

/-- How many of the tokens are keywords at which reading resumes. -/
def restarting (tokens : List Token) : Nat :=
  tokens.countP fun token => restarts token.kind

@[simp] theorem restarting_nil : restarting [] = 0 :=
  rfl

@[simp] theorem restarting_append (before behind : List Token) :
    restarting (before ++ behind) = restarting before + restarting behind :=
  List.countP_append

@[simp] theorem restarting_cons (token : Token) (tokens : List Token) :
    restarting (token :: tokens) = restarting tokens + if restarts token.kind then 1 else 0 :=
  List.countP_cons

namespace Derives

variable {first last : Nat} {tokens : List Token}

/-- The tokens of an expression are of the kinds that expressions have. -/
theorem Expression.plain {level : Level} {e : Expr} (h : Expression level first tokens last e) :
    ∀ token ∈ tokens, token.kind ∈ expressionKinds := by
  intro token htoken
  by_contra hother
  obtain ⟨before, behind, rfl⟩ := List.append_of_mem htoken
  let fuel := 24 * (before ++ token :: behind ++ []).length + level.depth
  have hbuilt : Built (· ∈ expressionKinds) (fun _ => True) (Expr.Worded .any)
      (expression fuel level) :=
    expression_built (fun token _ => allows_any [token]) (fun _ hkind => hkind) fuel level
  have hread := h.reads.whole [] 0 [] fuel (fun _ hnone => nomatch hnone) (Nat.le_refl _)
  -- The reader of the expression takes all tokens, and would not get behind this one.
  let c : Cursor := ⟨before ++ [token], 0, first, []⟩
  have hinside : c.inside [] behind 0 = ⟨before ++ token :: behind ++ [], 0, first, []⟩ := by
    simp [Cursor.inside, c]
  obtain ⟨left, hleft, -⟩ := hbuilt.stops (c := c) (fun _ _ => trivial) rfl hother
  have hsame : expression fuel level (c.inside [] behind 0)
      = ((expression fuel level c).1, (expression fuel level c).2.inside [] behind 0) :=
    (hbuilt.inside (fun _ _ => trivial) (.stop rfl hother)).1
  rw [hinside, hread] at hsame
  have hrest := congrArg Cursor.rest (Prod.mk.inj hsame).2
  simp [Cursor.inside, hleft] at hrest

theorem Expression.restarting {level : Level} {e : Expr}
    (h : Expression level first tokens last e) : restarting tokens = 0 := by
  have hkinds : ∀ kind ∈ expressionKinds, restarts kind = false := by decide
  refine List.countP_eq_zero.mpr fun token htoken => ?_
  simp [hkinds _ (h.plain token htoken)]

theorem Clause.restarting {kind : TokenKind} {value : Option Expr}
    (h : Clause kind first tokens last value) (hkind : restarts kind = false) :
    Grammar.restarting tokens = 0 := by
  cases h with
  | absent isClosing => simp [isClosing, hkind]
  | present isClosing h => simp [isClosing, hkind, h.restarting]

theorem Variable.restarting {s : Stmt} (h : Variable first tokens last s) :
    Grammar.restarting tokens = s.keyworded := by
  cases h with
  | plain isVar isName isSemicolon =>
      simp [isVar, isName, isSemicolon, restarts, Stmt.keyworded]
  | initialized isVar isName isEquals isSemicolon h =>
      simp [isVar, isName, isEquals, isSemicolon, restarts, Stmt.keyworded, h.restarting]

theorem Initializer.restarting {s : Option Stmt} (h : Initializer first tokens last s) :
    Grammar.restarting tokens = Stmt.keywordedAll s.toList := by
  cases h with
  | var h => simpa [Stmt.keywordedAll] using h.restarting
  | @clause _ _ value h =>
      cases value <;> simp [h.restarting rfl, Stmt.keywordedAll, Stmt.keyworded]

theorem Superclass.restarting {superclass : Option Occurrence}
    (h : Superclass first tokens last superclass) : Grammar.restarting tokens = 0 := by
  cases h with
  | absent => rfl
  | present isLess isName => simp [isLess, isName, restarts]

theorem Parameters.restarting {names : List Token} (h : Parameters tokens names) :
    Grammar.restarting tokens = 0 := by
  induction h with
  | none => rfl
  | last isName => simp [isName, restarts]
  | more isName isComma _ _ ih => simp [isName, isComma, restarts, ih]

/-- A `for` is one loop, besides what is in its initializer and its body. -/
theorem forTree_keyworded (initializer : Option Stmt) (condition increment : Option Expr)
    (body : Stmt) : (forTree initializer condition increment body).keyworded
      = Stmt.keywordedAll initializer.toList + body.keyworded + 1 := by
  cases initializer <;> cases increment <;>
    simp [forTree, Stmt.keyworded, Stmt.keywordedAll] <;> omega

mutual

theorem Statement.restarting {isOpen : Bool} {first last : Nat} {tokens : List Token} {s : Stmt}
    (h : Statement isOpen first tokens last s) : Grammar.restarting tokens = s.keyworded :=
  match h with
  | .expression isSemicolon h => by
      simp [isSemicolon, restarts, h.restarting, Stmt.keyworded]
  | .print isPrint isSemicolon h => by
      simp [isPrint, isSemicolon, restarts, h.restarting, Stmt.keyworded]
  | .breakLoop isBreak isSemicolon => by
      simp [isBreak, isSemicolon, restarts, Stmt.keyworded]
  | .returnWith isReturn h => by
      simp [isReturn, restarts, h.restarting rfl, Stmt.keyworded]
  | .block isOpening isClosing h => by
      simp [isOpening, isClosing, restarts, h.restarting, Stmt.keyworded]
  | .whileLoop isWhile isOpening isClosing htest hloop => by
      simp [isWhile, isOpening, isClosing, restarts, htest.restarting, hloop.restarting,
        Stmt.keyworded]
  | .forLoop isFor isOpening hstart htest hstep hloop => by
      rw [forTree_keyworded]
      simp [isFor, isOpening, restarts, hstart.restarting, htest.restarting rfl,
        hstep.restarting rfl, hloop.restarting]
  | .ifOnly isIf isOpening isClosing htest hchosen => by
      simp [isIf, isOpening, isClosing, restarts, htest.restarting, hchosen.restarting,
        Stmt.keyworded]
  | .ifElse isIf isOpening isClosing isElse htest hchosen hother => by
      simp [isIf, isOpening, isClosing, isElse, restarts, htest.restarting, hchosen.restarting,
        hother.restarting, Stmt.keyworded]

theorem Declaration.restarting {first last : Nat} {tokens : List Token} {s : Stmt}
    (h : Declaration first tokens last s) : Grammar.restarting tokens = s.keyworded :=
  match h with
  | .statement h => h.restarting
  | .var h => h.restarting
  | .function isFun h => by
      simp [isFun, restarts, h.restarting, Stmt.keyworded]
  | .classDecl isClass isName isOpening isClosing habove hmethods => by
      simp [isClass, isName, isOpening, isClosing, restarts, habove.restarting,
        hmethods.restarting, Stmt.keyworded]

theorem Declarations.restarting {first last : Nat} {tokens : List Token} {body : List Stmt}
    (h : Declarations first tokens last body) :
    Grammar.restarting tokens = Stmt.keywordedAll body :=
  match h with
  | .none => rfl
  | .more h hrow => by
      simp [h.restarting, hrow.restarting, Stmt.keywordedAll]

theorem Function.restarting {first last : Nat} {tokens : List Token} {f : FunctionDecl}
    (h : Function first tokens last f) : Grammar.restarting tokens = f.keyworded :=
  match h with
  | .mk isName isOpening isClosing isStart isStop _ hparams hbody => by
      simp [isName, isOpening, isClosing, isStart, isStop, restarts, hparams.restarting,
        hbody.restarting, FunctionDecl.keyworded]

theorem Methods.restarting {first last : Nat} {tokens : List Token} {methods : List FunctionDecl}
    (h : Methods first tokens last methods) :
    Grammar.restarting tokens = FunctionDecl.keywordedAll methods :=
  match h with
  | .none => rfl
  | .more h hrow => by
      simp [h.restarting, hrow.restarting, FunctionDecl.keywordedAll]

end

end Derives

end Grammar

end Lox
