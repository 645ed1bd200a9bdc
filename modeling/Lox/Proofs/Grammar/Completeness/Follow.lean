/-
Which tokens a row begins with, and which may stand behind it.

Which part of a row is read as what depends on the token behind it: an operand is read
up to a token that cannot continue it.  `Level.continues` are the kinds of tokens that
continue an expression of a level, and none of them may stand behind one that is to be
read as a whole.
-/
import Lox.Proofs.Grammar.Derivation
import Lox.Proofs.Grammar.Steps

namespace Lox.Grammar

open Reader

/-! ### First tokens -/

/-- The row does not begin with a token of these kinds. -/
def Avoids (kinds : List TokenKind) (tokens : List Token) : Prop :=
  ∀ token ∈ tokens.head?, token.kind ∉ kinds

theorem Avoids.subset {kinds kinds' : List TokenKind} {tokens : List Token}
    (h : Avoids kinds tokens) (hsub : kinds' ⊆ kinds) : Avoids kinds' tokens :=
  fun token htoken hmem => h token htoken (hsub hmem)

theorem avoids_nil (tokens : List Token) : Avoids [] tokens :=
  fun _ _ => List.not_mem_nil

theorem avoids_cons {kinds : List TokenKind} {token : Token} {tokens : List Token}
    (h : token.kind ∉ kinds) : Avoids kinds (token :: tokens) := by
  simpa [Avoids] using h

theorem Avoids.head_ne {kind : TokenKind} {tokens : List Token} (h : Avoids [kind] tokens) :
    tokens.head?.map Token.kind ≠ some kind := by
  intro hhead
  obtain ⟨token, htoken, hkind⟩ := Option.map_eq_some_iff.mp hhead
  exact h token htoken (by simp [hkind])

/-- The kinds of tokens that an expression of a level may begin with. -/
def Level.starters : Level → List TokenKind
  | call | primary =>
      [.kwFalse, .kwTrue, .kwNil, .string, .number, .identifier, .kwThis, .kwSuper, .leftParen]
  | _ =>
      [.kwFalse, .kwTrue, .kwNil, .string, .number, .identifier, .kwThis, .kwSuper, .leftParen,
        .bang, .minus]

/-- Every kind that begins some expression. -/
theorem Level.starters_subset (level : Level) : level.starters ⊆ Level.comma.starters := by
  cases level <;> decide

/-- Whatever an inner level begins with, the outer may begin with. -/
theorem Derives.Contains.starters {outer inner : Level} (h : Derives.Contains outer inner) :
    inner.starters ⊆ outer.starters := by
  cases h <;> decide

theorem Derives.Constant.starts {token : Token} {e : Expr} (h : Derives.Constant token e) :
    token.kind ∈ Level.primary.starters := by
  cases h with
  | written h =>
      unfold Token.literal? at h
      split at h <;> simp_all [Level.starters]
  | _ h => simp [h, Level.starters]

/-- An expression begins with one of the tokens its level may begin with. -/
theorem Derives.Expression.starts {level : Level} {first last : Nat} {tokens : List Token}
    {e : Expr} (h : Derives.Expression level first tokens last e) :
    ∃ token rest, tokens = token :: rest ∧ token.kind ∈ level.starters :=
  match h with
  | .inner contains h => by
      obtain ⟨token, rest, rfl, hstart⟩ := starts h
      exact ⟨token, rest, rfl, contains.starters hstart⟩
  | .binary _ _ h _ | .logical _ _ h _ | .unequal _ h _ => by
      obtain ⟨token, rest, rfl, hstart⟩ := starts h
      exact ⟨token, _, rfl, hstart⟩
  | .assignName isName _ _ => ⟨_, _, rfl, by simp [isName, Level.starters]⟩
  | .assignProperty _ _ _ h _ => by
      obtain ⟨token, rest, rfl, hstart⟩ := starts h
      exact ⟨token, _, rfl, Level.starters_subset .call hstart⟩
  | .conditional _ _ h _ _ => by
      obtain ⟨token, rest, rfl, hstart⟩ := starts h
      exact ⟨token, _, rfl, hstart⟩
  | .unary isOperator _ =>
      ⟨_, _, rfl, by rcases isOperator with h | h <;> simp [h, Level.starters]⟩
  | .callEmpty _ _ h | .call _ _ _ h _ | .property _ _ h => by
      obtain ⟨token, rest, rfl, hstart⟩ := starts h
      exact ⟨token, _, rfl, hstart⟩
  | .constant h => ⟨_, _, rfl, h.starts⟩
  | .name isName => ⟨_, _, rfl, by simp [isName, Level.starters]⟩
  | .this isThis => ⟨_, _, rfl, by simp [isThis, Level.starters]⟩
  | .super isSuper _ _ => ⟨_, _, rfl, by simp [isSuper, Level.starters]⟩
  | .group isOpening _ _ => ⟨_, _, rfl, by simp [isOpening, Level.starters]⟩

/-- Tokens that begin no expression do not begin this one. -/
theorem Derives.Expression.avoids {level : Level} {first last : Nat} {tokens : List Token}
    {e : Expr} (h : Derives.Expression level first tokens last e) {kinds : List TokenKind}
    (hkinds : ∀ kind ∈ kinds, kind ∉ Level.comma.starters) (behind : List Token) :
    Avoids kinds (tokens ++ behind) := by
  obtain ⟨token, rest, rfl, hstart⟩ := h.starts
  exact avoids_cons fun hmem => hkinds _ hmem (level.starters_subset hstart)

/-! ### What may follow -/

/-- The kinds of tokens by which an expression of a level is made of a shorter one. -/
def Level.continuing : Level → List TokenKind
  | assignment => [.equal]
  | conditional => [.question]
  | call => [.leftParen, .dot]
  | level => level.operators

/-- The kinds of tokens that continue an expression of a level, which is one of a tighter
level first. -/
def Level.continues (level : Level) : List TokenKind :=
  ([comma, assignment, conditional, or, and, equality, comparison, term, factor, unary, call,
    primary].dropWhile (fun other => other ≠ level)).flatMap continuing

theorem Derives.Contains.continues {outer inner : Level} (h : Derives.Contains outer inner) :
    inner.continues ⊆ outer.continues := by
  cases h <;> decide

theorem Level.operators_subset (level : Level) : level.operators ⊆ level.continues := by
  cases level <;> decide

/-- An operator of a level does not continue its operands. -/
theorem Level.not_mem_continues {level : Level} (h : level.isJoined) {kind : TokenKind}
    (hkind : kind ∈ level.operators) : kind ∉ level.tighter.continues := by
  cases level <;> first | exact absurd h (by decide) | revert kind; decide

/-- The kinds that must not follow if the reader is to get behind a row; what continues
the row by an operator or a suffix of its level may. -/
def Level.held (level : Level) : List TokenKind :=
  if level.isJoined then level.tighter.continues
  else if level = call then [] else level.continues

/-- How a reader of the level goes on when it has read the tree. -/
def tail (level : Level) (fuel : Nat) (e : Expr) : Reader Expr :=
  if level.isJoined then operations fuel level e
  else if level = .call then suffixes fuel e else pure e

/-- If none of the tokens that continue it follows, nothing is added to a tree. -/
theorem tail_of_avoids {level : Level} {fuel : Nat} {e : Expr} {c : Cursor}
    (h : Avoids level.continues c.rest) (hfuel : 0 < fuel) :
    tail level fuel e c = (some e, c) := by
  obtain ⟨fuel, rfl⟩ := Nat.exists_eq_succ_of_ne_zero (Nat.ne_of_gt hfuel)
  unfold tail
  split
  · have hnot := accept_of_not (c := c) (h.subset level.operators_subset)
    rw [operations, bind_of_some hnot]
    rfl
  split
  · rename_i hcall
    subst hcall
    have hnot : accept [.leftParen, .dot] c = (some none, c) := accept_of_not h
    rw [suffixes, bind_of_some hnot]
    rfl
  · rfl

/-- The operators of the rules are the operators of the levels. -/
theorem Derives.Joins.operator {level operand : Level} {kind : TokenKind}
    (h : Derives.Joins level kind operand) :
    level.isJoined ∧ kind ∈ level.operators ∧ operand = level.tighter ∧
      ∀ (operator : Token) (left right : Expr), operator.kind = kind →
        combine operator left right = .binary operator left right := by
  cases h <;> exact ⟨rfl, by decide, rfl, fun operator _ _ h => by simp [combine, h]⟩

theorem Derives.Connects.operator {level operand : Level} {kind : TokenKind}
    (h : Derives.Connects level kind operand) :
    level.isJoined ∧ kind ∈ level.operators ∧ operand = level.tighter ∧
      ∀ (operator : Token) (left right : Expr), operator.kind = kind →
        combine operator left right = .logical operator left right := by
  cases h <;> exact ⟨rfl, by decide, rfl, fun operator _ _ h => by simp [combine, h]⟩

end Lox.Grammar
