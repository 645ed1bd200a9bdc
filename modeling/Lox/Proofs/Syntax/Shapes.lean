/-
The shape of programs.

What runs a program, writes it down or analyses it relies on more than the types of trees
say: that a declaration stands in a row of statements, where what follows it can see it, and
that operators are of the few kinds that it knows.  Both follow from what the tokens of a
tree may do there (`Stmt.Worded`), which goes over from each part to the parts in it.
-/
import Lox.Proofs.Syntax.Places
import Lox.Proofs.Syntax.Words

namespace Lox

/-- Tokens may do what their kinds are for, however they are spelled. -/
def Vocabulary.kinds : Vocabulary :=
  fun role token => token.kind ∈ role.kinds

variable {v : Vocabulary}

/-! ### Tokens of parts -/

/-- Every token in a part of a program may do what it does. -/
@[simp]
def Node.Worded (v : Vocabulary) : Node → Prop
  | program body => ∀ s ∈ body, s.Worded v
  | stmt s => s.Worded v
  | expr e => e.Worded v
  | function declaration | method declaration => declaration.Worded v
  | param name => v .name name

theorem Expr.Worded.parts {e : Expr} (h : e.Worded v) :
    ∀ part ∈ Node.ofExpr e, part.Worded v := by
  cases h with
  | literal | use _ | this _ | super _ _ => simp [Node.ofExpr]
  | group h | unary _ h => simpa [Node.ofExpr] using h
  | binary _ hleft hright | logical _ hleft hright =>
      simpa [Node.ofExpr] using ⟨hleft, hright⟩
  | conditional hcondition hTrue hFalse =>
      simpa [Node.ofExpr] using ⟨hcondition, hTrue, hFalse⟩
  | assign _ hvalue => simpa [Node.ofExpr] using hvalue
  | call hcallee _ harguments =>
      simp only [Node.ofExpr, List.forall_mem_cons, List.forall_mem_map]
      exact ⟨hcallee, harguments⟩
  | get hobject _ => simpa [Node.ofExpr] using hobject
  | set hobject _ hvalue => simpa [Node.ofExpr] using ⟨hvalue, hobject⟩

theorem FunctionDecl.Worded.parts {f : FunctionDecl} (h : f.Worded v) :
    ∀ part ∈ Node.ofFunction f, part.Worded v := by
  cases h with
  | mk _ hparams hbody =>
      simp only [Node.ofFunction, List.forall_mem_append, List.forall_mem_map]
      exact ⟨hparams, hbody⟩

theorem Stmt.Worded.parts {s : Stmt} (h : s.Worded v) :
    ∀ part ∈ Node.ofStmt s, part.Worded v := by
  cases h with
  | expression h | print _ h => simpa [Node.ofStmt] using h
  | var _ h | returnWith _ h => simpa [Node.ofStmt] using h
  | block h => simpa [Node.ofStmt] using h
  | ifElse hcondition hTrue _ hFalse _ =>
      simpa [Node.ofStmt] using ⟨hcondition, hTrue, hFalse⟩
  | whileLoop hcondition hbody _ => simpa [Node.ofStmt] using ⟨hcondition, hbody⟩
  | breakLoop _ => simp [Node.ofStmt]
  | function h => simpa [Node.ofStmt] using h
  | classDecl _ habove hmethods =>
      simp only [Node.ofStmt, List.forall_mem_append, List.forall_mem_map, Option.mem_toList]
      exact ⟨fun occurrence hoccurrence => .use (habove occurrence hoccurrence), hmethods⟩

theorem Node.worded_hereditary (v : Vocabulary) : Node.Hereditary (Node.Worded v)
  | .program _, h => List.forall_mem_map.mpr h
  | .stmt _, h => Stmt.Worded.parts h
  | .expr _, h => Expr.Worded.parts h
  | .function _, h | .method _, h => FunctionDecl.Worded.parts h
  | .param _, _ => by simp [Node.parts]

/-- The name that a part declares is one of its tokens. -/
theorem Node.Worded.declared {n : Node} (h : n.Worded v) {name : Token}
    (hdeclared : n.declared? = some name) : v .name name := by
  unfold Node.declared? at hdeclared
  split at hdeclared <;> cases hdeclared
  · cases h with
    | var hname _ => exact hname
  · cases h with
    | function h =>
        cases h with
        | mk hname _ _ => exact hname
  · cases h with
    | classDecl hname _ _ => exact hname
  · exact h

/-! ### Where declarations stand -/

namespace Node

variable {n : Node}

/-- A part whose own parts are a row of statements: a program, a block or a function. -/
def isRow : Node → Bool
  | program _ => true
  | n => n.isScope

/-- Only a part that is a row of statements has a declaration as one of its parts. -/
theorem isRow_of_declaration {s : Stmt} (h : n.Worded v) (hpart : stmt s ∈ n.parts)
    (hdeclares : s.isDeclaration = true) : n.isRow = true := by
  cases n with
  | program _ | function _ | method _ => rfl
  | param _ => cases hpart
  | expr e => cases e <;> simp [parts, ofExpr] at hpart
  | stmt outer =>
      cases h with
      | block _ => rfl
      | expression _ | print _ _ | var _ _ | returnWith _ _ | breakLoop _ | function _
      | classDecl _ _ _ => simp [parts, ofStmt] at hpart
      | ifElse _ _ hnested _ hnested' =>
          simp only [parts, ofStmt, List.mem_cons, List.mem_map, reduceCtorEq, stmt.injEq,
            Option.mem_toList, exists_eq_right, false_or] at hpart
          rcases hpart with rfl | hs
          · rw [hnested] at hdeclares
            cases hdeclares
          · rw [hnested' s hs] at hdeclares
            cases hdeclares
      | whileLoop _ _ hnested =>
          simp only [parts, ofStmt, List.mem_cons, List.not_mem_nil, reduceCtorEq, stmt.injEq,
            or_false, false_or] at hpart
          rw [hpart, hnested] at hdeclares
          cases hdeclares

/-- Only a class has methods. -/
theorem method_mem_parts {f : FunctionDecl} (hpart : method f ∈ n.parts) :
    ∃ name superclass methods, n = stmt (.classDecl name superclass methods) ∧ f ∈ methods := by
  cases n with
  | stmt s =>
      cases s <;> simp [parts, ofStmt] at hpart
      exact ⟨_, _, _, rfl, hpart⟩
  | expr e => cases e <;> simp [parts, ofExpr] at hpart
  | program _ | function _ | method _ | param _ => simp [parts, ofFunction] at hpart

end Node

/-! ### Places -/

namespace Place

/-- What can be relied on at a place. -/
structure Shaped (p : Place) : Prop where
  /-- A declaration stands directly in a row of statements. -/
  declaration : ∀ s, p.node = .stmt s → s.isDeclaration = true →
    ∃ row outer, p.around = row :: outer ∧ row.isRow = true
  /-- A method stands directly in a class. -/
  method : ∀ f, p.node = .method f → ∃ name superclass methods outer,
    p.around = .stmt (.classDecl name superclass methods) :: outer ∧ f ∈ methods
  /-- Besides methods a class has nothing in it but the name of its superclass. -/
  inClass : p.node.isClass = true → ∀ part ∈ p.node.parts,
    (∃ f, part = .method f) ∨ ∃ occurrence, part = .expr (.use occurrence)
  unary : ∀ operator operand, p.node = .expr (.unary operator operand) →
    operator.kind = .bang ∨ operator.kind = .minus
  logical : ∀ operator left right, p.node = .expr (.logical operator left right) →
    operator.kind = .kwAnd ∨ operator.kind = .kwOr
  binary : ∀ operator left right, p.node = .expr (.binary operator left right) →
    operator.kind ∈ [.comma, .equalEqual, .greater, .greaterEqual, .less, .lessEqual, .plus,
      .minus, .star, .slash] ∧ operator.kind ≠ .bangEqual

/-- Tokens that do what their kinds are for make a program that can be relied on. -/
theorem IsIn.shaped {program : List Stmt} {p : Place} (h : IsIn program p)
    (hprogram : ∀ s ∈ program, s.Worded .kinds) : p.Shaped := by
  have hworded {p : Place} (h : IsIn program p) : p.node.Worded .kinds :=
    h.of_hereditary (Node.worded_hereditary .kinds) hprogram
  have hexpr {e : Expr} (he : p.node = .expr e) : e.Worded .kinds := by
    have hnode : p.node.Worded .kinds := hworded h
    rwa [he] at hnode
  refine ⟨fun s hs hdeclares => ?_, fun f hf => ?_, fun hclass part hpart => ?_,
    fun operator operand he => ?_, fun operator left right he => ?_,
    fun operator left right he => ?_⟩
  · cases h with
    | self => cases hs
    | @inside q position node h hpart =>
        obtain rfl : node = .stmt s := hs
        exact ⟨q.node, q.around, rfl,
          Node.isRow_of_declaration (hworded h) (List.mem_of_getElem? hpart) hdeclares⟩
  · cases h with
    | self => cases hf
    | @inside q position node h hpart =>
        obtain rfl : node = .method f := hf
        obtain ⟨name, superclass, methods, hq, hmem⟩ :=
          Node.method_mem_parts (List.mem_of_getElem? hpart)
        exact ⟨name, superclass, methods, q.around, congrArg (· :: q.around) hq, hmem⟩
  · generalize p.node = n at hclass hpart
    unfold Node.isClass at hclass
    split at hclass
    · obtain hpart | hpart := List.mem_append.mp hpart
      · obtain ⟨occurrence, -, rfl⟩ := List.mem_map.mp hpart
        exact .inr ⟨occurrence, rfl⟩
      · obtain ⟨f, -, rfl⟩ := List.mem_map.mp hpart
        exact .inl ⟨f, rfl⟩
    · cases hclass
  · cases hexpr he with
    | unary hsign _ => simpa [Vocabulary.kinds, Role.kinds] using hsign
  · cases hexpr he with
    | logical hoperator _ _ => simpa [Vocabulary.kinds, Role.kinds] using hoperator
  · cases hexpr he with
    | binary hoperator _ _ =>
        have hkinds : ∀ kind ∈ Role.operator.kinds, kind ∈ [.comma, .equalEqual, .greater,
            .greaterEqual, .less, .lessEqual, .plus, .minus, .star, .slash] ∧
            kind ≠ TokenKind.bangEqual := by decide
        exact hkinds _ hoperator

end Place

end Lox
