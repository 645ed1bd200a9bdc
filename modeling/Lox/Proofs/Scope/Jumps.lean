/-
Jumps that stay inside.

A `break` needs a loop around it and a `return` a function.  A loop does not help a
`break` in a function that is declared in its body: what is around that function does not
count.  The analysis refuses every other jump, so the statements of an accepted program
are confined, and so are the bodies of all its functions and methods.
-/
import Lox.Proofs.Scope.Acceptance

namespace Lox

/-- No jump leads out of a statement, except a `return` if `call` says that there is a
function to return from, and a `break` if `loop` says that there is a loop to leave. -/
inductive Stmt.Confined : (call loop : Bool) → Stmt → Prop
  | expression {call loop : Bool} {value : Expr} : Confined call loop (.expression value)
  | print {call loop : Bool} {keyword : Token} {value : Expr} :
      Confined call loop (.print keyword value)
  | var {call loop : Bool} {name : Token} {initializer : Option Expr} :
      Confined call loop (.var name initializer)
  | block {call loop : Bool} {body : List Stmt} (h : ∀ s ∈ body, Confined call loop s) :
      Confined call loop (.block body)
  | ifElse {call loop : Bool} {condition : Expr} {onTrue : Stmt} {onFalse : Option Stmt}
      (hTrue : Confined call loop onTrue) (hFalse : ∀ s ∈ onFalse, Confined call loop s) :
      Confined call loop (.ifElse condition onTrue onFalse)
  | whileLoop {call loop : Bool} {condition : Expr} {body : Stmt} (h : Confined call true body) :
      Confined call loop (.whileLoop condition body)
  | breakLoop {call : Bool} {keyword : Token} : Confined call true (.breakLoop keyword)
  | returnWith {loop : Bool} {keyword : Token} {value : Option Expr} :
      Confined true loop (.returnWith keyword value)
  | function {call loop : Bool} {declaration : FunctionDecl}
      (h : ∀ s ∈ declaration.body, Confined true false s) :
      Confined call loop (.function declaration)
  | classDecl {call loop : Bool} {name : Token} {superclass : Option Occurrence}
      {methods : List FunctionDecl} (h : ∀ f ∈ methods, ∀ s ∈ f.body, Confined true false s) :
      Confined call loop (.classDecl name superclass methods)

/-- Only a `return` leads out of the body of a function. -/
def FunctionDecl.Confined (f : FunctionDecl) : Prop :=
  ∀ s ∈ f.body, s.Confined true false

namespace Stmt.Confined

variable {call loop : Bool}

theorem of_block {body : List Stmt} (h : Confined call loop (.block body)) :
    ∀ s ∈ body, s.Confined call loop := by
  cases h with
  | block h => exact h

theorem of_onTrue {condition : Expr} {onTrue : Stmt} {onFalse : Option Stmt}
    (h : Confined call loop (.ifElse condition onTrue onFalse)) : onTrue.Confined call loop := by
  cases h with
  | ifElse hTrue _ => exact hTrue

theorem of_onFalse {condition : Expr} {onTrue onFalse : Stmt}
    (h : Confined call loop (.ifElse condition onTrue (some onFalse))) :
    onFalse.Confined call loop := by
  cases h with
  | ifElse _ hFalse => exact hFalse onFalse rfl

theorem of_body {condition : Expr} {body : Stmt}
    (h : Confined call loop (.whileLoop condition body)) : body.Confined call true := by
  cases h with
  | whileLoop h => exact h

theorem loop_of_break {keyword : Token} (h : Confined call loop (.breakLoop keyword)) :
    loop = true := by
  cases h with
  | breakLoop => rfl

theorem call_of_return {keyword : Token} {value : Option Expr}
    (h : Confined call loop (.returnWith keyword value)) : call = true := by
  cases h with
  | returnWith => rfl

theorem of_function {declaration : FunctionDecl} (h : Confined call loop (.function declaration)) :
    declaration.Confined := by
  cases h with
  | function h => exact h

theorem of_methods {name : Token} {superclass : Option Occurrence} {methods : List FunctionDecl}
    (h : Confined call loop (.classDecl name superclass methods)) :
    ∀ f ∈ methods, f.Confined := by
  cases h with
  | classDecl h => exact h

end Stmt.Confined

namespace Scope

/-! ### Acceptance -/

mutual

/-- What the analysis accepts is confined to what is around it. -/
theorem confined_of_accepted {context : Context} {scopes : Scopes} : ∀ {s : Stmt},
    (ofStmt context scopes s).2.faults = [] →
      s.Confined (decide (context.function ≠ .none)) context.inLoop
  | .expression _, _ => .expression
  | .print _ _, _ => .print
  | .var _ _, _ => .var
  | .block _, hfaults => .block (confined_of_accepted_row hfaults)
  | .ifElse condition onTrue none, hfaults => by
      obtain ⟨-, hTrue⟩ := append_faults_eq_nil.mp hfaults
      exact .ifElse (confined_of_accepted hTrue) (by simp)
  | .ifElse condition onTrue (some onFalse), hfaults => by
      obtain ⟨hboth, hFalse⟩ := append_faults_eq_nil.mp hfaults
      obtain ⟨-, hTrue⟩ := append_faults_eq_nil.mp hboth
      exact .ifElse (confined_of_accepted hTrue) (by simpa using confined_of_accepted hFalse)
  | .whileLoop condition body, hfaults => by
      obtain ⟨-, hbody⟩ := append_faults_eq_nil.mp hfaults
      exact .whileLoop (confined_of_accepted hbody)
  | .breakLoop keyword, hfaults => by
      have hloop : context.inLoop = true := by simpa using faultIf_faults.mp hfaults
      rw [hloop]
      exact .breakLoop
  | .returnWith keyword none, hfaults => by
      have hcall : context.function ≠ .none := by simpa using faultIf_faults.mp hfaults
      rw [decide_eq_true hcall]
      exact .returnWith
  | .returnWith keyword (some value), hfaults => by
      obtain ⟨hboth, -⟩ := append_faults_eq_nil.mp hfaults
      obtain ⟨houtside, -⟩ := append_faults_eq_nil.mp hboth
      have hcall : context.function ≠ .none := by simpa using faultIf_faults.mp houtside
      rw [decide_eq_true hcall]
      exact .returnWith
  | .function declaration, hfaults => by
      obtain ⟨-, hfunction⟩ := append_faults_eq_nil.mp hfaults
      exact .function (confined_of_accepted_function (by decide) hfunction)
  | .classDecl name superclass methods, hfaults => by
      obtain ⟨-, hmethods⟩ := append_faults_eq_nil.mp hfaults
      exact .classDecl (confined_of_accepted_methods hmethods)

theorem confined_of_accepted_row {context : Context} {scopes : Scopes} : ∀ {body : List Stmt},
    (ofStmts context scopes body).faults = [] →
      ∀ s ∈ body, s.Confined (decide (context.function ≠ .none)) context.inLoop
  | [], _ => by simp
  | s :: rest, hfaults => by
      obtain ⟨hs, hrest⟩ := append_faults_eq_nil.mp hfaults
      exact List.forall_mem_cons.mpr ⟨confined_of_accepted hs, confined_of_accepted_row hrest⟩

theorem confined_of_accepted_function {context : Context} {kind : FunctionKind} {scopes : Scopes}
    (hkind : kind ≠ .none) : ∀ {f : FunctionDecl},
    (ofFunction (context.inFunction kind) scopes f).faults = [] → f.Confined
  | ⟨_, params, body⟩, hfaults => by
      obtain ⟨-, hbody⟩ := append_faults_eq_nil.mp hfaults
      have hconfined := confined_of_accepted_row hbody
      rwa [decide_eq_true (show (context.inFunction kind).function ≠ .none from hkind)] at hconfined

theorem confined_of_accepted_methods {context : Context} {scopes : Scopes} :
    ∀ {fs : List FunctionDecl}, (ofMethods context scopes fs).faults = [] → ∀ f ∈ fs, f.Confined
  | [], _ => by simp
  | f :: rest, hfaults => by
      obtain ⟨hf, hrest⟩ := append_faults_eq_nil.mp hfaults
      have hkind : FunctionKind.ofMethod f.name.lexeme ≠ .none := by
        unfold FunctionKind.ofMethod
        split <;> decide
      exact List.forall_mem_cons.mpr
        ⟨confined_of_accepted_function hkind hf, confined_of_accepted_methods hrest⟩

end

end Scope

end Lox
