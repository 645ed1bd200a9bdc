/-
What the pending work waits for.

All pending work belongs to places in the program.  Work that waits for a value belongs
to the place that the machine has come to, and so does the rest of the statements
there.  A note to leave a block or a call leads back to the place from where that was
entered, and keeps the frames that were open there.

So three things can be on top of the stack: work that waits for a value, work that waits
for the end of a statement, and a note to leave.  Each is described together with what
is below it, for a place given by its scopes and by its innermost frame.
-/
import Lox.Proofs.Machine.Scoped

namespace Lox.Machine

open Scope

/-! ### The stack -/

/-- An answer to a call that is in order. -/
def Answer.Scoped (r : Resolution) (m : Memory) : Answer → Prop
  | .fixed v => v.Scoped r m
  | _ => True

mutual

/-- The stack waits for the end of a statement. -/
inductive Waits (r : Resolution) (m : Memory) : Scopes → Address → List Pending → Prop
  | sequence {scopes : Scopes} {top : Address} {rest : List Stmt} {below : List Pending}
      (h : ResolvedStmts r scopes rest) (hbelow : Leaves r m top below) :
      Waits r m scopes top (.sequence rest :: below)
  | loopBody {scopes : Scopes} {top : Address} {condition : Expr} {body : Stmt}
      {below : List Pending} (hcondition : ResolvedExpr r scopes condition)
      (hbody : ResolvedStmt r scopes body) (hnested : body.isDeclaration = false)
      (hbelow : Waits r m scopes top below) :
      Waits r m scopes top (.loopBody condition body :: below)

/-- All statements of a block, a call or the program are done. -/
inductive Leaves (r : Resolution) (m : Memory) : Address → List Pending → Prop
  | program : Leaves r m 0 []
  | block {scopes : Scopes} {a top : Address} {env : Env} {below : List Pending}
      (hlt : a < top) (h : Current m scopes a env) (hsettled : scopes.Settled)
      (hbelow : Waits r m scopes a below) : Leaves r m top (.leaveBlock env :: below)
  | call {scopes : Scopes} {a top : Address} {env : Env} {answer : Answer}
      {below : List Pending} (hlt : a < top) (h : Current m scopes a env)
      (hanswer : answer.Scoped r m) (hbelow : WaitsValue r m scopes a below) :
      Leaves r m top (.leaveCall env answer :: below)

/-- The stack waits for the value of an expression. -/
inductive WaitsValue (r : Resolution) (m : Memory) : Scopes → Address → List Pending → Prop
  | unary {scopes : Scopes} {top : Address} {operator : Token} {below : List Pending}
      (hbelow : WaitsValue r m scopes top below) :
      WaitsValue r m scopes top (.unary operator :: below)
  | leftOperand {scopes : Scopes} {top : Address} {operator : Token} {right : Expr}
      {below : List Pending} (hright : ResolvedExpr r scopes right)
      (hbelow : WaitsValue r m scopes top below) :
      WaitsValue r m scopes top (.leftOperand operator right :: below)
  | rightOperand {scopes : Scopes} {top : Address} {operator : Token} {left : Value}
      {below : List Pending} (hbelow : WaitsValue r m scopes top below) :
      WaitsValue r m scopes top (.rightOperand operator left :: below)
  | logical {scopes : Scopes} {top : Address} {operator : Token} {right : Expr}
      {below : List Pending} (hright : ResolvedExpr r scopes right)
      (hbelow : WaitsValue r m scopes top below) :
      WaitsValue r m scopes top (.logical operator right :: below)
  | choice {scopes : Scopes} {top : Address} {onTrue onFalse : Expr} {below : List Pending}
      (hTrue : ResolvedExpr r scopes onTrue) (hFalse : ResolvedExpr r scopes onFalse)
      (hbelow : WaitsValue r m scopes top below) :
      WaitsValue r m scopes top (.choice onTrue onFalse :: below)
  | assignment {scopes : Scopes} {top : Address} {target : Occurrence} {below : List Pending}
      (htarget : r.Refers scopes target) (hname : Ordinary target.name.lexeme)
      (hbelow : WaitsValue r m scopes top below) :
      WaitsValue r m scopes top (.assignment target :: below)
  | callee {scopes : Scopes} {top : Address} {paren : Token} {arguments : List Expr}
      {below : List Pending} (harguments : ∀ e ∈ arguments, ResolvedExpr r scopes e)
      (hbelow : WaitsValue r m scopes top below) :
      WaitsValue r m scopes top (.callee paren arguments :: below)
  | argument {scopes : Scopes} {top : Address} {callee : Value} {paren : Token}
      {before : List Value} {after : List Expr} {below : List Pending}
      (hcallee : callee.Scoped r m) (hbefore : ∀ v ∈ before, v.Scoped r m)
      (hafter : ∀ e ∈ after, ResolvedExpr r scopes e)
      (hbelow : WaitsValue r m scopes top below) :
      WaitsValue r m scopes top (.argument callee paren before after :: below)
  | property {scopes : Scopes} {top : Address} {name : Token} {below : List Pending}
      (hbelow : WaitsValue r m scopes top below) :
      WaitsValue r m scopes top (.property name :: below)
  | setTarget {scopes : Scopes} {top : Address} {name : Token} {value : Expr}
      {below : List Pending} (hvalue : ResolvedExpr r scopes value)
      (hbelow : WaitsValue r m scopes top below) :
      WaitsValue r m scopes top (.setTarget name value :: below)
  | setValue {scopes : Scopes} {top address : Address} {name : Token} {below : List Pending}
      (hbelow : WaitsValue r m scopes top below) :
      WaitsValue r m scopes top (.setValue address name :: below)
  | discard {scopes : Scopes} {top : Address} {below : List Pending} (hsettled : scopes.Settled)
      (hbelow : Waits r m scopes top below) : WaitsValue r m scopes top (.discard :: below)
  | print {scopes : Scopes} {top : Address} {keyword : Token} {below : List Pending}
      (hsettled : scopes.Settled) (hbelow : Waits r m scopes top below) :
      WaitsValue r m scopes top (.print keyword :: below)
  | define {scopes : Scopes} {top : Address} {name : Token} {below : List Pending}
      (hsettled : scopes.Settled) (hname : Ordinary name.lexeme)
      (hbelow : Waits r m (scopes.mark name.lexeme true) top below) :
      WaitsValue r m (scopes.mark name.lexeme false) top (.define name :: below)
  | branch {scopes : Scopes} {top : Address} {onTrue : Stmt} {onFalse : Option Stmt}
      {below : List Pending} (hsettled : scopes.Settled) (hTrue : ResolvedStmt r scopes onTrue)
      (hnested : onTrue.isDeclaration = false) (hFalse : ∀ s ∈ onFalse, ResolvedStmt r scopes s)
      (hnested' : ∀ s ∈ onFalse, s.isDeclaration = false) (hbelow : Waits r m scopes top below) :
      WaitsValue r m scopes top (.branch onTrue onFalse :: below)
  | loopTest {scopes : Scopes} {top : Address} {condition : Expr} {body : Stmt}
      {below : List Pending} (hsettled : scopes.Settled)
      (hcondition : ResolvedExpr r scopes condition) (hbody : ResolvedStmt r scopes body)
      (hnested : body.isDeclaration = false) (hbelow : Waits r m scopes top below) :
      WaitsValue r m scopes top (.loopTest condition body :: below)
  | returning {scopes : Scopes} {top : Address} {below : List Pending}
      (hsettled : scopes.Settled) (hbelow : Waits r m scopes top below) :
      WaitsValue r m scopes top (.returning :: below)
  | inherit {scopes : Scopes} {top : Address} {name : Token} {superclass : Occurrence}
      {methods : List FunctionDecl} {below : List Pending} (hsettled : scopes.Settled)
      (hname : Ordinary name.lexeme)
      (hmethods : ∀ f ∈ methods, ResolvedFunction r (thisNames :: superNames :: scopes) f)
      (hbelow : Waits r m scopes top below) :
      WaitsValue r m scopes top (.inherit name superclass methods :: below)

end

/-- A failure goes through everything that is pending. -/
inductive Falls (r : Resolution) (m : Memory) (top : Address) (pending : List Pending) : Prop
  | value {scopes : Scopes} (h : WaitsValue r m scopes top pending)
  | statement {scopes : Scopes} (h : Waits r m scopes top pending)
  | leave (h : Leaves r m top pending)

/-! ### Steps elsewhere

A step that declares a name does so in the innermost frame or in a later one.  The frames
that notes to leave lead back to are earlier ones, so nothing changes for them.
-/

section Grow

variable {r : Resolution} {m m' : Memory} {target : Option Address}

theorem Answer.Scoped.grow {answer : Answer} (h : answer.Scoped r m)
    (hgrows : m.Grows target m') : answer.Scoped r m' := by
  cases answer with
  | fixed v => exact Value.Scoped.grow h hgrows
  | _ => trivial

mutual

theorem Waits.grow (hgrows : m.Grows target m') {scopes : Scopes} {top : Address}
    {pending : List Pending} (h : Waits r m scopes top pending)
    (htarget : ∀ b ∈ target, top ≤ b) : Waits r m' scopes top pending :=
  match h with
  | .sequence h hbelow => .sequence h (hbelow.grow hgrows htarget)
  | .loopBody hcondition hbody hnested hbelow =>
      .loopBody hcondition hbody hnested (hbelow.grow hgrows htarget)

theorem Leaves.grow (hgrows : m.Grows target m') {top : Address} {pending : List Pending}
    (h : Leaves r m top pending) (htarget : ∀ b ∈ target, top ≤ b) :
    Leaves r m' top pending :=
  match h with
  | .program => .program
  | .block hlt h hsettled hbelow =>
      .block hlt (h.grow hgrows fun ha => Nat.not_le_of_lt hlt (htarget _ ha)) hsettled
        (hbelow.grow hgrows fun b hb => Nat.le_trans (Nat.le_of_lt hlt) (htarget b hb))
  | .call hlt h hanswer hbelow =>
      .call hlt (h.grow hgrows fun ha => Nat.not_le_of_lt hlt (htarget _ ha)) (hanswer.grow hgrows)
        (hbelow.grow hgrows fun b hb => Nat.le_trans (Nat.le_of_lt hlt) (htarget b hb))

theorem WaitsValue.grow (hgrows : m.Grows target m') {scopes : Scopes} {top : Address}
    {pending : List Pending} (h : WaitsValue r m scopes top pending)
    (htarget : ∀ b ∈ target, top ≤ b) : WaitsValue r m' scopes top pending :=
  match h with
  | .unary hbelow => .unary (hbelow.grow hgrows htarget)
  | .leftOperand hright hbelow => .leftOperand hright (hbelow.grow hgrows htarget)
  | .rightOperand hbelow => .rightOperand (hbelow.grow hgrows htarget)
  | .logical hright hbelow => .logical hright (hbelow.grow hgrows htarget)
  | .choice hTrue hFalse hbelow => .choice hTrue hFalse (hbelow.grow hgrows htarget)
  | .assignment hrefers hname hbelow => .assignment hrefers hname (hbelow.grow hgrows htarget)
  | .callee harguments hbelow => .callee harguments (hbelow.grow hgrows htarget)
  | .argument hcallee hbefore hafter hbelow =>
      .argument (hcallee.grow hgrows) (fun v hv => (hbefore v hv).grow hgrows) hafter
        (hbelow.grow hgrows htarget)
  | .property hbelow => .property (hbelow.grow hgrows htarget)
  | .setTarget hvalue hbelow => .setTarget hvalue (hbelow.grow hgrows htarget)
  | .setValue hbelow => .setValue (hbelow.grow hgrows htarget)
  | .discard hsettled hbelow => .discard hsettled (hbelow.grow hgrows htarget)
  | .print hsettled hbelow => .print hsettled (hbelow.grow hgrows htarget)
  | .define hsettled hname hbelow => .define hsettled hname (hbelow.grow hgrows htarget)
  | .branch hsettled hTrue hnested hFalse hnested' hbelow =>
      .branch hsettled hTrue hnested hFalse hnested' (hbelow.grow hgrows htarget)
  | .loopTest hsettled hcondition hbody hnested hbelow =>
      .loopTest hsettled hcondition hbody hnested (hbelow.grow hgrows htarget)
  | .returning hsettled hbelow => .returning hsettled (hbelow.grow hgrows htarget)
  | .inherit hsettled hname hmethods hbelow =>
      .inherit hsettled hname hmethods (hbelow.grow hgrows htarget)

end

theorem Falls.grow (hgrows : m.Grows target m') {top : Address} {pending : List Pending}
    (h : Falls r m top pending) (htarget : ∀ b ∈ target, top ≤ b) : Falls r m' top pending := by
  cases h with
  | value h => exact .value (h.grow hgrows htarget)
  | statement h => exact .statement (h.grow hgrows htarget)
  | leave h => exact .leave (h.grow hgrows htarget)

end Grow

/-! ### The variable that is being initialized -/

/-- The variable whose initializer the current expression is a part of, if any. -/
def initializing? : List Pending → Option String
  | .define name :: _ => some name.lexeme
  | .unary _ :: below | .leftOperand _ _ :: below | .rightOperand _ _ :: below
  | .logical _ _ :: below | .choice _ _ :: below | .assignment _ :: below | .callee _ _ :: below
  | .argument _ _ _ _ :: below | .property _ :: below | .setTarget _ _ :: below
  | .setValue _ _ :: below => initializing? below
  | _ => none

/-- What the scopes say of the innermost declaration, the stack says too. -/
theorem WaitsValue.initializing {r : Resolution} {m : Memory} {scopes : Scopes} {top : Address}
    {pending : List Pending} (h : WaitsValue r m scopes top pending) :
    (scopes.Settled ∧ initializing? pending = none) ∨
      ∃ (outer : Scopes) (name : String), scopes = outer.mark name false ∧ outer.Settled ∧ Ordinary name ∧
        initializing? pending = some name :=
  match h with
  | .unary hbelow | .leftOperand _ hbelow | .rightOperand hbelow | .logical _ hbelow
  | .choice _ _ hbelow | .assignment _ _ hbelow | .callee _ hbelow | .argument _ _ _ hbelow
  | .property hbelow | .setTarget _ hbelow | .setValue hbelow => hbelow.initializing
  | .discard hsettled _ | .print hsettled _ | .branch hsettled _ _ _ _ _
  | .loopTest hsettled _ _ _ _ | .returning hsettled _ | .inherit hsettled _ _ _ =>
      Or.inl ⟨hsettled, rfl⟩
  | .define hsettled hname _ => Or.inr ⟨_, _, rfl, hsettled, hname, rfl⟩

/-- Neither `this` nor `super` is ever initialized by an expression. -/
theorem WaitsValue.not_initializing {r : Resolution} {m : Memory} {scopes : Scopes}
    {top : Address} {pending : List Pending} (h : WaitsValue r m scopes top pending)
    {name : String} (hname : ¬Ordinary name) : scopes.isInitializing name = false := by
  rcases h.initializing with ⟨hsettled, -⟩ | ⟨outer, other, rfl, hsettled, hother, -⟩
  · exact hsettled name
  · have hne : other ≠ name := fun heq => hname (heq ▸ hother)
    rw [Scopes.isInitializing_mark_of_ne hne]
    exact hsettled name

/-! ### States -/

/-- The end of a statement that is not a failure; what is returned is in order. -/
def Completion.Scoped (r : Resolution) (m : Memory) : Completion → Prop
  | .returned v => v.Scoped r m
  | .failed _ => False
  | _ => True

/-- What is being done suits what is pending. -/
inductive Proceeds (r : Resolution) (m : Memory) (scopes : Scopes) (top : Address) :
    Control → List Pending → Prop
  | evaluate {e : Expr} {pending : List Pending} (h : ResolvedExpr r scopes e)
      (hpending : WaitsValue r m scopes top pending) : Proceeds r m scopes top (.evaluate e) pending
  | value {v : Value} {pending : List Pending} (h : v.Scoped r m)
      (hpending : WaitsValue r m scopes top pending) : Proceeds r m scopes top (.value v) pending
  | execute {s : Stmt} {pending : List Pending} (h : ResolvedStmt r scopes s)
      (hsettled : scopes.Settled) (hpending : Waits r m (scopes.declare s) top pending) :
      Proceeds r m scopes top (.execute s) pending
  | complete {c : Completion} {pending : List Pending} (h : c.Scoped r m)
      (hsettled : scopes.Settled) (hpending : Waits r m scopes top pending) :
      Proceeds r m scopes top (.complete c) pending
  | leave {c : Completion} {pending : List Pending} (h : c.Scoped r m)
      (hpending : Leaves r m top pending) : Proceeds r m scopes top (.complete c) pending
  | fail {failure : Failure} {pending : List Pending}
      (houtside : failure.cause ≠ .superOutsideClass) (hbound : failure.cause ≠ .superNotBound)
      (hpending : Falls r m top pending) :
      Proceeds r m scopes top (.complete (.failed failure)) pending

/-- A state in which everything is in order. -/
structure State.Sound (r : Resolution) (s : State) : Prop where
  memory : s.memory.Scoped r
  place : ∃ scopes top, Current s.memory scopes top s.env ∧
    Proceeds r s.memory scopes top s.control s.pending

end Lox.Machine
