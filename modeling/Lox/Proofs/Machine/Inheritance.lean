/-
Which class a `super` belongs to.

When a class declaration with a superclass is evaluated, a frame is made that binds `super`,
and the methods of the class remember it; binding a method puts one more frame in front of
it.  From then on, code of these methods is only ever executed with frames open that end in
just those: a block or a call opens further ones in front, and a function that is declared
on the way remembers what is open.  So wherever there is a `super` to be evaluated, the frames
that are open lead back to an evaluation of the class declaration that it stands in.
-/
import Lox.Proofs.Machine.Keeping
import Lox.Proofs.Machine.Preservation
import Lox.Proofs.Machine.Values
import Lox.Proofs.Scope.Supers

namespace Lox.Machine

open Scope

variable {setting : Setting} {past past' : List State} {s : State} {env : Env}

/-! ### Evaluations of class declarations -/

/-- In this state a class declaration with these methods has the value of its superclass and
is about to come to its class. -/
structure State.Declares (s : State) (superclass class_ : Class) (methods : List FunctionDecl) :
    Prop where
  value : s.control = .value (.classValue superclass)
  inherited : class_.inherited = superclass.layers
  own : class_.own.methods = methodTable (s.memory.frames.size :: s.env) methods
  pending : ∃ name occurrence below, s.pending = .inherit name occurrence methods :: below ∧
    class_.own.name = name.lexeme ∧
    ∀ setting, ∃ a, step setting s = { s with
      control := .complete .normal
      pending := below
      memory := (s.memory.newFrame [("super", .classValue superclass)]).2.newIdentity.2.bindAt a
        name.lexeme (.classValue class_) }

/-- A class declaration with a superclass that is evaluated without a failure makes a class. -/
theorem declares_of_done {superclass : Class} {name : Token} {occurrence : Occurrence}
    {methods : List FunctionDecl} {below : List Pending}
    (hcontrol : s.control = .value (.classValue superclass))
    (hpending : s.pending = .inherit name occurrence methods :: below)
    (hdone : (step setting s).control = .complete .normal) :
    ∃ class_, s.Declares superclass class_ methods := by
  obtain ⟨control, pending, env, depth, memory, sink⟩ := s
  obtain rfl : control = .value (.classValue superclass) := hcontrol
  obtain rfl : pending = .inherit name occurrence methods :: below := hpending
  refine ⟨⟨⟨memory.nextIdentity, name.lexeme, methodTable (memory.frames.size :: env) methods⟩,
    superclass.layers⟩, rfl, rfl, rfl, name, occurrence, below, rfl, rfl, fun setting' => ?_⟩
  have hstep : ∀ setting, step setting ⟨.value (.classValue superclass),
      .inherit name occurrence methods :: below, env, depth, memory, sink⟩
        = finishClass ⟨.value (.classValue superclass), below, env, depth, memory, sink⟩ name
          (some superclass) methods := fun _ => rfl
  rw [hstep] at hdone ⊢
  have hfinished := finishClass_finished
    ⟨.value (.classValue superclass), below, env, depth, memory, sink⟩ name (some superclass) methods
  generalize finishClass _ name (some superclass) methods = t at hdone hfinished ⊢
  cases hfinished with
  | done a _ => exact ⟨a, rfl⟩
  | failed => cases hdone

/-! ### Code and the frames it is executed in -/

/-- Code that is executed with these frames open: either there is no `super` in it, or the
frames lead back to those of a class declaration that was evaluated in the past, and every
`super` is one of the methods of that. -/
def Tied (past : List State) (env : Env) (supers : Nat → List (Nat × Occurrence)) : Prop :=
  (∃ depth, supers depth = []) ∨
    ∃ s₀ ∈ past, ∃ superclass class_ methods, s₀.Declares superclass class_ methods ∧
      ∃ inner b, env = inner ++ b :: s₀.memory.frames.size :: s₀.env ∧
        supers (inner.length + 1) ⊆ FunctionDecl.supersAll methods 1

/-- A function is tied to the frames that it remembers. -/
abbrev FunctionTied (past : List State) (closure : Closure) : Prop :=
  Tied past closure.env closure.declaration.supers

section Tied

variable {code piece : Nat → List (Nat × Occurrence)}

theorem Tied.mono (h : Tied past env code) (hpast : past ⊆ past') : Tied past' env code := by
  rcases h with hnone | ⟨s₀, hs₀, hdeclared⟩
  · exact .inl hnone
  · exact .inr ⟨s₀, hpast hs₀, hdeclared⟩

theorem Tied.none (past : List State) (env : Env) : Tied past env fun _ => [] :=
  .inl ⟨0, rfl⟩

/-- What stands in the same scope. -/
theorem Tied.part (h : Tied past env code) (hpart : ∀ depth, piece depth ⊆ code depth) :
    Tied past env piece := by
  rcases h with ⟨depth, hnone⟩ | ⟨s₀, hs₀, superclass, class_, methods, hdeclares, inner, b, henv,
    hcode⟩
  · have hempty := hpart depth
    rw [hnone] at hempty
    exact .inl ⟨depth, List.subset_nil.mp hempty⟩
  · exact .inr ⟨s₀, hs₀, superclass, class_, methods, hdeclares, inner, b, henv,
      List.Subset.trans (hpart _) hcode⟩

/-- What stands one scope further inside, once a frame is open for that. -/
theorem Tied.inside (h : Tied past env code) (hpart : ∀ depth, piece (depth + 1) ⊆ code depth)
    (a : Address) : Tied past (a :: env) piece := by
  rcases h with ⟨depth, hnone⟩ | ⟨s₀, hs₀, superclass, class_, methods, hdeclares, inner, b, henv,
    hcode⟩
  · have hempty := hpart depth
    rw [hnone] at hempty
    exact .inl ⟨depth + 1, List.subset_nil.mp hempty⟩
  · refine .inr ⟨s₀, hs₀, superclass, class_, methods, hdeclares, a :: inner, b, ?_,
      List.Subset.trans (hpart _) hcode⟩
    rw [henv]
    rfl

theorem Tied.expr {whole e : Expr} (h : Tied past env whole.supersAt)
    (hpart : e.supers ⊆ whole.supers) : Tied past env e.supersAt :=
  h.part fun _ => List.map_subset _ hpart

/-- The methods of a class that is made are tied to the frames of its declaration, however
they are bound. -/
theorem State.Declares.tied {superclass class_ : Class} {methods : List FunctionDecl}
    (h : s.Declares superclass class_ methods) (hs : s ∈ past) {f : FunctionDecl}
    (hf : f ∈ methods) (b : Address) :
    Tied past (b :: s.memory.frames.size :: s.env) f.supers :=
  .inr ⟨s, hs, superclass, class_, methods, h, [], b, rfl, fun _ hentry =>
    FunctionDecl.mem_supersAll.mpr ⟨f, hf, hentry⟩⟩

end Tied

/-! ### States -/

/-- The `super` keywords in what is being done. -/
def Control.supers : Control → Nat → List (Nat × Occurrence)
  | .evaluate e, depth => e.supersAt depth
  | .execute s, depth => s.supers depth
  | _, _ => []

/-- The `super` keywords in pending work; the methods of a class are not a part of it. -/
def Pending.supers : Pending → Nat → List (Nat × Occurrence)
  | .leftOperand _ right, depth => right.supersAt depth
  | .logical _ right, depth => right.supersAt depth
  | .choice onTrue onFalse, depth => onTrue.supersAt depth ++ onFalse.supersAt depth
  | .callee _ arguments, depth => (Expr.supersAll arguments).map (depth, ·)
  | .argument _ _ _ after, depth => (Expr.supersAll after).map (depth, ·)
  | .setTarget _ value, depth => value.supersAt depth
  | .branch onTrue none, depth => onTrue.supers depth
  | .branch onTrue (some onFalse), depth => onTrue.supers depth ++ onFalse.supers depth
  | .loopTest condition body, depth => condition.supersAt depth ++ body.supers depth
  | .loopBody condition body, depth => condition.supersAt depth ++ body.supers depth
  | .sequence rest, depth => Stmt.supersAll rest depth
  | _, _ => []

/-- The frames that are open for what is below. -/
def Pending.envBelow (env : Env) : Pending → Env
  | .leaveBlock outer => outer
  | .leaveCall outer _ => outer
  | _ => env

/-- All pending work is tied to the frames that will be open for it. -/
def TiedStack (past : List State) : Env → List Pending → Prop
  | _, [] => True
  | env, task :: below =>
      Tied past env task.supers ∧ TiedStack past (task.envBelow env) below

theorem TiedStack.mono {pending : List Pending} (h : TiedStack past env pending)
    (hpast : past ⊆ past') : TiedStack past' env pending := by
  induction pending generalizing env with
  | nil => trivial
  | cons task below ih => exact ⟨h.1.mono hpast, ih h.2⟩

/-- What is being done and what is pending is tied to the frames. -/
structure Going (past : List State) (s : State) : Prop where
  control : Tied past s.env s.control.supers
  pending : TiedStack past s.env s.pending

theorem Going.mono (h : Going past s) (hpast : past ⊆ past') : Going past' s :=
  ⟨h.control.mono hpast, h.pending.mono hpast⟩

theorem Settles.going {s' : State} (h : Settles s s') (hpending : TiedStack past s.env s.pending) :
    Going past s' := by
  cases h with
  | value m v => exact ⟨.none past s.env, hpending⟩
  | failed m failure => exact ⟨.none past s.env, hpending⟩

section Steps

variable (hpending : TiedStack past s.env s.pending)

include hpending

/-! ### Expressions -/

theorem evaluate_going {e : Expr} (h : Tied past s.env e.supersAt) :
    Going past (evaluate setting s e) := by
  cases e with
  | literal value => exact ⟨.none past s.env, hpending⟩
  | group inner => exact ⟨h, hpending⟩
  | use occurrence => exact (lookup_settles s occurrence).going hpending
  | this receiver => exact (lookup_settles s receiver).going hpending
  | super keyword method => exact (inheritedMethod_settles s keyword method).going hpending
  | unary operator operand => exact ⟨h, .none past s.env, hpending⟩
  | binary operator left right =>
      exact ⟨h.expr (List.subset_append_left _ _), h.expr (List.subset_append_right _ _), hpending⟩
  | logical operator left right =>
      exact ⟨h.expr (List.subset_append_left _ _), h.expr (List.subset_append_right _ _), hpending⟩
  | conditional condition onTrue onFalse =>
      refine ⟨h.expr (List.subset_append_left _ _), h.part fun depth => ?_, hpending⟩
      show onTrue.supers.map (depth, ·) ++ onFalse.supers.map (depth, ·) ⊆ _
      rw [← List.map_append]
      exact List.map_subset _ (List.subset_append_right _ _)
  | assign target value => exact ⟨h, .none past s.env, hpending⟩
  | call callee paren arguments =>
      exact ⟨h.expr (List.subset_append_left _ _),
        h.part fun _ => List.map_subset _ (List.subset_append_right _ _), hpending⟩
  | get object property => exact ⟨h, .none past s.env, hpending⟩
  | set object property value =>
      exact ⟨h.expr (List.subset_append_left _ _), h.expr (List.subset_append_right _ _), hpending⟩

/-- The body of a function is executed in one more frame than the function remembers. -/
theorem enter_going {closure : Closure} (hclosure : FunctionTied past closure)
    (arguments : List Value) (answer : Answer) : Going past (enter s closure arguments answer) := by
  refine ⟨.none past _, hclosure.inside (fun depth => ?_) _, .none past _, hpending⟩
  rw [FunctionDecl.supers_eq]
  exact List.Subset.refl _

theorem Called.going {callee : Value} {paren : Token} {arguments : List Value} {t : State}
    (h : Called setting s paren arguments callee t) (hcallee : callee.All (FunctionTied past)) :
    Going past t := by
  cases h with
  | refused _ _ | clock _ | plain _ _ => exact ⟨.none past s.env, hpending⟩
  | function _ => exact enter_going hpending hcallee _ _
  | initialized _ hfind =>
      refine enter_going ?_ ?_ arguments _
      · exact hpending
      · exact Class.All.find hcallee hfind _

/-! ### Statements -/

theorem Finished.going {name : Token} {superclass : Option Class} {methods : List FunctionDecl}
    {t : State} (h : Finished s name superclass methods t) : Going past t := by
  cases h <;> exact ⟨.none past s.env, hpending⟩

theorem execute_going {statement : Stmt} (h : Tied past s.env statement.supers) :
    Going past (execute s statement) := by
  cases statement with
  | expression value => exact ⟨h, .none past s.env, hpending⟩
  | print keyword value => exact ⟨h, .none past s.env, hpending⟩
  | var name initializer =>
      cases initializer with
      | none => exact ⟨.none past s.env, hpending⟩
      | some value => exact ⟨h, .none past s.env, hpending⟩
  | block body =>
      exact ⟨.none past _, h.inside (fun _ => List.Subset.refl _) _, .none past _, hpending⟩
  | ifElse condition onTrue onFalse =>
      cases onFalse with
      | none =>
          exact ⟨h.part fun _ => List.subset_append_left _ _,
            h.part fun _ => List.subset_append_right _ _, hpending⟩
      | some onFalse =>
          exact ⟨h.part fun _ => List.subset_append_left _ _,
            h.part fun _ => List.subset_append_right _ _, hpending⟩
  | whileLoop condition body =>
      exact ⟨h.part fun _ => List.subset_append_left _ _, h, hpending⟩
  | breakLoop keyword => exact ⟨.none past s.env, hpending⟩
  | returnWith keyword value =>
      cases value with
      | none => exact ⟨.none past s.env, hpending⟩
      | some value => exact ⟨h, .none past s.env, hpending⟩
  | function declaration => exact ⟨.none past s.env, hpending⟩
  | classDecl name superclass methods =>
      cases superclass with
      | none =>
          let defined : State := { s with memory := s.memory.define s.env name.lexeme .nil }
          have hdefined : TiedStack past defined.env defined.pending := hpending
          exact (finishClass_finished defined name none methods).going hdefined
      | some occurrence => exact ⟨.none past s.env, .none past s.env, hpending⟩

theorem resume_going {v : Value} (hv : v.All (FunctionTied past)) {task : Pending}
    (hvalues : task.All (FunctionTied past)) (h : Tied past s.env task.supers)
    (henv : task.envBelow s.env = s.env) : Going past (resume setting s v task) := by
  cases task with
  | unary operator => exact (operate_settles s operator _).going hpending
  | leftOperand operator right => exact ⟨h, .none past s.env, hpending⟩
  | rightOperand operator left => exact (operate_settles s operator _).going hpending
  | logical operator right =>
      rcases resume_logical setting s v operator right with hnext | hnext <;> rw [hnext]
      · exact ⟨.none past s.env, hpending⟩
      · exact ⟨h, hpending⟩
  | choice onTrue onFalse =>
      refine ⟨?_, hpending⟩
      show Tied past s.env (if v.isTruthy then onTrue else onFalse).supersAt
      split
      · exact h.part fun _ => List.subset_append_left _ _
      · exact h.part fun _ => List.subset_append_right _ _
  | assignment target => exact (assign_settles s target v).going hpending
  | callee paren arguments =>
      cases arguments with
      | nil => exact (call_called setting s v paren []).going hpending hv
      | cons first rest =>
          exact ⟨h.part fun _ => List.map_subset _ (List.subset_append_left _ _),
            h.part fun _ => List.map_subset _ (List.subset_append_right _ _), hpending⟩
  | argument callee paren before after =>
      cases after with
      | nil => exact (call_called setting s callee paren _).going hpending hvalues.1
      | cons next rest =>
          exact ⟨h.part fun _ => List.map_subset _ (List.subset_append_left _ _),
            h.part fun _ => List.map_subset _ (List.subset_append_right _ _), hpending⟩
  | property name => exact (getProperty_settles s v name).going hpending
  | setTarget name value =>
      cases v with
      | object address class_ => exact ⟨h, .none past s.env, hpending⟩
      | _ => exact ⟨.none past s.env, hpending⟩
  | print keyword =>
      rcases resume_print setting s v keyword with ⟨_, hnext⟩ | ⟨_, _, hnext⟩ <;> rw [hnext] <;>
        exact ⟨.none past s.env, hpending⟩
  | branch onTrue onFalse =>
      rcases resume_branch setting s v onTrue onFalse with
        hnext | ⟨statement, rfl, hnext⟩ | ⟨-, hnext⟩ <;> rw [hnext]
      · refine ⟨h.part fun depth => ?_, hpending⟩
        cases onFalse with
        | none => exact List.Subset.refl _
        | some onFalse => exact List.subset_append_left _ _
      · exact ⟨h.part fun _ => List.subset_append_right _ _, hpending⟩
      · exact ⟨.none past s.env, hpending⟩
  | loopTest condition body =>
      rcases resume_loopTest setting s v condition body with hnext | hnext <;> rw [hnext]
      · exact ⟨h.part fun _ => List.subset_append_right _ _, h, hpending⟩
      · exact ⟨.none past s.env, hpending⟩
  | inherit name superclass methods =>
      cases v with
      | classValue class_ => exact (finishClass_finished s name (some class_) methods).going hpending
      | _ => exact ⟨.none past s.env, hpending⟩
  | sequence rest => exact ⟨.none past s.env, h, hpending⟩
  | loopBody condition body => exact ⟨.none past s.env, h, hpending⟩
  | leaveBlock outer => exact ⟨.none past s.env, .none past s.env, henv.symm ▸ hpending⟩
  | leaveCall outer answer => exact ⟨.none past s.env, .none past s.env, henv.symm ▸ hpending⟩
  | _ => exact ⟨.none past s.env, hpending⟩

end Steps

theorem unwind_going (c : Completion) {task : Pending} (h : Tied past s.env task.supers)
    (hpending : TiedStack past (task.envBelow s.env) s.pending) : Going past (unwind s c task) := by
  cases task with
  | sequence rest =>
      rcases unwind_sequence s c rest with ⟨next, others, -, rfl, hnext⟩ | hnext <;> rw [hnext]
      · exact ⟨h.part fun _ => List.subset_append_left _ _,
          h.part fun _ => List.subset_append_right _ _, hpending⟩
      · exact ⟨.none past s.env, hpending⟩
  | loopBody condition body =>
      cases c with
      | normal => exact ⟨h.part fun _ => List.subset_append_left _ _, h, hpending⟩
      | _ => exact ⟨.none past s.env, hpending⟩
  | leaveBlock outer => exact ⟨.none past outer, hpending⟩
  | leaveCall outer answer => cases c <;> exact ⟨.none past outer, hpending⟩
  | _ => exact ⟨.none past s.env, hpending⟩

theorem step_going (h : Going past s) (hvalues : s.All (FunctionTied past)) :
    Going past (step setting s) := by
  obtain ⟨control, pending, env, depth, memory, sink⟩ := s
  obtain ⟨hcontrol, hpending⟩ := h
  cases control with
  | evaluate e => exact evaluate_going hpending hcontrol
  | execute statement => exact execute_going hpending hcontrol
  | value v =>
      cases pending with
      | nil => exact ⟨.none past env, hpending⟩
      | cons task below =>
          obtain ⟨htask, hbelow⟩ := hpending
          have hwaiting := hvalues.pending task List.mem_cons_self
          by_cases henv : task.envBelow env = env
          · rw [henv] at hbelow
            exact resume_going (s := ⟨.value v, below, env, depth, memory, sink⟩) hbelow
              hvalues.control hwaiting htask henv
          -- No value gets to a note to leave; if one did, the note would stay.
          · cases task with
            | leaveBlock outer => exact ⟨.none past env, htask, hbelow⟩
            | leaveCall outer answer => exact ⟨.none past env, htask, hbelow⟩
            | _ => exact absurd rfl henv
  | complete c =>
      cases pending with
      | nil => exact ⟨hcontrol, hpending⟩
      | cons task below =>
          exact unwind_going (s := ⟨.complete c, below, env, depth, memory, sink⟩) c hpending.1
            hpending.2

/-- The functions that a step makes are tied to the frames that they remember. -/
theorem step_functions_tied (h : Going past s) (hvalues : s.All (FunctionTied past))
    (hpast : past ⊆ past') (hs : s ∈ past') : (step setting s).All (FunctionTied past') := by
  have hcontrol := h.control.mono hpast
  refine step_all (hvalues.mono fun _ htied => htied.mono hpast) (fun declaration heq => ?_)
    (fun name methods heq f hf a => ?_) fun superclass name occurrence methods below hvalue hpending
      hdone f hf b => ?_
  · rw [heq] at hcontrol
    exact hcontrol
  · rw [heq] at hcontrol
    exact hcontrol.inside (fun _ _ hentry => FunctionDecl.mem_supersAll.mpr ⟨f, hf, hentry⟩) a
  · obtain ⟨class_, hdeclares⟩ := declares_of_done hvalue hpending hdone
    exact hdeclares.tied hs hf b

/-! ### What is known of the past -/

/-- The frame that a class declaration has made for `super` still binds its superclass, and
the table knows how far every `super` in the methods is away from it. -/
structure Recalls (r : Resolution) (m : Memory) (s₀ : State) (superclass : Class)
    (methods : List FunctionDecl) : Prop where
  size : s₀.memory.frames.size < m.frames.size
  binds : (m.frame s₀.memory.frames.size).get? "super" = some (.classValue superclass)
  distances : ∀ entry ∈ FunctionDecl.supersAll methods 1,
    entry.2.id ≤ r.lastId ∧ r.locals[entry.2.id]? = some entry.1

theorem Recalls.keep {r r' : Resolution} {m m' : Memory} {s₀ : State} {superclass : Class}
    {methods : List FunctionDecl} (h : Recalls r m s₀ superclass methods) (hext : r.Extends r')
    (hkeeps : m.Keeps m') : Recalls r' m' s₀ superclass methods := by
  refine ⟨Nat.lt_of_lt_of_le h.size hkeeps.size, ?_, fun entry hentry => ?_⟩
  · rw [hkeeps.same _ _ h.size fun hname => hname.2 rfl]
    exact h.binds
  · obtain ⟨hknown, hlocal⟩ := h.distances entry hentry
    exact ⟨Nat.le_trans hknown hext.lastId, (hext.locals _ hknown).trans hlocal⟩

/-- A class declaration binds `super` in a new frame. -/
theorem State.Declares.recalls {r : Resolution} {superclass class_ : Class}
    {methods : List FunctionDecl} (h : s.Declares superclass class_ methods) (hsound : s.Sound r) :
    Recalls r (step setting s).memory s superclass methods := by
  obtain ⟨hvalue, -, -, name, occurrence, below, hpending, -, hmade⟩ := h
  obtain ⟨a, hstep⟩ := hmade setting
  obtain ⟨-, scopes, top, -, hproceeds⟩ := hsound
  rw [hvalue, hpending] at hproceeds
  obtain ⟨hname, hmethods⟩ : Ordinary name.lexeme ∧ ∃ scopes, ∀ f ∈ methods,
      ResolvedFunction r (thisNames :: superNames :: scopes) f := by
    cases hproceeds with
    | value _ hwaits =>
        cases hwaits with
        | inherit _ hname hmethods _ => exact ⟨hname, _, hmethods⟩
  obtain ⟨inside, hmethods⟩ := hmethods
  let m : Memory := (s.memory.newFrame [("super", .classValue superclass)]).2.newIdentity.2
  have hkeeps : m.Keeps (step setting s).memory := by
    rw [hstep]
    exact m.keeps_bindAt hname a _
  have hsize : s.memory.frames.size < m.frames.size := by
    rw [show m.frames.size = s.memory.frames.size + 1 from s.memory.size_newFrame _]
    exact Nat.lt_succ_self _
  refine ⟨Nat.lt_of_lt_of_le hsize hkeeps.size, ?_, supers_of_methods hmethods⟩
  rw [hkeeps.same _ _ hsize fun hordinary => hordinary.2 rfl]
  show ((s.memory.newFrame _).2.frame s.memory.frames.size).get? "super" = _
  rw [Memory.frame_newFrame, if_pos rfl]
  rfl

/-- Everything in a state is tied to what has happened in the past. -/
structure State.Tied (r : Resolution) (past : List State) (s : State) : Prop where
  functions : s.All (FunctionTied past)
  going : Going past s
  recalls : ∀ s₀ ∈ past, ∀ superclass class_ methods, s₀.Declares superclass class_ methods →
    Recalls r s.memory s₀ superclass methods

/-- **Each step ties what it makes to what has happened before.** -/
theorem step_tied {r : Resolution} (hsound : s.Sound r) (h : s.Tied r past) :
    (step setting s).Tied r (past ++ [s]) := by
  have hpast : past ⊆ past ++ [s] := List.subset_append_left _ _
  have hs : s ∈ past ++ [s] := List.mem_append_right _ List.mem_cons_self
  refine ⟨step_functions_tied h.going h.functions hpast hs,
    (step_going h.going h.functions).mono hpast,
    fun s₀ hs₀ superclass class_ methods hdeclares => ?_⟩
  rcases List.mem_append.mp hs₀ with hs₀ | hs₀
  · exact (h.recalls s₀ hs₀ superclass class_ methods hdeclares).keep (.refl r) (step_keeps hsound)
  · obtain rfl := List.mem_singleton.mp hs₀
    exact hdeclares.recalls hsound

end Lox.Machine
