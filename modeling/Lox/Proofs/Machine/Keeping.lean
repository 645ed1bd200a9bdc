/-
What a step changes in the memory, and what it leaves.

A step changes the memory by the few operations that the memory has (`step_changes`).  None of
them loses a frame or an instance.  A declaration or an assignment binds a name that programs may
use, and `this` and `super` are none.  They are bound once, in a frame that is made for that, so
no step changes what any frame binds them to (`step_keeps`).
-/
import Lox.Proofs.Machine.Outcomes
import Lox.Proofs.Machine.Waiting

namespace Lox

namespace Memory

/-- No frame is lost, and `this` and `super` stay bound to what they are bound to. -/
structure Keeps (m m' : Memory) : Prop where
  size : m.frames.size ≤ m'.frames.size
  same : ∀ a name, a < m.frames.size → ¬Ordinary name →
    (m'.frame a).get? name = (m.frame a).get? name

/-- What the operations of the memory come to, if only names are bound anew that programs may
use. -/
inductive Changes : Memory → Memory → Prop
  | refl (m : Memory) : Changes m m
  | trans {m m' m'' : Memory} (h : Changes m m') (h' : Changes m' m'') : Changes m m''
  | bindAt {name : String} (hname : Ordinary name) (m : Memory) (a : Address) (v : Value) :
      Changes m (m.bindAt a name v)
  | newFrame (m : Memory) (contents : Bindings Value) : Changes m (m.newFrame contents).2
  | newObject (m : Memory) : Changes m m.newObject.2
  | setField (m : Memory) (a : Address) (name : String) (v : Value) :
      Changes m (m.setField a name v)
  /-- Giving out an identity and reading the clock. -/
  | count {m m' : Memory} (hframes : m'.frames = m.frames) (hfields : m'.fields = m.fields) :
      Changes m m'

section Keeps

variable {m m' m'' : Memory}

theorem Keeps.refl (m : Memory) : m.Keeps m :=
  ⟨Nat.le_refl _, fun _ _ _ _ => rfl⟩

theorem Keeps.trans (h : m.Keeps m') (h' : m'.Keeps m'') : m.Keeps m'' := by
  refine ⟨Nat.le_trans h.size h'.size, fun a name ha hname => ?_⟩
  rw [h'.same a name (Nat.lt_of_lt_of_le ha h.size) hname, h.same a name ha hname]

/-- Instances, identities and the clock have nothing to do with frames. -/
theorem Keeps.of_frames (h : m'.frames = m.frames) : m.Keeps m' :=
  ⟨Nat.le_of_eq (by rw [h]), fun a name _ _ => by rw [frame, frame, h]⟩

theorem keeps_bindAt {name : String} (hname : Ordinary name) (m : Memory) (a : Address)
    (v : Value) : m.Keeps (m.bindAt a name v) := by
  refine ⟨Nat.le_of_eq (size_bindAt m a name v).symm, fun b other _ hother => ?_⟩
  have hne : name ≠ other := by
    rintro rfl
    exact hother hname
  rw [frame_bindAt]
  split
  · rw [Bindings.get?_insert, if_neg hne]
  · rfl

theorem keeps_newFrame (m : Memory) (contents : Bindings Value) :
    m.Keeps (m.newFrame contents).2 := by
  refine ⟨by rw [size_newFrame]; exact Nat.le_succ _, fun a name ha _ => ?_⟩
  rw [frame_newFrame, if_neg (Nat.ne_of_lt ha)]

theorem keeps_newMethod (m : Memory) (closure : Closure) (this : Value) :
    m.Keeps (m.newMethod closure this).2 :=
  (m.keeps_newFrame [("this", this)]).trans (.of_frames rfl)

end Keeps

theorem size_fields_newObject (m : Memory) : m.newObject.2.fields.size = m.fields.size + 1 :=
  Array.size_push _

namespace Changes

variable {m m' : Memory}

theorem keeps (h : Changes m m') : m.Keeps m' := by
  induction h with
  | refl m => exact .refl m
  | trans _ _ ih ih' => exact ih.trans ih'
  | bindAt hname m a v => exact keeps_bindAt hname m a v
  | newFrame m contents => exact keeps_newFrame m contents
  | newObject _ | setField _ _ _ _ => exact .of_frames rfl
  | count hframes _ => exact .of_frames hframes

/-- No instance is lost. -/
theorem size_fields (h : Changes m m') : m.fields.size ≤ m'.fields.size := by
  induction h with
  | refl | bindAt | newFrame => exact Nat.le_refl _
  | trans _ _ ih ih' => exact Nat.le_trans ih ih'
  | newObject m =>
      rw [size_fields_newObject]
      exact Nat.le_succ _
  | setField m a name v => exact Nat.le_of_eq Array.size_modify.symm
  | count _ hfields => exact Nat.le_of_eq (congrArg Array.size hfields).symm

theorem define {name : String} (hname : Ordinary name) (m : Memory) (env : Env) (v : Value) :
    Changes m (m.define env name v) := by
  cases env with
  | nil => exact .refl m
  | cons a outer => exact .bindAt hname m a v

theorem newIdentity (m : Memory) : Changes m m.newIdentity.2 :=
  .count rfl rfl

theorem newMethod (m : Memory) (closure : Closure) (this : Value) :
    Changes m (m.newMethod closure this).2 :=
  .trans (.newFrame m [("this", this)]) (newIdentity _)

end Changes

end Memory

namespace Machine

open Memory Scope

variable {setting : Setting} {r : Resolution} {s : State}

/-! ### Methods, calls and classes -/

theorem Inherited.changes {keyword : Occurrence} {method : Token} {t : State}
    (h : Inherited setting s keyword method t) : Changes s.memory t.memory := by
  cases h with
  | outside _ | notBound | undefined => exact .refl _
  | @found _ _ _ _ closure _ _ _ => exact .newMethod _ closure _

theorem Got.changes {v : Value} {name : Token} {t : State} (h : Got s name v t) :
    Changes s.memory t.memory := by
  cases h with
  | field _ | undefined _ _ | notAnInstance _ => exact .refl _
  | @method _ _ closure _ _ => exact .newMethod _ closure _

theorem Called.changes {callee : Value} {paren : Token} {arguments : List Value} {t : State}
    (h : Called setting s paren arguments callee t) : Changes s.memory t.memory := by
  cases h with
  | refused _ _ => exact .refl _
  | clock _ => exact .count rfl rfl
  | function _ => exact .newFrame _ _
  | plain _ _ => exact .newObject _
  | initialized _ _ => exact .trans (.trans (.newObject _) (.newFrame _ _)) (.newFrame _ _)

theorem Finished.changes {name : Token} {superclass : Option Class} {methods : List FunctionDecl}
    {t : State} (h : Finished s name superclass methods t) (hname : Ordinary name.lexeme) :
    Changes s.memory t.memory := by
  have hopened : Changes s.memory (classEnv s superclass).2.memory := by
    cases superclass with
    | none => exact .refl _
    | some class_ => exact .newFrame _ _
  have hidentity := hopened.trans (.newIdentity _)
  cases h with
  | done a _ => exact hidentity.trans (.bindAt hname _ a _)
  | failed => exact hidentity

/-! ### Expressions -/

variable (s)

theorem lookup_memory (occurrence : Occurrence) :
    (lookup setting s occurrence).memory = s.memory := by
  unfold lookup
  dsimp only
  split <;> rfl

theorem operate_memory (operator : Token) (result : Except Failure.Cause Value) :
    (operate s operator result).memory = s.memory := by
  cases result <;> rfl

theorem assign_changes {target : Occurrence} (hname : Ordinary target.name.lexeme) (v : Value) :
    Changes s.memory (assign setting s target v).memory := by
  unfold assign
  dsimp only
  split
  · exact .bindAt hname _ _ v
  · exact .refl _

theorem evaluate_changes (e : Expr) : Changes s.memory (evaluate setting s e).memory := by
  cases e with
  | use occurrence =>
      rw [evaluate, lookup_memory]
      exact .refl _
  | this receiver =>
      rw [evaluate, lookup_memory]
      exact .refl _
  | super keyword method => exact (inheritedMethod_inherited setting s keyword method).changes
  | _ => exact .refl _

/-! ### Statements -/

theorem execute_changes {scopes : Scopes} {statement : Stmt}
    (h : ResolvedStmt r scopes statement) : Changes s.memory (execute s statement).memory := by
  cases h with
  | @var _ name initializer hnew _ =>
      cases initializer with
      | none => exact .define hnew.2 _ _ _
      | some value => exact .refl _
  | block _ => exact .newFrame _ _
  | @returnWith _ keyword value _ => cases value <;> exact .refl _
  | function hnew _ => exact .trans (.newIdentity _) (.define hnew.2 s.memory.newIdentity.2 _ _)
  | @classDecl _ name superclass methods hnew _ _ =>
      let defined : State := { s with memory := s.memory.define s.env name.lexeme .nil }
      have hdefined : Changes s.memory defined.memory := .define hnew.2 _ _ _
      cases superclass with
      | none =>
          exact hdefined.trans ((finishClass_finished defined name none methods).changes hnew.2)
      | some occurrence => exact hdefined
  | _ => exact .refl _

theorem resume_changes {scopes : Scopes} {top : Address} {m : Memory} {task : Pending}
    {below : List Pending} (h : WaitsValue r m scopes top (task :: below)) (v : Value) :
    Changes s.memory (resume setting s v task).memory := by
  cases h with
  | unary _ | rightOperand _ =>
      rw [resume, operate_memory]
      exact .refl _
  | @logical _ _ operator right _ _ _ =>
      rcases resume_logical setting s v operator right with hnext | hnext <;> rw [hnext] <;>
        exact .refl _
  | assignment _ hname _ => exact assign_changes s hname v
  | @callee _ _ paren arguments _ _ _ =>
      cases arguments with
      | nil => exact (call_called setting s v paren []).changes
      | cons first rest => exact .refl _
  | @argument _ _ callee paren before after _ _ _ _ _ =>
      cases after with
      | nil => exact (call_called setting s callee paren _).changes
      | cons next rest => exact .refl _
  | property _ => exact (getProperty_got s v _).changes
  | setTarget _ _ => cases v <;> exact .refl _
  | setValue _ => exact .setField _ _ _ _
  | @print _ _ keyword _ _ _ =>
      rcases resume_print setting s v keyword with ⟨_, hnext⟩ | ⟨_, _, hnext⟩ <;> rw [hnext] <;>
        exact .refl _
  | define _ hname _ => exact .define hname _ _ v
  | @branch _ _ onTrue onFalse _ _ _ _ _ _ _ =>
      rcases resume_branch setting s v onTrue onFalse with hnext | ⟨_, _, hnext⟩ | ⟨_, hnext⟩ <;>
        rw [hnext] <;> exact .refl _
  | @loopTest _ _ condition body _ _ _ _ _ _ =>
      rcases resume_loopTest setting s v condition body with hnext | hnext <;> rw [hnext] <;>
        exact .refl _
  | @inherit _ _ name superclass methods _ _ hname _ _ =>
      cases v with
      | classValue class_ =>
          exact (finishClass_finished s name (some class_) methods).changes hname
      | _ => exact .refl _
  | _ => exact .refl _

theorem unwind_memory (c : Completion) (task : Pending) :
    (unwind s c task).memory = s.memory := by
  cases task with
  | sequence rest => cases c <;> cases rest <;> rfl
  | loopBody condition body => cases c <;> rfl
  | leaveCall env answer => cases c <;> rfl
  | _ => rfl

/-- **A step does nothing to the memory but by the operations of the memory.** -/
theorem step_changes {s : State} (h : s.Sound r) :
    Changes s.memory (step setting s).memory := by
  obtain ⟨-, scopes, top, -, hproceeds⟩ := h
  obtain ⟨control, pending, env, depth, memory, sink⟩ := s
  cases control with
  | evaluate e => exact evaluate_changes _ e
  | execute statement =>
      cases hproceeds with
      | execute h => exact execute_changes _ h
  | value v =>
      cases hproceeds with
      | value _ hpending =>
          cases pending with
          | nil => exact .refl _
          | cons task below =>
              exact resume_changes ⟨.value v, below, env, depth, memory, sink⟩ hpending v
  | complete c =>
      cases pending with
      | nil => exact .refl _
      | cons task below =>
          rw [step, unwind_memory]
          exact .refl _

/-- **No step changes what `this` or `super` is bound to.** -/
theorem step_keeps {s : State} (h : s.Sound r) : s.memory.Keeps (step setting s).memory :=
  (step_changes h).keeps

end Machine

end Lox
