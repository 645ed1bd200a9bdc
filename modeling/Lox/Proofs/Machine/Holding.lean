/-
The values that a state holds, and where new ones come from.

A value is held by a variable or by a field, it is what is being done, or pending work keeps
it.  Most of what a step does is to move values about.  New ones it makes in few ways: plain
values, functions and classes where they are declared, methods that are taken from a class and
bound to an instance, and instances.  A property of values that all of these have is one of all
values that a state holds (`step_only`).
-/
import Lox.Proofs.Machine.Outcomes
import Lox.Proofs.Machine.Scoped

namespace Lox

section Definitions

variable (Q : Value → Prop)

/-- All values that variables and fields have. -/
structure Memory.Only (m : Memory) : Prop where
  frames : ∀ a name v, (m.frame a).get? name = some v → Q v
  fields : ∀ a name v, m.field? a name = some v → Q v

namespace Machine

/-- All values that are kept in pending work. -/
def Pending.Only : Pending → Prop
  | .rightOperand _ left => Q left
  | .argument function _ before _ => Q function ∧ ∀ v ∈ before, Q v
  | .leaveCall _ (.fixed v) => Q v
  | _ => True

/-- All values in what is being done. -/
def Control.Only : Control → Prop
  | .value v => Q v
  | .complete (.returned v) => Q v
  | _ => True

/-- All values that a state holds. -/
structure State.Only (s : State) : Prop where
  memory : s.memory.Only Q
  control : s.control.Only Q
  pending : ∀ task ∈ s.pending, task.Only Q

/-- A value is held by a variable or a field, it is what is being done, or pending work keeps
it. -/
inductive State.Holds (s : State) (v : Value) : Prop
  | slot {a : Address} {name : String} (h : (s.memory.frame a).get? name = some v)
  | field {a : Address} {name : String} (h : s.memory.field? a name = some v)
  | result (h : s.control = .value v)
  | returned (h : s.control = .complete (.returned v))
  | operand {operator : Token} (h : .rightOperand operator v ∈ s.pending)
  | callee {paren : Token} {before : List Value} {after : List Expr}
      (h : .argument v paren before after ∈ s.pending)
  | argument {callee : Value} {paren : Token} {before : List Value} {after : List Expr}
      (h : .argument callee paren before after ∈ s.pending) (hv : v ∈ before)
  | answer {env : Env} (h : .leaveCall env (.fixed v) ∈ s.pending)

/-- The property is one of all plain values, and one of what is made out of classes that have it
on the way from one memory to another: of their methods once they are bound, and of their
instances. -/
structure Makes (m m' : Memory) : Prop where
  plain : ∀ v : Value, v.isPlain = true → Q v
  method : ∀ (class_ own : Class) (name : String) (closure : Closure) (address : Address),
    (Q (.classValue class_) ∨ ∃ a, Q (.object a class_)) → class_.find? name = some closure →
    m' = (m.newMethod closure (.object address own)).2 →
    Q (m.newMethod closure (.object address own)).1
  object : ∀ class_, Q (.classValue class_) → m'.fields = m.newObject.2.fields →
    Q (.object m.fields.size class_)

end Machine

end Definitions

variable {Q Q' : Value → Prop}

theorem Machine.State.Only.of_holds {s : Machine.State} {v : Value} (h : s.Only Q)
    (hv : s.Holds v) : Q v := by
  cases hv with
  | slot hv => exact h.memory.frames _ _ v hv
  | field hv => exact h.memory.fields _ _ v hv
  | result hv =>
      have hcontrol := h.control
      rwa [hv] at hcontrol
  | returned hv =>
      have hcontrol := h.control
      rwa [hv] at hcontrol
  | operand hv => exact h.pending _ hv
  | callee hv => exact (h.pending _ hv).1
  | argument hpending hv => exact (h.pending _ hpending).2 v hv
  | answer hv => exact h.pending _ hv

/-! ### A weaker property -/

section Mono

variable (hmono : ∀ v, Q v → Q' v)

include hmono

theorem Memory.Only.mono {m : Memory} (h : m.Only Q) : m.Only Q' :=
  ⟨fun a name v hv => hmono v (h.frames a name v hv),
    fun a name v hv => hmono v (h.fields a name v hv)⟩

theorem Machine.Pending.Only.mono {task : Machine.Pending} (h : task.Only Q) : task.Only Q' := by
  cases task with
  | rightOperand operator left => exact hmono left h
  | argument callee paren before after =>
      exact ⟨hmono callee h.1, fun v hv => hmono v (h.2 v hv)⟩
  | leaveCall env answer =>
      cases answer with
      | fixed v => exact hmono v h
      | _ => trivial
  | _ => trivial

theorem Machine.Control.Only.mono {control : Machine.Control} (h : control.Only Q) :
    control.Only Q' := by
  cases control with
  | value v => exact hmono v h
  | complete c =>
      cases c with
      | returned v => exact hmono v h
      | _ => trivial
  | _ => trivial

theorem Machine.State.Only.mono {s : Machine.State} (h : s.Only Q) : s.Only Q' :=
  ⟨h.memory.mono hmono, h.control.mono hmono, fun task htask => (h.pending task htask).mono hmono⟩

end Mono

/-! ### Changes of the memory -/

namespace Memory.Only

variable {m : Memory} {env : Env} {name : String} {v : Value}

theorem initial (hclock : Q .clock) : Memory.initial.Only Q := by
  refine ⟨fun a name v hv => ?_,
    fun a name v hv => absurd hv (by simp [Memory.initial, Memory.field?])⟩
  have hframe : Memory.initial.frame a = if a = 0 then [("clock", .clock)] else [] := by
    cases a <;> rfl
  rw [hframe] at hv
  split at hv
  · rw [Bindings.get?] at hv
    split at hv
    · obtain rfl := Option.some.inj hv
      exact hclock
    · exact absurd hv (by simp)
  · exact absurd hv (by simp)

theorem readAt {distance : Nat} (h : m.Only Q) (hv : m.readAt? env distance name = some v) :
    Q v := by
  unfold Memory.readAt? at hv
  split at hv
  · exact h.frames _ name v hv
  · exact absurd hv (by simp)

theorem read (h : m.Only Q) (hv : m.read? env name = some v) : Q v := by
  obtain ⟨a, -, ha⟩ := List.exists_of_findSome?_eq_some hv
  exact h.frames a name v ha

theorem bindAt (h : m.Only Q) (a : Address) (hv : Q v) : (m.bindAt a name v).Only Q := by
  refine ⟨fun b other w hw => ?_, h.fields⟩
  rw [frame_bindAt] at hw
  split at hw
  · rw [Bindings.get?_insert] at hw
    split at hw
    · obtain rfl := Option.some.inj hw
      exact hv
    · exact h.frames b other w hw
  · exact h.frames b other w hw

theorem define (h : m.Only Q) (hv : Q v) : (m.define env name v).Only Q := by
  cases env with
  | nil => exact h
  | cons a outer => exact h.bindAt a hv

theorem newFrame {contents : Bindings Value} (h : m.Only Q)
    (hcontents : ∀ name v, contents.get? name = some v → Q v) :
    (m.newFrame contents).2.Only Q := by
  refine ⟨fun a name v hv => ?_, h.fields⟩
  rw [frame_newFrame] at hv
  split at hv
  · exact hcontents name v hv
  · exact h.frames a name v hv

/-- A frame that binds a single name. -/
theorem newBinding (h : m.Only Q) (name : String) (hv : Q v) :
    (m.newFrame [(name, v)]).2.Only Q := by
  refine h.newFrame fun other w hw => ?_
  rw [Bindings.get?] at hw
  split at hw
  · obtain rfl := Option.some.inj hw
    exact hv
  · exact absurd hw (by simp)

theorem setField (h : m.Only Q) (address : Address) (hv : Q v) :
    (m.setField address name v).Only Q := by
  refine ⟨h.frames, fun a other w hw => ?_⟩
  rw [field?_setField] at hw
  split at hw
  · obtain rfl := Option.some.inj hw
    exact hv
  · exact h.fields a other w hw

theorem newObject (h : m.Only Q) : m.newObject.2.Only Q :=
  ⟨h.frames, fun a name v hv => h.fields a name v (by rwa [field?_newObject] at hv)⟩

/-- Handing out identities and reading the clock is not about values. -/
theorem of_same {m' : Memory} (h : m.Only Q) (hframes : m'.frames = m.frames)
    (hfields : m'.fields = m.fields) : m'.Only Q := by
  refine ⟨fun a name v hv => h.frames a name v ?_, fun a name v hv => h.fields a name v ?_⟩
  · rwa [Memory.frame, hframes] at hv
  · rwa [Memory.field?, hfields] at hv

end Memory.Only

namespace Machine

/-! ### What a step passes on -/

variable {setting : Setting} {s : State}

theorem State.Only.giving (h : s.Only Q) {v : Value} (hv : Q v) : (s.giving v).Only Q :=
  ⟨h.memory, hv, h.pending⟩

theorem State.Only.failing (h : s.Only Q) (token : Token) (cause : Failure.Cause) :
    (s.failing token cause).Only Q :=
  ⟨h.memory, trivial, h.pending⟩

theorem State.Only.evaluating (h : s.Only Q) {task : Pending} (htask : task.Only Q) (e : Expr) :
    (s.evaluating task e).Only Q :=
  ⟨h.memory, trivial, List.forall_mem_cons.mpr ⟨htask, h.pending⟩⟩

theorem lookup_only (h : s.Only Q) (occurrence : Occurrence) :
    (lookup setting s occurrence).Only Q := by
  unfold lookup
  dsimp only
  split
  · rename_i v hfound
    refine h.giving ?_
    split at hfound
    · exact h.memory.readAt hfound
    · exact h.memory.read hfound
  · exact h.failing _ _

theorem assign_only (h : s.Only Q) (target : Occurrence) {v : Value} (hv : Q v) :
    (assign setting s target v).Only Q := by
  unfold assign
  dsimp only
  split
  · exact ⟨h.memory.bindAt _ hv, hv, h.pending⟩
  · exact h.failing _ _

/-- A method that is taken from a class goes on as a value, bound to an instance. -/
theorem newMethod_only (h : s.Only Q) {closure : Closure} {this : Value} (hthis : Q this)
    (hmethod : Q (s.memory.newMethod closure this).1) :
    State.Only Q { s with
      memory := (s.memory.newMethod closure this).2
      control := .value (s.memory.newMethod closure this).1 } :=
  ⟨(h.memory.newBinding "this" hthis).of_same rfl rfl, hmethod, h.pending⟩

theorem Inherited.only {keyword : Occurrence} {method : Token} {t : State}
    (hinherited : Inherited setting s keyword method t) (h : s.Only Q)
    (hmakes : Makes Q s.memory t.memory) : t.Only Q := by
  cases hinherited with
  | outside _ | notBound | undefined => exact h.failing _ _
  | @found _ superclass class_ address closure hsuper hthis hfind =>
      exact newMethod_only h (h.memory.readAt hthis)
        (hmakes.method superclass class_ _ closure address (.inl (h.memory.readAt hsuper)) hfind rfl)

theorem Got.only {v : Value} {name : Token} {t : State} (hgot : Got s name v t) (h : s.Only Q)
    (hv : Q v) (hmakes : Makes Q s.memory t.memory) : t.Only Q := by
  cases hgot with
  | field hfield => exact h.giving (h.memory.fields _ _ _ hfield)
  | @method address class_ closure _ hfind =>
      exact newMethod_only h hv
        (hmakes.method class_ class_ _ closure address (.inr ⟨address, hv⟩) hfind rfl)
  | undefined _ _ | notAnInstance _ => exact h.failing _ _

theorem enter_only (h : s.Only Q) (closure : Closure) {arguments : List Value} {answer : Answer}
    (harguments : ∀ v ∈ arguments, Q v) (hanswer : (Pending.leaveCall s.env answer).Only Q) :
    (enter s closure arguments answer).Only Q := by
  refine ⟨h.memory.newFrame fun name v hv => ?_, trivial, ?_⟩
  · exact harguments v (get?_argumentFrame hv).1
  · exact List.forall_mem_cons.mpr ⟨trivial, List.forall_mem_cons.mpr ⟨hanswer, h.pending⟩⟩

theorem Called.only {callee : Value} {paren : Token} {arguments : List Value} {t : State}
    (hcalled : Called setting s paren arguments callee t) (h : s.Only Q) (hcallee : Q callee)
    (harguments : ∀ v ∈ arguments, Q v) (hmakes : Makes Q s.memory t.memory) : t.Only Q := by
  cases hcalled with
  | refused _ _ => exact h.failing _ _
  | clock _ => exact ⟨h.memory.of_same rfl rfl, hmakes.plain _ rfl, h.pending⟩
  | function _ =>
      refine enter_only h _ harguments ?_
      split <;> trivial
  | plain _ _ =>
      exact ⟨h.memory.newObject, hmakes.object _ hcallee rfl, h.pending⟩
  | initialized _ _ =>
      have hobject := hmakes.object _ hcallee rfl
      have hbound := h.memory.newObject.newBinding "this" hobject
      exact enter_only (s := { s with memory := _ }) ⟨hbound, h.control, h.pending⟩ _ harguments
        hobject

theorem Finished.only {name : Token} {superclass : Option Class} {methods : List FunctionDecl}
    {t : State} (hfinished : Finished s name superclass methods t) (h : s.Only Q)
    (hsuper : ∀ class_ ∈ superclass, Q (.classValue class_))
    (hclass : t.control = .complete .normal →
      ∀ identity, Q (.classValue (declaredClass identity name (classEnv s superclass).1 methods
        ((superclass.map Class.layers).getD [])))) : t.Only Q := by
  have hopened : (classEnv s superclass).2.memory.Only Q := by
    cases superclass with
    | none => exact h.memory
    | some class_ => exact h.memory.newBinding "super" (hsuper class_ rfl)
  have hmemory : (classEnv s superclass).2.memory.newIdentity.2.Only Q :=
    hopened.of_same rfl rfl
  cases hfinished with
  | done a _ => exact ⟨hmemory.bindAt a (hclass rfl _), trivial, h.pending⟩
  | failed => exact ⟨hmemory, trivial, h.pending⟩

/-! ### The four kinds of step -/

theorem evaluate_only (h : s.Only Q) (e : Expr)
    (hmakes : Makes Q s.memory (evaluate setting s e).memory) : (evaluate setting s e).Only Q := by
  cases e with
  | literal value => exact h.giving (hmakes.plain _ (Value.isPlain_ofLiteral value))
  | group inner => exact ⟨h.memory, trivial, h.pending⟩
  | use occurrence => exact lookup_only h occurrence
  | this receiver => exact lookup_only h receiver
  | super keyword method =>
      exact (inheritedMethod_inherited setting s keyword method).only h hmakes
  | _ => exact h.evaluating (by trivial) _

theorem execute_only (h : s.Only Q) (statement : Stmt) (hnil : Q .nil)
    (hfunction : ∀ declaration, statement = .function declaration →
      ∀ identity, Q (.function identity ⟨declaration, s.env, false⟩))
    (hclass : ∀ name methods, statement = .classDecl name none methods →
      ∀ identity, Q (.classValue (declaredClass identity name s.env methods []))) :
    (execute s statement).Only Q := by
  cases statement with
  | var name initializer =>
      cases initializer with
      | none => exact ⟨h.memory.define hnil, trivial, h.pending⟩
      | some value => exact h.evaluating (by trivial) value
  | block body =>
      exact ⟨h.memory.newFrame (by simp), trivial,
        List.forall_mem_cons.mpr ⟨trivial, List.forall_mem_cons.mpr ⟨trivial, h.pending⟩⟩⟩
  | breakLoop keyword => exact ⟨h.memory, trivial, h.pending⟩
  | returnWith keyword value =>
      cases value with
      | none => exact ⟨h.memory, hnil, h.pending⟩
      | some value => exact h.evaluating (by trivial) value
  | function declaration =>
      exact ⟨Memory.Only.define (h.memory.of_same rfl rfl) (hfunction declaration rfl _), trivial,
        h.pending⟩
  | classDecl name superclass methods =>
      have hstate : State.Only Q { s with memory := s.memory.define s.env name.lexeme .nil } :=
        ⟨h.memory.define hnil, h.control, h.pending⟩
      cases superclass with
      | none =>
          exact (finishClass_finished _ name none methods).only hstate (by simp)
            fun _ => hclass name methods rfl
      | some occurrence => exact hstate.evaluating (by trivial) _
  | _ => exact h.evaluating (by trivial) _

theorem operate_only (h : s.Only Q) (operator : Token) {result : Except Failure.Cause Value}
    (hresult : ∀ v, result = .ok v → Q v) : (operate s operator result).Only Q := by
  cases result with
  | ok v => exact h.giving (hresult v rfl)
  | error cause => exact h.failing _ _

theorem resume_only (h : s.Only Q) {v : Value} (hv : Q v) {task : Pending} (htask : task.Only Q)
    (hmakes : Makes Q s.memory (resume setting s v task).memory)
    (hclass : ∀ class_ name occurrence methods, v = .classValue class_ →
      task = .inherit name occurrence methods →
      (resume setting s v task).control = .complete .normal →
      ∀ identity, Q (.classValue
        (declaredClass identity name (s.memory.frames.size :: s.env) methods class_.layers))) :
    (resume setting s v task).Only Q := by
  cases task with
  | unary operator =>
      exact operate_only h operator fun w hw => hmakes.plain w (Value.isPlain_of_unary hw)
  | leftOperand operator right =>
      have htask : (Pending.rightOperand operator v).Only Q := hv
      exact h.evaluating htask right
  | rightOperand operator left =>
      refine operate_only h operator fun w hw => ?_
      rcases Value.isPlain_of_binary hw with rfl | hplain
      · exact hv
      · exact hmakes.plain w hplain
  | logical operator right =>
      rcases resume_logical setting s v operator right with hnext | hnext <;> rw [hnext]
      · exact h.giving hv
      · exact ⟨h.memory, trivial, h.pending⟩
  | choice onTrue onFalse => exact ⟨h.memory, trivial, h.pending⟩
  | assignment target => exact assign_only h target hv
  | callee paren arguments =>
      cases arguments with
      | nil => exact (call_called setting s v paren []).only h hv (by simp) hmakes
      | cons first rest =>
          have htask : (Pending.argument v paren [] rest).Only Q := ⟨hv, by simp⟩
          exact h.evaluating htask first
  | argument callee paren before after =>
      have hmore : ∀ w ∈ before ++ [v], Q w := by
        intro w hw
        rcases List.mem_append.mp hw with hw | hw
        · exact htask.2 w hw
        · rwa [List.mem_singleton.mp hw]
      cases after with
      | nil => exact (call_called setting s callee paren _).only h htask.1 hmore hmakes
      | cons next rest =>
          have htask : (Pending.argument callee paren (before ++ [v]) rest).Only Q :=
            ⟨htask.1, hmore⟩
          exact h.evaluating htask next
  | property name => exact (getProperty_got s v name).only h hv hmakes
  | setTarget name value =>
      cases v with
      | object address class_ => exact h.evaluating (by trivial) value
      | _ => exact h.failing _ _
  | setValue address name => exact ⟨h.memory.setField address hv, hv, h.pending⟩
  | discard => exact ⟨h.memory, trivial, h.pending⟩
  | print keyword =>
      rcases resume_print setting s v keyword with ⟨_, hnext⟩ | ⟨_, _, hnext⟩ <;> rw [hnext] <;>
        exact ⟨h.memory, trivial, h.pending⟩
  | define name => exact ⟨h.memory.define hv, trivial, h.pending⟩
  | branch onTrue onFalse =>
      rcases resume_branch setting s v onTrue onFalse with hnext | ⟨_, _, hnext⟩ | ⟨_, hnext⟩ <;>
      · rw [hnext]
        exact ⟨h.memory, trivial, h.pending⟩
  | loopTest condition body =>
      rcases resume_loopTest setting s v condition body with hnext | hnext <;> rw [hnext]
      · exact ⟨h.memory, trivial, List.forall_mem_cons.mpr ⟨trivial, h.pending⟩⟩
      · exact ⟨h.memory, trivial, h.pending⟩
  | returning => exact ⟨h.memory, hv, h.pending⟩
  | inherit name superclass methods =>
      cases v with
      | classValue class_ =>
          exact (finishClass_finished s name (some class_) methods).only h
            (fun _ heq => Option.some.inj heq ▸ hv) (hclass class_ name superclass methods rfl rfl)
      | _ => exact h.failing _ _
  | _ => exact ⟨h.memory, trivial, List.forall_mem_cons.mpr ⟨htask, h.pending⟩⟩

theorem unwind_only (h : s.Only Q) (hnil : Q .nil) {c : Completion}
    (hc : (Control.complete c).Only Q) {task : Pending} (htask : task.Only Q) :
    (unwind s c task).Only Q := by
  have hcompleting : (s.completing c).Only Q := ⟨h.memory, hc, h.pending⟩
  cases task with
  | sequence rest =>
      rcases unwind_sequence s c rest with ⟨_, _, _, _, hnext⟩ | hnext <;> rw [hnext]
      · exact ⟨h.memory, trivial, List.forall_mem_cons.mpr ⟨trivial, h.pending⟩⟩
      · exact hcompleting
  | loopBody condition body =>
      cases c with
      | normal => exact h.evaluating (by trivial) condition
      | broken => exact ⟨h.memory, trivial, h.pending⟩
      | _ => exact hcompleting
  | leaveBlock env => exact ⟨h.memory, hc, h.pending⟩
  | leaveCall env answer =>
      have hanswer : Q (answer.value s.memory c) := by
        cases answer with
        | returned =>
            cases c with
            | returned v => exact hc
            | _ => exact hnil
        | receiver inside =>
            show Q ((s.memory.readAt? inside 0 "this").getD .nil)
            cases hthis : s.memory.readAt? inside 0 "this" with
            | none => exact hnil
            | some v => exact h.memory.readAt hthis
        | fixed v => exact htask
      cases c with
      | failed failure => exact ⟨h.memory, trivial, h.pending⟩
      | _ => exact ⟨h.memory, hanswer, h.pending⟩
  | _ => exact hcompleting

/-- **A property that a step hands on to whatever it makes stays one of all values in a state.** -/
theorem step_only (h : s.Only Q) (hmakes : Makes Q s.memory (step setting s).memory)
    (hfunction : ∀ declaration, s.control = .execute (.function declaration) →
      ∀ identity, Q (.function identity ⟨declaration, s.env, false⟩))
    (hclass : ∀ name methods, s.control = .execute (.classDecl name none methods) →
      ∀ identity, Q (.classValue (declaredClass identity name s.env methods [])))
    (hderived : ∀ class_ name occurrence methods below, s.control = .value (.classValue class_) →
      s.pending = .inherit name occurrence methods :: below →
      (step setting s).control = .complete .normal →
      ∀ identity, Q (.classValue
        (declaredClass identity name (s.memory.frames.size :: s.env) methods class_.layers))) :
    (step setting s).Only Q := by
  obtain ⟨control, pending, env, depth, memory, sink⟩ := s
  have hnil : Q .nil := hmakes.plain .nil rfl
  cases control with
  | evaluate e => exact evaluate_only h e hmakes
  | execute statement =>
      exact execute_only h statement hnil
        (fun declaration heq => hfunction declaration (by rw [heq]))
        (fun name methods heq => hclass name methods (by rw [heq]))
  | value v =>
      cases pending with
      | nil => exact ⟨h.memory, trivial, h.pending⟩
      | cons task below =>
          obtain ⟨htask, hbelow⟩ := List.forall_mem_cons.mp h.pending
          refine resume_only (s := ⟨.value v, below, env, depth, memory, sink⟩)
            ⟨h.memory, h.control, hbelow⟩ h.control htask hmakes ?_
          rintro class_ name occurrence methods rfl rfl
          exact hderived class_ name occurrence methods below rfl rfl
  | complete c =>
      cases pending with
      | nil => exact h
      | cons task below =>
          obtain ⟨htask, hbelow⟩ := List.forall_mem_cons.mp h.pending
          exact unwind_only (s := ⟨.complete c, below, env, depth, memory, sink⟩)
            ⟨h.memory, h.control, hbelow⟩ hnil h.control htask

end Machine

end Lox
