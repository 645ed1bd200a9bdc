/-
How steps turn out.

Some steps can turn out in several ways.  A name may be undefined, a call may be refused or
enter a body, a condition may be true or false.  Here each way is said once, together with when
it is taken and what exactly the next state is.  An invariant is then a case analysis over these
ways, and none of them has to look into the steps again.
-/
import Lox.Machine.Run

namespace Lox.Machine

variable {setting : Setting} {s t : State}

/-! ### Properties and inherited methods -/

/-- What looking for a property of a value comes to. -/
inductive Got (s : State) (name : Token) : Value → State → Prop
  | field {address : Address} {class_ : Class} {v : Value}
      (hfield : s.memory.field? address name.lexeme = some v) :
      Got s name (.object address class_) (s.giving v)
  | method {address : Address} {class_ : Class} {closure : Closure}
      (hfield : s.memory.field? address name.lexeme = none)
      (hfind : class_.find? name.lexeme = some closure) :
      Got s name (.object address class_)
        { s with
          memory := (s.memory.newMethod closure (.object address class_)).2
          control := .value (s.memory.newMethod closure (.object address class_)).1 }
  | undefined {address : Address} {class_ : Class}
      (hfield : s.memory.field? address name.lexeme = none)
      (hfind : class_.find? name.lexeme = none) :
      Got s name (.object address class_) (s.failing name (.undefinedProperty name.lexeme))
  | notAnInstance {v : Value} (hv : ∀ address class_, v ≠ .object address class_) :
      Got s name v (s.failing name .notAnInstanceToRead)

theorem getProperty_got (s : State) (v : Value) (name : Token) :
    Got s name v (getProperty s v name) := by
  unfold getProperty
  split
  · split
    · exact .field ‹_›
    · split
      · exact .method ‹_› ‹_›
      · exact .undefined ‹_› ‹_›
  · exact .notAnInstance ‹_›

/-- What looking for an inherited method comes to. -/
inductive Inherited (setting : Setting) (s : State) (keyword : Occurrence) (method : Token) :
    State → Prop
  | outside (hlocal : setting.locals[keyword.id]? = none) :
      Inherited setting s keyword method (s.failing keyword.name .superOutsideClass)
  | notBound : Inherited setting s keyword method (s.failing keyword.name .superNotBound)
  | found {distance : Nat} {superclass class_ : Class} {address : Address} {closure : Closure}
      (hsuper : s.memory.readAt? s.env distance "super" = some (.classValue superclass))
      (hthis : s.memory.readAt? s.env (distance - 1) "this" = some (.object address class_))
      (hfind : superclass.find? method.lexeme = some closure) :
      Inherited setting s keyword method
        { s with
          memory := (s.memory.newMethod closure (.object address class_)).2
          control := .value (s.memory.newMethod closure (.object address class_)).1 }
  | undefined :
      Inherited setting s keyword method (s.failing method (.undefinedProperty method.lexeme))

theorem inheritedMethod_inherited (setting : Setting) (s : State) (keyword : Occurrence)
    (method : Token) :
    Inherited setting s keyword method (inheritedMethod setting s keyword method) := by
  unfold inheritedMethod
  split
  · exact .outside ‹_›
  · split
    · split
      · exact .found ‹_› ‹_› ‹_›
      · exact .undefined
    · exact .notBound

/-! ### Steps that settle -/

/-- Only the memory may have changed, and there is a value now or a failure. -/
inductive Settles (s : State) : State → Prop
  | value (m : Memory) (v : Value) : Settles s { s with memory := m, control := .value v }
  | failed (m : Memory) (failure : Failure) :
      Settles s { s with memory := m, control := .complete (.failed failure) }

theorem Got.settles {name : Token} {v : Value} (h : Got s name v t) : Settles s t := by
  cases h with
  | field _ | method _ _ => exact .value _ _
  | undefined _ _ | notAnInstance _ => exact .failed s.memory _

theorem Inherited.settles {keyword : Occurrence} {method : Token}
    (h : Inherited setting s keyword method t) : Settles s t := by
  cases h with
  | found _ _ _ => exact .value _ _
  | outside _ | notBound | undefined => exact .failed s.memory _

section Settles

variable (s : State)

theorem lookup_settles (occurrence : Occurrence) : Settles s (lookup setting s occurrence) := by
  unfold lookup
  dsimp only
  split
  · exact .value s.memory _
  · exact .failed s.memory _

theorem assign_settles (target : Occurrence) (v : Value) :
    Settles s (assign setting s target v) := by
  unfold assign
  dsimp only
  split
  · exact .value _ v
  · exact .failed s.memory _

theorem inheritedMethod_settles (keyword : Occurrence) (method : Token) :
    Settles s (inheritedMethod setting s keyword method) :=
  (inheritedMethod_inherited setting s keyword method).settles

theorem getProperty_settles (v : Value) (name : Token) : Settles s (getProperty s v name) :=
  (getProperty_got s v name).settles

theorem operate_settles (operator : Token) (result : Except Failure.Cause Value) :
    Settles s (operate s operator result) := by
  unfold operate
  split
  · exact .value s.memory _
  · exact .failed s.memory _

end Settles

/-! ### How steps that settle fail -/

theorem lookup_failure {occurrence : Occurrence} {failure : Failure}
    (h : (lookup setting s occurrence).control = .complete (.failed failure)) :
    failure = ⟨occurrence.name, .undefinedVariable occurrence.name.lexeme⟩ := by
  unfold lookup at h
  dsimp only at h
  split at h
  · cases h
  · cases h
    rfl

theorem assign_failure {target : Occurrence} {v : Value} {failure : Failure}
    (h : (assign setting s target v).control = .complete (.failed failure)) :
    failure = ⟨target.name, .undefinedVariable target.name.lexeme⟩ := by
  unfold assign at h
  dsimp only at h
  split at h
  · cases h
  · cases h
    rfl

theorem Inherited.failure {keyword : Occurrence} {method : Token} {failure : Failure}
    (h : Inherited setting s keyword method t) (hfailed : t.control = .complete (.failed failure)) :
    failure = ⟨keyword.name, .superOutsideClass⟩ ∨ failure = ⟨keyword.name, .superNotBound⟩ ∨
      failure = ⟨method, .undefinedProperty method.lexeme⟩ := by
  cases h <;> cases hfailed <;> simp

theorem Got.failure {name : Token} {v : Value} {failure : Failure} (h : Got s name v t)
    (hfailed : t.control = .complete (.failed failure)) :
    failure = ⟨name, .notAnInstanceToRead⟩ ∨ failure = ⟨name, .undefinedProperty name.lexeme⟩ := by
  cases h <;> cases hfailed <;> simp

/-! ### Calls -/

/-- The callee takes so many arguments, and there is room for one more active call. -/
structure State.Admits (s : State) (callee : Value) (arguments : List Value) : Prop where
  arity : arity? callee = some arguments.length
  depth : s.depth < maxDepth

/-- Why a call is refused. -/
inductive Refusal (arguments : List Value) : Failure.Cause → Prop
  | notCallable : Refusal arguments .notCallable
  | wrongArgumentCount (arity : Nat) :
      Refusal arguments (.wrongArgumentCount arity arguments.length)
  | stackOverflow : Refusal arguments .stackOverflow

/-- What a call comes to. -/
inductive Called (setting : Setting) (s : State) (paren : Token) (arguments : List Value) :
    (callee : Value) → State → Prop
  | refused {callee : Value} {cause : Failure.Cause} (h : ¬s.Admits callee arguments)
      (hcause : Refusal arguments cause) :
      Called setting s paren arguments callee (s.failing paren cause)
  | clock (h : s.Admits .clock arguments) :
      Called setting s paren arguments .clock
        { s with
          control := .value (.number (setting.clock s.memory.readings))
          memory := { s.memory with readings := s.memory.readings + 1 } }
  | function {identity : Nat} {closure : Closure}
      (h : s.Admits (.function identity closure) arguments) :
      Called setting s paren arguments (.function identity closure)
        (enter s closure arguments
          (if closure.isInitializer then .receiver closure.env else .returned))
  /-- A class without an initializer. -/
  | plain {class_ : Class} (h : s.Admits (.classValue class_) arguments)
      (hfind : class_.find? initializerName = none) :
      Called setting s paren arguments (.classValue class_)
        { s with
          control := .value (.object s.memory.fields.size class_)
          memory := s.memory.newObject.2 }
  | initialized {class_ : Class} {initializer : Closure}
      (h : s.Admits (.classValue class_) arguments)
      (hfind : class_.find? initializerName = some initializer) :
      Called setting s paren arguments (.classValue class_)
        (enter
          { s with
            memory := (s.memory.newObject.2.newFrame
              [("this", .object s.memory.fields.size class_)]).2 }
          { initializer with env := s.memory.frames.size :: initializer.env } arguments
          (.fixed (.object s.memory.fields.size class_)))

section Calls

variable {callee : Value} {arguments : List Value}

/-- A call that is not admitted fails at once. -/
theorem call_refused (setting : Setting) (paren : Token) (h : ¬s.Admits callee arguments) :
    ∃ cause, Refusal arguments cause ∧
      call setting s callee paren arguments = s.failing paren cause := by
  unfold call
  cases harity : arity? callee with
  | none => exact ⟨_, .notCallable, rfl⟩
  | some arity =>
      dsimp only
      by_cases hlength : arity = arguments.length
      · have hdepth : maxDepth ≤ s.depth :=
          Nat.le_of_not_lt fun hdepth => h ⟨hlength ▸ harity, hdepth⟩
        rw [if_neg (not_not_intro hlength), if_pos hdepth]
        exact ⟨_, .stackOverflow, rfl⟩
      · rw [if_pos hlength]
        exact ⟨_, .wrongArgumentCount arity, rfl⟩

theorem call_called (setting : Setting) (s : State) (callee : Value) (paren : Token)
    (arguments : List Value) :
    Called setting s paren arguments callee (call setting s callee paren arguments) := by
  by_cases h : s.Admits callee arguments
  · unfold call
    rw [h.arity]
    dsimp only
    rw [if_neg (not_not_intro rfl), if_neg (Nat.not_le_of_lt h.depth)]
    cases callee with
    | function identity closure => exact .function h
    | classValue class_ =>
        dsimp only
        unfold construct
        cases hfind : class_.find? initializerName with
        | none => exact .plain h hfind
        | some initializer => exact .initialized h hfind
    | clock => exact .clock h
    | _ => cases h.arity
  · obtain ⟨cause, hcause, hcall⟩ := call_refused setting paren h
    rw [hcall]
    exact .refused h hcause

end Calls

/-! ### The end of a class declaration -/

/-- The class that a declaration makes in a row of frames, on top of what it inherits. -/
def declaredClass (identity : Nat) (name : Token) (env : Env) (methods : List FunctionDecl)
    (inherited : List ClassLayer) : Class :=
  ⟨⟨identity, name.lexeme, methodTable env methods⟩, inherited⟩

/-- What the end of a class declaration comes to. -/
inductive Finished (s : State) (name : Token) (superclass : Option Class)
    (methods : List FunctionDecl) : State → Prop
  | done (a : Address) (hholder :
        (classEnv s superclass).2.memory.newIdentity.2.holder? s.env name.lexeme = some a) :
      Finished s name superclass methods
        { s with
          control := .complete .normal
          memory := (classEnv s superclass).2.memory.newIdentity.2.bindAt a name.lexeme
            (.classValue (declaredClass (classEnv s superclass).2.memory.newIdentity.1 name
              (classEnv s superclass).1 methods ((superclass.map Class.layers).getD []))) }
  | failed :
      Finished s name superclass methods
        ({ s with memory := (classEnv s superclass).2.memory.newIdentity.2 }.failing name
          (.undefinedVariable name.lexeme))

theorem finishClass_finished (s : State) (name : Token) (superclass : Option Class)
    (methods : List FunctionDecl) :
    Finished s name superclass methods (finishClass s name superclass methods) := by
  have hopened : (classEnv s superclass).2
      = { s with memory := (classEnv s superclass).2.memory } := by
    cases superclass <;> rfl
  unfold finishClass
  dsimp only
  rw [hopened]
  split
  · exact .done _ ‹_›
  · exact .failed

/-! ### Values on which it depends what is done next -/

section Choices

variable (setting : Setting) (s : State) (v : Value)

theorem resume_logical (operator : Token) (right : Expr) :
    resume setting s v (.logical operator right) = s.giving v ∨
      resume setting s v (.logical operator right) = { s with control := .evaluate right } := by
  unfold resume
  dsimp only
  split
  · exact .inl rfl
  · exact .inl rfl
  · exact .inr rfl

theorem resume_print (keyword : Token) :
    ((s.sink.writeLine v.display).1 = none ∧
      resume setting s v (.print keyword)
        = { s with
            sink := (s.sink.writeLine v.display).2
            control := .complete .normal }) ∨
    ∃ reason, (s.sink.writeLine v.display).1 = some reason ∧
      resume setting s v (.print keyword)
        = { s with sink := (s.sink.writeLine v.display).2 }.failing keyword
            (.outputLost reason) := by
  unfold resume
  dsimp only
  split
  · exact .inl ⟨‹_›, rfl⟩
  · exact .inr ⟨_, ‹_›, rfl⟩

theorem resume_branch (onTrue : Stmt) (onFalse : Option Stmt) :
    resume setting s v (.branch onTrue onFalse) = { s with control := .execute onTrue } ∨
    (∃ statement, onFalse = some statement ∧
      resume setting s v (.branch onTrue onFalse) = { s with control := .execute statement }) ∨
    onFalse = none ∧ resume setting s v (.branch onTrue onFalse) = s.completing .normal := by
  unfold resume
  dsimp only
  split
  · exact .inl rfl
  · cases onFalse with
    | some statement => exact .inr (.inl ⟨statement, rfl, rfl⟩)
    | none => exact .inr (.inr ⟨rfl, rfl⟩)

theorem resume_loopTest (condition : Expr) (body : Stmt) :
    resume setting s v (.loopTest condition body)
      = { s with
          control := .execute body
          pending := .loopBody condition body :: s.pending } ∨
    resume setting s v (.loopTest condition body) = s.completing .normal := by
  unfold resume
  dsimp only
  split
  · exact .inl rfl
  · exact .inr rfl

/-- The next statement of a row is executed, or the row is done or is left. -/
theorem unwind_sequence (c : Completion) (rest : List Stmt) :
    (∃ next others, c = .normal ∧ rest = next :: others ∧
      unwind s c (.sequence rest)
        = { s with control := .execute next, pending := .sequence others :: s.pending }) ∨
    unwind s c (.sequence rest) = s.completing c := by
  unfold unwind
  dsimp only
  split
  · exact .inl ⟨_, _, rfl, rfl, rfl⟩
  · exact .inr rfl

end Choices

end Lox.Machine
