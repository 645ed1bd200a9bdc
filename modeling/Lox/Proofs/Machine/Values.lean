/-
What is true of all functions that a state holds.

A step makes functions in three ways: it declares one, it makes a class with its methods,
or it takes a method from an instance and binds it.  Everything else passes values on.  So
a property of closures holds of all functions in a state once it holds of those that are
declared (`step_all`).  A method on its own is not a function yet; of a method the property
is asked for every frame that may come to bind `this`.
-/
import Lox.Proofs.Machine.Holding

namespace Lox

section Definitions

variable (P : Closure → Prop)

/-- However the method is bound, the function has the property. -/
def Closure.Binds (closure : Closure) : Prop :=
  ∀ a, P { closure with env := a :: closure.env }

/-- All methods of a class, also those that it inherits. -/
def Class.All (c : Class) : Prop :=
  ∀ layer ∈ c.layers, ∀ name closure, layer.methods.get? name = some closure → closure.Binds P

/-- All functions that can be reached from a value without the memory. -/
def Value.All : Value → Prop
  | .function _ closure => P closure
  | .classValue class_ => class_.All P
  | .object _ class_ => class_.All P
  | _ => True

/-- All functions that variables and fields hold. -/
structure Memory.All (m : Memory) : Prop where
  frames : ∀ a name v, (m.frame a).get? name = some v → v.All P
  fields : ∀ a name v, m.field? a name = some v → v.All P

namespace Machine

/-- All functions that are kept in pending work. -/
def Pending.All : Pending → Prop
  | .rightOperand _ left => left.All P
  | .argument function _ before _ => function.All P ∧ ∀ v ∈ before, v.All P
  | .leaveCall _ (.fixed v) => v.All P
  | _ => True

/-- All functions in what is being done. -/
def Control.All : Control → Prop
  | .value v => v.All P
  | .complete (.returned v) => v.All P
  | _ => True

/-- All functions that a state holds. -/
structure State.All (s : State) : Prop where
  memory : s.memory.All P
  control : s.control.All P
  pending : ∀ task ∈ s.pending, task.All P

end Machine

end Definitions

variable {P P' : Closure → Prop}

/-! ### Functions and other values -/

/-- All functions of a state are those that can be reached from its values. -/
theorem Memory.all_iff {m : Memory} : m.All P ↔ m.Only (Value.All P) :=
  ⟨fun h => ⟨h.frames, h.fields⟩, fun h => ⟨h.frames, h.fields⟩⟩

theorem Memory.All.initial : Memory.initial.All P :=
  Memory.all_iff.mpr (.initial trivial)

namespace Machine

theorem Pending.all_iff {task : Pending} : task.All P ↔ task.Only (Value.All P) := by
  cases task with
  | leaveCall env answer => cases answer <;> exact Iff.rfl
  | _ => exact Iff.rfl

theorem Control.all_iff {control : Control} : control.All P ↔ control.Only (Value.All P) := by
  cases control with
  | complete c => cases c <;> exact Iff.rfl
  | _ => exact Iff.rfl

theorem State.all_iff {s : State} : s.All P ↔ s.Only (Value.All P) := by
  constructor
  · intro h
    exact ⟨Memory.all_iff.mp h.memory, Control.all_iff.mp h.control,
      fun task htask => Pending.all_iff.mp (h.pending task htask)⟩
  · intro h
    exact ⟨Memory.all_iff.mpr h.memory, Control.all_iff.mpr h.control,
      fun task htask => Pending.all_iff.mpr (h.pending task htask)⟩

end Machine

/-! ### A weaker property -/

section Mono

variable (hmono : ∀ closure, P closure → P' closure)

include hmono

theorem Class.All.mono {c : Class} (h : c.All P) : c.All P' :=
  fun layer hlayer name closure hmethod a => hmono _ (h layer hlayer name closure hmethod a)

theorem Value.All.mono {v : Value} (h : v.All P) : v.All P' := by
  cases v with
  | function identity closure => exact hmono _ h
  | classValue class_ => exact Class.All.mono hmono h
  | object address class_ => exact Class.All.mono hmono h
  | _ => trivial

theorem Machine.State.All.mono {s : Machine.State} (h : s.All P) : s.All P' :=
  State.all_iff.mpr ((State.all_iff.mp h).mono fun _ hv => hv.mono hmono)

end Mono

/-! ### Methods and classes -/

theorem Class.All.find {c : Class} {name : String} {closure : Closure} (h : c.All P)
    (hfind : c.find? name = some closure) : closure.Binds P := by
  obtain ⟨layer, hlayer, hmethod⟩ := List.exists_of_findSome?_eq_some hfind
  exact h layer hlayer name closure hmethod

/-- A class is made of its own methods and of what its superclass has. -/
theorem Class.all_of_methods {identity : Nat} {name : Token} {env : Env}
    {methods : List FunctionDecl} {inherited : List ClassLayer}
    (hmethods : ∀ f ∈ methods,
      (⟨f, env, f.name.lexeme = initializerName⟩ : Closure).Binds P)
    (hsuper : ∀ layer ∈ inherited, ∀ name closure, layer.methods.get? name = some closure →
      closure.Binds P) :
    (Machine.declaredClass identity name env methods inherited).All P := by
  intro layer hlayer method closure hclosure
  rcases List.mem_cons.mp hlayer with rfl | hlayer
  · obtain ⟨f, hf, rfl⟩ := Machine.get?_methodTable hclosure
    exact hmethods f hf
  · exact hsuper layer hlayer method closure hclosure

namespace Machine

variable {setting : Setting} {s : State}

/-- What is made of a class that has the property has it too. -/
theorem makes_all (P : Closure → Prop) (m m' : Memory) : Makes (Value.All P) m m' := by
  refine ⟨fun v hv => ?_, fun class_ own name closure address hholder hfind _ => ?_,
    fun class_ hclass _ => hclass⟩
  · cases v with
    | function | classValue | object => exact absurd hv Bool.false_ne_true
    | _ => trivial
  · rcases hholder with hclass | ⟨a, hclass⟩
    · exact Class.All.find hclass hfind _
    · exact Class.All.find hclass hfind _

/-- **A property of all functions that are declared is one of all functions in a state.** -/
theorem step_all (h : s.All P)
    (hfunction : ∀ declaration, s.control = .execute (.function declaration) →
      P ⟨declaration, s.env, false⟩)
    (hplain : ∀ name methods, s.control = .execute (.classDecl name none methods) →
      ∀ f ∈ methods, (⟨f, s.env, f.name.lexeme = initializerName⟩ : Closure).Binds P)
    (hderived : ∀ class_ name occurrence methods below, s.control = .value (.classValue class_) →
      s.pending = .inherit name occurrence methods :: below →
      (step setting s).control = .complete .normal → ∀ f ∈ methods,
        (⟨f, s.memory.frames.size :: s.env, f.name.lexeme = initializerName⟩ : Closure).Binds P) :
    (step setting s).All P := by
  have hvalues : s.Only (Value.All P) := State.all_iff.mp h
  refine State.all_iff.mpr (step_only hvalues (makes_all P _ _)
    (fun declaration hcontrol _ => hfunction declaration hcontrol)
    (fun name methods hcontrol _ => ?_)
    fun class_ name occurrence methods below hcontrol hpending hdone _ => ?_)
  · exact Class.all_of_methods (hplain name methods hcontrol) (by simp)
  · have hclass := hvalues.control
    rw [hcontrol] at hclass
    exact Class.all_of_methods
      (hderived class_ name occurrence methods below hcontrol hpending hdone) hclass

end Machine

end Lox
