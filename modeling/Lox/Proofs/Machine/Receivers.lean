/-
What initializers are bound to, and which instances there are.

The methods in the table of a class are bound to nothing, but no step hands one out as it is: a
method becomes a value of its own together with a new frame that binds `this` to an instance.
No step binds `this` anew after that, so whatever initializer a state holds has an instance to
yield, and it stays the same one.  Instances are numbered as they are made, so what is made next
is none of those that a state holds (`step_founded`).
-/
import Lox.Proofs.Machine.Holding
import Lox.Proofs.Machine.Keeping

namespace Lox

/-- The innermost frame that a function remembers binds `this` to an instance. -/
def Closure.Receives (m : Memory) (closure : Closure) (address : Address) (class_ : Class) :
    Prop :=
  ∃ a outer, closure.env = a :: outer ∧
    (m.frame a).get? "this" = some (.object address class_)

/-- An instance has been made, and an initializer is bound to an instance. -/
def Value.Founded (m : Memory) : Value → Prop
  | .function _ closure =>
      closure.isInitializer = true → ∃ address class_, closure.Receives m address class_
  | .object address _ => address < m.fields.size
  | _ => True

section Keeping

variable {m m' : Memory}

/-- A function stays bound to the instance that it is bound to. -/
theorem Closure.Receives.keep {closure : Closure} {address : Address} {class_ : Class}
    (h : closure.Receives m address class_) (hkeeps : m.Keeps m') :
    closure.Receives m' address class_ := by
  obtain ⟨a, outer, henv, hthis⟩ := h
  have hbinds : (m.frame a).binds "this" = true := by rw [Bindings.binds, hthis, Option.isSome_some]
  refine ⟨a, outer, henv, ?_⟩
  rw [hkeeps.same a "this" (Memory.lt_size_of_binds hbinds) fun hname => hname.1 rfl, hthis]

theorem Value.Founded.keep {v : Value} (h : v.Founded m) (hchanges : m.Changes m') :
    v.Founded m' := by
  cases v with
  | function identity closure =>
      intro hflag
      obtain ⟨address, class_, hreceives⟩ := h hflag
      exact ⟨address, class_, hreceives.keep hchanges.keeps⟩
  | object address class_ => exact Nat.lt_of_lt_of_le h hchanges.size_fields
  | _ => trivial

theorem Value.founded_of_plain {v : Value} (h : v.isPlain = true) : v.Founded m := by
  cases v with
  | function | classValue | object => exact absurd h Bool.false_ne_true
  | _ => trivial

/-- A method that is taken from a class is bound to the instance that it is taken for. -/
theorem Memory.receives_newMethod (m : Memory) (method : Closure) (address : Address)
    (class_ : Class) :
    Closure.Receives (m.newMethod method (.object address class_)).2
      (m.bindMethod method (.object address class_)).1 address class_ := by
  refine ⟨m.frames.size, method.env, rfl, ?_⟩
  show ((m.newFrame [("this", .object address class_)]).2.frame m.frames.size).get? "this" = _
  rw [Memory.frame_newFrame, if_pos rfl]
  rfl

end Keeping

namespace Machine

variable {setting : Setting} {r : Scope.Resolution} {s : State}

/-! ### What a step makes -/

/-- All instances that a state holds have been made, and all initializers that it holds are bound
to instances. -/
abbrev State.Founded (s : State) : Prop :=
  s.Only (Value.Founded s.memory)

/-- What is made of a class is a method that is bound, or an instance that is there from then
on. -/
theorem makes_founded (m m' : Memory) : Makes (Value.Founded m') m m' := by
  refine ⟨fun v hv => Value.founded_of_plain hv,
    fun class_ own name closure address _ _ hmemory => ?_, fun class_ _ hfields => ?_⟩
  · subst hmemory
    exact fun _ => ⟨address, own, m.receives_newMethod closure address own⟩
  · show m.fields.size < m'.fields.size
    rw [hfields, Memory.size_fields_newObject]
    exact Nat.lt_succ_self _

/-- **No step hands out an initializer that is bound to nothing**, or an instance that was not
made. -/
theorem step_founded (hsound : s.Sound r) (h : s.Founded) :
    (step setting s).Founded := by
  have hkept : s.Only (Value.Founded (step setting s).memory) :=
    h.mono fun v hv => hv.keep (step_changes hsound)
  exact step_only hkept (makes_founded _ _) (fun _ _ _ hflag => absurd hflag Bool.false_ne_true)
    (fun _ _ _ _ => trivial) fun _ _ _ _ _ _ _ _ _ => trivial

end Machine

end Lox
