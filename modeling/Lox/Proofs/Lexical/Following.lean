/-
The machine follows the reference.

The machine takes its steps with more and more work pending, and comes back to what was
pending before when it is done with a part of a program.  This is its base.  It follows an
evaluation if it comes back to the base with what the evaluation results in: with an alike
value, or else with the same failure.  And it has not ended by as many steps as the
evaluation had fuel, if that was too little.

Evaluations are put together with `bind`.  While the machine is with the first part there
is mostly one more task pending, which a failure drops.
-/
import Lox.Machine.Run
import Lox.Proofs.Lexical.Declarations

namespace Lox.Lexical

open Scope
open Machine (State Pending Control Completion)

/-! ### What the machine comes back to -/

/-- What is pending, in which surroundings, and how many calls are active. -/
structure Base where
  pending : List Pending
  env : Env
  depth : Nat

namespace Base

/-- The machine at its base. -/
def state (base : Base) (control : Control) (m : Memory) (sink : Machine.Sink) : State :=
  ⟨control, base.pending, base.env, base.depth, m, sink⟩

/-- With one more task. -/
def push (base : Base) (task : Pending) : Base :=
  { base with pending := task :: base.pending }

end Base

section Following

variable (clock : Nat → Float) (r : Resolution) {α β : Type}

/-- Every failure inside is passed on to the base. -/
def Passes (inner base : Base) : Prop :=
  ∀ failure m sink, ∃ steps, Machine.run ⟨r.locals, clock⟩ steps
    (inner.state (.complete (.failed failure)) m sink)
      = base.state (.complete (.failed failure)) m sink

/-- From a state on, the machine does what an evaluation with this result does. -/
inductive Follows (fuel : Nat) (base : Base) (goal : α → Store → State → Prop) (s : State) :
    Result α × Store → Prop
  | done {a : α} {t : Store} (steps : Nat)
      (h : goal a t (Machine.run ⟨r.locals, clock⟩ steps s)) :
      Follows fuel base goal s (.done a, t)
  | failed {failure : Failure} {t : Store} {w : Layout} {m : Memory} {sink : Machine.Sink}
      (steps : Nat)
      (hrun : Machine.run ⟨r.locals, clock⟩ steps s
        = base.state (.complete (.failed failure)) m sink)
      (hresolution : w.resolution = r) (hagrees : Agrees w t m sink) :
      Follows fuel base goal s (.failed failure, t)
  | outOfFuel {t : Store} (h : (Machine.run ⟨r.locals, clock⟩ fuel s).ended? = none) :
      Follows fuel base goal s (.outOfFuel, t)

end Following

/-! ### How it goes on -/

section Steps

variable {clock : Nat → Float} {r : Resolution} {α β : Type} {fuel : Nat} {base inner : Base}
  {goal : α → Store → State → Prop} {goal' : β → Store → State → Prop} {s : State}
  {result : Result α × Store} {t : Store}

/-- A run that has not ended had not ended before. -/
theorem not_ended_of_le {m n : Nat} (hle : m ≤ n)
    (h : (Machine.run ⟨r.locals, clock⟩ n s).ended? = none) :
    (Machine.run ⟨r.locals, clock⟩ m s).ended? = none := by
  cases hended : (Machine.run ⟨r.locals, clock⟩ m s).ended? with
  | none => rfl
  | some c =>
      rw [Machine.run_mono hle hended, hended] at h
      cases h

theorem Passes.refl (base : Base) : Passes clock r base base :=
  fun _ _ _ => ⟨0, rfl⟩

theorem Follows.here {a : α} (h : goal a t s) : Follows clock r fuel base goal s (.done a, t) :=
  .done 0 h

theorem Follows.fail {w : Layout} {m : Memory} {sink : Machine.Sink} {failure : Failure}
    (hresolution : w.resolution = r) (hagrees : Agrees w t m sink) :
    Follows clock r fuel base goal (base.state (.complete (.failed failure)) m sink)
      (.failed failure, t) :=
  .failed 0 rfl hresolution hagrees

theorem Follows.imp {goal' : α → Store → State → Prop} (h : Follows clock r fuel base goal s result)
    (himp : ∀ a t s, goal a t s → goal' a t s) : Follows clock r fuel base goal' s result := by
  cases h with
  | done steps h => exact .done steps (himp _ _ _ h)
  | failed steps hrun hresolution hagrees => exact .failed steps hrun hresolution hagrees
  | outOfFuel h => exact .outOfFuel h

/-- What follows from a later state on, follows from an earlier one. -/
theorem Follows.after (steps : Nat)
    (h : Follows clock r fuel base goal (Machine.run ⟨r.locals, clock⟩ steps s) result) :
    Follows clock r fuel base goal s result := by
  cases h with
  | done steps' h =>
      rw [← Machine.run_add] at h
      exact .done _ h
  | failed steps' hrun hresolution hagrees =>
      rw [← Machine.run_add] at hrun
      exact .failed _ hrun hresolution hagrees
  | outOfFuel h =>
      rw [← Machine.run_add] at h
      exact .outOfFuel (not_ended_of_le (Nat.le_add_left _ _) h)

/-- A step of the machine makes up for one more unit of fuel. -/
theorem Follows.step
    (h : Follows clock r fuel base goal (Machine.step ⟨r.locals, clock⟩ s) result) :
    Follows clock r (fuel + 1) base goal s result := by
  cases h with
  | done steps h =>
      rw [← Machine.run_succ] at h
      exact .done _ h
  | failed steps hrun hresolution hagrees =>
      rw [← Machine.run_succ] at hrun
      exact .failed _ hrun hresolution hagrees
  | outOfFuel h =>
      rw [← Machine.run_succ] at h
      exact .outOfFuel h

/-- A step of the machine of which the reference takes no notice. -/
theorem Follows.skip
    (h : Follows clock r fuel base goal (Machine.step ⟨r.locals, clock⟩ s) result) :
    Follows clock r fuel base goal s result := by
  refine .after 1 ?_
  rw [Machine.run_succ]
  exact h

theorem Follows.bind {p : Action α} {f : α → Action β} (hpasses : Passes clock r inner base)
    (hp : Follows clock r fuel inner goal s (p t))
    (hf : ∀ a t' s', goal a t' s' → Follows clock r fuel base goal' s' (f a t')) :
    Follows clock r fuel base goal' s ((p >>= f) t) := by
  show Follows clock r fuel base goal' s (Action.bind p f t)
  unfold Action.bind
  generalize p t = result at hp
  cases hp with
  | done steps h => exact .after steps (hf _ _ _ h)
  | @failed failure t' w m sink steps hrun hresolution hagrees =>
      obtain ⟨steps', hsteps'⟩ := hpasses failure m sink
      refine .failed (steps + steps') ?_ hresolution hagrees
      rw [Machine.run_add, hrun, hsteps']
  | outOfFuel h => exact .outOfFuel h

end Steps

/-! ### Places and results -/

/-- The reference and the machine have come to the same place, and nothing differs. -/
structure Together (r : Resolution) (w : Layout) (t : Store) (m : Memory) (sink : Machine.Sink)
    (scopes : Scopes) (visible : Visible) (top : Address) (env : Env) : Prop where
  resolution : w.resolution = r
  agrees : Agrees w t m sink
  here : Here w m scopes visible top env

/-- The machine is at its base with a value that is alike. -/
inductive Gives (base : Base) (bound : Address) (w : Layout) (m : Memory) :
    Value Visible → Store → State → Prop
  | intro {w' : Layout} {t' : Store} {m' : Memory} {sink' : Machine.Sink} {v : Value Visible}
      {v' : Value} (hlater : Later bound w m w' m') (hagrees : Agrees w' t' m' sink')
      (halike : Alike w' v v') :
      Gives base bound w m v t' (base.state (.value v') m' sink')

section Places

variable {clock : Nat → Float} {r : Resolution} {fuel : Nat} {base : Base} {bound : Address}
  {w w' w₀ : Layout} {t t' : Store} {m m' m₀ : Memory} {sink sink' : Machine.Sink}
  {scopes : Scopes} {visible : Visible} {top : Address} {env : Env} {control : Control}

theorem Together.later (h : Together r w t m sink scopes visible top env)
    (hlater : Later (top + 1) w m w' m') (hagrees : Agrees w' t' m' sink') :
    Together r w' t' m' sink' scopes visible top env :=
  ⟨hlater.resolution.trans h.resolution, hagrees, h.here.later hlater⟩

/-- From what has already happened since, a value is given. -/
theorem Gives.since {v : Value Visible} {s : State} (h : Gives base bound w m v t s)
    (hlater : Later bound w₀ m₀ w m) : Gives base bound w₀ m₀ v t s := by
  cases h with
  | intro hlater' hagrees halike => exact .intro (hlater.trans hlater') hagrees halike

/-! ### Operators and variables -/

theorem follows_operate {operator : Token} {result : Except Failure.Cause (Value Visible)}
    {result' : Except Failure.Cause Value} (hresolution : w.resolution = r)
    (hagrees : Agrees w t m sink) (hlater : Later bound w₀ m₀ w m)
    (h : ResultAlike w result result') :
    Follows clock r fuel base (Gives base bound w₀ m₀)
      (Machine.operate (base.state control m sink) operator result')
      (Action.operate operator result t) := by
  cases h with
  | ok h => exact .here (.intro hlater hagrees h)
  | error cause => exact .fail hresolution hagrees

/-- Where a name has its value is where the distance of an occurrence leads. -/
theorem Sees.leads {occurrence : Occurrence} (hsees : Sees w.slots scopes visible env)
    (h : r.Refers scopes occurrence) (m : Memory) :
    ∃ a, Stands w.slots (visible.meaning occurrence.name.lexeme) a occurrence.name.lexeme ∧
      ∀ (control : Control) (pending : List Pending) (depth : Nat) (sink : Machine.Sink),
        Machine.lookup ⟨r.locals, clock⟩ ⟨control, pending, env, depth, m, sink⟩ occurrence
            = (match (m.frame a).get? occurrence.name.lexeme with
              | some v => ⟨.value v, pending, env, depth, m, sink⟩
              | none => ⟨.complete (.failed ⟨occurrence.name,
                  .undefinedVariable occurrence.name.lexeme⟩), pending, env, depth, m, sink⟩) ∧
        Machine.locate ⟨r.locals, clock⟩ ⟨control, pending, env, depth, m, sink⟩ occurrence
            = if (m.frame a).binds occurrence.name.lexeme then some a else none := by
  cases hdistance : scopes.distance? occurrence.name.lexeme with
  | none =>
      refine ⟨0, hsees.stands_free hdistance, fun control pending depth sink => ⟨?_, ?_⟩⟩
      · have hread : m.read? Memory.globals occurrence.name.lexeme
            = (m.frame 0).get? occurrence.name.lexeme := by
          rw [Memory.read?, Memory.globals, List.findSome?_singleton]
        unfold Machine.lookup
        simp only [h.distance, hdistance, hread]
        rfl
      · unfold Machine.locate
        simp only [h.distance, hdistance, Memory.holder?, Memory.globals, List.find?_singleton]
  | some distance =>
      obtain ⟨a, ha, hstands⟩ := hsees.stands_bound hdistance
      refine ⟨a, hstands, fun control pending depth sink => ⟨?_, ?_⟩⟩
      · unfold Machine.lookup
        simp only [h.distance, hdistance, Memory.readAt?, ha]
        rfl
      · unfold Machine.locate
        simp only [h.distance, hdistance, Memory.holderAt?, ha]

/-- Reading a variable changes nothing. -/
theorem follows_read {occurrence : Occurrence}
    (h : Together r w t m sink scopes visible top base.env) (hrefers : r.Refers scopes occurrence) :
    Follows clock r fuel base
      (fun v t' s => t' = t ∧ ∃ v', s = base.state (.value v') m sink ∧ Alike w v v')
      (Machine.lookup ⟨r.locals, clock⟩ (base.state control m sink) occurrence)
      (read visible occurrence.name t) := by
  obtain ⟨a, hstands, hleads⟩ := h.here.sees.leads hrefers m
  have hvalue := h.agrees.values _ _ _ hstands
  rw [Base.state, (hleads _ _ _ _).1, read]
  generalize t.value? (visible.meaning occurrence.name.lexeme) = found at hvalue ⊢
  generalize (m.frame a).get? occurrence.name.lexeme = found' at hvalue ⊢
  cases hvalue with
  | none => exact .fail h.resolution h.agrees
  | some halike => exact .here ⟨rfl, _, rfl, halike⟩

theorem follows_use {occurrence : Occurrence}
    (h : Together r w t m sink scopes visible top base.env) (hrefers : r.Refers scopes occurrence) :
    Follows clock r fuel base (Gives base bound w m)
      (Machine.lookup ⟨r.locals, clock⟩ (base.state control m sink) occurrence)
      (read visible occurrence.name t) := by
  refine (follows_read h hrefers).imp fun v t' s hread => ?_
  obtain ⟨rfl, v', rfl, halike⟩ := hread
  exact .intro (.refl _ _ _) h.agrees halike

/-- Changing a variable. -/
theorem follows_write {occurrence : Occurrence} {v : Value Visible} {v' : Value}
    (h : Together r w t m sink scopes visible top base.env) (hrefers : r.Refers scopes occurrence)
    (hv : Alike w v v') :
    Follows clock r fuel base (Gives base bound w m)
      (Machine.assign ⟨r.locals, clock⟩ (base.state control m sink) occurrence v')
      (write visible occurrence.name v t) := by
  obtain ⟨a, hstands, hleads⟩ := h.here.sees.leads hrefers m
  have hvalue := h.agrees.values _ _ _ hstands
  rw [Base.state, Machine.assign, (hleads _ _ _ _).2, write, Bindings.binds]
  generalize t.value? (visible.meaning occurrence.name.lexeme) = found at hvalue ⊢
  generalize (m.frame a).get? occurrence.name.lexeme = found' at hvalue ⊢
  cases hvalue with
  | none => exact .fail h.resolution h.agrees
  | some halike =>
      have hsame : Later bound w m w (m.bindAt a occurrence.name.lexeme v') :=
        .same (Memory.size_bindAt _ _ _ _).symm
      exact .here (.intro hsame (h.agrees.put hstands hv) hv)

/-! ### Instances -/

/-- A method of an instance, as a value. -/
theorem follows_newMethod {method : Closure Visible} {method' : Closure} {this : Value Visible}
    {this' : Value} (hagrees : Agrees w t m sink) (hbound : bound ≤ m.frames.size)
    (hmethod : MethodAlike w method method') (hthis : Alike w this this') :
    Follows clock r fuel base (Gives base bound w m)
      (base.state (.value (m.newMethod method' this').1) (m.newMethod method' this').2 sink)
      (newMethod method this t) := by
  obtain ⟨w', t', v, hnew, hlater, hagrees', halike⟩ := hmethod.new hthis hagrees
  rw [hnew]
  exact .here (.intro (hlater.mono hbound) hagrees' halike)

theorem follows_getProperty {v : Value Visible} {v' : Value} {name : Token}
    (hresolution : w.resolution = r) (hagrees : Agrees w t m sink) (hbound : bound ≤ m.frames.size)
    (hv : Alike w v v') :
    Follows clock r fuel base (Gives base bound w m)
      (Machine.getProperty (base.state control m sink) v' name) (getProperty v name t) := by
  cases hv with
  | @object address c c' h =>
      have hfield := hagrees.fields address name.lexeme
      have hmethod := h.find? name.lexeme
      unfold Machine.getProperty getProperty Base.state
      dsimp only
      generalize t.field? address name.lexeme = field at hfield ⊢
      generalize m.field? address name.lexeme = field' at hfield ⊢
      cases hfield with
      | some halike => exact .here (.intro (.refl _ _ _) hagrees halike)
      | none =>
          generalize c.find? name.lexeme = method at hmethod ⊢
          generalize c'.find? name.lexeme = method' at hmethod ⊢
          cases hmethod with
          | none => exact .fail hresolution hagrees
          | some hmethod => exact follows_newMethod hagrees hbound hmethod (.object address h)
  | _ =>
      unfold Machine.getProperty getProperty
      exact .fail hresolution hagrees

theorem follows_setField {v : Value Visible} {v' : Value} {address : Address} {name : Token}
    (hagrees : Agrees w t m sink) (hv : Alike w v v') :
    Follows clock r fuel base (Gives base bound w m)
      (base.state (.value v') (m.setField address name.lexeme v') sink)
      (setField address name v t) :=
  .here (.intro (.same rfl) (hagrees.setField address name.lexeme hv) hv)

/-- The two frames that bind `super` and `this` are where the scopes say. -/
theorem follows_inherited {keyword : Occurrence} {method : Token} {distance : Nat}
    (h : Together r w t m sink scopes visible top base.env) (hbound : bound ≤ m.frames.size)
    (hname : keyword.name.lexeme = "super") (hrefers : r.Refers scopes keyword)
    (hthis : scopes.distance? "this" = some distance)
    (hsuper : scopes.distance? "super" = some (distance + 1)) :
    Follows clock r fuel base (Gives base bound w m)
      (Machine.inheritedMethod ⟨r.locals, clock⟩ (base.state control m sink) keyword method)
      (inheritedMethod visible keyword method t) := by
  obtain ⟨a, ha, hstands⟩ := h.here.sees.stands_bound hsuper
  obtain ⟨b, hb, hstands'⟩ := h.here.sees.stands_bound hthis
  have habove := h.agrees.values _ _ _ hstands
  have hobject := h.agrees.values _ _ _ hstands'
  have hdistance := hrefers.distance
  rw [hname, hsuper] at hdistance
  simp only [Machine.inheritedMethod, inheritedMethod, Base.state, hdistance, Memory.readAt?, ha,
    Nat.add_sub_cancel, hb]
  generalize t.value? (visible.meaning "super") = above at habove ⊢
  generalize (m.frame a).get? "super" = above' at habove ⊢
  generalize t.value? (visible.meaning "this") = object at hobject ⊢
  generalize (m.frame b).get? "this" = object' at hobject ⊢
  have hfails : ∀ {s : State}, s = base.state (.complete (.failed ⟨keyword.name, .superNotBound⟩))
      m sink → Follows clock r fuel base (Gives base bound w m) s
        (.failed ⟨keyword.name, .superNotBound⟩, t) := by
    rintro s rfl
    exact .fail h.resolution h.agrees
  cases habove with
  | none => exact hfails rfl
  | some habove =>
      cases habove with
      | @classValue c c' habove =>
          cases hobject with
          | none => exact hfails rfl
          | some hobject =>
              cases hobject with
              | object address hclass =>
                  have hmethod := habove.find? method.lexeme
                  dsimp only
                  generalize c.find? method.lexeme = found at hmethod ⊢
                  generalize c'.find? method.lexeme = found' at hmethod ⊢
                  cases hmethod with
                  | none => exact .fail h.resolution h.agrees
                  | some hmethod =>
                      exact follows_newMethod h.agrees hbound hmethod (.object address hclass)
              | _ => exact hfails rfl
      | _ => exact hfails rfl

end Places

end Lox.Lexical
