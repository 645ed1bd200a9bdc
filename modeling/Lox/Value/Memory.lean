/-
The memory of a run.

Everything that can change while a program runs and is seen by more than one holder is
here: the frames, which functions remember and go on sharing, and the fields of the
instances.  Frames are reached through an `Env`, the row of the open ones; what lies
outside the memory reads as empty, and writing there changes nothing.

Names are looked up in two ways.  A global, or a name whose distance nobody knows, is
searched for from the innermost frame outwards (`read?`, `assign?`); a name with a
known distance is looked up in that frame and in no other (`readAt?`, `assignAt?`).
-/
import Lox.Value.Basic

namespace Lox

/-- Frames, the fields of instances, and what was handed out so far. -/
structure Memory where
  frames : Array (Bindings Value)
  fields : Array (Bindings Value)
  /-- The next identity of a function or a class. -/
  nextIdentity : Nat
  /-- How often the clock has been read. -/
  readings : Nat
  deriving Inhabited

namespace Memory

/-- The frame of the globals. -/
def globals : Env := [0]

/-- A memory with one empty frame. -/
def empty : Memory :=
  ⟨#[[]], #[], 0, 0⟩

/-- The memory in which a program starts: the built-in function is defined. -/
def initial : Memory :=
  ⟨#[[("clock", .clock)]], #[], 0, 0⟩

/-! ### Frames -/

/-- The contents of a frame. -/
def frame (m : Memory) (a : Address) : Bindings Value :=
  m.frames.getD a []

/-- Binds a name in the frame at an address. -/
def bindAt (m : Memory) (a : Address) (name : String) (value : Value) : Memory :=
  { m with frames := m.frames.modify a (Bindings.insert name value) }

/-- A new frame with the given contents; its address comes first. -/
def newFrame (m : Memory) (contents : Bindings Value) : Address × Memory :=
  (m.frames.size, { m with frames := m.frames.push contents })

/-- Binds a name in the innermost frame. -/
def define (m : Memory) (env : Env) (name : String) (value : Value) : Memory :=
  match env with
  | [] => m
  | a :: _ => m.bindAt a name value

/-- The innermost frame that binds a name. -/
def holder? (m : Memory) (env : Env) (name : String) : Option Address :=
  env.find? (fun a => (m.frame a).binds name)

/-- The frame exactly so many frames out, if it binds a name. -/
def holderAt? (m : Memory) (env : Env) (distance : Nat) (name : String) : Option Address :=
  match env[distance]? with
  | some a => if (m.frame a).binds name then some a else none
  | none => none

/-- What a name is bound to in the innermost frame that binds it. -/
def read? (m : Memory) (env : Env) (name : String) : Option Value :=
  env.findSome? (fun a => (m.frame a).get? name)

/-- What a name is bound to exactly so many frames out. -/
def readAt? (m : Memory) (env : Env) (distance : Nat) (name : String) : Option Value :=
  match env[distance]? with
  | some a => (m.frame a).get? name
  | none => none

/-- Changes a name in the innermost frame that binds it. -/
def assign? (m : Memory) (env : Env) (name : String) (value : Value) : Option Memory :=
  match m.holder? env name with
  | some a => some (m.bindAt a name value)
  | none => none

/-- Changes a name exactly so many frames out, if it is bound there. -/
def assignAt? (m : Memory) (env : Env) (distance : Nat) (name : String) (value : Value) :
    Option Memory :=
  match m.holderAt? env distance name with
  | some a => some (m.bindAt a name value)
  | none => none

/-! ### Instances and identities -/

/-- A new instance without fields; its address comes first. -/
def newObject (m : Memory) : Address × Memory :=
  (m.fields.size, { m with fields := m.fields.push [] })

/-- A field of the instance at an address. -/
def field? (m : Memory) (a : Address) (name : String) : Option Value :=
  (m.fields.getD a []).get? name

/-- Sets a field of the instance at an address. -/
def setField (m : Memory) (a : Address) (name : String) (value : Value) : Memory :=
  { m with fields := m.fields.modify a (Bindings.insert name value) }

/-- An identity that nothing else has. -/
def newIdentity (m : Memory) : Nat × Memory :=
  (m.nextIdentity, { m with nextIdentity := m.nextIdentity + 1 })

/-- A function value for a closure. -/
def newFunction (m : Memory) (closure : Closure) : Value × Memory :=
  let (identity, m) := m.newIdentity
  (.function identity closure, m)

/-- A method for one instance: a frame that binds `this` goes between the method and
the frames of its class. -/
def bindMethod (m : Memory) (method : Closure) (this : Value) : Closure × Memory :=
  let (a, m) := m.newFrame [("this", this)]
  ({ method with env := a :: method.env }, m)

/-- A method as a value of its own, bound to one instance. -/
def newMethod (m : Memory) (method : Closure) (this : Value) : Value × Memory :=
  let (bound, m) := m.bindMethod method this
  m.newFunction bound

/-! ### What reading sees after writing -/

theorem frame_bindAt (m : Memory) (a b : Address) (name : String) (value : Value) :
    (m.bindAt a name value).frame b
      = if a = b ∧ a < m.frames.size then (m.frame b).insert name value else m.frame b := by
  simp only [frame, bindAt, Array.getD_eq_getD_getElem?, Array.getElem?_modify]
  by_cases hab : a = b
  · subst hab
    by_cases ha : a < m.frames.size
    · simp [ha]
    · simp [ha]
  · simp [hab]

theorem frame_newFrame (m : Memory) (contents : Bindings Value) (b : Address) :
    (m.newFrame contents).2.frame b = if b = m.frames.size then contents else m.frame b := by
  simp only [frame, newFrame, Array.getD_eq_getD_getElem?, Array.getElem?_push]
  by_cases hb : b = m.frames.size <;> simp [hb]

theorem field?_setField (m : Memory) (a b : Address) (name other : String) (value : Value) :
    (m.setField a name value).field? b other
      = if a = b ∧ a < m.fields.size ∧ name = other then some value else m.field? b other := by
  simp only [field?, setField, Array.getD_eq_getD_getElem?, Array.getElem?_modify]
  by_cases hab : a = b
  · subst hab
    by_cases ha : a < m.fields.size
    · simp [ha, Bindings.get?_insert]
    · simp [ha]
  · simp [hab]

theorem field?_newObject (m : Memory) (b : Address) (name : String) :
    m.newObject.2.field? b name = m.field? b name := by
  simp only [field?, newObject, Array.getD_eq_getD_getElem?, Array.getElem?_push]
  by_cases hb : b = m.fields.size <;> simp [hb]

end Memory

end Lox
