/-
Values whose names are resolved.

A function value is code and frames; it makes sense only if the code is resolved in
scopes that these frames match.  The methods of a class lack the frame that binds
`this`, which they get when they are taken from an instance.  A memory is in order if
everything that can be reached through it is, and if `this` is only ever bound to an
instance and `super` to a class.
-/
import Lox.Machine.Step
import Lox.Proofs.Machine.Frames
import Lox.Proofs.Scope.Resolved

namespace Lox

open Scope

section Definitions

variable (r : Resolution) (m : Memory)

/-- A function that can be called. -/
def Closure.Scoped (closure : Closure) : Prop :=
  ∃ scopes, Matches m scopes closure.env ∧ scopes.Settled ∧
    ResolvedFunction r scopes closure.declaration

/-- A method, which can be bound to an instance. -/
def Closure.ScopedMethod (closure : Closure) : Prop :=
  ∃ scopes, Matches m scopes closure.env ∧ scopes.Settled ∧
    ResolvedFunction r (thisNames :: scopes) closure.declaration

/-- A class with all its methods, also those that it inherits. -/
def Class.Scoped (c : Class) : Prop :=
  ∀ layer ∈ c.layers, ∀ name closure, layer.methods.get? name = some closure →
    closure.ScopedMethod r m

/-- A value that programs can work with. -/
def Value.Scoped : Value → Prop
  | .function _ closure => closure.Scoped r m
  | .classValue class_ => class_.Scoped r m
  | .object _ class_ => class_.Scoped r m
  | _ => True

/-- A value that a variable of the given name can have. -/
def Value.Fits (name : String) (v : Value) : Prop :=
  (name = "this" → ∃ address class_, v = .object address class_) ∧
    (name = "super" → ∃ class_, v = .classValue class_)

/-- A memory in which everything is in order. -/
structure Memory.Scoped : Prop where
  frames : ∀ a name v, (m.frame a).get? name = some v → v.Scoped r m ∧ v.Fits name
  fields : ∀ a name v, m.field? a name = some v → v.Scoped r m

end Definitions

theorem Value.fits_of_ordinary {name : String} (h : Ordinary name) (v : Value) : v.Fits name :=
  ⟨fun heq => absurd heq h.1, fun heq => absurd heq h.2⟩

/-! ### What is in order stays in order -/

section Mono

variable {r r' : Resolution} {m m' : Memory} {target : Option Address}

theorem Closure.Scoped.mono {closure : Closure} (h : closure.Scoped r m) (hext : r.Extends r')
    (hgrows : m.Grows target m') : closure.Scoped r' m' := by
  obtain ⟨scopes, hmatches, hsettled, hresolved⟩ := h
  exact ⟨scopes, hmatches.grow hgrows, hsettled, hresolved.extend hext⟩

theorem Closure.ScopedMethod.mono {closure : Closure} (h : closure.ScopedMethod r m)
    (hext : r.Extends r') (hgrows : m.Grows target m') : closure.ScopedMethod r' m' := by
  obtain ⟨scopes, hmatches, hsettled, hresolved⟩ := h
  exact ⟨scopes, hmatches.grow hgrows, hsettled, hresolved.extend hext⟩

theorem Class.Scoped.mono {c : Class} (h : c.Scoped r m) (hext : r.Extends r')
    (hgrows : m.Grows target m') : c.Scoped r' m' := by
  intro layer hlayer name closure hmethod
  exact (h layer hlayer name closure hmethod).mono hext hgrows

theorem Value.Scoped.mono {v : Value} (h : v.Scoped r m) (hext : r.Extends r')
    (hgrows : m.Grows target m') : v.Scoped r' m' := by
  cases v with
  | function identity closure => exact Closure.Scoped.mono h hext hgrows
  | classValue class_ => exact Class.Scoped.mono h hext hgrows
  | object address class_ => exact Class.Scoped.mono h hext hgrows
  | _ => trivial

theorem Value.Scoped.grow {v : Value} (h : v.Scoped r m) (hgrows : m.Grows target m') :
    v.Scoped r m' :=
  h.mono (.refl r) hgrows

/-- More resolved occurrences leave a memory in order. -/
theorem Memory.Scoped.extend (h : m.Scoped r) (hext : r.Extends r') : m.Scoped r' := by
  refine ⟨fun a name v hv => ?_, fun a name v hv => ?_⟩
  · obtain ⟨hscoped, hfits⟩ := h.frames a name v hv
    exact ⟨hscoped.mono hext (.refl none m), hfits⟩
  · exact (h.fields a name v hv).mono hext (.refl none m)

end Mono

/-! ### Changes of the memory -/

namespace Memory.Scoped

variable {r : Resolution} {m : Memory} {env : Env} {name : String} {v : Value}

theorem readAt {distance : Nat} (h : m.Scoped r) (hv : m.readAt? env distance name = some v) :
    v.Scoped r m ∧ v.Fits name := by
  unfold Memory.readAt? at hv
  split at hv
  · exact h.frames _ name v hv
  · exact absurd hv (by simp)

theorem read (h : m.Scoped r) (hv : m.read? env name = some v) : v.Scoped r m := by
  obtain ⟨a, -, ha⟩ := List.exists_of_findSome?_eq_some hv
  exact (h.frames a name v ha).1

/-- Another memory is in order if it has grown and what it holds is old or in order. -/
theorem of_grows {m' : Memory} {target : Option Address} (h : m.Scoped r)
    (hgrows : m.Grows target m')
    (hframes : ∀ a name v, (m'.frame a).get? name = some v →
      (m.frame a).get? name = some v ∨ (v.Scoped r m' ∧ v.Fits name))
    (hfields : ∀ a name v, m'.field? a name = some v →
      m.field? a name = some v ∨ v.Scoped r m') : m'.Scoped r := by
  refine ⟨fun a name v hv => ?_, fun a name v hv => ?_⟩
  · rcases hframes a name v hv with hold | hnew
    · obtain ⟨hscoped, hfits⟩ := h.frames a name v hold
      exact ⟨hscoped.grow hgrows, hfits⟩
    · exact hnew
  · rcases hfields a name v hv with hold | hnew
    · exact (h.fields a name v hold).grow hgrows
    · exact hnew

/-- The value may be a function that refers to itself by the name. -/
theorem bindAt (h : m.Scoped r) {a : Address} (hv : v.Scoped r (m.bindAt a name v))
    (hfits : v.Fits name) : (m.bindAt a name v).Scoped r := by
  have hgrows := m.grows_bindAt a name v
  refine h.of_grows hgrows (fun b other w hw => ?_) (fun b other w hw => Or.inl hw)
  rw [frame_bindAt] at hw
  by_cases hab : a = b ∧ a < m.frames.size
  · rw [if_pos hab, Bindings.get?_insert] at hw
    by_cases hname : name = other
    · rw [if_pos hname] at hw
      obtain rfl := Option.some.inj hw
      subst hname
      exact Or.inr ⟨hv, hfits⟩
    · rw [if_neg hname] at hw
      exact Or.inl hw
  · rw [if_neg hab] at hw
    exact Or.inl hw

theorem define (h : m.Scoped r) (hv : v.Scoped r (m.define env name v)) (hfits : v.Fits name) :
    (m.define env name v).Scoped r := by
  cases env with
  | nil => exact h
  | cons a outer => exact h.bindAt hv hfits

theorem newFrame {contents : Bindings Value} (h : m.Scoped r)
    (hcontents : ∀ name v, contents.get? name = some v → v.Scoped r m ∧ v.Fits name) :
    (m.newFrame contents).2.Scoped r := by
  have hgrows : m.Grows none (m.newFrame contents).2 := m.grows_newFrame contents
  refine h.of_grows hgrows (fun a name v hv => ?_) (fun a name v hv => Or.inl hv)
  rw [frame_newFrame] at hv
  by_cases ha : a = m.frames.size
  · rw [if_pos ha] at hv
    obtain ⟨hscoped, hfits⟩ := hcontents name v hv
    exact Or.inr ⟨hscoped.grow hgrows, hfits⟩
  · rw [if_neg ha] at hv
    exact Or.inl hv

theorem setField (h : m.Scoped r) (address : Address) (hv : v.Scoped r m) :
    (m.setField address name v).Scoped r := by
  have hgrows : m.Grows none (m.setField address name v) := .of_frames rfl
  refine h.of_grows hgrows (fun a other w hw => Or.inl hw) (fun a other w hw => ?_)
  rw [field?_setField] at hw
  split at hw
  · obtain rfl := Option.some.inj hw
    exact Or.inr (hv.grow hgrows)
  · exact Or.inl hw

theorem newObject (h : m.Scoped r) : m.newObject.2.Scoped r := by
  have hgrows : m.Grows none m.newObject.2 := .of_frames rfl
  refine h.of_grows hgrows (fun a other w hw => Or.inl hw) (fun a other w hw => Or.inl ?_)
  rwa [field?_newObject] at hw

/-- Handing out identities and reading the clock is not about frames or fields. -/
theorem of_same {m' : Memory} (h : m.Scoped r) (hframes : m'.frames = m.frames)
    (hfields : m'.fields = m.fields) : m'.Scoped r := by
  have hgrows : m.Grows none m' := .of_frames hframes
  refine h.of_grows hgrows (fun a name v hv => ?_) (fun a name v hv => ?_)
  · rw [Memory.frame, hframes] at hv
    exact Or.inl hv
  · rw [Memory.field?, hfields] at hv
    exact Or.inl hv

end Memory.Scoped

/-! ### Operators -/

/-- Values without an identity, which hold nothing either. -/
def Value.isPlain : Value → Bool
  | .nil | .bool _ | .number _ | .string _ => true
  | _ => false

section Operators

variable {r : Resolution} {m : Memory} {left right v : Value}

theorem Value.isPlain_ofLiteral (literal : Literal) :
    (Value.ofLiteral literal : Value).isPlain = true := by
  cases literal <;> rfl

theorem Value.isPlain_of_unary {operator : TokenKind} (h : Value.unary operator right = .ok v) :
    v.isPlain = true := by
  unfold Value.unary at h
  split at h
  · obtain rfl := Except.ok.inj h
    rfl
  · obtain rfl := Except.ok.inj h
    rfl
  · exact absurd h (by simp)

/-- Of the operators only the comma gives one of its operands. -/
theorem Value.isPlain_of_binary {operator : TokenKind}
    (h : Value.binary operator left right = .ok v) : v = right ∨ v.isPlain = true := by
  unfold Value.binary at h
  split at h
  · exact .inl (Except.ok.inj h).symm
  · obtain rfl := Except.ok.inj h
    exact .inr rfl
  · unfold Value.add at h
    split at h <;>
      first | (obtain rfl := Except.ok.inj h; exact .inr rfl) | exact absurd h (by simp)
  · split at h
    · unfold Value.arithmetic at h
      split at h <;> try split at h
      all_goals
        first | (obtain rfl := Except.ok.inj h; exact .inr rfl) | exact absurd h (by simp)
    · exact absurd h (by simp)

theorem Value.scoped_of_plain (r : Resolution) (m : Memory) (h : v.isPlain = true) :
    v.Scoped r m := by
  cases v with
  | function | classValue | object => exact absurd h Bool.false_ne_true
  | _ => trivial

theorem Value.scoped_ofLiteral (r : Resolution) (m : Memory) (literal : Literal) :
    (Value.ofLiteral literal).Scoped r m :=
  scoped_of_plain r m (isPlain_ofLiteral literal)

theorem Value.scoped_of_unary {operator : TokenKind} (h : Value.unary operator right = .ok v) :
    v.Scoped r m :=
  scoped_of_plain r m (isPlain_of_unary h)

theorem Value.scoped_of_binary {operator : TokenKind} (hright : right.Scoped r m)
    (h : Value.binary operator left right = .ok v) : v.Scoped r m := by
  rcases isPlain_of_binary h with rfl | hplain
  · exact hright
  · exact scoped_of_plain r m hplain

/-- Operators know nothing of `super`. -/
theorem Value.cause_of_unary {operator : TokenKind} {cause : Failure.Cause}
    (h : Value.unary operator right = .error cause) :
    cause ≠ .superOutsideClass ∧ cause ≠ .superNotBound := by
  unfold Value.unary at h
  split at h
  · exact absurd h (by simp)
  · exact absurd h (by simp)
  · obtain rfl := Except.error.inj h
    exact ⟨by simp, by simp⟩

theorem Value.cause_of_binary {operator : TokenKind} {cause : Failure.Cause}
    (h : Value.binary operator left right = .error cause) :
    cause ≠ .superOutsideClass ∧ cause ≠ .superNotBound := by
  unfold Value.binary at h
  split at h
  · exact absurd h (by simp)
  · exact absurd h (by simp)
  · unfold Value.add at h
    split at h <;>
      first | (obtain rfl := Except.error.inj h; exact ⟨by simp, by simp⟩) | exact absurd h (by simp)
  · split at h
    · unfold Value.arithmetic at h
      split at h <;> try split at h
      all_goals
        first | (obtain rfl := Except.error.inj h; exact ⟨by simp, by simp⟩) | exact absurd h (by simp)
    · obtain rfl := Except.error.inj h
      exact ⟨by simp, by simp⟩

end Operators

/-! ### Functions, methods and classes -/

section Closures

variable {r : Resolution} {m : Memory}

theorem Class.Scoped.find {c : Class} {name : String} {closure : Closure} (h : c.Scoped r m)
    (hfind : c.find? name = some closure) : closure.ScopedMethod r m := by
  obtain ⟨layer, hlayer, hmethod⟩ := List.exists_of_findSome?_eq_some hfind
  exact h layer hlayer name closure hmethod

/-- Binding a method opens the scope of `this` for it. -/
theorem Closure.ScopedMethod.bind {closure : Closure} {class_ : Class}
    (hmethod : closure.ScopedMethod r m) (h : m.Scoped r) (hclass : class_.Scoped r m)
    (address : Address) :
    (m.bindMethod closure (.object address class_)).2.Scoped r ∧
      (m.bindMethod closure (.object address class_)).1.Scoped r
        (m.bindMethod closure (.object address class_)).2 := by
  obtain ⟨scopes, hmatches, hsettled, hresolved⟩ := hmethod
  constructor
  · refine h.newFrame fun name v hv => ?_
    rw [Bindings.get?] at hv
    split at hv
    · rename_i hname
      obtain rfl := Option.some.inj hv
      subst hname
      exact ⟨hclass, fun _ => ⟨address, class_, rfl⟩, fun heq => absurd heq (by decide)⟩
    · exact absurd hv (by simp)
  · refine ⟨thisNames :: scopes, (hmatches.open hsettled (fun name => ?_) fun name => ?_).toMatches,
      fun name => ?_, hresolved⟩
    · by_cases hname : "this" = name <;> simp [thisNames, Bindings.binds, Bindings.get?, hname]
    · by_cases hname : "this" = name <;> simp [thisNames, Bindings.get?, hname]
    · by_cases hname : "this" = name <;>
        simp [thisNames, Scopes.isInitializing, Bindings.get?, hname]

theorem Memory.grows_bindMethod (target : Option Address) (m : Memory) (closure : Closure)
    (this : Value) : m.Grows target (m.bindMethod closure this).2 :=
  m.grows_newFrame [("this", this)]

/-- A method that is taken from an instance is a function. -/
theorem Closure.ScopedMethod.new {closure : Closure} {class_ : Class}
    (hmethod : closure.ScopedMethod r m) (h : m.Scoped r) (hclass : class_.Scoped r m)
    (address : Address) :
    m.Grows none (m.newMethod closure (.object address class_)).2 ∧
      (m.newMethod closure (.object address class_)).2.Scoped r ∧
      (m.newMethod closure (.object address class_)).1.Scoped r
        (m.newMethod closure (.object address class_)).2 := by
  obtain ⟨hmemory, hbound⟩ := hmethod.bind h hclass address
  have hgrows := m.grows_bindMethod none closure (.object address class_)
  have hsame : (m.bindMethod closure (.object address class_)).2.Grows none
      (m.newMethod closure (.object address class_)).2 := .of_frames rfl
  exact ⟨hgrows.trans hsame, hmemory.of_same rfl rfl, hbound.mono (.refl r) hsame⟩

/-- The methods of a class are closures of its declarations. -/
theorem Machine.get?_methodTable {env : Env} {methods : List FunctionDecl} {name : String}
    {closure : Closure} (h : (Machine.methodTable env methods).get? name = some closure) :
    ∃ f ∈ methods, closure = ⟨f, env, f.name.lexeme = initializerName⟩ := by
  rw [methodTable, get?_foldl_insert (fun f : FunctionDecl => f.name.lexeme)
    (fun f => (⟨f, env, f.name.lexeme = initializerName⟩ : Closure))] at h
  rw [Bindings.get?_nil, Option.or_none] at h
  obtain ⟨f, hfind, rfl⟩ := Option.map_eq_some_iff.mp h
  exact ⟨f, List.mem_reverse.mp (List.mem_of_find?_eq_some hfind), rfl⟩

end Closures

/-! ### The frame of a call -/

section Calls

variable {params : List Token} {arguments : List Value} {name : String}

theorem Machine.get?_argumentFrame {v : Value}
    (h : (Machine.argumentFrame params arguments).get? name = some v) :
    v ∈ arguments ∧ ∃ param ∈ params, param.lexeme = name := by
  rw [argumentFrame, get?_foldl_insert (fun entry : Token × Value => entry.1.lexeme) Prod.snd,
    Bindings.get?_nil, Option.or_none] at h
  obtain ⟨entry, hfind, rfl⟩ := Option.map_eq_some_iff.mp h
  have hmem := List.mem_reverse.mp (List.mem_of_find?_eq_some hfind)
  have hname := List.find?_some hfind
  obtain ⟨hparam, hargument⟩ := List.of_mem_zip hmem
  exact ⟨hargument, entry.1, hparam, of_decide_eq_true hname⟩

/-- With as many arguments as parameters, each parameter is bound. -/
theorem Machine.binds_argumentFrame (hlength : params.length = arguments.length) :
    (paramNames params).binds name = (Machine.argumentFrame params arguments).binds name := by
  rw [paramNames, argumentFrame, binds_foldl_insert Token.lexeme (fun _ => true),
    binds_foldl_insert (fun entry : Token × Value => entry.1.lexeme) Prod.snd]
  have hkeys : (params.zip arguments).map (fun entry => entry.1.lexeme)
      = params.map Token.lexeme := by
    calc (params.zip arguments).map (fun entry => entry.1.lexeme)
        = ((params.zip arguments).map Prod.fst).map Token.lexeme := by rw [List.map_map]; rfl
      _ = params.map Token.lexeme := by rw [List.map_fst_zip (Nat.le_of_eq hlength)]
  rw [hkeys]
  rfl

end Calls

end Lox
