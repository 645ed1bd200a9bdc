/-
Values and memories with other labels.

The only trees in a value are the declarations of its functions and methods, and nothing
that values are asked for looks at the numbers and the lines in them.  So `relabel f l`
goes through every operation on values and on the memory: first to relabel and then to
operate is to operate first.
-/
import Lox.Proofs.Syntax.Relabelling
import Lox.Value.Memory
import Lox.Value.Operator

namespace Lox

/-! ### Other things under the same names -/

namespace Bindings

variable {α β γ : Type}

/-- The same names, bound to what `g` makes of the things. -/
def mapValues (g : α → β) (bs : Bindings α) : Bindings β :=
  bs.map (Prod.map id g)

variable {g : α → β}

theorem mapValues_mapValues {k : β → γ} (bs : Bindings α) :
    (bs.mapValues g).mapValues k = bs.mapValues (k ∘ g) := by
  unfold mapValues
  rw [List.map_map]
  rfl

@[simp] theorem get?_mapValues (name : String) (bs : Bindings α) :
    (bs.mapValues g).get? name = (bs.get? name).map g := by
  induction bs with
  | nil => rfl
  | cons b rest ih =>
      obtain ⟨n, a⟩ := b
      show (if n = name then some (g a) else get? name (mapValues g rest))
        = (if n = name then some a else get? name rest).map g
      rw [ih]
      split <;> rfl

@[simp] theorem binds_mapValues (name : String) (bs : Bindings α) :
    (bs.mapValues g).binds name = bs.binds name := by
  unfold binds
  rw [get?_mapValues, Option.isSome_map]

@[simp] theorem insert_mapValues (name : String) (value : α) (bs : Bindings α) :
    (bs.mapValues g).insert name (g value) = (bs.insert name value).mapValues g := by
  induction bs with
  | nil => rfl
  | cons b rest ih =>
      obtain ⟨n, a⟩ := b
      show (if n = name then (name, g value) :: mapValues g rest
          else (n, g a) :: insert name (g value) (mapValues g rest))
        = mapValues g (if n = name then (name, value) :: rest else (n, a) :: insert name value rest)
      rw [ih]
      split <;> rfl

end Bindings

section

variable {ε : Type} (f l : Nat → Nat)

/-- A closure with other labels in its declaration. -/
def Closure.relabel (closure : Closure ε) : Closure ε :=
  { closure with declaration := closure.declaration.relabel f l }

/-- A layer of a class with other labels in its methods. -/
def ClassLayer.relabel (layer : ClassLayer ε) : ClassLayer ε :=
  { layer with methods := layer.methods.mapValues (Closure.relabel f l) }

/-- A class with other labels in its methods. -/
def Class.relabel (c : Class ε) : Class ε :=
  ⟨c.own.relabel f l, c.inherited.map (ClassLayer.relabel f l)⟩

/-- A value with other labels. -/
def Value.relabel : Value ε → Value ε
  | .nil => .nil
  | .bool value => .bool value
  | .number value => .number value
  | .string text => .string text
  | .clock => .clock
  | .function identity closure => .function identity (closure.relabel f l)
  | .classValue class_ => .classValue (class_.relabel f l)
  | .object address class_ => .object address (class_.relabel f l)

/-- A memory with other labels in all its values. -/
def Memory.relabel (m : Memory) : Memory :=
  { m with
    frames := m.frames.map (Bindings.mapValues (Value.relabel f l))
    fields := m.fields.map (Bindings.mapValues (Value.relabel f l)) }

end

variable {ε : Type} {f g k l : Nat → Nat}

/-! ### Other labels twice -/

theorem Closure.relabel_relabel (closure : Closure ε) :
    (closure.relabel g k).relabel f l = closure.relabel (f ∘ g) (l ∘ k) := by
  unfold relabel
  rw [FunctionDecl.relabel_relabel]

theorem ClassLayer.relabel_relabel (layer : ClassLayer ε) :
    (layer.relabel g k).relabel f l = layer.relabel (f ∘ g) (l ∘ k) := by
  have hmethods : Closure.relabel (ε := ε) f l ∘ Closure.relabel g k
    = Closure.relabel (f ∘ g) (l ∘ k) :=
    funext Closure.relabel_relabel
  unfold relabel
  rw [Bindings.mapValues_mapValues, hmethods]

theorem Class.relabel_relabel (c : Class ε) :
    (c.relabel g k).relabel f l = c.relabel (f ∘ g) (l ∘ k) := by
  have hlayers : ClassLayer.relabel (ε := ε) f l ∘ ClassLayer.relabel g k
      = ClassLayer.relabel (f ∘ g) (l ∘ k) :=
    funext ClassLayer.relabel_relabel
  unfold relabel
  rw [ClassLayer.relabel_relabel, List.map_map, hlayers]

theorem Value.relabel_relabel (v : Value ε) :
    (v.relabel g k).relabel f l = v.relabel (f ∘ g) (l ∘ k) := by
  cases v with
  | function identity closure => exact congrArg (function identity) closure.relabel_relabel
  | classValue class_ => exact congrArg classValue class_.relabel_relabel
  | object address class_ => exact congrArg (object address) class_.relabel_relabel
  | _ => rfl

theorem Memory.relabel_relabel (m : Memory) :
    (m.relabel g k).relabel f l = m.relabel (f ∘ g) (l ∘ k) := by
  have hvalues : Value.relabel (ε := Env) f l ∘ Value.relabel g k = Value.relabel (f ∘ g) (l ∘ k) :=
    funext Value.relabel_relabel
  have hrows : Bindings.mapValues (Value.relabel (ε := Env) f l)
      ∘ Bindings.mapValues (Value.relabel g k)
        = Bindings.mapValues (Value.relabel (f ∘ g) (l ∘ k)) := by
    funext bs
    rw [Function.comp_apply, Bindings.mapValues_mapValues, hvalues]
  unfold relabel
  rw [Array.map_map, Array.map_map, hrows]

/-! ### What values are asked for -/

@[simp] theorem Closure.relabel_declaration (closure : Closure ε) :
    (closure.relabel f l).declaration = closure.declaration.relabel f l :=
  rfl

@[simp] theorem Closure.relabel_env (closure : Closure ε) :
    (closure.relabel f l).env = closure.env :=
  rfl

@[simp] theorem Closure.relabel_isInitializer (closure : Closure ε) :
    (closure.relabel f l).isInitializer = closure.isInitializer :=
  rfl

namespace Class

@[simp] theorem relabel_own (c : Class ε) : (c.relabel f l).own = c.own.relabel f l :=
  rfl

theorem relabel_layers (c : Class ε) :
    (c.relabel f l).layers = c.layers.map (ClassLayer.relabel f l) :=
  rfl

@[simp] theorem find?_relabel (c : Class ε) (name : String) :
    (c.relabel f l).find? name = (c.find? name).map (Closure.relabel f l) := by
  unfold find?
  rw [relabel_layers]
  induction c.layers with
  | nil => rfl
  | cons layer rest ih =>
      have hlayer : (layer.relabel f l).methods.get? name
          = (layer.methods.get? name).map (Closure.relabel f l) :=
        Bindings.get?_mapValues _ _
      rw [List.map_cons, List.findSome?_cons, List.findSome?_cons, hlayer, ih]
      cases layer.methods.get? name <;> rfl

@[simp] theorem arity_relabel (c : Class ε) : (c.relabel f l).arity = c.arity := by
  unfold arity
  rw [find?_relabel]
  cases c.find? initializerName with
  | none => rfl
  | some initializer =>
      simp only [Option.map_some, Closure.relabel_declaration, FunctionDecl.relabel_params,
        List.length_map]

end Class

namespace Value

@[simp] theorem relabel_ofLiteral (literal : Literal) :
    (ofLiteral literal : Value ε).relabel f l = ofLiteral literal := by
  cases literal <;> rfl

@[simp] theorem isTruthy_relabel (v : Value ε) : (v.relabel f l).isTruthy = v.isTruthy := by
  unfold isTruthy
  cases v <;> rfl

@[simp] theorem equals_relabel (v w : Value ε) :
    (v.relabel f l).equals (w.relabel f l) = v.equals w := by
  cases v <;> cases w <;> rfl

@[simp] theorem display_relabel (v : Value ε) : (v.relabel f l).display = v.display := by
  cases v with
  | function identity closure =>
      simp only [relabel, display, Closure.relabel_declaration, FunctionDecl.relabel_name,
        Token.reline_lexeme]
  | _ => rfl

/-! ### What operators compute -/

theorem unary_relabel (operator : TokenKind) (v : Value ε) :
    unary operator (v.relabel f l) = (unary operator v).map (relabel f l) := by
  by_cases hminus : operator = .minus
  · subst hminus
    cases v <;> rfl
  by_cases hbang : operator = .bang
  · subst hbang
    simp only [unary, isTruthy_relabel]
    rfl
  cases operator <;> first | rfl | exact absurd rfl hminus | exact absurd rfl hbang

theorem add_relabel (v w : Value ε) :
    add (v.relabel f l) (w.relabel f l) = (add v w).map (relabel f l) := by
  have hv := display_relabel (f := f) (l := l) v
  have hw := display_relabel (f := f) (l := l) w
  cases v <;> cases w <;>
    first
    | rfl
    | (simp only [relabel] at hv hw
       simp only [relabel, add, hv, hw]
       rfl)

theorem arithmetic_relabel (operator : TokenKind) (x y : Float) :
    (arithmetic operator x y : Except Failure.Cause (Value ε)).map (relabel f l)
      = arithmetic operator x y := by
  unfold arithmetic
  split
  case h_3 => split <;> rfl
  all_goals rfl

theorem binary_relabel (operator : TokenKind) (v w : Value ε) :
    binary operator (v.relabel f l) (w.relabel f l) = (binary operator v w).map (relabel f l) := by
  unfold binary
  split
  · rfl
  · rw [equals_relabel]
    rfl
  · exact add_relabel v w
  · cases v with
    | number x =>
        cases w with
        | number y => exact (arithmetic_relabel operator x y).symm
        | _ => rfl
    | _ => rfl

end Value

/-! ### The memory -/

namespace Memory

@[simp] theorem frame_relabel (m : Memory) (a : Address) :
    (m.relabel f l).frame a = (m.frame a).mapValues (Value.relabel f l) := by
  simp only [frame, relabel, Array.getD_eq_getD_getElem?, Array.getElem?_map]
  cases m.frames[a]? <;> rfl

theorem modify_relabel (rows : Array (Bindings Value)) (a : Address) (name : String)
    (value : Value) :
    (rows.map (Bindings.mapValues (Value.relabel f l))).modify a
        (Bindings.insert name (value.relabel f l))
      = (rows.modify a (Bindings.insert name value)).map
          (Bindings.mapValues (Value.relabel f l)) := by
  apply Array.ext_getElem?
  intro i
  rw [Array.getElem?_modify, Array.getElem?_map, Array.getElem?_map, Array.getElem?_modify]
  split
  · cases rows[i]? with
    | none => rfl
    | some row => exact congrArg some (Bindings.insert_mapValues name value row)
  · rfl

@[simp] theorem bindAt_relabel (m : Memory) (a : Address) (name : String) (value : Value) :
    (m.relabel f l).bindAt a name (value.relabel f l) = (m.bindAt a name value).relabel f l := by
  unfold bindAt relabel
  rw [modify_relabel]

@[simp] theorem define_relabel (m : Memory) (env : Env) (name : String) (value : Value) :
    (m.relabel f l).define env name (value.relabel f l)
      = (m.define env name value).relabel f l := by
  cases env with
  | nil => rfl
  | cons a outer => exact bindAt_relabel m a name value

@[simp] theorem newFrame_relabel (m : Memory) (contents : Bindings Value) :
    (m.relabel f l).newFrame (contents.mapValues (Value.relabel f l))
      = ((m.newFrame contents).1, (m.newFrame contents).2.relabel f l) := by
  simp [newFrame, relabel]

@[simp] theorem holder?_relabel (m : Memory) (env : Env) (name : String) :
    (m.relabel f l).holder? env name = m.holder? env name := by
  unfold holder?
  congr 1
  funext a
  rw [frame_relabel, Bindings.binds_mapValues]

@[simp] theorem holderAt?_relabel (m : Memory) (env : Env) (distance : Nat) (name : String) :
    (m.relabel f l).holderAt? env distance name = m.holderAt? env distance name := by
  unfold holderAt?
  split
  · rw [frame_relabel, Bindings.binds_mapValues]
  · rfl

@[simp] theorem read?_relabel (m : Memory) (env : Env) (name : String) :
    (m.relabel f l).read? env name = (m.read? env name).map (Value.relabel f l) := by
  unfold read?
  induction env with
  | nil => rfl
  | cons a outer ih =>
      rw [List.findSome?_cons, List.findSome?_cons, ih, frame_relabel, Bindings.get?_mapValues]
      cases (m.frame a).get? name <;> rfl

@[simp] theorem readAt?_relabel (m : Memory) (env : Env) (distance : Nat) (name : String) :
    (m.relabel f l).readAt? env distance name
      = (m.readAt? env distance name).map (Value.relabel f l) := by
  unfold readAt?
  split
  · rw [frame_relabel, Bindings.get?_mapValues]
  · rfl

@[simp] theorem newObject_relabel (m : Memory) :
    (m.relabel f l).newObject = (m.newObject.1, m.newObject.2.relabel f l) := by
  simp [newObject, relabel, Bindings.mapValues]

@[simp] theorem field?_relabel (m : Memory) (a : Address) (name : String) :
    (m.relabel f l).field? a name = (m.field? a name).map (Value.relabel f l) := by
  simp only [field?, relabel, Array.getD_eq_getD_getElem?, Array.getElem?_map]
  cases m.fields[a]? with
  | none => rfl
  | some row => exact Bindings.get?_mapValues name row

@[simp] theorem setField_relabel (m : Memory) (a : Address) (name : String) (value : Value) :
    (m.relabel f l).setField a name (value.relabel f l)
      = (m.setField a name value).relabel f l := by
  unfold setField relabel
  rw [modify_relabel]

@[simp] theorem newIdentity_relabel (m : Memory) :
    (m.relabel f l).newIdentity = (m.newIdentity.1, m.newIdentity.2.relabel f l) :=
  rfl

@[simp] theorem newFunction_relabel (m : Memory) (closure : Closure) :
    (m.relabel f l).newFunction (closure.relabel f l)
      = ((m.newFunction closure).1.relabel f l, (m.newFunction closure).2.relabel f l) :=
  rfl

@[simp] theorem bindMethod_relabel (m : Memory) (method : Closure) (this : Value) :
    (m.relabel f l).bindMethod (method.relabel f l) (this.relabel f l)
      = ((m.bindMethod method this).1.relabel f l, (m.bindMethod method this).2.relabel f l) := by
  have hframe : (m.relabel f l).newFrame [("this", this.relabel f l)]
      = ((m.newFrame [("this", this)]).1, (m.newFrame [("this", this)]).2.relabel f l) :=
    newFrame_relabel m [("this", this)]
  unfold bindMethod
  rw [hframe]
  rfl

@[simp] theorem newMethod_relabel (m : Memory) (method : Closure) (this : Value) :
    (m.relabel f l).newMethod (method.relabel f l) (this.relabel f l)
      = ((m.newMethod method this).1.relabel f l, (m.newMethod method this).2.relabel f l) := by
  unfold newMethod
  rw [bindMethod_relabel]
  exact newFunction_relabel _ _

/-- There are no trees to begin with. -/
@[simp] theorem relabel_initial : initial.relabel f l = initial := by
  simp [initial, relabel, Bindings.mapValues, Value.relabel]

end Memory

end Lox
