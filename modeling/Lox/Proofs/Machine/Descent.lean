/-
Why runs without loops end.

A step that stays in the same call takes a tree apart or hands something on, and what there is
left to do in the call gets less.  A step that enters a call starts with a whole body, but it
uses up one of the calls that may be active.  So what is left to do is counted in numbers with a
digit for each call that may still be entered: a body is worth less than a single unit of the
next higher digit (`step_cost`).

Only a loop puts back what it has taken apart; where none is left, neither in what is pending
nor in the functions that are known, the count comes down to nothing, and the run has ended
(`run_ends`).
-/
import Lox.Proofs.Machine.Activations
import Lox.Proofs.Machine.Parts

namespace Lox

/-! ### Sizes of parts -/

/-- A part is not larger than what it is a part of. -/
theorem Node.sizeOf_le_of_mem_parts {n part : Node} (h : part ∈ n.parts) :
    sizeOf part ≤ sizeOf n := by
  cases n with
  | program body => grind [parts, → List.sizeOf_lt_of_mem]
  | stmt s => cases s <;> grind [parts, ofStmt, → List.sizeOf_lt_of_mem]
  | expr e => cases e <;> grind [parts, ofExpr, → List.sizeOf_lt_of_mem]
  | function f | method f => cases f; grind [parts, ofFunction, → List.sizeOf_lt_of_mem]
  | param name => exact absurd h List.not_mem_nil

theorem Place.IsIn.sizeOf_le {program : List Stmt} {p : Place} (h : p.IsIn program) :
    sizeOf p.node ≤ sizeOf (Node.program program) :=
  h.of_hereditary (P := fun n => sizeOf n ≤ sizeOf (Node.program program))
    (fun _ hn _ hpart => Nat.le_trans (Node.sizeOf_le_of_mem_parts hpart) hn) (Nat.le_refl _)

namespace Machine

variable {P : Node → Prop} {setting : Setting} {s : State} {bound : Nat}

/-! ### What is left to do -/

/-- How much there is to do at the most, calls apart. -/
noncomputable def Control.weight : Control → Nat
  | .evaluate e => 3 * sizeOf e
  | .execute s => 3 * sizeOf s
  | .value _ => 1
  | .complete _ => 0

/-- How much there will be to do at the most, calls apart. -/
noncomputable def Pending.weight : Pending → Nat
  | .leftOperand _ right | .logical _ right => 3 * sizeOf right + 1
  | .choice onTrue onFalse => 3 * sizeOf onTrue + 3 * sizeOf onFalse + 1
  | .callee _ arguments => 3 * sizeOf arguments + 2
  | .argument _ _ _ after => 3 * sizeOf after + 2
  | .setTarget _ value => 3 * sizeOf value + 1
  | .branch onTrue onFalse => 3 * sizeOf onTrue + 3 * sizeOf onFalse + 1
  | .sequence rest => 3 * sizeOf rest
  | .leaveCall _ _ => 2
  | _ => 1

theorem Pending.weight_pos (task : Pending) : 0 < task.weight := by
  cases task with
  | sequence rest =>
      cases rest with
      | nil => exact Nat.succ_pos 2
      | cons next rest =>
          rw [weight, List.cons.sizeOf_spec]
          omega
  | _ => exact Nat.succ_pos _

/-- How much there is on a stack, calls apart. -/
noncomputable def weightOn : List Pending → Nat
  | [] => 0
  | task :: below => task.weight + weightOn below

/-- What a unit is worth while so many calls are active, if no body weighs more than `bound`. -/
@[irreducible] def scale (bound calls : Nat) : Nat :=
  Nat.pow (bound + 1) (maxDepth - calls)

/-- What the pending work is worth, each at the depth at which it will be done. -/
noncomputable def load (bound : Nat) : List Pending → Nat
  | [] => 0
  | task :: below => task.weight * scale bound (callsOn below) + load bound below

/-- What is left to do before the run has ended. -/
noncomputable def State.cost (bound : Nat) (s : State) : Nat :=
  s.control.weight * scale bound (callsOn s.pending) + load bound s.pending

theorem scale_pos (bound calls : Nat) : 0 < scale bound calls := by
  unfold scale
  exact Nat.pow_pos (Nat.succ_pos bound)

/-- While a call may be entered, everything in it together is worth less than a unit outside. -/
theorem scale_of_lt (bound : Nat) {calls : Nat} (h : calls < maxDepth) :
    scale bound calls = bound * scale bound (calls + 1) + scale bound (calls + 1) := by
  have hsub : maxDepth - calls = maxDepth - (calls + 1) + 1 := by omega
  unfold scale
  rw [hsub]
  show Nat.pow (bound + 1) _ * (bound + 1) = _
  rw [Nat.mul_comm, Nat.succ_mul]

theorem callsOn_append (top below : List Pending) :
    callsOn (top ++ below) = callsOn top + callsOn below := by
  induction top with
  | nil => exact (Nat.zero_add _).symm
  | cons task top ih =>
      show callsOn (top ++ below) + task.calls = callsOn top + task.calls + callsOn below
      rw [ih]
      omega

/-! ### Steps within a call -/

/-- The work on top of `below` belongs to the call that is active there, and is worth less than
`budget` in it. -/
def State.Fits (s : State) (below : List Pending) (budget : Nat) : Prop :=
  ∃ top, s.pending = top ++ below ∧ callsOn top = 0 ∧
    s.control.weight + weightOn top < budget

/-- The work on top of `below` costs less than `budget` units of the call that is active there. -/
def State.Below (bound : Nat) (s : State) (below : List Pending) (budget : Nat) : Prop :=
  s.cost bound < budget * scale bound (callsOn below) + load bound below

theorem State.Below.mono {below : List Pending} {budget budget' : Nat}
    (h : s.Below bound below budget) (hle : budget ≤ budget') : s.Below bound below budget' :=
  Nat.lt_of_lt_of_le h (Nat.add_le_add_right (Nat.mul_le_mul_right _ hle) _)

/-- What lies on top within one call is worth its weight. -/
theorem load_append {top below : List Pending} (h : callsOn top = 0) :
    load bound (top ++ below)
      = weightOn top * scale bound (callsOn below) + load bound below := by
  induction top with
  | nil =>
      rw [weightOn, Nat.zero_mul, Nat.zero_add]
      rfl
  | cons task top ih =>
      have htop : callsOn top = 0 := (Nat.add_eq_zero_iff.mp h).1
      have hcalls : callsOn (top ++ below) = callsOn below := by
        rw [callsOn_append, htop, Nat.zero_add]
      show task.weight * scale bound (callsOn (top ++ below)) + load bound (top ++ below) = _
      rw [hcalls, ih htop, weightOn, Nat.add_mul, Nat.add_assoc]

theorem State.Fits.below {below : List Pending} {budget : Nat} (h : s.Fits below budget) :
    s.Below bound below budget := by
  obtain ⟨top, hpending, hcalls, hweight⟩ := h
  have hlt := Nat.mul_lt_mul_of_pos_right hweight (scale_pos bound (callsOn below))
  rw [State.Below, State.cost, hpending, callsOn_append, hcalls, Nat.zero_add,
    load_append hcalls, ← Nat.add_assoc, ← Nat.add_mul]
  exact Nat.add_lt_add_right hlt _

section Fits

variable (s) {budget : Nat}

/-- Nothing new is put on the stack. -/
theorem fits_of_control {t : State} (hpending : t.pending = s.pending)
    (hbudget : t.control.weight < budget) : t.Fits s.pending budget :=
  ⟨[], hpending, rfl, hbudget⟩

theorem Settles.fits {t : State} (h : Settles s t) (hbudget : 1 < budget) :
    t.Fits s.pending budget := by
  cases h with
  | value m v => exact fits_of_control s rfl hbudget
  | failed m failure => exact fits_of_control s rfl (Nat.zero_lt_of_lt hbudget)

theorem evaluating_fits {task : Pending} {e : Expr} (hcalls : task.calls = 0)
    (hbudget : 3 * sizeOf e + task.weight < budget) :
    (s.evaluating task e).Fits s.pending budget :=
  ⟨[task], rfl, (Nat.zero_add _).trans hcalls, hbudget⟩

theorem evaluate_fits (e : Expr) : (evaluate setting s e).Fits s.pending (3 * sizeOf e) := by
  cases e with
  | literal value => exact (Settles.value (s := s) s.memory _).fits s (by simp; omega)
  | use occurrence => exact (lookup_settles s occurrence).fits s (by simp; omega)
  | this receiver => exact (lookup_settles s receiver).fits s (by simp; omega)
  | super keyword method => exact (inheritedMethod_settles s keyword method).fits s (by simp; omega)
  | group inner =>
      have hsize : 3 * sizeOf inner < 3 * sizeOf (Expr.group inner) := by simp
      exact fits_of_control s rfl hsize
  | _ => exact evaluating_fits s rfl (by simp [Pending.weight]; omega)

/-- A statement is done. -/
theorem done_fits {t : State} (hpending : t.pending = s.pending) {c : Completion}
    (hcontrol : t.control = .complete c) (hbudget : 0 < budget) : t.Fits s.pending budget :=
  fits_of_control s hpending (by rwa [hcontrol])

theorem Finished.fits {name : Token} {superclass : Option Class} {methods : List FunctionDecl}
    {t : State} (h : Finished s name superclass methods t) (hbudget : 0 < budget) :
    t.Fits s.pending budget := by
  cases h <;> exact done_fits s rfl rfl hbudget

theorem execute_fits {statement : Stmt} (h : (Node.stmt statement).isLoop = false) :
    (execute s statement).Fits s.pending (3 * sizeOf statement) := by
  have hpos : 0 < 3 * sizeOf statement := by cases statement <;> simp +arith
  cases statement with
  | var name initializer =>
      cases initializer with
      | none => exact done_fits s rfl rfl hpos
      | some value => exact evaluating_fits s rfl (by simp [Pending.weight]; omega)
  | block body =>
      have hsize : 0 + (3 * sizeOf body + (1 + 0)) < 3 * sizeOf (Stmt.block body) := by
        simp; omega
      exact ⟨[.sequence body, .leaveBlock s.env], rfl, rfl, hsize⟩
  | whileLoop condition body => exact absurd h.symm Bool.false_ne_true
  | returnWith keyword value =>
      cases value with
      | none => exact done_fits s rfl rfl hpos
      | some value => exact evaluating_fits s rfl (by simp [Pending.weight]; omega)
  | classDecl name superclass methods =>
      let t : State := { s with memory := s.memory.define s.env name.lexeme .nil }
      cases superclass with
      | none => exact (finishClass_finished t name none methods).fits t hpos
      | some occurrence => exact evaluating_fits t rfl (by simp [Pending.weight]; omega)
  | breakLoop _ | function _ => exact done_fits s rfl rfl hpos
  | _ => exact evaluating_fits s rfl (by simp [Pending.weight]; omega)

/-- Without loops the end of a statement leads on to what is smaller. -/
theorem unwind_fits (hloop : ∀ n, P n → n.isLoop = false) (c : Completion) {task : Pending}
    (htask : task.Of P) : (unwind s c task).Fits s.pending task.weight := by
  cases task with
  | sequence rest =>
      rcases unwind_sequence s c rest with ⟨next, others, -, rfl, hnext⟩ | hnext <;> rw [hnext]
      · have hsize : 3 * sizeOf next + (3 * sizeOf others + 0) < 3 * sizeOf (next :: others) := by
          simp; omega
        exact ⟨[.sequence others], rfl, rfl, hsize⟩
      · exact done_fits s rfl rfl (Pending.weight_pos _)
  | loopBody condition body => exact absurd (hloop _ htask).symm Bool.false_ne_true
  | leaveCall env answer =>
      cases c with
      | failed failure => exact done_fits s rfl rfl Nat.two_pos
      | _ => exact fits_of_control s rfl Nat.one_lt_two
  | _ => exact done_fits s rfl rfl (Pending.weight_pos _)

end Fits

/-! ### Steps into a call -/

section Cost

variable (hsize : ∀ n, P n → 3 * sizeOf n ≤ bound)

include hsize in
theorem body_le {f : FunctionDecl} (h : Declared P f) : 3 * sizeOf f.body ≤ bound := by
  have hbody : sizeOf f.body ≤ sizeOf f := by
    cases f
    simp
  rcases h with h | h
  · have hnode := hsize _ h
    rw [Node.function.sizeOf_spec] at hnode
    omega
  · have hnode := hsize _ h
    rw [Node.method.sizeOf_spec] at hnode
    omega

include hsize

/-- A whole body is worth less than a unit outside of the call. -/
theorem enter_below (hdepth : callsOn s.pending < maxDepth) {closure : Closure}
    (hclosure : Declared P closure.declaration) (arguments : List Value) (answer : Answer) :
    (enter s closure arguments answer).Below bound s.pending 4 := by
  have hbody : 3 * sizeOf closure.declaration.body * scale bound (callsOn s.pending + 1)
      ≤ bound * scale bound (callsOn s.pending + 1) :=
    Nat.mul_le_mul_right _ (body_le hsize hclosure)
  have hscale := scale_of_lt bound hdepth
  have hpos := scale_pos bound (callsOn s.pending + 1)
  show 0 * scale bound (callsOn s.pending + 1)
      + (3 * sizeOf closure.declaration.body * scale bound (callsOn s.pending + 1)
        + (2 * scale bound (callsOn s.pending) + load bound s.pending))
    < 4 * scale bound (callsOn s.pending) + load bound s.pending
  omega

theorem Called.below {callee : Value} {paren : Token} {arguments : List Value} {t : State}
    (h : Called setting s paren arguments callee t) (hdepth : s.depth = callsOn s.pending)
    (hcallee : callee.All fun closure => Declared P closure.declaration) :
    t.Below bound s.pending 4 := by
  cases h with
  | refused _ _ => exact State.Fits.below (done_fits s rfl rfl (Nat.succ_pos 3))
  | clock _ | plain _ _ =>
      exact State.Fits.below (fits_of_control s rfl (Nat.lt_add_of_pos_left (Nat.succ_pos 2)))
  | function h => exact enter_below hsize (hdepth ▸ h.depth) hcallee arguments _
  | initialized h hfind =>
      have hlt : callsOn s.pending < maxDepth := hdepth ▸ h.depth
      refine enter_below hsize ?_ ?_ arguments _
      · exact hlt
      · exact Class.All.find hcallee hfind 0

/-! ### Every step -/

variable (hloop : ∀ n, P n → n.isLoop = false)

include hloop

/-- A value that is handed on leads to what is less; to the end of a statement it is not
handed. -/
theorem resume_below (hdepth : s.depth = callsOn s.pending) {v : Value} {task : Pending}
    (htask : task.Of P) (hv : v.All fun closure => Declared P closure.declaration)
    (hvalues : task.All fun closure => Declared P closure.declaration) :
    (resume setting s v task).Below bound s.pending (1 + task.weight) := by
  have hpos := task.weight_pos
  have hsettles {t : State} (h : Settles s t) : t.Below bound s.pending (1 + task.weight) :=
    State.Fits.below (h.fits s (Nat.lt_add_of_pos_right hpos))
  have hdone {t : State} (hpending : t.pending = s.pending) {c : Completion}
      (hcontrol : t.control = .complete c) : t.Below bound s.pending (1 + task.weight) :=
    State.Fits.below (done_fits s hpending hcontrol (Nat.add_pos_right 1 hpos))
  have hgoing {t : State} (hpending : t.pending = s.pending)
      (hcontrol : t.control.weight ≤ task.weight) : t.Below bound s.pending (1 + task.weight) :=
    State.Fits.below (fits_of_control s hpending (Nat.lt_one_add_iff.mpr hcontrol))
  have hevaluating {next : Pending} {e : Expr} (hcalls : next.calls = 0)
      (hweight : 3 * sizeOf e + next.weight ≤ task.weight) :
      (s.evaluating next e).Below bound s.pending (1 + task.weight) :=
    State.Fits.below (evaluating_fits s hcalls (Nat.lt_one_add_iff.mpr hweight))
  have hcalled {t : State} (h : t.Below bound s.pending 4) (hweight : 4 ≤ task.weight) :
      t.Below bound s.pending (1 + task.weight) :=
    h.mono (Nat.le_add_left_of_le hweight)
  have hnote : { s with
      control := .complete .normal
      pending := task :: s.pending }.Below bound s.pending (1 + task.weight) := by
    have hscale := scale_pos bound (callsOn s.pending)
    show 0 * scale bound (callsOn s.pending + task.calls)
        + (task.weight * scale bound (callsOn s.pending) + load bound s.pending)
      < (1 + task.weight) * scale bound (callsOn s.pending) + load bound s.pending
    rw [Nat.add_mul]
    omega
  cases task with
  | unary operator => exact hsettles (operate_settles s operator _)
  | rightOperand operator left => exact hsettles (operate_settles s operator _)
  | assignment target => exact hsettles (assign_settles s target v)
  | property name => exact hsettles (getProperty_settles s v name)
  | setValue address name => exact hgoing rfl (Nat.le_refl 1)
  | leftOperand operator right => exact hevaluating rfl (Nat.le_refl _)
  | logical operator right =>
      rcases resume_logical setting s v operator right with hnext | hnext <;> rw [hnext]
      · exact hgoing rfl (Nat.le_add_left 1 _)
      · exact hgoing rfl (Nat.le_add_right _ 1)
  | choice onTrue onFalse =>
      refine hgoing rfl ?_
      show 3 * sizeOf (if v.isTruthy then onTrue else onFalse)
        ≤ 3 * sizeOf onTrue + 3 * sizeOf onFalse + 1
      split <;> omega
  | callee paren arguments =>
      cases arguments with
      | nil =>
          have hstep := (call_called setting s v paren []).below hsize hdepth hv
          exact hcalled hstep (Nat.le_add_left 4 1)
      | cons first rest => exact hevaluating rfl (by simp [Pending.weight]; omega)
  | argument callee paren before after =>
      cases after with
      | nil =>
          have hstep :=
            (call_called setting s callee paren (before ++ [v])).below hsize hdepth hvalues.1
          exact hcalled hstep (Nat.le_add_left 4 1)
      | cons next rest => exact hevaluating rfl (by simp [Pending.weight]; omega)
  | setTarget name value =>
      cases v with
      | object address class_ => exact hevaluating rfl (Nat.le_refl _)
      | _ => exact hdone rfl rfl
  | print keyword =>
      rcases resume_print setting s v keyword with ⟨_, hnext⟩ | ⟨_, _, hnext⟩ <;> rw [hnext] <;>
        exact hdone rfl rfl
  | branch onTrue onFalse =>
      rcases resume_branch setting s v onTrue onFalse with
        hnext | ⟨statement, rfl, hnext⟩ | ⟨-, hnext⟩ <;> rw [hnext]
      · refine hgoing rfl ?_
        show 3 * sizeOf onTrue ≤ 3 * sizeOf onTrue + 3 * sizeOf onFalse + 1
        omega
      · refine hgoing rfl ?_
        show 3 * sizeOf statement ≤ 3 * sizeOf onTrue + 3 * sizeOf (some statement) + 1
        rw [Option.some.sizeOf_spec]
        omega
      · exact hdone rfl rfl
  | loopTest condition body => exact absurd (hloop _ htask).symm Bool.false_ne_true
  | loopBody condition body => exact absurd (hloop _ htask).symm Bool.false_ne_true
  | inherit name superclass methods =>
      cases v with
      | classValue class_ =>
          exact State.Fits.below
            ((finishClass_finished s name (some class_) methods).fits s (Nat.add_pos_right 1 hpos))
      | _ => exact hdone rfl rfl
  | discard | define _ | returning => exact hdone rfl rfl
  | sequence _ | leaveBlock _ | leaveCall _ _ => exact hnote

/-- **Without loops there is less left to do after every step.** -/
theorem step_cost (h : s.Of P) (hdepth : s.depth = callsOn s.pending) (hended : s.ended? = none) :
    (step setting s).cost bound < s.cost bound := by
  obtain ⟨hcontrol, hpending, hfunctions⟩ := h
  obtain ⟨control, pending, env, depth, memory, sink⟩ := s
  cases control with
  | evaluate e =>
      exact (evaluate_fits ⟨.evaluate e, pending, env, depth, memory, sink⟩ e).below
  | execute statement =>
      exact (execute_fits ⟨.execute statement, pending, env, depth, memory, sink⟩
        (hloop _ hcontrol)).below
  | value v =>
      have hscale := scale_pos bound (callsOn pending)
      cases pending with
      | nil =>
          show 0 * scale bound 0 + 0 < 1 * scale bound 0 + 0
          rw [Nat.zero_mul, Nat.one_mul]
          exact hscale
      | cons task below =>
          obtain ⟨htask, hbelow⟩ := List.forall_mem_cons.mp hpending
          by_cases hcalls : task.calls = 0
          · have hdepth : depth = callsOn below + task.calls := hdepth
            rw [hcalls] at hdepth
            let popped : State := ⟨.value v, below, env, depth, memory, sink⟩
            have hstep : (resume setting popped v task).Below bound below (1 + task.weight) :=
              resume_below hsize hloop hdepth htask hfunctions.control
                (hfunctions.pending task List.mem_cons_self)
            have hcost : (1 + task.weight) * scale bound (callsOn below) + load bound below
                = 1 * scale bound (callsOn below + task.calls)
                  + (task.weight * scale bound (callsOn below) + load bound below) := by
              rw [hcalls, Nat.add_zero, Nat.add_mul, Nat.add_assoc]
            exact Nat.lt_of_lt_of_eq hstep hcost
          -- No value gets to a note to leave a call; if one did, the note would stay.
          · cases task with
            | leaveCall outer answer =>
                show 0 * scale bound _ + load bound _ < 1 * scale bound _ + load bound _
                rw [Nat.zero_mul, Nat.one_mul]
                exact Nat.add_lt_add_right hscale _
            | _ => exact absurd rfl hcalls
  | complete c =>
      cases pending with
      | nil => exact absurd hended (by simp [State.ended?])
      | cons task below =>
          let popped : State := ⟨.complete c, below, env, depth, memory, sink⟩
          have hstep : (unwind popped c task).Below bound below task.weight :=
            (unwind_fits popped hloop c (hpending task List.mem_cons_self)).below
          have hcost : task.weight * scale bound (callsOn below) + load bound below
              = 0 * scale bound (callsOn below + task.calls)
                + (task.weight * scale bound (callsOn below) + load bound below) := by
            rw [Nat.zero_mul, Nat.zero_add]
          exact Nat.lt_of_lt_of_eq hstep hcost

/-- **A run without loops has ended after as many steps as it costs at the most.** -/
theorem run_ends (hhereditary : Node.Hereditary P) {env : Env} (h : s.Of P)
    (hrests : s.RestsOn env 0) {fuel : Nat} (hfuel : s.cost bound ≤ fuel) :
    ∃ c, (run setting fuel s).ended? = some c := by
  have hless (s : State) (h : s.Of P) (hrests : s.RestsOn env 0) (hended : s.ended? = none) :
      (step setting s).cost bound < s.cost bound :=
    step_cost hsize hloop h (hrests.depth.trans (Nat.zero_add _)) hended
  induction fuel generalizing s with
  | zero =>
      cases hended : s.ended? with
      | some c => exact ⟨c, hended⟩
      | none => exact absurd (hless s h hrests hended) (by omega)
  | succ fuel ih =>
      cases hended : s.ended? with
      | some c => exact ⟨c, by rw [run_of_ended hended, hended]⟩
      | none =>
          have hlt := hless s h hrests hended
          rw [run_succ]
          exact ih (step_of hhereditary h) (step_restsOn hrests) (by omega)

end Cost

end Machine

end Lox
