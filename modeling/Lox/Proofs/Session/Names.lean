/-
Names at run time.

The analysis says of an occurrence how many frames out its variable is.  Whenever the
machine reads a variable, `this` or `super` by such a distance, that frame is there and
binds the name.  Writing is different in one place: an assignment that stands in the
initializer of the very variable it is to change finds no variable yet.
-/
import Mathlib
import Lox.Proofs.Session.Reachable

namespace Lox.Session

open Scope Machine

variable {setting : Setting} {s : State} {r : Resolution} {scopes : Scopes} {top : Address}

/-! ### Reading -/

/-- A read that finds its frame yields a value. -/
theorem lookup_of_binds {occurrence : Occurrence} {distance : Nat} {a : Address}
    (hlocal : setting.locals[occurrence.id]? = some distance) (ha : s.env[distance]? = some a)
    (hbinds : (s.memory.frame a).binds occurrence.name.lexeme) :
    ∃ v, lookup setting s occurrence = s.giving v := by
  obtain ⟨v, hv⟩ := Option.isSome_iff_exists.mp hbinds
  refine ⟨v, ?_⟩
  unfold lookup
  dsimp only
  rw [hlocal]
  dsimp only
  rw [readAt?_eq _ ha, hv]

/-- What the machine is about to evaluate is resolved, and what is pending waits for it. -/
theorem evaluating_of_sound {e : Expr} (h : s.Sound r) (hcontrol : s.control = .evaluate e) :
    ∃ scopes top, Current s.memory scopes top s.env ∧ ResolvedExpr r scopes e ∧
      WaitsValue r s.memory scopes top s.pending := by
  obtain ⟨-, scopes, top, hcurrent, hproceeds⟩ := h
  rw [hcontrol] at hproceeds
  cases hproceeds with
  | evaluate h hpending => exact ⟨scopes, top, hcurrent, h, hpending⟩

/-- **Local names are found where the analysis says.**  In every state that a session
passes through, the frame of a variable or of `this` that is about to be read by its
distance is there and binds the name, so that reading it does not fail; for `super` it
binds a class, and the frame inside of it binds `this` to an instance.  No run ever fails
for want of a superclass. -/
theorem local_reads_found (h : Visited setting s) :
    (∀ occurrence distance,
      s.control = .evaluate (.use occurrence) ∨ s.control = .evaluate (.this occurrence) →
      setting.locals[occurrence.id]? = some distance →
      (∃ a, s.env[distance]? = some a ∧ (s.memory.frame a).binds occurrence.name.lexeme) ∧
        ∃ v, step setting s = s.giving v) ∧
    (∀ keyword method distance, s.control = .evaluate (.super keyword method) →
      setting.locals[keyword.id]? = some distance →
      keyword.name.lexeme = "super" ∧ 0 < distance ∧
        (∃ a superclass, s.env[distance]? = some a ∧
          (s.memory.frame a).get? "super" = some (.classValue superclass)) ∧
        ∃ a address class_, s.env[distance - 1]? = some a ∧
          (s.memory.frame a).get? "this" = some (.object address class_)) ∧
    ∀ failure, s.control = .complete (.failed failure) →
      failure.cause ≠ .superOutsideClass ∧ failure.cause ≠ .superNotBound := by
  obtain ⟨r, hlocals, hsound⟩ := h.sound
  refine ⟨fun occurrence distance hcontrol hlocal => ?_,
    fun keyword method distance hcontrol hlocal => ?_, fun failure hcontrol => ?_⟩
  · have hfound : ∃ a, s.env[distance]? = some a ∧
        (s.memory.frame a).binds occurrence.name.lexeme := by
      rcases hcontrol with hcontrol | hcontrol
      · obtain ⟨scopes, top, hcurrent, hresolved, -⟩ := evaluating_of_sound hsound hcontrol
        cases hresolved with
        | use hrefers _ hread => exact reads_local hcurrent.toMatches hrefers hread (hlocals ▸ hlocal)
      · obtain ⟨scopes, top, hcurrent, hresolved, hpending⟩ := evaluating_of_sound hsound hcontrol
        cases hresolved with
        | this hname hrefers _ =>
            have hread : scopes.isInitializing occurrence.name.lexeme = false :=
              hpending.not_initializing fun hordinary => hordinary.1 hname
            exact reads_local hcurrent.toMatches hrefers hread (hlocals ▸ hlocal)
    obtain ⟨a, ha, hbinds⟩ := hfound
    have hstep : step setting s = lookup setting s occurrence := by
      unfold step
      rcases hcontrol with hcontrol | hcontrol <;> rw [hcontrol] <;> rfl
    rw [hstep]
    exact ⟨⟨a, ha, hbinds⟩, lookup_of_binds hlocal ha hbinds⟩
  · obtain ⟨scopes, top, hcurrent, hresolved, hpending⟩ := evaluating_of_sound hsound hcontrol
    cases hresolved with
    | @super _ _ inner hname hrefers hthis hsuper =>
        obtain rfl : inner + 1 = distance := by
          have hdistance := hrefers.distance
          rw [hname, hsuper, ← hlocals, hlocal] at hdistance
          exact (Option.some.inj hdistance).symm
        refine ⟨hname, Nat.succ_pos inner, ?_, ?_⟩
        · exact reads_super hcurrent.toMatches hsound.memory hsuper
            (hpending.not_initializing fun hordinary => hordinary.2 rfl)
        · exact reads_this hcurrent.toMatches hsound.memory hthis
            (hpending.not_initializing fun hordinary => hordinary.1 rfl)
  · obtain ⟨-, scopes, top, -, hproceeds⟩ := hsound
    rw [hcontrol] at hproceeds
    cases hproceeds with
    | complete h => exact absurd h id
    | leave h => exact absurd h id
    | fail houtside hbound _ => exact ⟨houtside, hbound⟩

/-- The variable of a block is found in the frame of the block. -/
theorem read_found_in_block : ∃ setting s,
    Visited setting s ∧ s.control = .evaluate (.use ⟨⟨.identifier, "a", 1⟩, 1⟩) ∧
      ∃ a, s.env[0]? = some a ∧ (s.memory.frame a).binds "a" := by
  let program : List Stmt :=
    [.block [.var ⟨.identifier, "a", 1⟩ none, .expression (.use ⟨⟨.identifier, "a", 1⟩, 1⟩)]]
  let after : Session := { Session.new with lastId := 1 }
  have haccepts : Session.new.Accepts "\x7bvar a; a;\x7d" program [(1, 0)] after := by
    unfold Accepts
    cbv
  let setting : Setting := ⟨after.locals.extend [(1, 0)], fun _ => 0⟩
  have hvisited : Visited setting (Machine.run setting 6 (after.starts program (.working ""))) :=
    ⟨.new, after, _, program, [(1, 0)], _, .working "", 6, .new, haccepts, rfl, rfl⟩
  have hcontrol : (Machine.run setting 6 (after.starts program (.working ""))).control
      = .evaluate (.use ⟨⟨.identifier, "a", 1⟩, 1⟩) := by cbv
  have hlocal : setting.locals[1]? = some 0 := by cbv
  exact ⟨_, _, hvisited, hcontrol,
    ((local_reads_found hvisited).1 _ 0 (Or.inl hcontrol) hlocal).1⟩

/-! ### Writing -/

/-- A local variable is there unless its own initializer is being evaluated. -/
theorem binds_target_iff {target : Occurrence} {distance : Nat} {below : List Pending}
    (hcurrent : Current s.memory scopes top s.env) (hrefers : r.Refers scopes target)
    (hpending : WaitsValue r s.memory scopes top below)
    (hlocal : r.locals[target.id]? = some distance) :
    (∃ a, s.env[distance]? = some a ∧ (s.memory.frame a).binds target.name.lexeme) ↔
      initializing? below ≠ some target.name.lexeme := by
  have hdistance : scopes.distance? target.name.lexeme = some distance :=
    hrefers.distance.symm.trans hlocal
  have hscopes : scopes ≠ [] := by
    rintro rfl
    exact absurd hdistance (by simp [Scopes.distance?_nil])
  have hinitializing : scopes.isInitializing target.name.lexeme = true ↔
      initializing? below = some target.name.lexeme := by
    rcases hpending.initializing with ⟨hsettled, hnone⟩ | ⟨outer, name, rfl, hsettled, -, hname⟩
    · simp [hsettled target.name.lexeme, hnone]
    · rw [hname]
      by_cases heq : name = target.name.lexeme
      · have houter : outer ≠ [] := fun hnil => hscopes (by rw [hnil]; rfl)
        simp [← heq, Scopes.isInitializing_mark_self, houter]
      · rw [Scopes.isInitializing_mark_of_ne heq]
        simp [hsettled target.name.lexeme, heq]
  rw [ne_eq, ← hinitializing, Bool.not_eq_true]
  constructor
  · rintro ⟨a, ha, hbinds⟩
    by_cases hzero : distance = 0
    · subst hzero
      obtain ⟨b, outer, henv, -⟩ := hcurrent.framed.head
      have hhead := hcurrent.head
      rw [henv] at ha hhead
      obtain rfl : b = a := Option.some.inj ha
      obtain rfl : b = top := Option.some.inj hhead
      exact (hcurrent.exact hscopes _ hbinds).2
    · cases hread : scopes.isInitializing target.name.lexeme with
      | false => rfl
      | true =>
          rw [Scopes.distance?_of_isInitializing hread] at hdistance
          exact absurd (Option.some.inj hdistance).symm hzero
  · intro hread
    exact hcurrent.bound _ _ hdistance hread

/-- Without a variable to change an assignment fails, and with one it does not. -/
theorem assign_fails_iff {target : Occurrence} {distance : Nat} {v : Value}
    (hlocal : setting.locals[target.id]? = some distance) :
    (assign setting s target v).control
        = .complete (.failed ⟨target.name, .undefinedVariable target.name.lexeme⟩) ↔
      ¬∃ a, s.env[distance]? = some a ∧ (s.memory.frame a).binds target.name.lexeme := by
  have hlocate : locate setting s target
      = s.memory.holderAt? s.env distance target.name.lexeme := by
    unfold locate
    dsimp only
    rw [hlocal]
  unfold assign
  dsimp only
  rw [hlocate, Memory.holderAt?]
  cases henv : s.env[distance]? with
  | none => simp [State.failing, State.completing]
  | some a =>
      by_cases hbinds : (s.memory.frame a).binds target.name.lexeme
      · simp [hbinds]
      · simp [hbinds, State.failing, State.completing]

/-- **An assignment to a local variable fails in the variable's own initializer, and
nowhere else.**  Everywhere else its frame is there and binds it. -/
theorem local_assignment_fails_iff {target : Occurrence} {distance : Nat} {v : Value}
    {below : List Pending} (h : Visited setting s) (hcontrol : s.control = .value v)
    (hpending : s.pending = .assignment target :: below)
    (hlocal : setting.locals[target.id]? = some distance) :
    ((∃ a, s.env[distance]? = some a ∧ (s.memory.frame a).binds target.name.lexeme) ↔
      initializing? below ≠ some target.name.lexeme) ∧
    ((step setting s).control
        = .complete (.failed ⟨target.name, .undefinedVariable target.name.lexeme⟩) ↔
      initializing? below = some target.name.lexeme) := by
  obtain ⟨r, hlocals, -, scopes, top, hcurrent, hproceeds⟩ := h.sound
  rw [hcontrol, hpending] at hproceeds
  have hbinds : (∃ a, s.env[distance]? = some a ∧
      (s.memory.frame a).binds target.name.lexeme) ↔
        initializing? below ≠ some target.name.lexeme := by
    cases hproceeds with
    | value _ hwaits =>
        cases hwaits with
        | assignment hrefers _ hbelow =>
            exact binds_target_iff hcurrent hrefers hbelow (hlocals ▸ hlocal)
  have hstep : step setting s = assign setting { s with pending := below } target v := by
    unfold step
    rw [hcontrol, hpending]
    rfl
  refine ⟨hbinds, ?_⟩
  rw [hstep, assign_fails_iff hlocal]
  exact (not_congr hbinds).trans (by simp)

/-- Such a program is accepted, and fails. -/
theorem own_initializer_fails :
    (∃ program after, Session.new.Accepts "\x7bvar x = (x = nil);\x7d" program [(2, 0)] after) ∧
    (Session.new.run (fun _ => 0) 20 (.working "") "\x7bvar x = (x = nil);\x7d").1
      = .failed ⟨⟨.identifier, "x", 1⟩, .undefinedVariable "x"⟩ := by
  refine ⟨⟨[.block [.var ⟨.identifier, "x", 1⟩
    (some (.group (.assign ⟨⟨.identifier, "x", 1⟩, 2⟩ (.literal .nil))))]],
    { Session.new with lastId := 2 }, ?_⟩, ?_⟩
  · unfold Accepts
    cbv
  · cbv

/-- It fails when the assignment is performed. -/
theorem own_initializer_assigns_nothing : ∃ setting s below,
    Visited setting s ∧ s.pending = .assignment ⟨⟨.identifier, "x", 1⟩, 2⟩ :: below ∧
      initializing? below = some "x" ∧
      (step setting s).control
        = .complete (.failed ⟨⟨.identifier, "x", 1⟩, .undefinedVariable "x"⟩) := by
  let program : List Stmt := [.block [.var ⟨.identifier, "x", 1⟩
    (some (.group (.assign ⟨⟨.identifier, "x", 1⟩, 2⟩ (.literal .nil))))]]
  let after : Session := { Session.new with lastId := 2 }
  have haccepts : Session.new.Accepts "\x7bvar x = (x = nil);\x7d" program [(2, 0)] after := by
    unfold Accepts
    cbv
  let setting : Setting := ⟨after.locals.extend [(2, 0)], fun _ => 0⟩
  let s : State := Machine.run setting 7 (after.starts program (.working ""))
  have hvisited : Visited setting s :=
    ⟨.new, after, _, program, [(2, 0)], _, .working "", 7, .new, haccepts, rfl, rfl⟩
  have hcontrol : s.control = .value .nil := by cbv
  have hpending : s.pending = .assignment ⟨⟨.identifier, "x", 1⟩, 2⟩ ::
      [.define ⟨.identifier, "x", 1⟩, .sequence [], .leaveBlock [0], .sequence []] := by cbv
  have hlocal : setting.locals[2]? = some 0 := by cbv
  exact ⟨setting, s, _, hvisited, hpending, rfl,
    (local_assignment_fails_iff hvisited hcontrol hpending hlocal).2.mpr rfl⟩

end Lox.Session
