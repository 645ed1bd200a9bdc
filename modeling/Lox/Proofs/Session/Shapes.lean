/-
What every program is shaped like.

Reading gives the trees that it could make of the tokens also when there are faults, and all
of them have the shape that running, analysing and writing rely on without looking: no
declaration hangs in a branch or a loop, methods are functions, and operators are known.  So
the cases that are there for anything else, a failure in the machine and a form that is spelled
like the operator, are never come to, or only by operators that they are right for.
-/
import Mathlib
import Lox.Proofs.Grammar.Built
import Lox.Proofs.Machine.Operators
import Lox.Proofs.Session.Invariants

namespace Lox

open Machine

/-- Tokens of every row may do what their kinds are for. -/
theorem Grammar.Derives.allows_kinds (tokens : List Token) : Allows .kinds tokens :=
  ⟨fun _ _ _ h => h, fun _ _ _ => ⟨List.mem_cons_self, List.mem_cons_of_mem _ List.mem_cons_self⟩⟩

/-- Only one cause has this wording. -/
theorem Failure.Cause.message_ne {cause : Failure.Cause} (h : cause ≠ .unsupportedOperator) :
    cause.message ≠ "Unsupported binary operator." := by
  intro hmessage
  -- Wordings that something is put into differ in what they start with.
  have hstart {front rest : String} (h : front ++ rest = "Unsupported binary operator.") :
      front.toList <+: "Unsupported binary operator.".toList :=
    ⟨rest.toList, by rw [← String.toList_append, h]⟩
  cases cause with
  | unsupportedOperator => exact h rfl
  | wrongArgumentCount expected got =>
      unfold message at hmessage
      simp only [String.append_assoc] at hmessage
      have hletters := hstart hmessage
      exact absurd hletters (by decide)
  | undefinedProperty name | undefinedVariable name =>
      unfold message at hmessage
      simp only [String.append_assoc] at hmessage
      have hletters := hstart hmessage
      exact absurd hletters (by decide)
  | outputLost reason =>
      have hletters := hstart hmessage
      exact absurd hletters (by decide)
  | _ => exact absurd hmessage (by decide)

namespace Scheme

/-- The operators whose form is not spelled like them. -/
def renamed : List TokenKind :=
  [.equalEqual, .comma, .plus, .slash]

theorem operatorName_of_not_renamed {operator : Token} (h : operator.kind ∉ renamed) :
    operatorName operator = operator.lexeme := by
  unfold operatorName
  split
  · rename_i hkind
    exact absurd (by rw [hkind]; decide) h
  · rename_i hkind
    exact absurd (by rw [hkind]; decide) h
  · rename_i hkind
    exact absurd (by rw [hkind]; decide) h
  · rename_i hkind
    exact absurd (by rw [hkind]; decide) h
  · rfl

end Scheme

namespace Session

variable {session after : Session} {source : String} {program : List Stmt}
  {found : List (Nat × Nat)} {setting : Setting} {s : State}

/-- All functions that a session has left behind have known operators. -/
def Known (session : Session) : Prop :=
  session.memory.All fun closure => Declared (Node.Worded .kinds) closure.declaration

theorem Known.starts (h : session.Known) (haccepts : session.Accepts source program found after)
    (sink : Sink) : (after.starts program sink).Known := by
  refine .start ((parse_ok haccepts.read.1).2.worded (Grammar.Derives.allows_kinds _)) ?_ _ _ sink
  rw [haccepts.memory_eq]
  exact h

theorem Reachable.known (h : session.Reachable) : session.Known := by
  refine h.invariant (I := Known) Memory.All.initial (fun _ _ _ h => h) ?_
  rintro session after source program found clock fuel sink s c - h haccepts rfl -
  exact (run_known (h.starts haccepts sink) fuel).trees.functions.memory

theorem Visited.known (h : Visited setting s) : s.Known := by
  obtain ⟨session, after, source, program, found, clock, sink, steps, hreachable, haccepts,
    rfl, rfl⟩ := h
  exact run_known (hreachable.known.starts haccepts sink) steps

/-- **The shape of programs.**  For every row of tokens, also if there are faults in it, what is
read of it is a program in which

  * declarations stand directly in the program, in a block or in the body of a function, methods
    stand in classes, and all operators are of the kinds that there are trees for;
  * each form for two operands has a name of its own for the operator, or is one of six that are
    spelled like it; and the sign that is not a minus is a negation;

and whose run comes to no operator that is not supported.  Neither does any run in a session. -/
theorem programs_shaped :
    (∀ (tokens : List Token) (endLine lastId : Nat),
      let program := (Grammar.parse tokens endLine lastId).program
      (∀ p : Place, p.IsIn program → p.Shaped) ∧
      (∀ (p : Place) (operator : Token) (left right : Expr), p.IsIn program →
        p.node = .expr (.binary operator left right) → operator.kind ∉ Scheme.renamed →
        operator.kind ∈ [.minus, .star, .greater, .greaterEqual, .less, .lessEqual] ∧
        Scheme.ofExpr (.binary operator left right)
          = Scheme.form operator.lexeme [Scheme.ofExpr left, Scheme.ofExpr right]) ∧
      (∀ (p : Place) (operator : Token) (operand : Expr), p.IsIn program →
        p.node = .expr (.unary operator operand) → operator.kind ≠ .minus →
        operator.kind = .bang ∧
        Scheme.ofExpr (.unary operator operand)
          = Scheme.form "not" [Scheme.ofExpr operand]) ∧
      ∀ (setting : Setting) (env : Env) (depth : Nat) (sink : Sink) (steps : Nat)
        (failure : Failure),
        (Machine.run setting steps (.start program env depth Memory.initial sink)).control
          = .complete (.failed failure) →
        failure.cause.message ≠ "Unsupported binary operator.") ∧
    ∀ (setting : Setting) (s : State) (failure : Failure), Visited setting s →
      s.control = .complete (.failed failure) →
      failure.cause.message ≠ "Unsupported binary operator." := by
  refine ⟨fun tokens endLine lastId => ?_, fun setting s failure hvisited hcontrol =>
    Failure.Cause.message_ne (hvisited.known.cause hcontrol)⟩
  have hworded : ∀ s ∈ (Grammar.parse tokens endLine lastId).program, s.Worded .kinds :=
    (Grammar.parse_comesTo (Grammar.Derives.allows_kinds tokens) endLine lastId).2
  refine ⟨fun p hp => hp.shaped hworded, fun p operator left right hp he hrenamed => ?_,
    fun p operator operand hp he hminus => ?_,
    fun setting env depth sink steps failure hcontrol => ?_⟩
  · have hkind := ((hp.shaped hworded).binary operator left right he).1
    refine ⟨?_, ?_⟩
    · simp only [Scheme.renamed, List.mem_cons, List.not_mem_nil, or_false] at hkind hrenamed ⊢
      tauto
    · rw [Scheme.ofExpr, Scheme.operatorName_of_not_renamed hrenamed]
  · have hbang := ((hp.shaped hworded).unary operator operand he).resolve_right hminus
    refine ⟨hbang, ?_⟩
    rw [Scheme.ofExpr, hbang]
  · exact Failure.Cause.message_ne
      ((run_known (.start hworded Memory.All.initial env depth sink) steps).cause hcontrol)

/-- An operator that is spelled alike in Scheme, found in its place, and the failure that it
comes to. -/
theorem difference_shaped : ∃ setting s failure operator left right, ∃ p : Place,
    p.IsIn (Grammar.parse (Lexed.ofSource "if (nil != true) print nil - true;").tokens 1 0).program ∧
    p.node = .expr (.binary operator left right) ∧ operator.kind ∉ Scheme.renamed ∧ p.Shaped ∧
    operator.kind ∈ [.minus, .star, .greater, .greaterEqual, .less, .lessEqual] ∧
    Visited setting s ∧ s.control = .complete (.failed failure) ∧ failure.token = operator ∧
    failure.cause.message ≠ "Unsupported binary operator." := by
  let source : String := "if (nil != true) print nil - true;"
  let operands (operator : Token) : Expr :=
    .binary operator (.literal .nil) (.literal (.bool true))
  let minus : Token := ⟨.minus, "-", 1⟩
  let shown : Stmt := .print ⟨.kwPrint, "print", 1⟩ (operands minus)
  let program : List Stmt :=
    [.ifElse (.unary ⟨.bang, "!", 1⟩ (operands ⟨.equalEqual, "==", 1⟩)) shown none]
  have hparse : (Grammar.parse (Lexed.ofSource source).tokens 1 0).program = program := by cbv
  let p : Place :=
    (((Place.whole program).part 0 (.stmt program.head!)).part 1 (.stmt shown)).part 0
      (.expr (operands minus))
  have hplace : p.IsIn program := (((Place.Within.self).inside rfl).inside rfl).inside rfl
  have haccepts : Session.new.Accepts source program [] .new := by
    unfold Accepts
    cbv
  let setting : Setting := ⟨Session.new.locals.extend [], fun _ => 0⟩
  let s : State := Machine.run setting 16 (Session.new.starts program (.working ""))
  have hvisited : Visited setting s :=
    ⟨.new, .new, source, program, [], _, .working "", 16, .new, haccepts, rfl, rfl⟩
  have hcontrol : s.control = .complete (.failed ⟨minus, .operandsNotNumbers⟩) := by cbv
  clear_value s
  obtain ⟨hprograms, hsessions⟩ := programs_shaped
  obtain ⟨hshaped, hbinary, -, -⟩ := hprograms (Lexed.ofSource source).tokens 1 0
  rw [hparse] at hshaped hbinary
  refine ⟨setting, s, _, minus, _, _, p, hparse ▸ hplace, rfl, by decide, hshaped p hplace,
    (hbinary p minus _ _ hplace rfl (by decide)).1, hvisited, hcontrol, rfl,
    hsessions setting s _ hvisited hcontrol⟩

end Session

end Lox
