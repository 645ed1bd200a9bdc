/-
Sessions that differ in their numbers only.

A session that has read more than another has handed out more numbers, and from then on
all its numbers are other ones.  `Mirrors f n short long` says that this is the whole
difference: the long session is the short one with the number `f id` wherever the short
one has `id`, and what comes next will be numbered higher by `n`.  Whatever is read or
run in both leaves them mirrored (`Mirrors.parse`, `Mirrors.run`), and so does what is
only read in the long one (`Mirrors.skip`).

For the last of these `f` has to change on the numbers that the short session has not
handed out, and so those must not occur in it yet.  That is `Contained`: bringing them
all to zero leaves the memory as it is.
-/
import Lox.Proofs.Grammar.Relabelling
import Lox.Proofs.Machine.Relabelling
import Lox.Proofs.Scheme.Relabelling
import Lox.Proofs.Scope.Relabelling
import Lox.Proofs.Session.Accepted

namespace Lox

/-- The same outcome, with its faults and its failure on other lines. -/
def Outcome.reline (l : Nat → Nat) : Outcome → Outcome
  | .success => .success
  | .refused faults => .refused (faults.map (Fault.reline l))
  | .failed failure => .failed (failure.reline l)
  | .outOfFuel => .outOfFuel

theorem Outcome.reline_by_id (outcome : Outcome) : outcome.reline id = outcome := by
  cases outcome with
  | refused faults => exact congrArg refused (Fault.map_reline_by_id faults)
  | _ => rfl

theorem Outcome.reline_eq_success_iff {l : Nat → Nat} {outcome : Outcome} :
    outcome.reline l = .success ↔ outcome = .success := by
  cases outcome <;> simp [Outcome.reline]

namespace Session

open Scope Machine

variable {f : Nat → Nat} {n : Nat} {session after short long : Session} {source : String}
  {program : List Stmt} {found : List (Nat × Nat)}

/-! ### Reading with other numbers -/

/-- Reading looks at nothing in a session but the number it has come to. -/
theorem parse_shift (h : long.lastId = short.lastId + n) (source : String) :
    long.parse source
      = ((short.parse source).1.map (List.map (Stmt.relabel (· + n) id)),
          { long with lastId := (short.parse source).2.lastId + n }) := by
  have hread := Grammar.parse_shift (Lexed.ofSource source).tokens
    (Lexed.ofSource source).endLine short.lastId n id
  rw [Token.map_reline_by_id, Fault.map_reline_by_id, id_eq] at hread
  unfold Session.parse
  dsimp only
  rw [h, hread]
  generalize Grammar.parse _ _ short.lastId = parsed
  dsimp only
  cases (Lexed.ofSource source).faults ++ parsed.faults <;> rfl

theorem analyse_shift (h : long.lastId = short.lastId + n) (source : String) :
    long.analyse source
      = ((short.analyse source).1.map
            (Prod.map (List.map (Stmt.relabel (· + n) id)) (List.map (Prod.map (· + n) id))),
          { long with lastId := (short.analyse source).2.lastId + n }) := by
  unfold Session.analyse
  rw [parse_shift h source]
  obtain ⟨result, after⟩ := short.parse source
  cases result with
  | error faults => rfl
  | ok program =>
      simp only [Except.map, analyse_relabel, Findings.relabel, Fault.map_reline_by_id]
      split <;> rfl

/-- What is written for a program does not depend on the session at all. -/
theorem toScheme_shift (h : long.lastId = short.lastId + n) (pretty : Bool) (source : String) :
    long.toScheme pretty source
      = ((short.toScheme pretty source).1,
          { long with lastId := (short.toScheme pretty source).2.lastId + n }) := by
  unfold Session.toScheme
  rw [analyse_shift h source]
  obtain ⟨result, after⟩ := short.analyse source
  cases result with
  | error faults => rfl
  | ok accepted =>
      obtain ⟨program, found⟩ := accepted
      simp only [Except.map, Prod.map, Scheme.program_relabel, Scheme.prettyProgram_relabel]

theorem parse_lastId_le (session : Session) (source : String) :
    session.lastId ≤ (session.parse source).2.lastId :=
  Grammar.parse_lastId_le _ _ _

/-! ### Numbers that were handed out -/

/-- Leaves the numbers up to `n` as they are. -/
def upTo (n id : Nat) : Nat :=
  if id ≤ n then id else 0

theorem upTo_comp {m : Nat} (h : n ≤ m) : upTo m ∘ upTo n = upTo n := by
  funext id
  unfold Function.comp upTo
  split <;> split <;> omega

/-- A session holds no number that it has not handed out. -/
structure Contained (session : Session) : Prop where
  bounded : session.Bounded
  zero : session.locals[0]? = none
  memory : session.memory.relabel (upTo session.lastId) id = session.memory

theorem contained_new : Contained .new := by
  have hempty : ∀ id : Nat, Session.new.locals[id]? = none := by
    intro id
    exact Std.TreeMap.getElem?_emptyc
  exact ⟨fun id _ => hempty id, hempty 0, Memory.relabel_initial⟩

/-- More numbers may be used up. -/
theorem Contained.skip (h : session.Contained) {lastId : Nat} (hle : session.lastId ≤ lastId) :
    Contained { session with lastId := lastId } := by
  refine ⟨fun id hid => h.bounded id (Nat.lt_of_le_of_lt hle hid), h.zero, ?_⟩
  have htwice : (session.memory.relabel (upTo session.lastId) id).relabel (upTo lastId) id
      = session.memory.relabel (upTo session.lastId) id := by
    rw [Memory.relabel_relabel, upTo_comp hle, Function.id_comp]
  rw [h.memory] at htwice
  exact htwice

/-- A table that is about these numbers only has the same distances for them. -/
theorem getElem?_upTo {locals : Locals} (hbounded : ∀ id, n < id → locals[id]? = none)
    (hzero : locals[0]? = none) (id : Nat) : locals[upTo n id]? = locals[id]? := by
  unfold upTo
  split
  · rfl
  · rename_i hid
    rw [hzero, hbounded id (Nat.lt_of_not_le hid)]

theorem Accepts.zero (h : session.Accepts source program found after)
    (hzero : session.locals[0]? = none) : (after.locals.extend found)[0]? = none := by
  rw [h.locals_eq, Locals.getElem?_extend_of_not_mem]
  · exact hzero
  · intro hmem
    have hpos := (h.numbered.within 0 (h.listed.subset hmem)).1
    omega

/-- Running a program leaves no number behind but those of that program. -/
theorem Contained.accepted (h : session.Contained)
    (haccepts : session.Accepts source program found after) (clock : Nat → Float) (fuel : Nat)
    (sink : Sink) {final : State}
    (hfinal : Machine.run ⟨after.locals.extend found, clock⟩ fuel
      (.start program after.env after.depth after.memory sink) = final) :
    Contained
      ⟨after.lastId, after.locals.extend found, final.env, final.depth, final.memory⟩ := by
  have hbounded := haccepts.bounded h.bounded
  have hzero := haccepts.zero h.zero
  refine ⟨hbounded, hzero, ?_⟩
  have hmemory : after.memory.relabel (upTo after.lastId) id = after.memory := by
    have hafter := (h.skip haccepts.numbered.le).memory
    rw [haccepts.memory_eq]
    exact hafter
  have hprogram : program.map (Stmt.relabel (upTo after.lastId) id) = program := by
    rw [← Stmt.relabelAll_eq_map]
    apply Stmt.relabelAll_eq_self
    intro id hid
    exact if_pos (haccepts.numbered.within id hid).2
  have hstart : (State.start program after.env after.depth after.memory sink).relabel
      (upTo after.lastId) id = .start program after.env after.depth after.memory sink := by
    show State.start (program.map (Stmt.relabel (upTo after.lastId) id)) after.env after.depth
      (after.memory.relabel (upTo after.lastId) id) sink = _
    rw [hprogram, hmemory]
  have hrun : Machine.run ⟨after.locals.extend found, clock⟩ fuel
      ((State.start program after.env after.depth after.memory sink).relabel (upTo after.lastId) id)
      = _ :=
    run_relabel (getElem?_upTo hbounded hzero) fuel _
  rw [hstart, hfinal] at hrun
  exact (congrArg State.memory hrun).symm

theorem Contained.parse (h : session.Contained) (source : String) :
    (session.parse source).2.Contained :=
  h.skip (parse_lastId_le session source)

theorem Contained.run (h : session.Contained) (clock : Nat → Float) (fuel : Nat) (sink : Sink)
    (source : String) : (session.run clock fuel sink source).2.2.Contained := by
  cases hresult : session.analyse source with
  | mk result after =>
      cases result with
      | error faults =>
          have hafter : after = (session.parse source).2 := by
            rw [← analyse_session, hresult]
          unfold Session.run
          rw [hresult]
          dsimp only
          rw [hafter]
          exact h.parse source
      | ok accepted =>
          obtain ⟨program, found⟩ := accepted
          have haccepts : session.Accepts source program found after := hresult
          unfold Session.run
          rw [hresult]
          exact h.accepted haccepts clock fuel sink rfl

/-! ### Mirrored sessions -/

/-- How a program ended does not depend on the labels, but for the lines that are told. -/
theorem outcomeOf_relabel (l : Nat → Nat) (s : State) :
    outcomeOf (s.relabel f l) = (outcomeOf s).reline l := by
  unfold outcomeOf
  rw [State.ended?_relabel]
  rcases s.ended? with _ | c
  · rfl
  · cases c <;> rfl

/-- The long session is the short one with other numbers. -/
structure Mirrors (f : Nat → Nat) (n : Nat) (short long : Session) : Prop where
  lastId : long.lastId = short.lastId + n
  earlier : ∀ id, id ≤ short.lastId → f id ≤ long.lastId
  later : ∀ id, short.lastId < id → f id = id + n
  locals : ∀ id, long.locals[f id]? = short.locals[id]?
  env : long.env = short.env
  depth : long.depth = short.depth
  memory : long.memory = short.memory.relabel f id

theorem mirrors_new : Mirrors id 0 .new .new :=
  ⟨rfl, fun _ h => h, fun _ _ => rfl, fun _ => rfl, rfl, rfl, Memory.relabel_initial.symm⟩

namespace Mirrors

/-- Both may use up the same count of numbers. -/
theorem advance (h : Mirrors f n short long) {lastId : Nat} (hle : short.lastId ≤ lastId) :
    Mirrors f n { short with lastId := lastId } { long with lastId := lastId + n } := by
  refine ⟨rfl, fun id hid => ?_, fun id hid => ?_, h.locals, h.env, h.depth, h.memory⟩
  · show f id ≤ lastId + n
    have hid : id ≤ lastId := hid
    by_cases hold : id ≤ short.lastId
    · have hearlier := h.earlier id hold
      rw [h.lastId] at hearlier
      omega
    · rw [h.later id (Nat.lt_of_not_le hold)]
      omega
  · have hid : lastId < id := hid
    exact h.later id (by omega)

/-- The long session may use up numbers that the short one does not. -/
theorem skip (h : Mirrors f n short long) (hcontained : short.Contained) {lastId : Nat}
    (hle : long.lastId ≤ lastId) :
    ∃ g m, Mirrors g m short { long with lastId := lastId } := by
  obtain ⟨k, rfl⟩ := Nat.exists_eq_add_of_le hle
  refine ⟨fun id => if id ≤ short.lastId then f id else id + (n + k), n + k,
    ⟨?_, fun id hid => ?_, fun id hid => if_neg (Nat.not_le_of_lt hid), fun id => ?_, h.env,
      h.depth, ?_⟩⟩
  · show long.lastId + k = short.lastId + (n + k)
    rw [h.lastId, Nat.add_assoc]
  · dsimp only
    rw [if_pos hid]
    exact Nat.le_trans (h.earlier id hid) (Nat.le_add_right _ _)
  · dsimp only
    split
    · exact h.locals id
    · rename_i hid
      -- The long session has no distance for it, as the short one has none for `id + k`.
      have hlater : f (id + k) = id + (n + k) := by
        rw [h.later (id + k) (by omega)]
        omega
      have hlong := h.locals (id + k)
      rw [hlater, hcontained.bounded (id + k) (by omega)] at hlong
      rw [hlong, hcontained.bounded id (by omega)]
  · have hagree : f ∘ upTo short.lastId
        = (fun id => if id ≤ short.lastId then f id else id + (n + k)) ∘ upTo short.lastId := by
      funext id
      have hid : upTo short.lastId id ≤ short.lastId := by
        unfold upTo
        split <;> omega
      exact (if_pos hid).symm
    show long.memory = _
    rw [h.memory, ← hcontained.memory, Memory.relabel_relabel, Memory.relabel_relabel, hagree]

/-- What is read in both leaves them mirrored. -/
theorem parse (h : Mirrors f n short long) (source : String) :
    Mirrors f n (short.parse source).2 (long.parse source).2 := by
  rw [parse_shift h.lastId]
  exact h.advance (parse_lastId_le short source)

/-- The distances of the same accepted program, found in both. -/
theorem locals_extend (h : Mirrors f n short long)
    (haccepts : short.Accepts source program found after) (number : Nat) :
    (long.locals.extend (found.map (Prod.map (· + n) id)))[f number]?
      = (short.locals.extend found)[number]? := by
  have hnew : ∀ number ∈ found.map Prod.fst, short.lastId < number := fun number hmem =>
    (haccepts.numbered.within number (haccepts.listed.subset hmem)).1
  have hfst : (found.map (Prod.map (· + n) id)).map Prod.fst
      = (found.map Prod.fst).map (· + n) := by
    rw [List.map_map, List.map_map]
    rfl
  by_cases hmem : number ∈ found.map Prod.fst
  · obtain ⟨entry, hentry, rfl⟩ := List.mem_map.mp hmem
    have hnodup : ((found.map (Prod.map (· + n) id)).map Prod.fst).Nodup := by
      rw [hfst]
      exact List.Pairwise.map _ (fun a b hne heq => hne (Nat.add_right_cancel heq)) haccepts.nodup
    have hlong := Locals.getElem?_extend_of_mem hnodup (List.mem_map_of_mem hentry) long.locals
    rw [Locals.getElem?_extend_of_mem haccepts.nodup hentry, h.later _ (hnew _ hmem)]
    exact hlong
  · rw [Locals.getElem?_extend_of_not_mem hmem, Locals.getElem?_extend_of_not_mem, h.locals]
    rw [hfst]
    intro hlong
    obtain ⟨other, hother, heq⟩ := List.mem_map.mp hlong
    by_cases hold : number ≤ short.lastId
    · have hearlier := h.earlier number hold
      have hother := hnew other hother
      rw [← heq, h.lastId] at hearlier
      omega
    · rw [h.later number (Nat.lt_of_not_le hold)] at heq
      exact hmem (Nat.add_right_cancel heq ▸ hother)

/-- **What is run in both ends alike in both, and leaves them mirrored.** -/
theorem run (h : Mirrors f n short long) (clock : Nat → Float) (fuel : Nat) (sink : Sink)
    (source : String) :
    (long.run clock fuel sink source).1 = (short.run clock fuel sink source).1 ∧
      (long.run clock fuel sink source).2.1 = (short.run clock fuel sink source).2.1 ∧
      Mirrors f n (short.run clock fuel sink source).2.2 (long.run clock fuel sink source).2.2 := by
  have hanalyse := analyse_shift h.lastId source
  cases hresult : short.analyse source with
  | mk result after =>
      rw [hresult] at hanalyse
      cases result with
      | error faults =>
          have hafter : after = (short.parse source).2 := by
            rw [← analyse_session, hresult]
          unfold Session.run
          rw [hanalyse, hresult]
          refine ⟨rfl, rfl, ?_⟩
          rw [hafter]
          exact h.advance (parse_lastId_le short source)
      | ok accepted =>
          obtain ⟨program, found⟩ := accepted
          have haccepts : short.Accepts source program found after := hresult
          have hprogram : program.map (Stmt.relabel (· + n) id)
              = program.map (Stmt.relabel f id) := by
            rw [← Stmt.relabelAll_eq_map, ← Stmt.relabelAll_eq_map]
            apply Stmt.relabelAll_congr
            intro number hmem
            exact (h.later number (haccepts.numbered.within number hmem).1).symm
          have hle := haccepts.numbered.le
          have hlocals := h.locals_extend haccepts
          obtain ⟨lastId, rfl⟩ : ∃ lastId, after = { short with lastId := lastId } :=
            ⟨_, haccepts.after_eq⟩
          have hstart : State.start (program.map (Stmt.relabel (· + n) id)) long.env long.depth
              long.memory sink
              = (State.start program short.env short.depth short.memory sink).relabel f id := by
            rw [hprogram, h.env, h.depth, h.memory]
            rfl
          have hrun : Machine.run ⟨_, clock⟩ fuel
              ((State.start program short.env short.depth short.memory sink).relabel f id) = _ :=
            run_relabel hlocals fuel _
          rw [← hstart] at hrun
          have hafter := h.advance hle
          unfold Session.run
          rw [hanalyse, hresult]
          dsimp only [Except.map, Prod.map]
          rw [hrun]
          generalize Machine.run _ fuel (.start program short.env short.depth _ sink) = final
          have houtcome := outcomeOf_relabel (f := f) id final
          rw [Outcome.reline_by_id] at houtcome
          exact ⟨houtcome, rfl, hafter.lastId, hafter.earlier, hafter.later, hlocals, rfl, rfl,
            rfl⟩

end Mirrors

end Session

end Lox
