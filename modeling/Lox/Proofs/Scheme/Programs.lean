/-
Whole programs in Scheme.

A statement is written in the same way behind every text, so the text of a program is
the prelude and then the texts of its statements, each of which was begun and ended with
no list open.
-/
import Mathlib
import Lox.Proofs.Scheme.Balance
import Lox.Proofs.Scheme.Writing
import Lox.Proofs.Session.Accepted

namespace Lox.Scheme

/-! ### What was written before does not matter -/

namespace Draft

/-- A draft behind a text. -/
def behind (text : String) (d : Draft) : Draft :=
  ⟨text ++ d.text, d.depth⟩

variable (text : String) (d : Draft)

@[simp] theorem behind_depth : (d.behind text).depth = d.depth :=
  rfl

@[simp] theorem behind_write (more : String) :
    (d.behind text).write more = (d.write more).behind text := by
  simp [behind, write, String.append_assoc]

@[simp] theorem behind_openList (head : String) :
    (d.behind text).openList head = (d.openList head).behind text := by
  simp [behind, openList, String.append_assoc]

@[simp] theorem behind_close : (d.behind text).close = d.close.behind text := by
  unfold close
  rw [behind_depth]
  split
  · rfl
  · simp [behind, String.append_assoc]

@[simp] theorem behind_newline : (d.behind text).newline = d.newline.behind text :=
  behind_write text d _

@[simp] theorem behind_closeTimes (n : Nat) :
    closeTimes n (d.behind text) = (closeTimes n d).behind text := by
  induction n generalizing d with
  | zero => rfl
  | succ n ih => rw [closeTimes, closeTimes, behind_close, ih]

@[simp] theorem behind_closeTo (depth : Nat) :
    (d.behind text).closeTo depth = (d.closeTo depth).behind text :=
  behind_closeTimes text d _

end Draft

section Behind

variable (text : String) (d : Draft)

@[simp] theorem behind_openBinding (name : Token) :
    openBinding name (d.behind text) = (openBinding name d).behind text := by
  unfold openBinding
  rw [Draft.behind_depth]
  split <;> simp

@[simp] theorem behind_closeBinding (start : Nat) :
    closeBinding start (d.behind text) = (closeBinding start d).behind text := by
  unfold closeBinding
  split <;> simp

@[simp] theorem behind_endBody (isEmpty : Bool) (start : Nat) :
    endBody isEmpty start (d.behind text) = (endBody isEmpty start d).behind text := by
  unfold endBody
  rw [Draft.behind_depth]
  split <;> simp

end Behind

mutual

theorem behind_stmt (text : String) : ∀ (s : Stmt) (d : Draft),
    ofStmt s (d.behind text) = (ofStmt s d).behind text
  | .expression _, d | .print _ _, d | .breakLoop _, d | .returnWith _ _, d => by
      simp [ofStmt]
  | .var name initializer, d => by
      rw [ofStmt, ofStmt, Draft.behind_depth]
      split <;> simp
  | .block body, d => by
      simp [ofStmt, behind_stmts text body]
  | .ifElse condition onTrue none, d => by
      simp [ofStmt, behind_stmt text onTrue]
  | .ifElse condition onTrue (some onFalse), d => by
      simp [ofStmt, behind_stmt text onTrue, behind_stmt text onFalse]
  | .whileLoop condition body, d => by
      simp [ofStmt, behind_stmt text body]
  | .function declaration, d => by
      simp [ofStmt, behind_function text false declaration]
  | .classDecl name superclass methods, d => by
      simp [ofStmt, behind_methods text methods]

theorem behind_stmts (text : String) : ∀ (body : List Stmt) (d : Draft),
    ofStmts body (d.behind text) = (ofStmts body d).behind text
  | [], d => rfl
  | s :: rest, d => by
      rw [ofStmts, ofStmts, Draft.behind_newline, behind_stmt text s, behind_stmts text rest]

theorem behind_function (text : String) : ∀ (isInitializer : Bool) (f : FunctionDecl) (d : Draft),
    ofFunction isInitializer f (d.behind text) = (ofFunction isInitializer f d).behind text
  | isInitializer, ⟨name, params, body⟩, d => by
      cases isInitializer <;> simp [ofFunction, behind_stmts text body]

theorem behind_methods (text : String) : ∀ (methods : List FunctionDecl) (d : Draft),
    ofMethods methods (d.behind text) = (ofMethods methods d).behind text
  | [], d => rfl
  | method :: rest, d => by
      simp [ofMethods, behind_function text _ method, behind_methods text rest]

end

/-! ### Top-level statements -/

/-- The text of a top-level statement. -/
def topText (s : Stmt) : String :=
  (ofStmt s .empty).text

/-- A top-level statement is written as its datum, with nothing left open. -/
theorem yields_top {s : Stmt} {p : Place} (h : s.Worded vocabulary) :
    Yields (topText s) (topDatum p s).plain ∧ (ofStmt s .empty).depth = 0 := by
  have hwritten : ∀ items below, (ofStmt s .empty).Holds (.list items :: below) below
      [items ++ [(topDatum p s).plain]] := fun items below => by
    have hempty : Draft.empty.Ready (.list items :: below) below [items] := ⟨rfl, rfl⟩
    have hheld := ofStmt_written (p := p) h hempty
    rwa [heldAfter_top] at hheld
  exact ⟨fun items below => (hwritten items below).reads,
    by simpa using (hwritten [] []).depth.symm⟩

/-- The text of statements, each ended by a new line. -/
def topTexts (statements : List Stmt) : String :=
  String.join (statements.map fun s => topText s ++ "\n")

theorem ofTopLevel_eq {statements : List Stmt} (h : ∀ s ∈ statements, s.Worded vocabulary)
    (text : String) : ofTopLevel statements ⟨text, 0⟩ = ⟨text ++ topTexts statements, 0⟩ := by
  induction statements generalizing text with
  | nil => simp [ofTopLevel, topTexts]
  | cons s rest ih =>
      rw [List.forall_mem_cons] at h
      have hdepth := (yields_top (p := .whole []) h.1).2
      have hwritten : (ofStmt s ⟨text, 0⟩).newline = ⟨text ++ (topText s ++ "\n"), 0⟩ := by
        have hbehind : (⟨text, 0⟩ : Draft) = Draft.empty.behind text := by
          simp [Draft.behind, Draft.empty]
        rw [hbehind, behind_stmt, Draft.behind_newline, Draft.newline, hdepth]
        simp [Draft.behind, Draft.write, topText, hdepth]
      rw [ofTopLevel, hwritten, ih h.2]
      simp [topTexts, String.append_assoc]

theorem yields_topData {statements : List Stmt} (p : Place) (position : Nat)
    (h : ∀ s ∈ statements, s.Worded vocabulary) :
    List.Forall₂ (fun s datum => Yields (topText s) datum ∧ bodied datum = true) statements
      ((topData p position statements).map Datum.plain) := by
  induction statements generalizing position with
  | nil => exact .nil
  | cons s rest ih =>
      rw [List.forall_mem_cons] at h
      refine .cons ⟨(yields_top h.1).1, ?_⟩ (ih (position + 1) h.2)
      have hvalue := bodied_stmt (p := p.part position (.stmt s)) h.1
      rw [topDatum]
      split
      · exact bodied_applied (by decide) (List.forall_mem_cons.mpr ⟨rfl,
          List.forall_mem_singleton.mpr hvalue⟩)
      · exact hvalue

theorem Yields.read {text : String} {datum : Plain} (h : Yields text datum) :
    read text = some [datum] := by
  obtain ⟨r, hread, hsettle⟩ := h [] []
  rw [Scheme.read, hread, Option.bind_some, hsettle]
  rfl

theorem reads_topTexts {statements : List Stmt} {data : List Plain}
    (h : List.Forall₂ (fun s datum => Yields (topText s) datum) statements data)
    (items : List Plain) (below : List Frame) :
    Passes (.list items :: below) (topTexts statements).toList (.list (items ++ data) :: below) := by
  induction h generalizing items with
  | nil => simpa [topTexts] using passes_nil (.list items :: below)
  | @cons s datum statements data hfirst _ ih =>
      have hline := (hfirst items below).passes ends_newline (by simp)
        (passes_blank (show Segment.isBlank '\n' = true from rfl))
      have hrest := ih (items ++ [datum])
      rw [List.append_assoc] at hrest
      simpa [topTexts] using hline.passes hrest

/-! ### Whole programs -/

theorem program_eq {program : List Stmt} (h : ∀ s ∈ program, s.Worded vocabulary) :
    Scheme.program program = prelude ++ topTexts program := by
  have hstart : Draft.empty.write prelude = ⟨prelude, 0⟩ := by
    simp [Draft.empty, Draft.write]
  rw [Scheme.program, hstart, ofTopLevel_eq h]

/-- What is written behind the prelude is read as the data of the program. -/
theorem read_topTexts {program : List Stmt} (h : ∀ s ∈ program, s.Worded vocabulary) :
    read (topTexts program) = some ((programData program).map Datum.plain) := by
  have hdata := yields_topData (.whole program) 0 h
  have hpasses := reads_topTexts (hdata.imp fun _ _ h => h.1) [] []
  obtain ⟨r, hreads, hsettle⟩ := hpasses.reads
  rw [read, hreads, Option.bind_some, hsettle]
  rfl

theorem balanced_append {text rest : String} (h : Balanced text) (hrest : Balanced rest) :
    Balanced (text ++ rest) := by
  rw [Balanced, String.toList_append, countOn_append, h]
  exact hrest

/-- Of a text that is written out, only the characters have to be counted. -/
theorem balanced_ofList {text : List Char} (h : countOn (0, .code) text = some (0, .code)) :
    Balanced (String.ofList text) := by
  rw [Balanced, String.toList_ofList]
  exact h

-- The prelude is some four thousand characters long, and so is the list of them.
set_option maxRecDepth 20000 in
theorem prelude_balanced : Balanced prelude := by
  unfold prelude
  exact balanced_ofList (by decide +kernel)

theorem prettyProgram_eq (program : List Stmt) : prettyProgram program
    = "(use-modules (ice-9 pretty-print))\n(pretty-print\n'(begin\n"
      ++ Scheme.program program ++ "))\n" := by
  unfold prettyProgram
  rfl

/-- Around the program there are two forms, the second of which closes behind it. -/
theorem prettyProgram_balanced {program : List Stmt} (h : Balanced (Scheme.program program)) :
    Balanced (prettyProgram program) := by
  have hopen : countOn (0, .code)
      "(use-modules (ice-9 pretty-print))\n(pretty-print\n'(begin\n".toList
      = some (2, .code) := by decide +kernel
  have hclose : countOn (2, .code) "))\n".toList = some (0, .code) := by decide
  rw [Balanced, prettyProgram_eq, String.toList_append, String.toList_append, countOn_append,
    countOn_append, hopen, Option.bind_some, countOn_deeper h 2, Option.bind_some]
  exact hclose

/-- **A program is written as one datum for each of its statements.**  No list is open
behind any of them.  What follows the prelude is the texts of the statements, a line
break behind each, and is read as their data, one for each text; in these, every form
that binds names has a body.  The whole program balances, also when it is handed to the
pretty printer. -/
theorem program_reads {session after : Session} {source : String} {program : List Stmt}
    (h : session.parse source = (.ok program, after)) :
    let data := (programData program).map Datum.plain
    (∀ n, (ofTopLevel (program.take n) (Draft.empty.write prelude)).depth = 0) ∧
    Scheme.program program
      = prelude ++ String.join (program.map fun s => topText s ++ "\n") ∧
    read (String.join (program.map fun s => topText s ++ "\n")) = some data ∧
    List.Forall₂ (fun s datum => read (topText s) = some [datum] ∧ bodied datum = true)
      program data ∧
    Balanced (Scheme.program program) ∧
    prettyProgram program
      = "(use-modules (ice-9 pretty-print))\n(pretty-print\n'(begin\n"
        ++ Scheme.program program ++ "))\n" ∧
    Balanced (prettyProgram program) := by
  intro data
  have hworded : ∀ s ∈ program, s.Worded vocabulary :=
    (Session.parse_ok h).2.worded (allows_ofSource source)
  have hdata := yields_topData (.whole program) 0 hworded
  have hbegin : ∀ statements : List Stmt, (∀ s ∈ statements, s.Worded vocabulary) →
      ofTopLevel statements (Draft.empty.write prelude) = ⟨prelude ++ topTexts statements, 0⟩ := by
    intro statements hstatements
    have hstart : Draft.empty.write prelude = ⟨prelude, 0⟩ := by
      simp [Draft.empty, Draft.write]
    rw [hstart, ofTopLevel_eq hstatements]
  have htext := program_eq hworded
  have hread := read_topTexts hworded
  have hbalanced : Balanced (Scheme.program program) := by
    rw [htext]
    exact balanced_append prelude_balanced (balanced_of_read hread)
  exact ⟨fun n => by rw [hbegin _ fun s hs => hworded s (List.mem_of_mem_take hs)], htext, hread,
    hdata.imp fun _ _ h => ⟨h.1.read, h.2⟩, hbalanced, prettyProgram_eq program,
    prettyProgram_balanced hbalanced⟩

/-- A block with a declaration in it is read, written and read again. -/
theorem block_reads : ∃ program after,
    Session.new.parse "\x7bvar a; print a;\x7d" = (.ok program, after) ∧
    read (String.join (program.map fun s => topText s ++ "\n"))
      = some ((programData program).map Datum.plain) := by
  let name : Token := ⟨.identifier, "a", 1⟩
  let program : List Stmt :=
    [.block [.var name none, .print ⟨.kwPrint, "print", 1⟩ (.use ⟨name, 1⟩)]]
  have hparse : Session.new.parse "\x7bvar a; print a;\x7d"
      = (.ok program, { Session.new with lastId := 1 }) := by
    unfold Session.parse
    cbv
  exact ⟨program, _, hparse, (program_reads hparse).2.2.1⟩

end Lox.Scheme
