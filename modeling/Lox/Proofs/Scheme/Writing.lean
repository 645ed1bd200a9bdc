/-
What is written is what is read.

A draft holds some open lists, and reading its text leaves just those lists open.
Writing an expression adds a datum to the innermost of them; so does writing a statement,
except for a declaration in a body, which adds nothing yet and leaves one more list open
for all that follows.  Closing lists down to where a body was begun then makes the forms
nest as the data of the row do.
-/
import Lox.Proofs.Scheme.Forms
import Lox.Proofs.Scheme.Vocabulary

namespace Lox.Scheme

/-! ### Expressions -/

theorem yields_literal (value : Literal) : Yields (ofLiteral value) (literalDatum value).plain := by
  cases value with
  | string text => exact yields_quote text
  | number value => exact (isSymbol_number value).yields
  | nil => exact (show IsSymbol nil by decide).yields
  | bool b =>
      cases b with
      | true => exact (show IsSymbol "#t" by decide).yields
      | false => exact (show IsSymbol "#f" by decide).yields

theorem yields_applied {operator : String} (h : IsSymbol operator) {operands : List String}
    {data : List Marked} (hoperands : List.Forall₂ (fun text datum => Yields text datum.plain)
      operands data) : Yields (form operator operands) (applied operator data).plain := by
  rw [applied, Datum.plain_list, List.map_cons]
  refine yields_list h.yields ?_
  induction hoperands with
  | nil => exact .nil
  | cons hfirst _ ih => exact .cons hfirst ih

theorem yields_symbol {name : Token} (h : IsName name.lexeme) :
    Yields (symbol name) (.symbol (symbol name) ()) :=
  (isSymbol_symbol h).yields

mutual

theorem yields_expr {e : Expr} {p : Place} (h : e.Worded vocabulary) :
    Yields (ofExpr e) (exprDatum p e).plain :=
  match e, h with
  | .literal value, _ => yields_literal value
  | .group inner, .group h => yields_expr (e := inner) (p := p.part 0 (.expr inner)) h
  | .unary operator operand, .unary _ h => by
      refine yields_applied ?_ (.cons (yields_expr h) .nil)
      split <;> decide
  | .binary _ _ _, .binary hoperator hleft hright =>
      yields_applied (isSymbol_operatorName hoperator)
        (.cons (yields_expr hleft) (.cons (yields_expr hright) .nil))
  | .logical _ _ _, .logical hoperator hleft hright =>
      yields_applied (isSymbol_connective hoperator)
        (.cons (yields_expr hleft) (.cons (yields_expr hright) .nil))
  | .conditional _ _ _, .conditional hcondition hTrue hFalse =>
      yields_applied (by decide)
        (.cons (yields_expr hcondition) (.cons (yields_expr hTrue) (.cons (yields_expr hFalse) .nil)))
  | .use _, .use hname => yields_symbol hname
  | .assign _ _, .assign hname hvalue =>
      yields_applied (by decide)
        (.cons (yields_applied (by decide)
          (.cons (yields_symbol hname) (.cons (yields_expr hvalue) .nil)))
          (.cons (yields_symbol hname) .nil))
  | .call _ _ _, .call hcallee _ harguments =>
      yields_applied (by decide) (.cons (yields_expr hcallee) (yields_exprs harguments))
  | .get _ _, .get hobject hname =>
      yields_applied (by decide) (.cons (yields_expr hobject)
        (.cons (IsName.isSymbol hname).yields_datum .nil))
  | .set _ _ _, .set hobject hname hvalue =>
      yields_applied (by decide) (.cons (yields_expr hobject)
        (.cons (IsName.isSymbol hname).yields_datum (.cons (yields_expr hvalue) .nil)))
  | .this _, _ => (show IsSymbol "this" by decide).yields
  | .super _ _, .super _ hname =>
      yields_applied (by decide) (.cons (show IsSymbol "%super" by decide).yields
        (.cons (show IsSymbol "this" by decide).yields
          (.cons (IsName.isSymbol hname).yields_datum .nil)))

theorem yields_exprs {row : List Expr} {p : Place} {position : Nat}
    (h : ∀ e ∈ row, e.Worded vocabulary) :
    List.Forall₂ (fun text datum => Yields text datum.plain) (ofExprs row)
      (exprData p position row) :=
  match row, h with
  | [], _ => .nil
  | e :: _, h =>
      .cons (yields_expr (h e List.mem_cons_self))
        (yields_exprs fun e he => h e (List.mem_cons_of_mem _ he))

end

/-! ### Drafts -/

/-- The frames of some open lists. -/
def lists (open' : List (List Plain)) : List Frame :=
  open'.map Frame.list

/-- Begun with some frames open, a draft has come to hold these lists, on top of the frames
below. -/
structure Draft.Holds (base below : List Frame) (d : Draft) (held : List (List Plain)) : Prop where
  reads : Reads base d.text.toList (lists held ++ below)
  depth : held.length = d.depth + 1

/-- The same, where a datum can follow. -/
structure Draft.Ready (base below : List Frame) (d : Draft) (held : List (List Plain)) : Prop where
  passes : Passes base d.text.toList (lists held ++ below)
  depth : held.length = d.depth + 1

/-- What a list begins with that is opened with a text. -/
def Opens (head : String) (items : List Plain) : Prop :=
  ∀ frames, Reads (.list [] :: frames) head.toList (.list items :: frames)

/-- Closes lists. -/
def closeLists : Nat → List (List Plain) → List (List Plain)
  | n + 1, items :: outer :: rest => closeLists n ((outer ++ [.list items]) :: rest)
  | _, held => held

section Drafts

variable {base below : List Frame} {d : Draft} {items outer : List Plain}
  {held rest : List (List Plain)}

theorem Draft.Holds.of_eq {held' : List (List Plain)} (h : d.Holds base below held)
    (heq : held = held') : d.Holds base below held' :=
  heq ▸ h

theorem Draft.Ready.holds (h : d.Ready base below held) : d.Holds base below held :=
  ⟨h.passes.reads, h.depth⟩

theorem Draft.Holds.newline (h : d.Holds base below held) : d.newline.Ready base below held := by
  refine ⟨?_, h.depth⟩
  rw [Draft.newline, Draft.write, String.toList_append, String.toList_ofList]
  refine h.reads.passes ends_newline (by simp) (passes_blanks fun c hc => ?_)
  rcases List.mem_cons.mp hc with rfl | hc
  · rfl
  · rw [List.eq_of_mem_replicate hc]
    rfl

theorem Draft.Ready.write {text : String} {datum : Plain} (h : d.Ready base below (items :: rest))
    (htext : Yields text datum) : (d.write text).Holds base below ((items ++ [datum]) :: rest) := by
  refine ⟨?_, h.depth⟩
  rw [Draft.write, String.toList_append]
  exact h.passes.then (htext items _)

theorem Draft.Holds.openList {head : String} (h : d.Holds base below held)
    (hhead : Opens head items) : (d.openList head).Holds base below (items :: held) := by
  refine ⟨?_, by simp [h.depth]⟩
  have htext : (d.openList head).text.toList = d.text.toList ++ (['('] ++ head.toList) := by
    rw [Draft.openList, String.toList_append, String.toList_append, List.append_assoc]
    rfl
  rw [htext]
  exact h.reads.then ends_open (passes_open.then (hhead _))

theorem Draft.Holds.close (h : d.Holds base below (items :: outer :: rest)) :
    d.close.Holds base below ((outer ++ [.list items]) :: rest) := by
  have hdepth := h.depth
  simp only [List.length_cons] at hdepth
  refine ⟨?_, by simp; omega⟩
  have htext : d.close.text.toList = d.text.toList ++ [')'] := by
    rw [Draft.close, if_neg (by omega), String.toList_append]
    rfl
  rw [htext]
  exact Reads.close h.reads

theorem Draft.Holds.closeTimes (n : Nat) (h : d.Holds base below held) (hn : n ≤ d.depth) :
    (Draft.closeTimes n d).Holds base below (closeLists n held) := by
  induction n generalizing d held with
  | zero => simpa [Draft.closeTimes, closeLists] using h
  | succ n ih =>
      have hdepth := h.depth
      rcases held with - | ⟨items, - | ⟨outer, rest⟩⟩
      · cases hdepth
      · simp only [List.length_singleton] at hdepth
        omega
      · exact ih h.close (by simp; omega)

theorem Draft.Holds.closeTo (h : d.Holds base below held) (depth n : Nat)
    (hn : held.length = depth + n + 1) :
    (d.closeTo depth).Holds base below (closeLists n held) := by
  have hdepth := h.depth
  rw [Draft.closeTo, show d.depth - depth = n by omega]
  exact h.closeTimes n (by omega)

end Drafts

/-! ### What lists begin with -/

theorem opens_operands {operator : String} {datum : Plain} {operands : List String}
    {data : List Plain} (hoperator : Yields operator datum) (h : List.Forall₂ Yields operands data) :
    Opens (" ".intercalate (operator :: operands)) (datum :: data) := by
  intro frames
  rw [toList_intercalate_cons]
  exact (hoperator [] frames).then (ends_spaced operands) (reads_spaced h [datum] frames)

theorem Opens.space {head : String} {items : List Plain} (h : Opens head items) :
    Opens (head ++ " ") items := by
  intro frames
  rw [String.toList_append]
  exact (h frames).then ends_space (passes_blank rfl).reads

/-- Only the characters of a text matter, not what it was put together from. -/
theorem Opens.of_eq {head head' : String} {items : List Plain} (h : Opens head items)
    (heq : head = head') : Opens head' items :=
  heq ▸ h

theorem opens_symbol {text : String} (h : IsSymbol text) : Opens text [.symbol text ()] := by
  simpa using opens_operands h.yields .nil

/-- A list that is the only thing in a list. -/
theorem Yields.enclosed {text : String} {datum : Plain} (h : Yields text datum) :
    Yields ("(" ++ text ++ ")") (.list [datum]) := by
  have hlist := yields_list h .nil
  rwa [form, String.intercalate_singleton] at hlist

theorem opens_two {operator operand : String} {datum : Plain} (h : IsSymbol operator)
    (hoperand : Yields operand datum) :
    Opens (operator ++ " " ++ operand) [.symbol operator (), datum] := by
  have hopens := opens_operands h.yields (.cons hoperand .nil)
  rwa [String.intercalate_cons_cons, String.intercalate_singleton] at hopens

theorem opens_params {params : List Token} (p : Place) (position : Nat)
    (h : ∀ param ∈ params, IsName param.lexeme) :
    Opens ("lambda (" ++ " ".intercalate (params.map symbol) ++ ")")
      [.symbol "lambda" (), (Datum.list (paramData p position params)).plain] := by
  have hparams : ∀ (params : List Token) (position : Nat), (∀ param ∈ params, IsName param.lexeme) →
      List.Forall₂ Yields (params.map symbol) ((paramData p position params).map Datum.plain) := by
    intro params
    induction params with
    | nil => exact fun _ _ => .nil
    | cons param rest ih =>
        intro position h
        rw [List.forall_mem_cons] at h
        exact .cons (yields_symbol h.1) (ih (position + 1) h.2)
  have hrow : Yields ("(" ++ " ".intercalate (params.map symbol) ++ ")")
      (.list ((paramData p position params).map Datum.plain)) := by
    cases params with
    | nil => exact fun _ _ => ⟨_, rfl, rfl⟩
    | cons param rest =>
        cases hparams (param :: rest) position h with
        | cons hfirst hrest => exact yields_list hfirst hrest
  rw [Datum.plain_list]
  have hopens := opens_two (show IsSymbol "lambda" by decide) hrow
  exact hopens.of_eq (by simp [← String.toList_inj])

/-- A name as the text that Scheme programs know it by. -/
theorem quote_name {text : String} (h : IsName text) : quote text = "\"" ++ text ++ "\"" := by
  rw [quote, h.escape, String.ofList_toList]

theorem quote_shown {name : Token} (h : IsName name.lexeme) :
    quote ("<fn " ++ name.lexeme ++ ">") = "\"<fn " ++ name.lexeme ++ ">\"" := by
  have happend : ∀ a b, escape (a ++ b) = escape a ++ escape b := by
    intro a b
    induction a with
    | nil => rfl
    | cons c rest ih =>
        rw [List.cons_append, escape, escape, ih]
        split <;> rfl
  rw [quote, String.toList_append, String.toList_append, happend, happend, h.escape,
    String.ofList_append, String.ofList_append, String.ofList_toList]
  have hleft : "\"" ++ String.ofList (escape "<fn ".toList) = "\"<fn " := rfl
  have hright : String.ofList (escape ">".toList) ++ "\"" = ">\"" := rfl
  rw [← String.append_assoc, ← String.append_assoc, hleft, String.append_assoc, hright]

theorem opens_above {p : Place} : ∀ {superclass : Option Occurrence},
    (∀ occurrence ∈ superclass, IsName occurrence.name.lexeme) →
    Opens ("let ((%super " ++ (match superclass with
        | some occurrence => symbol occurrence.name
        | none => nil) ++ "))")
      [.symbol "let" (), .list [.list [.symbol "%super" (), (aboveDatum p superclass).plain]]] := by
  have hopens : ∀ {text : String} {datum : Plain}, Yields text datum →
      Opens ("let ((%super " ++ text ++ "))")
        [.symbol "let" (), .list [.list [.symbol "%super" (), datum]]] := fun habove =>
    (opens_two (show IsSymbol "let" by decide)
      (yields_list (show IsSymbol "%super" by decide).yields (.cons habove .nil)).enclosed).of_eq
      (by simp [form, ← String.toList_inj])
  intro superclass h
  cases superclass with
  | some occurrence => exact hopens (yields_symbol (h occurrence rfl))
  | none => exact hopens (show IsSymbol nil by decide).yields

theorem opens_class {name : Token} (h : IsName name.lexeme) :
    Opens ("lox-class \"" ++ name.lexeme ++ "\" %super")
      [.symbol "lox-class" (), .string name.lexeme, .symbol "%super" ()] := by
  have hopens := opens_operands (show IsSymbol "lox-class" by decide).yields
    (.cons (yields_quote name.lexeme) (.cons (show IsSymbol "%super" by decide).yields .nil))
  rw [String.intercalate_cons_cons, String.intercalate_cons_cons, String.intercalate_singleton,
    quote_name h] at hopens
  exact hopens.of_eq (by simp [← String.toList_inj])

theorem opens_named {name : Token} (h : IsName name.lexeme) :
    Opens ("lox-named \"<fn " ++ name.lexeme ++ ">\" ")
      [.symbol "lox-named" (), .string ("<fn " ++ name.lexeme ++ ">")] := by
  have hopens := (opens_two (show IsSymbol "lox-named" by decide)
    (yields_quote ("<fn " ++ name.lexeme ++ ">"))).space
  rw [quote_shown h] at hopens
  exact hopens.of_eq (by simp [← String.toList_inj])

/-! ### Statements -/

section Bindings

variable {base below : List Frame} {d : Draft} {items : List Plain} {rest : List (List Plain)}
  {name : Token}

/-- At top level a binding is a `define`. -/
theorem Draft.Holds.openDefine (h : d.Holds base below [items]) (hname : IsName name.lexeme) :
    (openBinding name d).Holds base below
      [[.symbol "define" (), .symbol (symbol name) ()], items] := by
  have hdepth : d.depth = 0 := by simpa using h.depth.symm
  rw [openBinding, if_pos hdepth]
  have hopens := (opens_two (show IsSymbol "define" by decide) (yields_symbol hname)).space
  rw [show "define" ++ " " = "define " from rfl] at hopens
  exact h.openList hopens

/-- Everywhere else it is inside of a `letrec`. -/
theorem Draft.Holds.openLetrec (h : d.Holds base below (items :: rest)) (hrest : rest ≠ [])
    (hname : IsName name.lexeme) :
    (openBinding name d).Holds base below
      ([.symbol (symbol name) ()] :: [] :: [.symbol "letrec" ()] :: items :: rest) := by
  have hdepth : d.depth ≠ 0 := by
    intro hzero
    have hlength := h.depth
    cases rest with
    | nil => exact hrest rfl
    | cons _ _ => simp [hzero] at hlength
  rw [openBinding, if_neg hdepth]
  have hletrec : Opens "letrec " [.symbol "letrec" ()] := fun _ => ⟨_, rfl, rfl⟩
  have hbindings : Opens "" [] := fun _ => ⟨_, rfl, rfl⟩
  exact ((h.openList hletrec).openList hbindings).openList
    (opens_symbol (isSymbol_symbol hname)).space

end Bindings

/-- What is held behind a statement. -/
def heldAfter (p : Place) (s : Stmt) (items : List Plain) (rest : List (List Plain)) :
    List (List Plain) :=
  match binder? s, rest with
  | some (keyword, name), _ :: _ =>
      [.symbol keyword (), (Datum.list [.list [mention p (symbol name), stmtDatum p s]]).plain]
        :: items :: rest
  | _, _ => (items ++ [(topDatum p s).plain]) :: rest

theorem binder?_of_nested {s : Stmt} (h : s.isDeclaration = false) : binder? s = none := by
  cases s <;> first | rfl | simp [Stmt.isDeclaration] at h

theorem heldAfter_of_nested {p : Place} {s : Stmt} (h : binder? s = none) (items : List Plain)
    (rest : List (List Plain)) :
    heldAfter p s items rest = (items ++ [(stmtDatum p s).plain]) :: rest := by
  simp [heldAfter, topDatum, h]

theorem heldAfter_top (p : Place) (s : Stmt) (items : List Plain) :
    heldAfter p s items [] = [items ++ [(topDatum p s).plain]] := by
  simp [heldAfter]

theorem heldAfter_inner {p : Place} {s : Stmt} {keyword : String} {name : Token}
    (h : binder? s = some (keyword, name)) (items outer : List Plain) (rest : List (List Plain)) :
    heldAfter p s items (outer :: rest)
      = [.symbol keyword (), (Datum.list [.list [mention p (symbol name), stmtDatum p s]]).plain]
        :: items :: outer :: rest := by
  simp [heldAfter, h]

/-- A binding is closed behind its value, and leaves a `letrec` open. -/
theorem Draft.Holds.bound {base below : List Frame} {d : Draft} {items : List Plain}
    {rest : List (List Plain)} {p : Place} {s : Stmt} {name : Token}
    (h : d.Holds base below (items :: rest)) (hbinder : binder? s = some ("letrec", name))
    (hname : IsName name.lexeme) (value : Draft → Draft)
    (hvalue : ∀ {d items rest}, Draft.Holds base below d (items :: rest) →
      (value d).Holds base below ((items ++ [(stmtDatum p s).plain]) :: rest)) :
    (closeBinding d.depth (value (openBinding name d))).Holds base below
      (heldAfter p s items rest) := by
  have hdepth := h.depth
  simp only [List.length_cons] at hdepth
  cases rest with
  | nil =>
      have hzero : d.depth = 0 := by simpa using hdepth.symm
      have hclosed := (hvalue (h.openDefine hname)).closeTo 0 1 rfl
      rw [closeBinding, if_pos hzero, heldAfter_top, topDatum, hbinder]
      exact hclosed
  | cons outer rest =>
      have hclosed := (hvalue (h.openLetrec (by simp) hname)).closeTo (d.depth + 1) 2
        (by simp only [List.length_cons] at hdepth ⊢; omega)
      rw [closeBinding, if_neg (by simp only [List.length_cons] at hdepth; omega),
        heldAfter_inner hbinder]
      exact hclosed

theorem yields_expr? {e : Option Expr} {p : Place} (h : ∀ e' ∈ e, e'.Worded vocabulary) :
    Yields (ofExpr? e) (exprDatum? p e).plain := by
  cases e with
  | none => exact (show IsSymbol nil by decide).yields
  | some e => exact yields_expr (h e rfl)

mutual

theorem ofStmt_written {base below : List Frame} {p : Place} : ∀ {s : Stmt} {d : Draft}
    {items : List Plain} {rest : List (List Plain)}, s.Worded vocabulary →
    d.Ready base below (items :: rest) →
    (ofStmt s d).Holds base below (heldAfter p s items rest)
  | .expression value, d, items, rest, h, hd => by
      cases h with
      | expression h => exact hd.write (yields_expr h)
  | .print _ value, d, items, rest, h, hd => by
      cases h with
      | print _ h => exact hd.write (yields_applied (by decide) (.cons (yields_expr h) .nil))
  | .var name initializer, d, items, rest, h, hd => by
      cases h with
      | var hname h =>
          have hdepth := hd.depth
          have hvalue := yields_expr? (p := p) h
          cases rest with
          | nil =>
              have hzero : d.depth = 0 := by simpa using hdepth.symm
              rw [ofStmt, if_pos hzero]
              exact hd.write (yields_applied (by decide)
                (.cons (yields_symbol hname) (.cons hvalue .nil)))
          | cons outer rest =>
              have hnonzero : d.depth ≠ 0 := by
                simp only [List.length_cons] at hdepth
                omega
              rw [ofStmt, if_neg hnonzero]
              have hbinding := (yields_list (yields_symbol hname) (.cons hvalue .nil)).enclosed
              have hopens := opens_two (show IsSymbol "let" by decide) hbinding
              have hhead : "let" ++ " " ++ ("(" ++ form (symbol name) [ofExpr? initializer] ++ ")")
                  = "let (" ++ form (symbol name) [ofExpr? initializer] ++ ")" := by
                simp [← String.toList_inj]
              exact hd.holds.openList (hopens.of_eq hhead)
  | .block body, d, items, rest, h, hd => by
      cases h with
      | block h =>
          have hopens : Opens "let ()" [.symbol "let" (), .list []] := fun _ => ⟨_, rfl, rfl⟩
          have hdepth : (d.openList "let ()").depth = (items :: rest).length := hd.depth.symm
          have hbody := ofStmts_written p body.isEmpty 0 h
            (hd.holds.openList hopens) (by simp) (Nat.le_refl _)
          simp only [Nat.sub_self, Nat.lt_irrefl, decide_false, Bool.or_false] at hbody
          rw [heldAfter_of_nested rfl, ofStmt, hdepth]
          simpa [stmtDatum, closeLists] using hbody.close
  | .ifElse condition onTrue none, d, items, rest, h, hd => by
      cases h with
      | ifElse hcondition hTrue hnested _ _ =>
          have hopens := opens_two (show IsSymbol "if" by decide)
            (yields_expr (p := p.part 0 (.expr condition)) hcondition)
          have htrue := ofStmt_written (p := p.part 1 (.stmt onTrue)) hTrue
            (hd.holds.openList hopens).newline
          rw [heldAfter_of_nested (binder?_of_nested hnested)] at htrue
          have hclosed := (htrue.newline.write (show IsSymbol nil by decide).yields).close
          rw [heldAfter_of_nested rfl]
          exact hclosed.of_eq (by simp [stmtDatum])
  | .ifElse condition onTrue (some onFalse), d, items, rest, h, hd => by
      cases h with
      | ifElse hcondition hTrue hnested hFalse hnested' =>
          have hopens := opens_two (show IsSymbol "if" by decide)
            (yields_expr (p := p.part 0 (.expr condition)) hcondition)
          have htrue := ofStmt_written (p := p.part 1 (.stmt onTrue)) hTrue
            (hd.holds.openList hopens).newline
          rw [heldAfter_of_nested (binder?_of_nested hnested)] at htrue
          have hfalse := ofStmt_written (p := p.part 2 (.stmt onFalse)) (hFalse onFalse rfl)
            htrue.newline
          rw [heldAfter_of_nested (binder?_of_nested (hnested' onFalse rfl))] at hfalse
          have hclosed := hfalse.close
          rw [heldAfter_of_nested rfl, stmtDatum, applied, Datum.plain_list]
          exact hclosed
  | .whileLoop condition body, d, items, rest, h, hd => by
      cases h with
      | whileLoop hcondition hbody hnested =>
          have hcall : Opens "call/cc " [.symbol "call/cc" ()] := fun _ => ⟨_, rfl, rfl⟩
          have hbreak : Opens "lambda (%break)" [.symbol "lambda" (), .list [.symbol "%break" ()]] :=
            fun _ => ⟨_, rfl, rfl⟩
          have hloop : Opens "let %loop ()" [.symbol "let" (), .symbol "%loop" (), .list []] :=
            fun _ => ⟨_, rfl, rfl⟩
          have hif := opens_two (show IsSymbol "if" by decide)
            (yields_expr (p := p.part 0 (.expr condition)) hcondition)
          have hbegin : Opens "begin" [.symbol "begin" ()] := fun _ => ⟨_, rfl, rfl⟩
          have hagain : Yields "(%loop)" (.list [.symbol "%loop" ()]) := fun _ _ => ⟨_, rfl, rfl⟩
          have hopened := (((((hd.holds.openList hcall).openList hbreak).newline.holds.openList
            hloop).newline.holds.openList hif).newline.holds.openList hbegin).newline
          have hrepeated := ofStmt_written (p := p.part 1 (.stmt body)) hbody hopened
          rw [heldAfter_of_nested (binder?_of_nested hnested)] at hrepeated
          have hlength := hd.depth
          have hclosed := (hrepeated.newline.write hagain).closeTo d.depth 5
            (by simp only [List.length_cons] at hlength ⊢; omega)
          rw [heldAfter_of_nested rfl]
          exact hclosed
  | .breakLoop keyword, d, items, rest, h, hd => by
      have htext : Yields (form "%break" [nil]) (.list [.symbol "%break" (), .symbol nil ()]) :=
        yields_list (show IsSymbol "%break" by decide).yields
          (.cons (show IsSymbol nil by decide).yields .nil)
      exact hd.write htext
  | .returnWith keyword value, d, items, rest, h, hd => by
      cases h with
      | returnWith _ h =>
          exact hd.write (yields_list (show IsSymbol "%return" by decide).yields
            (.cons (yields_expr? (p := p) h) .nil))
  | .function declaration, d, items, rest, h, hd => by
      cases h with
      | function h =>
          have hname : IsName declaration.name.lexeme := by
            cases h with
            | mk hname _ _ => exact hname
          exact hd.holds.bound rfl hname _ fun hd =>
            ofFunction_written (p.part 0 (.function declaration)) false h hd
  | .classDecl name superclass methods, d, items, rest, h, hd => by
      cases h with
      | classDecl hname habove hmethods =>
          have hlist : Opens "list" [.symbol "list" ()] := fun _ => ⟨_, rfl, rfl⟩
          refine hd.holds.bound rfl hname (fun d => (ofMethods methods
            (((d.openList _).newline.openList _).newline.openList "list")).close.close.close)
            fun hd => ?_
          have hopened := (((hd.openList (opens_above (p := p) habove)).newline.holds.openList
            (opens_class hname)).newline.holds.openList hlist)
          have hmethods := ofMethods_written p superclass.toList.length hmethods
            hopened
          exact hmethods.close.close.close.of_eq (by simp [stmtDatum])

theorem ofStmts_written {base below : List Frame} (p : Place) (isEmpty : Bool) {start : Nat} :
    ∀ {body : List Stmt} {d : Draft} {items : List Plain} {rest : List (List Plain)}
      (position : Nat), (∀ s ∈ body, s.Worded vocabulary) →
    d.Holds base below (items :: rest) → rest ≠ [] → start ≤ rest.length →
    (endBody isEmpty start (ofStmts body d)).Holds base below (closeLists (rest.length - start)
      ((items ++ (rowData p (isEmpty || start < rest.length) position body).map Datum.plain)
        :: rest))
  | [], d, items, rest, position, _, hd, _, hstart => by
      have hdepth : d.depth = rest.length := by simpa using hd.depth.symm
      rw [ofStmts, endBody, rowData, hdepth]
      split
      · exact (hd.newline.write (show IsSymbol nil by decide).yields).closeTo start _
          (by simp only [List.length_cons]; omega)
      · rw [List.map_nil, List.append_nil]
        exact hd.closeTo start _ (by simp only [List.length_cons]; omega)
  | s :: others, d, items, rest, position, h, hd, hrest, hstart => by
      rw [List.forall_mem_cons] at h
      have hfirst := ofStmt_written (p := p.part position (.stmt s)) h.1 hd.newline
      rw [ofStmts, rowData]
      cases hbinder : binder? s with
      | none =>
          rw [heldAfter_of_nested hbinder] at hfirst
          have hothers := ofStmts_written p isEmpty (position + 1) h.2 hfirst hrest hstart
          simpa using hothers
      | some binder =>
          obtain ⟨keyword, name⟩ := binder
          obtain ⟨outer, rest, rfl⟩ := List.exists_cons_of_ne_nil hrest
          rw [heldAfter_inner hbinder] at hfirst
          have hothers := ofStmts_written p isEmpty (position + 1) h.2 hfirst (by simp)
            (Nat.le_succ_of_le hstart)
          have hinside : start < (items :: outer :: rest).length := Nat.lt_succ_of_le hstart
          rw [List.length_cons, Nat.succ_sub hstart, ← List.length_cons] at hothers
          rw [decide_eq_true hinside, Bool.or_true, closeLists] at hothers
          simpa using hothers

theorem ofFunction_written {base below : List Frame} (p : Place) (isInitializer : Bool) :
    ∀ {f : FunctionDecl} {d : Draft} {items : List Plain} {rest : List (List Plain)},
    f.Worded vocabulary → d.Holds base below (items :: rest) →
    (ofFunction isInitializer f d).Holds base below
      ((items ++ [(functionDatum p isInitializer f).plain]) :: rest)
  | ⟨name, params, body⟩, d, items, rest, h, hd => by
      cases h with
      | mk hname hparams hbody =>
          have hcall : Opens "call/cc " [.symbol "call/cc" ()] := fun _ => ⟨_, rfl, rfl⟩
          have hreturn : Opens "lambda (%return)"
              [.symbol "lambda" (), .list [.symbol "%return" ()]] := fun _ => ⟨_, rfl, rfl⟩
          have hbegin : Opens "begin" [.symbol "begin" ()] := fun _ => ⟨_, rfl, rfl⟩
          let escape : Marked := applied "call/cc" [procedure [mention p "%return"]
            (rowData p body.isEmpty params.length body)]
          -- The body and its way out are the same wherever they stand.
          have hescape : ∀ {d : Draft} {items : List Plain} {rest : List (List Plain)},
              d.Holds base below (items :: rest) →
              let opened := (d.openList "call/cc ").openList "lambda (%return)"
              ((endBody body.isEmpty opened.depth (ofStmts body opened)).closeTo d.depth).Holds
                base below ((items ++ [escape.plain]) :: rest) := by
            intro d items rest hd opened
            have hopened := (hd.openList hcall).openList hreturn
            have hdepth : opened.depth = rest.length + 2 := by
              have hlength := hopened.depth
              simp only [List.length_cons] at hlength
              exact (Nat.succ.inj hlength).symm
            have hwritten := ofStmts_written p body.isEmpty params.length hbody hopened (by simp)
              (Nat.le_refl _)
            simp only [Nat.sub_self, Nat.lt_irrefl, decide_false, Bool.or_false] at hwritten
            have hlength := hd.depth
            have hclosed := hwritten.closeTo d.depth 2
              (by simp only [closeLists, List.length_cons] at hlength ⊢; omega)
            rw [hdepth]
            simpa [escape, closeLists] using hclosed
          have hlambda := ((hd.openList (opens_named hname)).openList
            (opens_params p 0 hparams)).newline
          have hlength := hd.depth
          cases isInitializer with
          | false =>
              have hclosed := (hescape hlambda.holds).closeTo d.depth 2
                (by simp only [List.length_cons] at hlength ⊢; omega)
              exact hclosed.of_eq (by simp [functionDatum, closeLists, escape])
          | true =>
              have hbegun := (hlambda.holds.openList hbegin).newline
              have hthis := (hescape hbegun.holds).newline.write
                (show IsSymbol "this" by decide).yields
              have hclosed := hthis.closeTo d.depth 3
                (by simp only [List.length_cons] at hlength ⊢; omega)
              exact hclosed.of_eq (by simp [functionDatum, closeLists, escape])

theorem ofMethods_written {base below : List Frame} (p : Place) :
    ∀ {methods : List FunctionDecl} {d : Draft} {items : List Plain} {rest : List (List Plain)}
      (position : Nat), (∀ f ∈ methods, f.Worded vocabulary) →
    d.Holds base below (items :: rest) →
    (ofMethods methods d).Holds base below
      ((items ++ (methodData p position methods).map Datum.plain) :: rest)
  | [], d, items, rest, position, _, hd => by
      rw [methodData, List.map_nil, List.append_nil]
      exact hd
  | method :: others, d, items, rest, position, h, hd => by
      rw [List.forall_mem_cons] at h
      let q := p.part position (.method method)
      have hname : IsName method.name.lexeme := by
        cases h.1 with
        | mk hname _ _ => exact hname
      have hopens : Opens ("cons " ++ datum method.name ++ " ")
          [.symbol "cons" (), .quoted (.symbol method.name.lexeme ())] :=
        (opens_two (show IsSymbol "cons" by decide) hname.isSymbol.yields_datum).space
      have hthis : Opens "lambda (this)" [.symbol "lambda" (), .list [.symbol "this" ()]] :=
        fun _ => ⟨_, rfl, rfl⟩
      have hopened := ((hd.newline.holds.openList hopens).openList hthis).newline
      have hfunction := ofFunction_written q (method.name.lexeme = initializerName) h.1
        hopened.holds
      have hothers := ofMethods_written p (position + 1) h.2
        hfunction.close.close
      exact hothers.of_eq (by simp [methodData, q, property])

end

end Lox.Scheme
