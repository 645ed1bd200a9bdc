/-
Balance.

To see whether the brackets of a text balance it is enough to count those that stand
outside of strings.  A reader does more than that: whatever it can read balances, since
it knows of each list that is closed where it was opened.

Besides, in everything that is written for a program each form that binds names has
something to bind them for.
-/
import Lox.Proofs.Scheme.Forms
import Lox.Proofs.Scheme.Vocabulary

namespace Lox.Scheme

/-! ### Counting brackets -/

/-- Where a counter of brackets stands. -/
inductive Inside where
  | code
  | string
  | escape
  deriving DecidableEq

/-- Counts a character; there is no bracket to close where none is open. -/
def count : Nat × Inside → Char → Option (Nat × Inside)
  | (depth, .code), c =>
      if c = '(' then some (depth + 1, .code)
      else if c = ')' then if depth = 0 then none else some (depth - 1, .code)
      else if c = '"' then some (depth, .string)
      else some (depth, .code)
  | (depth, .string), c =>
      if c = '"' then some (depth, .code)
      else if c = '\\' then some (depth, .escape)
      else some (depth, .string)
  | (depth, .escape), _ => some (depth, .string)

/-- Counts on. -/
def countOn (state : Nat × Inside) (text : List Char) : Option (Nat × Inside) :=
  text.foldlM count state

/-- Outside of strings every bracket is closed, and none that was not opened; and every
string is closed. -/
def Balanced (text : String) : Prop :=
  countOn (0, .code) text.toList = some (0, .code)

instance (text : String) : Decidable (Balanced text) :=
  inferInstanceAs (Decidable (_ = _))

theorem countOn_cons (state : Nat × Inside) (c : Char) (rest : List Char) :
    countOn state (c :: rest) = (count state c).bind fun state => countOn state rest := by
  rw [countOn, List.foldlM_cons]
  rfl

theorem countOn_append (state : Nat × Inside) (text rest : List Char) :
    countOn state (text ++ rest) = (countOn state text).bind fun state => countOn state rest := by
  rw [countOn, List.foldlM_append]
  rfl

/-- Inside of more brackets the count is higher, and that is all. -/
theorem countOn_deeper {text : List Char} {depth depth' : Nat} {inside inside' : Inside}
    (h : countOn (depth, inside) text = some (depth', inside')) (more : Nat) :
    countOn (depth + more, inside) text = some (depth' + more, inside') := by
  have hcount : ∀ c depth inside depth' inside',
      count (depth, inside) c = some (depth', inside') →
      count (depth + more, inside) c = some (depth' + more, inside') := by
    intro c depth inside depth' inside' h
    cases inside with
    | code =>
        unfold count at h ⊢
        dsimp only at h ⊢
        split at h
        · simp_all
          omega
        split at h
        · split at h
          · cases h
          · simp_all
            omega
        · split at h <;> simp_all
    | string =>
        unfold count at h ⊢
        dsimp only at h ⊢
        split at h
        · simp_all
        · split at h <;> simp_all
    | escape => simp_all [count]
  induction text generalizing depth inside with
  | nil =>
      obtain ⟨rfl, rfl⟩ : depth = depth' ∧ inside = inside' := by simpa [countOn] using h
      rfl
  | cons c rest ih =>
      rw [countOn_cons] at h ⊢
      cases hfirst : count (depth, inside) c with
      | none => rw [hfirst] at h; cases h
      | some state =>
          obtain ⟨middle, inside''⟩ := state
          rw [hfirst] at h
          rw [hcount c _ _ _ _ hfirst]
          exact ih h

/-! ### What is read balances -/

/-- So many lists are open in the row of all data. -/
inductive Rooted : List Frame → Nat → Prop
  | row {items : List Plain} : Rooted [.list items] 0
  | list {items : List Plain} {below : List Frame} {depth : Nat} (h : Rooted below depth) :
      Rooted (.list items :: below) (depth + 1)
  | quote {below : List Frame} {depth : Nat} (h : Rooted below depth) :
      Rooted (.quote :: below) depth

theorem Rooted.deliver {frames : List Frame} {depth : Nat} (h : Rooted frames depth)
    (datum : Plain) : Rooted (deliver datum frames) depth := by
  induction h generalizing datum with
  | row => exact .row
  | list h _ => exact .list h
  | quote _ ih => exact ih (.quoted datum)

/-- The innermost list can only be closed inside of another one. -/
theorem Rooted.close {frames frames' : List Frame} {depth : Nat} (h : Rooted frames depth)
    (hclose : closeFrame frames = some frames') :
    ∃ outer, depth = outer + 1 ∧ Rooted frames' outer := by
  cases h with
  | row => cases hclose
  | quote _ => cases hclose
  | @list items below depth h =>
      cases below with
      | nil => cases h
      | cons frame below =>
          obtain rfl := Option.some.inj hclose
          exact ⟨depth, rfl, h.deliver (.list items)⟩

/-- Where a reader stands, for a counter. -/
def Mode.inside : Mode → Inside
  | .between | .symbol _ => .code
  | .string _ => .string
  | .escape _ => .escape

theorem count_of_isConstituent {c : Char} (h : isConstituent c = true) (depth : Nat) :
    count (depth, .code) c = some (depth, .code) := by
  have hother : c ≠ '(' ∧ c ≠ ')' ∧ c ≠ '"' := by
    refine ⟨?_, ?_, ?_⟩ <;> rintro rfl <;> exact absurd h (by decide)
  simp [count, hother]

theorem startAt_counted {frames : List Frame} {c : Char} {r : Reading} {depth : Nat}
    (h : Rooted frames depth) (hstep : startAt frames c = some r) :
    ∃ depth', count (depth, .code) c = some (depth', r.mode.inside) ∧ Rooted r.frames depth' := by
  unfold startAt at hstep
  split at hstep
  · rename_i hblank
    obtain rfl := Option.some.inj hstep
    have hother : c ≠ '(' ∧ c ≠ ')' ∧ c ≠ '"' := by
      refine ⟨?_, ?_, ?_⟩ <;> rintro rfl <;> exact absurd hblank (by decide)
    exact ⟨depth, by simp [count, hother, Mode.inside], h⟩
  split at hstep
  · rename_i hopen
    obtain rfl := Option.some.inj hstep
    exact ⟨depth + 1, by simp [count, hopen, Mode.inside], .list h⟩
  split at hstep
  · rename_i hclose
    obtain ⟨frames', hframes, rfl⟩ := Option.map_eq_some_iff.mp hstep
    obtain ⟨outer, rfl, hrooted⟩ := h.close hframes
    exact ⟨outer, by simp [count, hclose, Mode.inside], hrooted⟩
  split at hstep
  · rename_i hquote
    obtain rfl := Option.some.inj hstep
    exact ⟨depth, by simp [count, hquote, Mode.inside], h⟩
  split at hstep
  · rename_i hquote
    obtain rfl := Option.some.inj hstep
    exact ⟨depth, by simp [count, hquote, Mode.inside], .quote h⟩
  split at hstep
  · rename_i hconstituent
    obtain rfl := Option.some.inj hstep
    exact ⟨depth, count_of_isConstituent hconstituent depth, h⟩
  · cases hstep

/-- What can be read can be counted. -/
theorem step_counted {r r' : Reading} {c : Char} {depth : Nat} (h : Rooted r.frames depth)
    (hstep : step r c = some r') :
    ∃ depth', count (depth, r.mode.inside) c = some (depth', r'.mode.inside) ∧
      Rooted r'.frames depth' := by
  obtain ⟨frames, mode⟩ := r
  cases mode with
  | between => exact startAt_counted h hstep
  | symbol text =>
      simp only [step] at hstep
      split at hstep
      · rename_i hconstituent
        obtain rfl := Option.some.inj hstep
        exact ⟨depth, count_of_isConstituent hconstituent depth, h⟩
      · exact startAt_counted (h.deliver _) hstep
  | string text =>
      simp only [step] at hstep
      split at hstep
      · rename_i hquote
        obtain rfl := Option.some.inj hstep
        exact ⟨depth, by simp [count, hquote, Mode.inside], h.deliver _⟩
      split at hstep
      · rename_i hnot hescape
        obtain rfl := Option.some.inj hstep
        exact ⟨depth, by simp [count, hescape, Mode.inside], h⟩
      · rename_i hnot hnot'
        obtain rfl := Option.some.inj hstep
        exact ⟨depth, by simp [count, hnot, hnot', Mode.inside], h⟩
  | escape text =>
      simp only [step] at hstep
      split at hstep
      · obtain rfl := Option.some.inj hstep
        exact ⟨depth, rfl, h⟩
      · cases hstep

theorem readOn_counted {text : List Char} {r r' : Reading} {depth : Nat}
    (h : Rooted r.frames depth) (hread : readOn r text = some r') :
    ∃ depth', countOn (depth, r.mode.inside) text = some (depth', r'.mode.inside) ∧
      Rooted r'.frames depth' := by
  induction text generalizing r depth with
  | nil =>
      obtain rfl := Option.some.inj hread
      exact ⟨depth, rfl, h⟩
  | cons c rest ih =>
      rw [readOn_cons] at hread
      cases hstep : step r c with
      | none => rw [hstep] at hread; cases hread
      | some middle =>
          rw [hstep] at hread
          obtain ⟨depth', hcount, hrooted⟩ := step_counted h hstep
          obtain ⟨depth'', hcount', hrooted'⟩ := ih hrooted hread
          exact ⟨depth'', by rw [countOn_cons, hcount]; exact hcount', hrooted'⟩

/-- **A text that can be read balances.** -/
theorem balanced_of_read {text : String} {data : List Plain} (h : read text = some data) :
    Balanced text := by
  unfold read at h
  split at h
  · rename_i hbind
    obtain ⟨r, hread, hsettle⟩ := Option.bind_eq_some_iff.mp hbind
    obtain ⟨depth, hcount, hrooted⟩ := readOn_counted .row hread
    obtain ⟨frames, mode⟩ := r
    cases mode with
    | between =>
        obtain rfl := Option.some.inj hsettle
        cases hrooted with
        | row => exact hcount
        | list h => cases h
    | symbol text =>
        have hdelivered := hrooted.deliver (.symbol (String.ofList text) ())
        rw [Option.some.inj hsettle] at hdelivered
        cases hdelivered with
        | row => exact hcount
        | list h => cases h
    | string _ => cases hsettle
    | escape _ => cases hsettle
  · cases h

/-! ### Forms that bind have bodies -/

/-- The forms that bind names. -/
def bindingForms : List String :=
  ["let", "letrec", "lambda"]

/-- What stands behind the bindings of a form; a `let` may have a name in front of them. -/
def bodyOf : List Plain → List Plain
  | .symbol _ _ :: rest => rest.tail
  | rest => rest.tail

/-- A list that is a form that binds names has something in its body. -/
def hasBody : List Plain → Bool
  | .symbol text _ :: rest => !bindingForms.contains text || !(bodyOf rest).isEmpty
  | _ => true

mutual

/-- All lists in a datum that are such forms have bodies. -/
def bodied : Plain → Bool
  | .symbol _ _ | .string _ => true
  | .quoted datum => bodied datum
  | .list items => hasBody items && bodiedAll items

/-- The same for several data. -/
def bodiedAll : List Plain → Bool
  | [] => true
  | datum :: rest => bodied datum && bodiedAll rest

end

theorem bodiedAll_iff {data : List Plain} : bodiedAll data = true ↔ ∀ d ∈ data, bodied d = true := by
  induction data with
  | nil => simp [bodiedAll]
  | cons datum rest ih => simp [bodiedAll, ih]

theorem bodiedAll_map {data : List Marked} :
    bodiedAll (data.map Datum.plain) = true ↔ ∀ d ∈ data, bodied d.plain = true := by
  rw [bodiedAll_iff, List.forall_mem_map]

theorem bodied_applied {operator : String} {operands : List Marked}
    (hoperator : operator ∉ bindingForms) (h : ∀ d ∈ operands, bodied d.plain = true) :
    bodied (applied operator operands).plain = true := by
  rw [plain_applied, bodied, bodiedAll, bodiedAll_map.mpr h]
  simp [hasBody, hoperator, bodied]

theorem bodied_procedure {params body : List Marked} (hparams : hasBody (params.map Datum.plain))
    (hparams' : ∀ d ∈ params, bodied d.plain = true) (hbody : body ≠ [])
    (h : ∀ d ∈ body, bodied d.plain = true) : bodied (procedure params body).plain = true := by
  rw [plain_procedure, bodied, bodiedAll, bodiedAll, bodied, bodied, bodiedAll_map.mpr h,
    bodiedAll_map.mpr hparams', hparams]
  simp [hasBody, bodyOf, hbody]

/-- No name of a variable is the name of such a form. -/
theorem symbol_not_mem (name : Token) : symbol name ∉ bindingForms := by
  have hsecond : ∀ text ∈ bindingForms, text.toList[1]? ≠ some 'o' := by decide
  intro hmem
  refine hsecond _ hmem ?_
  rw [symbol, String.toList_append]
  rfl

theorem operatorNames_not_mem : ∀ operator ∈ operatorNames ++ connectiveNames,
    operator ∉ bindingForms := by
  decide

mutual

theorem bodied_expr {e : Expr} {p : Place} (h : e.Worded vocabulary) :
    bodied (exprDatum p e).plain = true :=
  match e, h with
  | .literal value, _ => by
      cases value <;> rfl
  | .group inner, .group h => bodied_expr (e := inner) (p := p.part 0 (.expr inner)) h
  | .unary operator operand, .unary _ h => by
      refine bodied_applied ?_ (by simpa using bodied_expr h)
      split <;> decide
  | .binary _ _ _, .binary hoperator hleft hright =>
      bodied_applied (operatorNames_not_mem _ (List.mem_append_left _ hoperator))
        (by simpa using ⟨bodied_expr hleft, bodied_expr hright⟩)
  | .logical _ _ _, .logical hoperator hleft hright =>
      bodied_applied (operatorNames_not_mem _ (List.mem_append_right _ hoperator))
        (by simpa using ⟨bodied_expr hleft, bodied_expr hright⟩)
  | .conditional _ _ _, .conditional hcondition hTrue hFalse =>
      bodied_applied (by decide)
        (by simpa using ⟨bodied_expr hcondition, bodied_expr hTrue, bodied_expr hFalse⟩)
  | .use _, _ => rfl
  | .assign target value, .assign _ hvalue => by
      have hset : bodied (applied "set!" [mention p (symbol target.name),
          exprDatum (p.part 0 (.expr value)) value]).plain = true :=
        bodied_applied (by decide) (by simpa [bodied] using bodied_expr hvalue)
      exact bodied_applied (by decide) (by simpa [bodied] using hset)
  | .call _ _ _, .call hcallee _ harguments =>
      bodied_applied (by decide)
        (List.forall_mem_cons.mpr ⟨bodied_expr hcallee, bodied_exprs harguments⟩)
  | .get _ _, .get hobject _ =>
      bodied_applied (by decide) (by simpa [property, bodied] using bodied_expr hobject)
  | .set _ _ _, .set hobject _ hvalue =>
      bodied_applied (by decide)
        (by simpa [property, bodied] using ⟨bodied_expr hobject, bodied_expr hvalue⟩)
  | .this _, _ => rfl
  | .super _ _, _ => bodied_applied (by decide) (by simp [property, bodied])

theorem bodied_exprs {row : List Expr} {p : Place} {position : Nat}
    (h : ∀ e ∈ row, e.Worded vocabulary) :
    ∀ d ∈ exprData p position row, bodied d.plain = true :=
  match row, h with
  | [], _ => by simp [exprData]
  | e :: _, h =>
      List.forall_mem_cons.mpr ⟨bodied_expr (h e List.mem_cons_self),
        bodied_exprs fun e he => h e (List.mem_cons_of_mem _ he)⟩

end

theorem bodied_expr? {e : Option Expr} {p : Place} (h : ∀ e' ∈ e, e'.Worded vocabulary) :
    bodied (exprDatum? p e).plain = true := by
  cases e with
  | none => rfl
  | some e => exact bodied_expr (h e rfl)

/-- A row that is not empty, or that is inside of a declaration, has a value. -/
theorem rowData_ne_nil (p : Place) {inside : Bool} (position : Nat) {body : List Stmt}
    (h : inside = body.isEmpty ∨ inside = true) : rowData p inside position body ≠ [] := by
  cases body with
  | nil =>
      obtain rfl : inside = true := by simpa using h
      simp [rowData]
  | cons s rest =>
      rw [rowData]
      split <;> simp

/-- A list that starts with the name of a variable is no such form. -/
theorem hasBody_symbol (name : Token) (rest : List Plain) :
    hasBody (.symbol (symbol name) () :: rest) = true := by
  simp [hasBody, symbol_not_mem name]

theorem bodied_params (p : Place) (position : Nat) (params : List Token) :
    hasBody ((paramData p position params).map Datum.plain) = true ∧
      ∀ d ∈ paramData p position params, bodied d.plain = true := by
  induction params generalizing position with
  | nil => simp [paramData, hasBody]
  | cons param rest ih =>
      exact ⟨hasBody_symbol param _, List.forall_mem_cons.mpr ⟨rfl, (ih (position + 1)).2⟩⟩

mutual

theorem bodied_stmt : ∀ {s : Stmt} {p : Place}, s.Worded vocabulary →
    bodied (stmtDatum p s).plain = true
  | .expression value, p, h => by
      cases h with
      | expression h => exact bodied_expr h
  | .print _ value, p, h => by
      cases h with
      | print _ h => exact bodied_applied (by decide) (by simpa using bodied_expr h)
  | .var _ initializer, p, h => by
      cases h with
      | var _ h => exact bodied_expr? h
  | .block body, p, h => by
      cases h with
      | block h =>
          have hrow := bodied_row p body.isEmpty 0 h
          have hne : rowData p body.isEmpty 0 body ≠ [] := rowData_ne_nil p 0 (Or.inl rfl)
          rw [stmtDatum, Datum.plain_list, List.map_cons, List.map_cons, bodied, bodiedAll, bodiedAll,
            bodiedAll_map.mpr hrow]
          simp [hasBody, bodyOf, hne, bodied, bodiedAll]
  | .ifElse condition onTrue none, p, h => by
      cases h with
      | ifElse hcondition hTrue _ _ _ =>
          exact bodied_applied (by decide)
            (by simpa [bodied] using ⟨bodied_expr hcondition, bodied_stmt hTrue⟩)
  | .ifElse condition onTrue (some onFalse), p, h => by
      cases h with
      | ifElse hcondition hTrue _ hFalse _ =>
          exact bodied_applied (by decide) (by
            simpa using ⟨bodied_expr hcondition, bodied_stmt hTrue, bodied_stmt (hFalse onFalse rfl)⟩)
  | .whileLoop condition body, p, h => by
      cases h with
      | whileLoop hcondition hbody _ =>
          have hbegin : bodied (applied "begin" [stmtDatum (p.part 1 (.stmt body)) body,
              .list [mention p "%loop"]]).plain = true :=
            bodied_applied (by decide) (by
              simpa [bodied, bodiedAll, hasBody, bindingForms] using bodied_stmt hbody)
          have hif := bodied_applied (show "if" ∉ bindingForms by decide)
            (List.forall_mem_cons.mpr ⟨bodied_expr (p := p.part 0 (.expr condition)) hcondition,
              List.forall_mem_singleton.mpr hbegin⟩)
          have hloop : bodied (Datum.list [word "let", mention p "%loop", .list [],
              applied "if" [exprDatum (p.part 0 (.expr condition)) condition,
                applied "begin" [stmtDatum (p.part 1 (.stmt body)) body,
                  .list [mention p "%loop"]]]]).plain = true := by
            rw [Datum.plain_list]
            simpa [bodied, bodiedAll, hasBody, bodyOf] using hif
          exact bodied_applied (by decide) (List.forall_mem_singleton.mpr
            (bodied_procedure rfl (by simp [bodied]) (by simp) (List.forall_mem_singleton.mpr hloop)))
  | .breakLoop _, p, _ => rfl
  | .returnWith _ value, p, h => by
      cases h with
      | returnWith _ h =>
          have hvalue := bodied_expr? (p := p) h
          simpa [stmtDatum, bodied, bodiedAll, hasBody, bindingForms] using hvalue
  | .function declaration, p, h => by
      cases h with
      | function h => exact bodied_function h
  | .classDecl name superclass methods, p, h => by
      cases h with
      | classDecl _ _ hmethods =>
          have habove : bodied (aboveDatum p superclass).plain = true := by
            cases superclass <;> rfl
          have hlist := bodied_applied (show "list" ∉ bindingForms by decide)
            (bodied_methods p superclass.toList.length hmethods)
          have hclass := bodied_applied (show "lox-class" ∉ bindingForms by decide)
            (List.forall_mem_cons.mpr ⟨(rfl : bodied (Datum.string name.lexeme).plain = true),
              List.forall_mem_cons.mpr ⟨(rfl : bodied (mention p "%super").plain = true),
                List.forall_mem_singleton.mpr hlist⟩⟩)
          rw [stmtDatum, Datum.plain_list]
          simpa [bodied, bodiedAll, hasBody, bodyOf, bindingForms, habove] using hclass

theorem bodied_row : ∀ {body : List Stmt} (p : Place) (inside : Bool) (position : Nat),
    (∀ s ∈ body, s.Worded vocabulary) →
    ∀ d ∈ rowData p inside position body, bodied d.plain = true
  | [], p, inside, position, _ => by
      cases inside <;> simp [rowData, bodied]
  | s :: rest, p, inside, position, h => by
      rw [List.forall_mem_cons] at h
      have hvalue := bodied_stmt (p := p.part position (.stmt s)) h.1
      rw [rowData]
      split
      · rename_i keyword name _
        have hrest := bodied_row p true (position + 1) h.2
        have hne : rowData p true (position + 1) rest ≠ [] :=
          rowData_ne_nil p (position + 1) (Or.inr rfl)
        refine List.forall_mem_singleton.mpr ?_
        rw [Datum.plain_list, List.map_cons, List.map_cons, bodied, bodiedAll, bodiedAll,
          bodiedAll_map.mpr hrest]
        simpa [hasBody, bodyOf, hne, bodied, bodiedAll, symbol_not_mem] using hvalue
      · exact List.forall_mem_cons.mpr ⟨hvalue, bodied_row p inside (position + 1) h.2⟩

theorem bodied_function : ∀ {f : FunctionDecl} {p : Place} {isInitializer : Bool},
    f.Worded vocabulary → bodied (functionDatum p isInitializer f).plain = true
  | ⟨name, params, body⟩, p, isInitializer, h => by
      cases h with
      | mk _ _ hbody =>
          have hreturn : bodied (procedure [mention p "%return"]
              (rowData p body.isEmpty params.length body)).plain = true :=
            bodied_procedure rfl (by simp [bodied]) (rowData_ne_nil p params.length (Or.inl rfl))
              (bodied_row p body.isEmpty params.length hbody)
          have hescape := bodied_applied (show "call/cc" ∉ bindingForms by decide)
            (List.forall_mem_singleton.mpr hreturn)
          obtain ⟨hparams, hparams'⟩ := bodied_params p 0 params
          rw [functionDatum]
          refine bodied_applied (by decide) (List.forall_mem_cons.mpr ⟨rfl,
            List.forall_mem_singleton.mpr (bodied_procedure hparams hparams' (by simp)
              (List.forall_mem_singleton.mpr ?_))⟩)
          cases isInitializer with
          | false => exact hescape
          | true =>
              exact bodied_applied (by decide) (List.forall_mem_cons.mpr ⟨hescape,
                List.forall_mem_singleton.mpr rfl⟩)

theorem bodied_methods : ∀ {methods : List FunctionDecl} (p : Place) (position : Nat),
    (∀ f ∈ methods, f.Worded vocabulary) →
    ∀ d ∈ methodData p position methods, bodied d.plain = true
  | [], _, _, _ => by simp [methodData]
  | method :: rest, p, position, h => by
      rw [List.forall_mem_cons] at h
      refine List.forall_mem_cons.mpr ⟨?_, bodied_methods p (position + 1) h.2⟩
      have hprocedure : bodied (procedure [mention (p.part position (.method method)) "this"]
          [functionDatum (p.part position (.method method))
            (method.name.lexeme = initializerName) method]).plain = true :=
        bodied_procedure rfl (by simp [bodied]) (by simp)
          (List.forall_mem_singleton.mpr (bodied_function h.1))
      exact bodied_applied (by decide) (by simpa [property, bodied] using hprocedure)

end

end Lox.Scheme
