/-
What symbols mean.

A symbol in the data of a program was written for something of the program, and what is
bound to it has to be what that means: for a variable the declaration that its distance
denotes, for a receiver, a superclass or a way out the method, the class, the function or
the loop that is around it.  `Faithful` says this of everything that is evaluated in a
datum, and has a rule for each form that data are made of.
-/
import Lox.Proofs.Scheme.Scoping
import Lox.Proofs.Scheme.Vocabulary
import Lox.Proofs.Scope.Declarations
import Lox.Proofs.Scope.Resolved

namespace Lox.Scheme

open Scope Place

/-! ### Names and words -/

/-- The names that are bound for something else than a declaration, and what for. -/
def owners : List (String × (Node → Bool)) :=
  [("this", Node.isMethod), ("%super", Node.isClass), ("%return", Node.isFunction),
    ("%break", Node.isLoop), ("%loop", Node.isLoop)]

/-- What is no function, no class and no loop has no names bound for it. -/
theorem not_owner {node : Node} (hfunction : node.isFunction = false)
    (hclass : node.isClass = false) (hloop : node.isLoop = false) :
    ∀ entry ∈ owners, entry.2 node = false := by
  have hmethod : node.isMethod = false := by
    cases node <;> first | rfl | cases hfunction
  simp [owners, hfunction, hclass, hloop, hmethod]

/-- The words that forms begin with, those that bind names aside. -/
def formNames : List String :=
  ["if", "set!", "not", "list", "cons", "call/cc", "lox-print", "lox-call", "lox-get", "lox-set!",
    "lox-super", "lox-class", "lox-named"] ++ operatorNames ++ connectiveNames

/-- The words that begin a form that binds names. -/
def keywords : List String :=
  ["lambda", "let", "letrec", "define"]

theorem not_isOwn_of_mem : ∀ text ∈ keywords ++ formNames ++ [nil, "#t", "#f"] ++ specialNumbers,
    ¬IsOwn text := by
  have hwords : ∀ text ∈ keywords ++ formNames ++ [nil, "#t", "#f"] ++ specialNumbers,
      text.toList.take 4 ≠ ['l', 'o', 'x', ':'] ∧ text ∉ ownNames := by decide
  exact fun text h => not_isOwn (hwords text h).1 (hwords text h).2

/-- A number is no name. -/
theorem not_isOwn_number (value : Float) : ¬IsOwn (numberLayout.render value) := by
  rcases number_spelled value with hspecial | ⟨-, hall⟩
  · exact not_isOwn_of_mem _ (List.mem_append_right _ hspecial)
  · rintro (⟨rest, hname⟩ | hmem)
    · rw [hname, String.toList_append] at hall
      exact absurd (hall 'l' (List.mem_append_left _ (by decide))) (by decide)
    · have hletter : ∀ text ∈ ownNames, text.toList.all isNumeral = false := by decide
      have hnot := hletter _ hmem
      rw [List.all_eq_true.mpr hall] at hnot
      cases hnot

/-- A name of a program is none of the others. -/
theorem symbol_ne {entry : String × (Node → Bool)} (h : entry ∈ owners) (name : String) :
    entry.1 ≠ "lox:" ++ name := by
  have hfirst : ∀ entry ∈ owners, entry.1.toList.head? ≠ some 'l' := by decide
  intro heq
  refine hfirst _ h ?_
  rw [heq, String.toList_append]
  rfl

theorem variable_injective {name other : String} (h : "lox:" ++ name = "lox:" ++ other) :
    name = other :=
  String.append_right_inj "lox:" |>.mp h

/-! ### What is bound where -/

/-- Only such names are bound. -/
def Owned (bound : Bound) : Prop :=
  ∀ name ∈ bound, IsOwn name.1

theorem Owned.cons {bound : Bound} (h : Owned bound) {text : String} {mark : Option Place}
    (hname : IsOwn text) : Owned ((text, mark) :: bound) :=
  List.forall_mem_cons.mpr ⟨hname, h⟩

theorem Owned.append {bound names : Bound} (h : Owned bound) (hnames : Owned names) :
    Owned (names ++ bound) := fun name hmem =>
  (List.mem_append.mp hmem).elim (hnames name) (h name)

/-- Each variable is bound for the declaration that its distance denotes from here, and a
global is not bound. -/
structure Follows (bound : Bound) (scopes : Scopes) (visible : List (Place × Nat)) : Prop where
  length : scopes.length = visible.length
  free : ∀ name, Ordinary name → scopes.distance? name = none →
    bound.lookup ("lox:" ++ name) = none
  denoted : ∀ name distance, Ordinary name → scopes.isInitializing name = false →
    scopes.distance? name = some distance → ∃ declaration,
      DenotesIn visible distance name declaration ∧
        bound.lookup ("lox:" ++ name) = some (some declaration)

namespace Follows

variable {bound : Bound} {scopes : Scopes} {visible : List (Place × Nat)}

theorem topLevel : Follows [] [] [] :=
  ⟨rfl, fun _ _ _ => rfl, fun _ _ _ _ h => nomatch h⟩

/-- What else is bound does not matter. -/
theorem congr (h : Follows bound scopes visible) {bound' : Bound}
    (hbound : ∀ name, bound'.lookup ("lox:" ++ name) = bound.lookup ("lox:" ++ name)) :
    Follows bound' scopes visible := by
  obtain ⟨hlength, hfree, hdenoted⟩ := h
  refine ⟨hlength, fun name hname hnone => ?_, fun name distance hname hread hdistance => ?_⟩
  · rw [hbound, hfree name hname hnone]
  · rw [hbound]
    exact hdenoted name distance hname hread hdistance

/-- A name of the other kind is bound besides. -/
theorem own (h : Follows bound scopes visible) (entry : String × (Node → Bool))
    (hentry : entry ∈ owners) (mark : Option Place) :
    Follows ((entry.1, mark) :: bound) scopes visible :=
  h.congr fun name => by rw [List.lookup_cons, beq_false_of_ne (symbol_ne hentry name).symm]

/-- A scope that declares no variable is opened. -/
theorem push (h : Follows bound scopes visible) (hsettled : scopes.Settled) {names : Names}
    (hnames : ∀ name, Ordinary name → names.binds name = false) (scope : Place × Nat) :
    Follows bound (names :: scopes) (scope :: visible) := by
  obtain ⟨hlength, hfree, hdenoted⟩ := h
  refine ⟨by simp [hlength], fun name hname hnone => ?_, fun name distance hname _ hdistance => ?_⟩
  · rw [Scopes.distance?_cons, hnames name hname] at hnone
    exact hfree name hname (by simpa using hnone)
  · rw [Scopes.distance?_cons, hnames name hname] at hdistance
    obtain ⟨outer, houter, rfl⟩ : ∃ outer, scopes.distance? name = some outer ∧
        outer + 1 = distance := by simpa using hdistance
    obtain ⟨declaration, ⟨scope', count, hscope, hlatest⟩, hbound⟩ :=
      hdenoted name outer hname (hsettled name) houter
    exact ⟨declaration, ⟨scope', count, hscope, hlatest⟩, hbound⟩

variable {scope : Place} {count : Nat} {node : Node}

/-- A part of the innermost scope that declares nothing is entered. -/
theorem skip (h : Follows bound scopes ((scope, count) :: visible))
    (hpart : scope.node.parts[count]? = some node) (hnode : node.declared? = none) :
    Follows bound scopes ((scope, count + 1) :: visible) := by
  obtain ⟨hlength, hfree, hdenoted⟩ := h
  refine ⟨hlength, hfree, fun name distance hname hread hdistance => ?_⟩
  obtain ⟨declaration, ⟨scope', count', hscope, hlatest⟩, hbound⟩ :=
    hdenoted name distance hname hread hdistance
  refine ⟨declaration, ?_, hbound⟩
  cases distance with
  | zero =>
      obtain ⟨rfl, rfl⟩ := Prod.mk.inj (Option.some.inj hscope)
      exact ⟨scope, count + 1, rfl, hlatest.skip hpart (by rw [Node.declares, hnode]; rfl)⟩
  | succ outer => exact ⟨scope', count', hscope, hlatest⟩

/-- Entering the declaration of a name does not matter to the other names. -/
theorem denoted_of_ne (h : Follows bound scopes ((scope, count) :: visible)) {token : Token}
    (hpart : scope.node.parts[count]? = some node) (hnode : node.declared? = some token)
    {name : String} {distance : Nat} {complete : Bool} (hname : Ordinary name)
    (hne : token.lexeme ≠ name)
    (hread : (scopes.mark token.lexeme complete).isInitializing name = false)
    (hdistance : (scopes.mark token.lexeme complete).distance? name = some distance) :
    ∃ declaration, DenotesIn ((scope, count + 1) :: visible) distance name declaration ∧
      bound.lookup ("lox:" ++ name) = some (some declaration) := by
  rw [Scopes.isInitializing_mark_of_ne hne] at hread
  rw [Scopes.distance?_mark_of_ne hne] at hdistance
  obtain ⟨declaration, ⟨scope', count', hscope, hlatest⟩, hbound⟩ :=
    h.denoted name distance hname hread hdistance
  refine ⟨declaration, ?_, hbound⟩
  cases distance with
  | zero =>
      obtain ⟨rfl, rfl⟩ := Prod.mk.inj (Option.some.inj hscope)
      exact ⟨scope, count + 1, rfl,
        hlatest.skip hpart (by simpa [Node.declares, hnode] using hne)⟩
  | succ outer => exact ⟨scope', count', hscope, hlatest⟩

theorem ne_nil (h : Follows bound scopes ((scope, count) :: visible)) : scopes ≠ [] := by
  rintro rfl
  exact absurd h.length (by simp)

/-- The declaration of a name is entered, and the name is bound for it. -/
theorem declare (h : Follows bound scopes ((scope, count) :: visible)) {token : Token}
    (hpart : scope.node.parts[count]? = some node) (hnode : node.declared? = some token) :
    Follows ((symbol token, some (scope.part count node)) :: bound)
      (scopes.mark token.lexeme true) ((scope, count + 1) :: visible) := by
  have hother : ∀ name, token.lexeme ≠ name →
      List.lookup ("lox:" ++ name) ((symbol token, some (scope.part count node)) :: bound)
        = bound.lookup ("lox:" ++ name) := fun name hne => by
    rw [List.lookup_cons, symbol, beq_false_of_ne fun heq => hne (variable_injective heq).symm]
  refine ⟨by rw [Scopes.length_mark, h.length]; rfl, fun name hname hnone => ?_,
    fun name distance hname hread hdistance => ?_⟩
  · have hne : token.lexeme ≠ name := by
      rintro rfl
      rw [Scopes.distance?_mark_self h.ne_nil] at hnone
      cases hnone
    rw [Scopes.distance?_mark_of_ne hne] at hnone
    rw [hother name hne, h.free name hname hnone]
  · by_cases heq : token.lexeme = name
    · subst heq
      rw [Scopes.distance?_mark_self h.ne_nil] at hdistance
      obtain rfl := Option.some.inj hdistance
      refine ⟨scope.part count node, ⟨scope, count + 1, rfl, .here hpart ?_⟩, ?_⟩
      · simp [Node.declares, hnode]
      · rw [List.lookup_cons, symbol, beq_self_eq_true]
    · rw [hother name heq]
      exact h.denoted_of_ne hpart hnode hname heq hread hdistance

/-- The declaration of a variable is entered; in the initializer it cannot be read yet. -/
theorem entered (h : Follows bound scopes ((scope, count) :: visible)) {token : Token}
    (hpart : scope.node.parts[count]? = some node) (hnode : node.declared? = some token) :
    Follows bound (scopes.mark token.lexeme false) ((scope, count + 1) :: visible) := by
  refine ⟨by rw [Scopes.length_mark, h.length]; rfl, fun name hname hnone => ?_,
    fun name distance hname hread hdistance => ?_⟩
  · have hne : token.lexeme ≠ name := by
      rintro rfl
      rw [Scopes.distance?_mark_self h.ne_nil] at hnone
      cases hnone
    rw [Scopes.distance?_mark_of_ne hne] at hnone
    exact h.free name hname hnone
  · by_cases heq : token.lexeme = name
    · subst heq
      have hnonempty := h.ne_nil
      rw [Scopes.isInitializing_mark_self] at hread
      simp [hnonempty] at hread
    · exact h.denoted_of_ne hpart hnode hname heq hread hdistance

end Follows

/-! ### What is bound for what is around a place -/

/-- The names that are not a program's own are bound for what is around, and `this` and
`super` are names only in methods and in classes. -/
structure Framed (scopes : Scopes) (bound : Bound) (site : List (Node × Nat)) : Prop where
  owned : Owned bound
  own : ∀ entry ∈ owners, bound.lookup entry.1 = (enclosing?.around? entry.2 site).map some
  this : (scopes.distance? "this").isSome → (enclosing?.around? Node.isMethod site).isSome
  super : (scopes.distance? "super").isSome → (enclosing?.around? Node.isClass site).isSome

/-- Names of variables do not matter to the other names. -/
theorem lookup_variables (names : Bound) (hnames : ∀ name ∈ names, ∃ x, name.1 = "lox:" ++ x)
    {entry : String × (Node → Bool)} (hentry : entry ∈ owners) (bound : Bound) :
    (names ++ bound).lookup entry.1 = bound.lookup entry.1 := by
  induction names with
  | nil => rfl
  | cons name rest ih =>
      rw [List.forall_mem_cons] at hnames
      obtain ⟨x, hx⟩ := hnames.1
      obtain ⟨text, mark⟩ := name
      obtain rfl : text = "lox:" ++ x := hx
      rw [List.cons_append, List.lookup_cons, beq_false_of_ne (symbol_ne hentry x), ih hnames.2]

namespace Framed

variable {scopes : Scopes} {bound : Bound} {site : List (Node × Nat)} {node : Node}

theorem topLevel : Framed [] [] [] :=
  ⟨fun _ h => absurd h List.not_mem_nil, fun _ _ => rfl, fun h => (nomatch h), fun h => (nomatch h)⟩

/-- Other names are bound around the same place. -/
theorem congr (h : Framed scopes bound site) {bound' : Bound} (howned : Owned bound')
    (hbound : ∀ entry ∈ owners, bound'.lookup entry.1 = bound.lookup entry.1) :
    Framed scopes bound' site :=
  ⟨howned, fun entry hentry => (hbound entry hentry).trans (h.own entry hentry), h.this, h.super⟩

/-- A variable is bound. -/
theorem bind (h : Framed scopes bound site) (name : Token) (mark : Option Place) :
    Framed scopes ((symbol name, mark) :: bound) site :=
  h.congr (h.owned.cons (isOwn_symbol name)) fun entry hentry =>
    lookup_variables [(symbol name, mark)] (by simpa using ⟨name.lexeme, rfl⟩) hentry bound

/-- A variable is declared. -/
theorem mark (h : Framed scopes bound site) {name : Token} (hname : Ordinary name.lexeme)
    (complete : Bool) : Framed (scopes.mark name.lexeme complete) bound site := by
  obtain ⟨howned, hown, hthis, hsuper⟩ := h
  refine ⟨howned, hown, fun hdistance => hthis ?_, fun hdistance => hsuper ?_⟩
  · rwa [Scopes.distance?_mark_of_ne hname.1] at hdistance
  · rwa [Scopes.distance?_mark_of_ne hname.2] at hdistance

/-- A scope for variables is opened. -/
theorem push (h : Framed scopes bound site) {names : Names} (hthis : names.binds "this" = false)
    (hsuper : names.binds "super" = false) : Framed (names :: scopes) bound site := by
  obtain ⟨howned, hown, hthis', hsuper'⟩ := h
  refine ⟨howned, hown, fun hdistance => hthis' ?_, fun hdistance => hsuper' ?_⟩
  · simpa [Scopes.distance?_cons, hthis] using hdistance
  · simpa [Scopes.distance?_cons, hsuper] using hdistance

/-- Most parts have no names bound for them. -/
theorem part (h : Framed scopes bound site) (hnode : ∀ entry ∈ owners, entry.2 node = false)
    (position : Nat) : Framed scopes bound ((node, position) :: site) := by
  have haround : ∀ entry ∈ owners, enclosing?.around? entry.2 ((node, position) :: site)
      = enclosing?.around? entry.2 site := fun entry hentry => by
    rw [enclosing?.around?, hnode entry hentry]
    rfl
  obtain ⟨howned, hown, hthis, hsuper⟩ := h
  refine ⟨howned, fun entry hentry => ?_, fun hdistance => ?_, fun hdistance => ?_⟩
  · rw [hown entry hentry, haround entry hentry]
  · rw [haround ("this", Node.isMethod) (by simp [owners])]
    exact hthis hdistance
  · rw [haround ("%super", Node.isClass) (by simp [owners])]
    exact hsuper hdistance

end Framed

/-! ### What symbols mean -/

/-- A name is bound for a declaration of it, or for what it is a name for. -/
inductive Binder (program : List Stmt) : Name → Prop
  | declaration {p : Place} {token : Token} (hin : p.IsIn program)
      (hnode : p.node.declared? = some token) : Binder program (symbol token, some p)
  | own {p : Place} (entry : String × (Node → Bool)) (hentry : entry ∈ owners)
      (hin : p.IsIn program) (hnode : entry.2 p.node = true) : Binder program (entry.1, some p)

theorem Binder.isOwn {program : List Stmt} {name : Name} (h : Binder program name) :
    IsOwn name.1 := by
  cases h with
  | declaration _ _ => exact isOwn_symbol _
  | own entry hentry _ _ =>
      exact Or.inr ((by decide : ∀ text ∈ owners.map Prod.fst, text ∈ ownNames) _
        (List.mem_map_of_mem hentry))

/-- What is bound to a symbol in the data of a program is what it was written for. -/
inductive Meant (r : Resolution) (program : List Stmt) (bound : Bound) :
    String → Option Place → Prop
  /-- A word of Scheme's or of the prelude's. -/
  | word {text : String} (h : ¬IsOwn text) : Meant r program bound text none
  /-- A variable that is read. -/
  | use {p : Place} {occurrence : Occurrence} (hin : p.IsIn program)
      (hnode : p.node = .expr (.use occurrence))
      (hlocal : ∀ distance, r.locals[occurrence.id]? = some distance → ∃ declaration,
        p.Denotes distance occurrence.name.lexeme declaration ∧
          bound.lookup (symbol occurrence.name) = some (some declaration))
      (hglobal : r.locals[occurrence.id]? = none → bound.lookup (symbol occurrence.name) = none) :
      Meant r program bound (symbol occurrence.name) (some p)
  /-- A variable that is assigned to. -/
  | target {p : Place} {target : Occurrence} {value : Expr} (hin : p.IsIn program)
      (hnode : p.node = .expr (.assign target value)) :
      Meant r program bound (symbol target.name) (some p)
  /-- A name for what is around. -/
  | own {p owner : Place} (entry : String × (Node → Bool)) (hentry : entry ∈ owners)
      (hin : p.IsIn program) (hnode : ∀ occurrence, p.node ≠ .expr (.use occurrence))
      (howner : p.enclosing? entry.2 = some owner)
      (hbound : bound.lookup entry.1 = some (some owner)) :
      Meant r program bound entry.1 (some p)

/-- Whatever is evaluated in a datum means what it was written for, and names are bound for
declarations and for what is around. -/
structure Faithful (r : Resolution) (program : List Stmt) (bound : Bound) (datum : Marked) :
    Prop where
  meant : ∀ {bound' : Bound} {text : String} {mark : Option Place},
    Evaluated bound datum bound' (.symbol text mark) → Meant r program bound' text mark
  binds : ∀ {bound' : Bound} {items : List Marked} {form : Form},
    Evaluated bound datum bound' (.list items) → formOf bound' items = some form →
      ∀ name ∈ form.names, Binder program name

namespace Faithful

variable {r : Resolution} {program : List Stmt} {bound : Bound}

/-- The names that are bound are those of the forms around. -/
theorem owned {datum datum' : Marked} {bound' : Bound} (h : Faithful r program bound datum)
    (howned : Owned bound) (hevaluated : Evaluated bound datum bound' datum') : Owned bound' := by
  induction hevaluated with
  | self => exact howned
  | part houter hpart ih =>
      rcases parts_bound hpart with rfl | ⟨items, form, rfl, hform, hmem⟩
      · exact ih
      · intro name hname
        rcases hmem name hname with hname | hname
        · exact (h.binds houter hform name hname).isOwn
        · exact ih name hname

/-- A datum without parts. -/
theorem of_leaf {datum : Marked} (hparts : parts bound datum = [])
    (hmeant : ∀ text mark, datum = .symbol text mark → Meant r program bound text mark)
    (hlist : ∀ items, datum = .list items → formOf bound items = none) :
    Faithful r program bound datum := by
  have hself : ∀ {bound' datum'}, Evaluated bound datum bound' datum' →
      bound' = bound ∧ datum' = datum := fun h => by
    rcases evaluated_iff.mp h with hself | ⟨part, hpart, -⟩
    · exact hself
    · rw [hparts] at hpart
      cases hpart
  constructor
  · intro bound' text mark h
    obtain ⟨rfl, heq⟩ := hself h
    exact hmeant text mark heq.symm
  · intro bound' items form h hform
    obtain ⟨rfl, heq⟩ := hself h
    rw [hlist items heq.symm] at hform
    cases hform

theorem symbol {text : String} {mark : Option Place} (h : Meant r program bound text mark) :
    Faithful r program bound (.symbol text mark) :=
  of_leaf rfl (fun _ _ heq => by cases heq; exact h) (fun _ heq => by cases heq)

theorem word {text : String} (h : ¬IsOwn text) : Faithful r program bound (Scheme.word text) :=
  symbol (.word h)

theorem string (text : String) : Faithful r program bound (.string text) :=
  of_leaf rfl (fun _ _ heq => by cases heq) (fun _ heq => by cases heq)

theorem quoted (datum : Marked) : Faithful r program bound (.quoted datum) :=
  of_leaf rfl (fun _ _ heq => by cases heq) (fun _ heq => by cases heq)

/-- A list, whatever form it is. -/
theorem of_parts {items : List Marked}
    (hbinds : ∀ form, formOf bound items = some form → ∀ name ∈ form.names, Binder program name)
    (hparts : ∀ part ∈ parts bound (.list items), Faithful r program part.1 part.2) :
    Faithful r program bound (.list items) := by
  constructor
  · intro bound' text mark h
    rcases evaluated_iff.mp h with ⟨-, heq⟩ | ⟨part, hpart, hwithin⟩
    · cases heq
    · exact (hparts part hpart).meant hwithin
  · intro bound' items' form h hform
    rcases evaluated_iff.mp h with ⟨rfl, heq⟩ | ⟨part, hpart, hwithin⟩
    · cases heq
      exact hbinds form hform
    · exact (hparts part hpart).binds hwithin hform

/-- A list that does not begin with the word of a form that binds names. -/
theorem list {text : String} {mark : Option Place} {rest : List Marked}
    (hhead : Faithful r program bound (.symbol text mark)) (htext : text ∉ keywords)
    (h : ∀ d ∈ rest, Faithful r program bound d) :
    Faithful r program bound (.list (.symbol text mark :: rest)) := by
  have hnone : formOf bound (.symbol text mark :: rest) = none := by
    rw [formOf]
    split
    · rfl
    · unfold form?
      split <;> first | rfl | exact absurd (by decide) htext
  refine of_parts (fun form hform => by rw [hnone] at hform; cases hform) fun part hpart => ?_
  simp only [parts, hnone, List.mem_map] at hpart
  obtain ⟨d, hd, rfl⟩ := hpart
  rcases List.mem_cons.mp hd with rfl | hd
  · exact hhead
  · exact h d hd

/-- An operator with its operands. -/
theorem applied {operator : String} {operands : List Marked} (hoperator : operator ∈ formNames)
    (h : ∀ d ∈ operands, Faithful r program bound d) :
    Faithful r program bound (Scheme.applied operator operands) := by
  have hword : ∀ text ∈ formNames, text ∉ keywords := by decide
  refine list (word (not_isOwn_of_mem operator ?_)) (hword operator hoperator) h
  simp [hoperator]

/-- Where no keyword is bound, a form is what its keyword says. -/
theorem formOf_keyword (howned : Owned bound) {keyword : String} (h : keyword ∈ keywords)
    (rest : List Marked) : formOf bound (Scheme.word keyword :: rest) = form? keyword rest := by
  have hfree : bound.lookup keyword = none :=
    lookup_eq_none howned (not_isOwn_of_mem keyword (by simp [h]))
  rw [Scheme.word, formOf, hfree]
  rfl

theorem of_form {keyword : String} {rest : List Marked} {form : Form} (howned : Owned bound)
    (h : keyword ∈ keywords) (hform : form? keyword rest = some form)
    (hnames : ∀ name ∈ form.names, Binder program name)
    (hparts : ∀ part ∈ parts bound (.list (Scheme.word keyword :: rest)),
      Faithful r program part.1 part.2) :
    Faithful r program bound (.list (Scheme.word keyword :: rest)) := by
  refine of_parts (fun form' hform' => ?_) hparts
  rw [formOf_keyword howned h, hform] at hform'
  obtain rfl := Option.some.inj hform'
  exact hnames

/-- A procedure, whose parameters are bound in its body. -/
theorem procedure {params body : List Marked} (names : Bound) (howned : Owned bound)
    (hparams : params.mapM name? = some names) (hnames : ∀ name ∈ names, Binder program name)
    (hbody : ∀ d ∈ body, Faithful r program (names ++ bound) d) :
    Faithful r program bound (Scheme.procedure params body) := by
  have hform : form? "lambda" (.list params :: body) = some (.procedure names body) := by
    simp [form?, hparams]
  refine of_form howned (by decide) hform hnames fun part hpart => ?_
  simp only [parts, formOf_keyword howned (by decide : "lambda" ∈ keywords), hform,
    List.mem_map] at hpart
  obtain ⟨d, hd, rfl⟩ := hpart
  exact hbody d hd

/-- A `let`, whose names are bound in its body. -/
theorem bindings {row body : List Marked} (pairs : List (Name × Marked)) (howned : Owned bound)
    (hrow : row.mapM binding? = some pairs)
    (hnames : ∀ name ∈ pairs.map Prod.fst, Binder program name)
    (hvalues : ∀ pair ∈ pairs, Faithful r program bound pair.2)
    (hbody : ∀ d ∈ body, Faithful r program (pairs.map Prod.fst ++ bound) d) :
    Faithful r program bound (.list (Scheme.word "let" :: .list row :: body)) := by
  have hform : form? "let" (.list row :: body) = some (.bindings pairs body) := by
    simp [form?, hrow]
  refine of_form howned (by decide) hform hnames fun part hpart => ?_
  simp only [parts, formOf_keyword howned (by decide : "let" ∈ keywords), hform,
    List.mem_append, List.mem_map] at hpart
  rcases hpart with ⟨pair, hpair, rfl⟩ | ⟨d, hd, rfl⟩
  · exact hvalues pair hpair
  · exact hbody d hd

/-- A `let` with a name of its own and nothing else. -/
theorem loop {name : String} {mark : Option Place} {body : List Marked} (howned : Owned bound)
    (hname : Binder program (name, mark))
    (hbody : ∀ d ∈ body, Faithful r program ((name, mark) :: bound) d) :
    Faithful r program bound
      (.list (Scheme.word "let" :: .symbol name mark :: .list [] :: body)) := by
  have hform : form? "let" (.symbol name mark :: .list [] :: body)
      = some (.loop (name, mark) [] body) := rfl
  refine of_form howned (by decide) hform (List.forall_mem_singleton.mpr hname)
    fun part hpart => ?_
  simp only [parts, formOf_keyword howned (by decide : "let" ∈ keywords), hform, List.map_nil,
    List.nil_append, List.mem_map] at hpart
  obtain ⟨d, hd, rfl⟩ := hpart
  exact hbody d hd

/-- A `letrec`, whose name is bound in its value as well. -/
theorem recursive {name : String} {mark : Option Place} {value : Marked} {body : List Marked}
    (howned : Owned bound) (hname : Binder program (name, mark))
    (hbody : ∀ d ∈ value :: body, Faithful r program ((name, mark) :: bound) d) :
    Faithful r program bound
      (.list (Scheme.word "letrec" :: .list [.list [.symbol name mark, value]] :: body)) := by
  have hform : form? "letrec" (.list [.list [.symbol name mark, value]] :: body)
      = some (.recursive [((name, mark), value)] body) := rfl
  refine of_form howned (by decide) hform (List.forall_mem_singleton.mpr hname)
    fun part hpart => ?_
  simp only [parts, formOf_keyword howned (by decide : "letrec" ∈ keywords), hform, List.map_cons,
    List.map_nil, List.singleton_append, List.mem_cons, List.mem_map] at hpart
  rcases hpart with rfl | ⟨d, hd, rfl⟩
  · exact hbody value List.mem_cons_self
  · exact hbody d (List.mem_cons_of_mem value hd)

/-- A `define`. -/
theorem definition {name : String} {mark : Option Place} {value : Marked} (howned : Owned bound)
    (hname : Binder program (name, mark)) (hvalue : Faithful r program bound value) :
    Faithful r program bound (Scheme.applied "define" [.symbol name mark, value]) := by
  have hform : form? "define" [.symbol name mark, value]
      = some (.definition (name, mark) value) := rfl
  refine of_form howned (by decide) hform (List.forall_mem_singleton.mpr hname)
    fun part hpart => ?_
  simp only [parts, formOf_keyword howned (by decide : "define" ∈ keywords), hform,
    List.mem_singleton] at hpart
  rw [hpart]
  exact hvalue

end Faithful

end Lox.Scheme
