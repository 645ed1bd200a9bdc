/-
The trees that the rules derive are well formed.

Along a derivation the numbers of the occurrences are given out from left to right, so
the parts of a row have their numbers in neighbouring intervals, in whatever order the
tree lists them.  What is spelled like a name in the tree is an identifier of the row,
and a branch or a body is derived as a statement, which no declaration is.
-/
import Lox.Proofs.Grammar.Derivation
import Lox.Proofs.Source.Spelling

namespace Lox.Grammar.Derives

/-! ### Numbers -/

mutual

theorem Expression.numbered {level : Level} {first last : Nat} {tokens : List Token} {e : Expr}
    (h : Expression level first tokens last e) : Numbered first e.ids last :=
  match h with
  | .inner _ h | .unary _ h | .callEmpty _ _ h | .property _ _ h | .group _ _ h => by
      simpa [Expr.ids, Expr.idsAll] using h.numbered
  | .binary _ _ hleft hright | .logical _ _ hleft hright | .unequal _ hleft hright =>
      hleft.numbered.append hright.numbered
  | .assignName _ _ h => h.numbered.skip.append (.single _)
  | .assignProperty _ _ _ hobject hvalue => hobject.numbered.append_swap hvalue.numbered
  | .conditional _ _ htest hchosen hother =>
      htest.numbered.append (hchosen.numbered.append hother.numbered)
  | .call _ _ _ hcallee hrow => hcallee.numbered.append hrow.numbered
  | .constant h => by
      cases h <;> exact .nil (Nat.le_refl _)
  | .name _ | .this _ | .super _ _ _ => .single _

theorem Arguments.numbered {first last : Nat} {tokens : List Token} {es : List Expr}
    (h : Arguments first tokens last es) : Numbered first (Expr.idsAll es) last :=
  match h with
  | .last h => by simpa [Expr.idsAll] using h.numbered
  | .more _ h hrow => h.numbered.append hrow.numbered

end

/-- The numbers of the occurrences in an optional expression. -/
def idsOf (e : Option Expr) : List Nat :=
  e.elim [] Expr.ids

theorem Clause.numbered {kind : TokenKind} {first last : Nat} {tokens : List Token}
    {value : Option Expr} (h : Clause kind first tokens last value) :
    Numbered first (idsOf value) last := by
  cases h with
  | absent => exact .nil (Nat.le_refl _)
  | present _ h => exact h.numbered

theorem Variable.numbered {first last : Nat} {tokens : List Token} {s : Stmt}
    (h : Variable first tokens last s) : Numbered first s.ids last := by
  cases h with
  | plain => exact .nil (Nat.le_refl _)
  | initialized _ _ _ _ h => exact h.numbered

theorem Initializer.numbered {first last : Nat} {tokens : List Token} {s : Option Stmt}
    (h : Initializer first tokens last s) : Numbered first (Stmt.idsAll s.toList) last := by
  cases h with
  | var h => simpa [Stmt.idsAll] using h.numbered
  | @clause _ _ value h =>
      cases value with
      | none => exact h.numbered
      | some e => simpa [Stmt.idsAll, Stmt.ids, idsOf] using h.numbered

theorem Superclass.numbered {first last : Nat} {tokens : List Token}
    {superclass : Option Occurrence} (h : Superclass first tokens last superclass) :
    Numbered first (superclass.map Occurrence.id).toList last := by
  cases h with
  | absent => exact .nil (Nat.le_refl _)
  | present => exact .single _

/-- The numbers in a `for`: the increment is listed behind the body, and numbered before. -/
theorem forTree_ids (initializer : Option Stmt) (condition increment : Option Expr)
    (body : Stmt) : (forTree initializer condition increment body).ids
      = Stmt.idsAll initializer.toList ++ (idsOf condition ++ (body.ids ++ idsOf increment)) := by
  cases initializer <;> cases condition <;> cases increment <;>
    simp [forTree, idsOf, Stmt.ids, Stmt.idsAll, Expr.ids]

mutual

theorem Statement.numbered {isOpen : Bool} {first last : Nat} {tokens : List Token} {s : Stmt}
    (h : Statement isOpen first tokens last s) : Numbered first s.ids last :=
  match h with
  | .expression _ h | .print _ _ h => h.numbered
  | .breakLoop _ _ => .nil (Nat.le_refl _)
  | @Statement.returnWith _ _ _ _ value _ h => by
      cases value with
      | none => exact h.numbered
      | some e => exact h.numbered
  | .block _ _ h => h.numbered
  | .whileLoop _ _ _ htest hloop => htest.numbered.append hloop.numbered
  | .forLoop _ _ hfirst hsecond hthird hloop => by
      rw [forTree_ids]
      exact hfirst.numbered.append
        (hsecond.numbered.append (hthird.numbered.append_swap hloop.numbered))
  | .ifOnly _ _ _ htest hthen => htest.numbered.append hthen.numbered
  | .ifElse _ _ _ _ htest hthen helse =>
      htest.numbered.append (hthen.numbered.append helse.numbered)

theorem Declaration.numbered {first last : Nat} {tokens : List Token} {s : Stmt}
    (h : Declaration first tokens last s) : Numbered first s.ids last :=
  match h with
  | .statement h => h.numbered
  | .var h => h.numbered
  | .function _ h => h.numbered
  | .classDecl _ _ _ _ habove hmethods => habove.numbered.append hmethods.numbered

theorem Declarations.numbered {first last : Nat} {tokens : List Token} {body : List Stmt}
    (h : Declarations first tokens last body) : Numbered first (Stmt.idsAll body) last :=
  match h with
  | .none => .nil (Nat.le_refl _)
  | .more h hrow => h.numbered.append hrow.numbered

theorem Function.numbered {first last : Nat} {tokens : List Token} {f : FunctionDecl}
    (h : Function first tokens last f) : Numbered first f.ids last :=
  match h with
  | .mk _ _ _ _ _ _ _ hbody => hbody.numbered

theorem Methods.numbered {first last : Nat} {tokens : List Token} {fs : List FunctionDecl}
    (h : Methods first tokens last fs) : Numbered first (FunctionDecl.idsAll fs) last :=
  match h with
  | .none => .nil (Nat.le_refl _)
  | .more h hrow => h.numbered.append hrow.numbered

end

/-! ### Shapes and spellings -/

/-- The words of a row are spelled as their kinds are. -/
def Spelled (tokens : List Token) : Prop :=
  ∀ token ∈ tokens, token.Spelled

section Spelled

variable {token : Token} {before behind : List Token}

theorem spelled_cons : Spelled (token :: behind) ↔ token.Spelled ∧ Spelled behind :=
  List.forall_mem_cons

theorem spelled_append : Spelled (before ++ behind) ↔ Spelled before ∧ Spelled behind :=
  List.forall_mem_append

end Spelled

mutual

theorem Expression.formed {level : Level} {first last : Nat} {tokens : List Token} {e : Expr}
    (h : Expression level first tokens last e) : Spelled tokens → e.Formed :=
  match h with
  | .inner _ h => h.formed
  | .unary _ h => fun hs => .unary (h.formed (spelled_cons.mp hs).2)
  | .callEmpty _ _ h => fun hs => .call (h.formed (spelled_append.mp hs).1) (by simp)
  | .property _ _ h => fun hs => .get (h.formed (spelled_append.mp hs).1)
  | .group _ _ h => fun hs =>
      .group (h.formed (spelled_append.mp (spelled_cons.mp hs).2).1)
  | .binary _ _ hleft hright => fun hs => by
      obtain ⟨hbefore, hbehind⟩ := spelled_append.mp hs
      exact .binary (hleft.formed hbefore) (hright.formed (spelled_cons.mp hbehind).2)
  | .logical _ _ hleft hright => fun hs => by
      obtain ⟨hbefore, hbehind⟩ := spelled_append.mp hs
      exact .logical (hleft.formed hbefore) (hright.formed (spelled_cons.mp hbehind).2)
  | .unequal _ hleft hright => fun hs => by
      obtain ⟨hbefore, hbehind⟩ := spelled_append.mp hs
      exact .unary (.binary (hleft.formed hbefore) (hright.formed (spelled_cons.mp hbehind).2))
  | .assignName isName _ h => fun hs => by
      obtain ⟨hname, hbehind⟩ := spelled_cons.mp hs
      exact .assign (hname.ordinary isName) (h.formed (spelled_cons.mp hbehind).2)
  | .assignProperty _ _ _ hobject hvalue => fun hs => by
      obtain ⟨hbefore, hbehind⟩ := spelled_append.mp hs
      simp only [spelled_cons] at hbehind
      exact .set (hobject.formed hbefore) (hvalue.formed hbehind.2.2.2)
  | .conditional _ _ htest hchosen hother => fun hs => by
      simp only [spelled_append, spelled_cons] at hs
      exact .conditional (htest.formed hs.1) (hchosen.formed hs.2.2.1) (hother.formed hs.2.2.2.2)
  | .call _ _ _ hcallee hrow => fun hs => by
      simp only [spelled_append, spelled_cons] at hs
      exact .call (hcallee.formed hs.1) (hrow.formed hs.2.2.1)
  | .constant h => fun _ => by cases h <;> exact .literal
  | .name isName => fun hs => .use ((spelled_cons.mp hs).1.ordinary isName)
  | .this isThis => fun hs => .this ((spelled_cons.mp hs).1.this isThis)
  | .super isSuper _ _ => fun hs => .super ((spelled_cons.mp hs).1.super isSuper)

theorem Arguments.formed {first last : Nat} {tokens : List Token} {es : List Expr}
    (h : Arguments first tokens last es) : Spelled tokens → ∀ e ∈ es, e.Formed :=
  match h with
  | .last h => fun hs => by simpa using h.formed hs
  | .more _ h hrow => fun hs => by
      obtain ⟨hbefore, hbehind⟩ := spelled_append.mp hs
      exact List.forall_mem_cons.mpr
        ⟨h.formed hbefore, hrow.formed (spelled_cons.mp hbehind).2⟩

end

theorem Parameters.formed {tokens names : List Token} (h : Parameters tokens names) :
    Spelled tokens → ∀ name ∈ names, Ordinary name.lexeme := by
  induction h with
  | none => simp
  | last isName =>
      intro hs
      simpa using (spelled_cons.mp hs).1.ordinary isName
  | more isName _ _ _ ih =>
      intro hs
      simp only [spelled_cons] at hs
      exact List.forall_mem_cons.mpr ⟨hs.1.ordinary isName, ih hs.2.2⟩

theorem Clause.formed {kind : TokenKind} {first last : Nat} {tokens : List Token}
    {value : Option Expr} (h : Clause kind first tokens last value) (hs : Spelled tokens) :
    ∀ e ∈ value, e.Formed := by
  cases h with
  | absent => simp
  | present _ h => simpa using h.formed (spelled_append.mp hs).1

theorem Variable.formed {first last : Nat} {tokens : List Token} {s : Stmt}
    (h : Variable first tokens last s) (hs : Spelled tokens) : s.Formed := by
  cases h with
  | plain _ isName =>
      simp only [spelled_cons] at hs
      exact .var (hs.2.1.ordinary isName) (by simp)
  | initialized _ isName _ _ h =>
      simp only [spelled_cons, spelled_append] at hs
      exact .var (hs.2.1.ordinary isName) (by simpa using h.formed hs.2.2.2.1)

theorem Initializer.formed {first last : Nat} {tokens : List Token} {s : Option Stmt}
    (h : Initializer first tokens last s) (hs : Spelled tokens) : ∀ start ∈ s, start.Formed := by
  cases h with
  | var h => simpa using h.formed hs
  | @clause _ _ value h =>
      cases value with
      | none => simp
      | some e => simpa using Stmt.Formed.expression (h.formed hs e rfl)

theorem Superclass.formed {first last : Nat} {tokens : List Token}
    {superclass : Option Occurrence} (h : Superclass first tokens last superclass)
    (hs : Spelled tokens) : ∀ occurrence ∈ superclass, Ordinary occurrence.name.lexeme := by
  cases h with
  | absent => simp
  | present _ isName => simpa using (spelled_cons.mp (spelled_cons.mp hs).2).1.ordinary isName

theorem forTree_formed {initializer : Option Stmt} {condition increment : Option Expr}
    {body : Stmt} (hstart : ∀ s ∈ initializer, s.Formed) (htest : ∀ e ∈ condition, e.Formed)
    (hstep : ∀ e ∈ increment, e.Formed) (hbody : body.Formed)
    (hnested : body.isDeclaration = false) :
    (forTree initializer condition increment body).Formed := by
  have hrepeated : ∀ (inner : Stmt), inner = increment.elim body (fun step =>
      .block [body, .expression step]) → inner.Formed ∧ inner.isDeclaration = false := by
    rintro inner rfl
    cases increment with
    | none => exact ⟨hbody, hnested⟩
    | some step => exact ⟨.block (by simp [hbody, Stmt.Formed.expression (hstep step rfl)]), rfl⟩
  obtain ⟨hinner, hplain⟩ := hrepeated _ rfl
  have hcondition : (condition.getD (.literal (.bool true))).Formed := by
    cases condition with
    | none => exact .literal
    | some e => exact htest e rfl
  have hloop := Stmt.Formed.whileLoop hcondition hinner hplain
  cases initializer with
  | none => exact hloop
  | some start => exact .block (by simp [hstart start rfl, hloop])

/-- A statement is no declaration. -/
theorem Statement.not_declaration {isOpen : Bool} {first last : Nat} {tokens : List Token}
    {s : Stmt} (h : Statement isOpen first tokens last s) : s.isDeclaration = false := by
  cases h with
  | @forLoop _ _ _ _ _ _ _ _ _ _ _ _ initializer =>
      cases initializer <;> rfl
  | _ => rfl

mutual

theorem Statement.formed {isOpen : Bool} {first last : Nat} {tokens : List Token} {s : Stmt}
    (h : Statement isOpen first tokens last s) : Spelled tokens → s.Formed :=
  match h with
  | .expression _ h => fun hs => .expression (h.formed (spelled_append.mp hs).1)
  | .print _ _ h => fun hs =>
      .print (h.formed (spelled_append.mp (spelled_cons.mp hs).2).1)
  | .breakLoop _ _ => fun _ => .breakLoop
  | .returnWith _ h => fun hs => .returnWith (h.formed (spelled_cons.mp hs).2)
  | .block _ _ h => fun hs =>
      .block (h.formed (spelled_append.mp (spelled_cons.mp hs).2).1)
  | .whileLoop _ _ _ htest hloop => fun hs => by
      simp only [spelled_append, spelled_cons] at hs
      exact .whileLoop (htest.formed hs.2.2.1) (hloop.formed hs.2.2.2.2) hloop.not_declaration
  | .forLoop _ _ hfirst hsecond hthird hloop => fun hs => by
      simp only [spelled_append, spelled_cons] at hs
      obtain ⟨-, -, hstart, htested, hstepped, hrepeated⟩ := hs
      exact forTree_formed (hfirst.formed hstart) (hsecond.formed htested)
        (hthird.formed hstepped) (hloop.formed hrepeated) hloop.not_declaration
  | .ifOnly _ _ _ htest hthen => fun hs => by
      simp only [spelled_append, spelled_cons] at hs
      exact .ifElse (htest.formed hs.2.2.1) (hthen.formed hs.2.2.2.2) hthen.not_declaration
        (by simp) (by simp)
  | .ifElse _ _ _ _ htest hthen helse => fun hs => by
      simp only [spelled_append, spelled_cons] at hs
      obtain ⟨-, -, htested, -, hchosen, -, hother⟩ := hs
      exact .ifElse (htest.formed htested) (hthen.formed hchosen) hthen.not_declaration
        (by simpa using helse.formed hother) (by simpa using helse.not_declaration)

theorem Declaration.formed {first last : Nat} {tokens : List Token} {s : Stmt}
    (h : Declaration first tokens last s) : Spelled tokens → s.Formed :=
  match h with
  | .statement h => h.formed
  | .var h => h.formed
  | .function _ h => fun hs => .function (h.formed (spelled_cons.mp hs).2)
  | .classDecl _ isName _ _ habove hmethods => fun hs => by
      simp only [spelled_append, spelled_cons] at hs
      obtain ⟨-, hname, hsuper, -, hinside, -⟩ := hs
      exact .classDecl (hname.ordinary isName) (habove.formed hsuper) (hmethods.formed hinside)

theorem Declarations.formed {first last : Nat} {tokens : List Token} {body : List Stmt}
    (h : Declarations first tokens last body) : Spelled tokens → ∀ s ∈ body, s.Formed :=
  match h with
  | .none => fun _ => by simp
  | .more h hrow => fun hs => by
      obtain ⟨hbefore, hbehind⟩ := spelled_append.mp hs
      exact List.forall_mem_cons.mpr ⟨h.formed hbefore, hrow.formed hbehind⟩

theorem Function.formed {first last : Nat} {tokens : List Token} {f : FunctionDecl}
    (h : Function first tokens last f) : Spelled tokens → f.Formed :=
  match h with
  | .mk isName _ _ _ _ _ hparams hbody => fun hs => by
      simp only [spelled_append, spelled_cons] at hs
      obtain ⟨hname, -, hnamed, -, -, hinside, -⟩ := hs
      exact .mk (hname.ordinary isName) (hparams.formed hnamed) (hbody.formed hinside)

theorem Methods.formed {first last : Nat} {tokens : List Token} {fs : List FunctionDecl}
    (h : Methods first tokens last fs) : Spelled tokens → ∀ f ∈ fs, f.Formed :=
  match h with
  | .none => fun _ => by simp
  | .more h hrow => fun hs => by
      obtain ⟨hbefore, hbehind⟩ := spelled_append.mp hs
      exact List.forall_mem_cons.mpr ⟨h.formed hbefore, hrow.formed hbehind⟩

end

end Lox.Grammar.Derives
