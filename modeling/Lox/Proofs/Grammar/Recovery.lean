/-
A statement with a fault in it leaves its neighbours alone.

What reads a statement that ends in a semicolon takes no other semicolon.  So it never gets
behind the one where the statement should end, and never looks behind it either: it does the same
whatever stands there, whichever faults there are already (`Built.inside`).  If it is abandoned,
nothing in front of that semicolon looks like a new statement, and recovery stops right behind it
(`recover_through`).
-/
import Mathlib
import Lox.Proofs.Grammar.Exactness
import Lox.Proofs.Grammar.Built

namespace Lox.Grammar

open Reader

/-! ### Reading in front of more tokens and behind other faults -/

/-- The same place among more tokens: with other faults found before, further tokens behind, and
the end of the source on some other line. -/
def Cursor.inside (c : Cursor) (before : List Fault) (behind : List Token) (endLine : Nat) :
    Cursor :=
  ⟨c.rest ++ behind, endLine, c.lastId, before ++ c.faults⟩

/-- Whoever takes tokens of these kinds only does not get to see what is behind: either there is
nothing and the source ends on the same line, or the last of the tokens is of no such kind. -/
inductive Cursor.Hides (K : TokenKind → Prop) (c : Cursor) (behind : List Token) (endLine : Nat) :
    Prop
  | nothing (hbehind : behind = []) (hline : endLine = c.endLine)
  | stop {tokens : List Token} {last : Token} (hrest : c.rest = tokens ++ [last])
      (hlast : ¬K last.kind)

section Inside

variable {K : TokenKind → Prop} {P : Token → Prop} {α : Type} {Q : α → Prop} {p : Reader α}
  {c : Cursor} {before : List Fault} {behind : List Token} {endLine : Nat}

theorem Cursor.Hides.head? (h : c.Hides K behind endLine) (before : List Fault) :
    (c.inside before behind endLine).rest.head? = c.rest.head? := by
  show (c.rest ++ behind).head? = c.rest.head?
  cases h with
  | nothing hbehind _ => rw [hbehind, List.append_nil]
  | @stop tokens last hrest _ => rw [hrest]; cases tokens <;> rfl

/-- What is taken is not the last token. -/
theorem Cursor.Hides.tail {token : Token} {rest : List Token} (h : c.Hides K behind endLine)
    (hrest : c.rest = token :: rest) (htoken : K token.kind) :
    Cursor.Hides K { c with rest := rest } behind endLine := by
  cases h with
  | nothing hbehind hline => exact .nothing hbehind hline
  | @stop tokens last hstop hlast =>
      rw [hrest] at hstop
      cases tokens with
      | nil =>
          obtain ⟨rfl, -⟩ := List.cons.inj hstop
          exact absurd htoken hlast
      | cons first others => exact .stop (List.cons.inj hstop).2 hlast

/-- Numbers and faults are of no matter. -/
theorem Cursor.Hides.same {c' : Cursor} (h : c.Hides K behind endLine) (hrest : c'.rest = c.rest)
    (hline : c'.endLine = c.endLine) : c'.Hides K behind endLine := by
  cases h with
  | nothing hbehind hend => exact .nothing hbehind (hend.trans hline.symm)
  | stop hstop hlast => exact .stop (hrest.trans hstop) hlast

/-- A new fault is behind those found before. -/
theorem Cursor.inside_fault (c : Cursor) (fault : Fault) :
    ({ c with faults := c.faults ++ [fault] } : Cursor).inside before behind endLine
      = { c.inside before behind endLine with
          faults := (c.inside before behind endLine).faults ++ [fault] } := by
  rw [inside, inside, List.append_assoc]

theorem Cursor.Hides.faultHere_inside (h : c.Hides K behind endLine) (cause : Fault.Cause) :
    faultHere cause (c.inside before behind endLine)
      = (some (), (faultHere cause c).2.inside before behind endLine) := by
  obtain ⟨rest, line, lastId, faults⟩ := c
  cases rest with
  | cons token rest => simp [faultHere, Cursor.inside]
  | nil =>
      cases h with
      | nothing hbehind hline =>
          obtain rfl : endLine = line := hline
          simp [faultHere, Cursor.inside, hbehind]
      | stop hstop _ => simp at hstop

/-- **A reader does the same wherever its tokens stand**, unless it could take all of them and
there are more. -/
theorem Reader.Built.inside (h : Built K P Q p) (hP : ∀ token ∈ c.rest, P token)
    (hc : c.Hides K behind endLine) :
    p (c.inside before behind endLine) = ((p c).1, (p c).2.inside before behind endLine) ∧
      (p c).2.Hides K behind endLine := by
  induction h generalizing c with
  | pure _ | abandon => exact ⟨rfl, hc⟩
  | freshId => exact ⟨rfl, hc.same rfl rfl⟩
  | weaken _ _ ih => exact ih hP hc
  | @bind _ _ _ _ p f hp _ ihp ihf =>
      have hcomes := hp.comesTo hP
      obtain ⟨hfirst, hhides⟩ := ihp hP hc
      rw [bind_apply, bind_apply, hfirst]
      generalize p c = outcome at hcomes hhides
      rcases outcome with ⟨_ | a, c'⟩
      · exact ⟨rfl, hhides⟩
      · exact ihf a (hcomes.kept a rfl) (fun token ht => hP token (hcomes.rest.subset ht)) hhides
  | nextKind =>
      refine ⟨?_, hc⟩
      show (some ((c.inside before behind endLine).rest.head?.map Token.kind), _) = _
      rw [hc.head? before]
      rfl
  | @accept kinds hkinds =>
      rcases accept_cases kinds c with ⟨heq, hnot⟩ | ⟨token, rest, hrest, hmem, heq⟩
      · rw [← hc.head? before] at hnot
        rw [heq, accept_of_not hnot]
        exact ⟨rfl, hc⟩
      · have hinside : (c.inside before behind endLine).rest = token :: (rest ++ behind) := by
          rw [Cursor.inside, hrest, List.cons_append]
        rw [heq, accept_cons kinds _ hinside hmem]
        exact ⟨rfl, hc.tail hrest (hkinds _ hmem)⟩
  | faultAt _ cause => exact ⟨congrArg (Prod.mk _) (c.inside_fault _).symm, hc.same rfl rfl⟩
  | faultHere cause => exact ⟨hc.faultHere_inside cause, hc.same rfl rfl⟩
  | attempt _ ih =>
      obtain ⟨hsame, hhides⟩ := ih hP hc
      refine ⟨?_, hhides⟩
      rw [Reader.attempt, Reader.attempt, hsame]
  | @recovering _ _ p hK _ ih =>
      obtain ⟨hsame, hhides⟩ := ih hP hc
      rw [Grammar.recovering, Grammar.recovering, hsame]
      generalize p c = outcome at hhides
      rcases outcome with ⟨_ | a, c'⟩
      · cases hhides with
        | nothing hbehind hline =>
            subst hbehind
            refine ⟨?_, .nothing rfl hline⟩
            simp [Cursor.inside]
        | stop _ hlast => exact absurd (hK _) hlast
      · exact ⟨rfl, hhides⟩

/-- The last token is left where it is no token that could be taken. -/
theorem Reader.Built.stops {tokens : List Token} {last : Token} (h : Built K P Q p)
    (hP : ∀ token ∈ c.rest, P token) (hrest : c.rest = tokens ++ [last]) (hlast : ¬K last.kind) :
    ∃ left, (p c).2.rest = left ++ [last] ∧ left <:+ tokens := by
  have hsuffix := (h.comesTo hP).rest
  have hinside : p (c.inside [] [last] 0) = ((p c).1, (p c).2.inside [] [last] 0) ∧
      (p c).2.Hides K [last] 0 := h.inside hP (.stop hrest hlast)
  cases hinside.2 with
  | nothing hbehind _ => exact nomatch hbehind
  | @stop left token hleft _ =>
      rw [hrest, hleft] at hsuffix
      obtain ⟨taken, htaken⟩ := hsuffix
      rw [← List.append_assoc] at htaken
      obtain ⟨htokens, hsame⟩ := List.append_inj' htaken rfl
      obtain rfl : token = last := List.singleton_inj.mp hsame
      exact ⟨left, hleft, taken, htokens⟩

end Inside

/-! ### Statements that end in a semicolon -/

/-- The tokens of one statement up to its semicolon, in order or not: none of them begins or
ends a statement, except that the first may be a keyword. -/
structure Stretch (tokens : List Token) : Prop where
  plain : ∀ token ∈ tokens, token.kind ∉
    [.semicolon, .leftBrace, .rightBrace, .kwClass, .kwFun, .kwFor, .kwIf, .kwWhile]
  tail : ∀ token ∈ tokens.tail, token.kind ∉ [.kwVar, .kwPrint, .kwReturn]
  head : Avoids [.kwElse] tokens

/-- If nothing looks like a new statement before it, recovery stops right behind the next
semicolon. -/
theorem recover_through {tokens : List Token} {semicolon : Token} (behind : List Token)
    (hplain : ∀ token ∈ tokens, token.kind ≠ .semicolon)
    (htail : ∀ token ∈ tokens.tail, restarts token.kind = false)
    (hsemicolon : semicolon.kind = .semicolon) :
    recover (tokens ++ semicolon :: behind) = behind := by
  induction tokens with
  | nil => cases behind <;> simp [recover, hsemicolon]
  | cons skipped rest ih =>
      -- The first token is skipped without a look at it, so it may be a keyword.
      rw [List.forall_mem_cons] at hplain
      have hrest := ih hplain.2 fun token htoken => htail token (List.mem_of_mem_tail htoken)
      have hnext : ∃ next others, rest ++ semicolon :: behind = next :: others ∧
          restarts next.kind = false := by
        cases rest with
        | nil => exact ⟨semicolon, behind, rfl, by rw [hsemicolon]; decide⟩
        | cons next others => exact ⟨next, _, rfl, htail next List.mem_cons_self⟩
      obtain ⟨next, others, hothers, hplainNext⟩ := hnext
      rw [List.cons_append, hothers, recover, ← hothers]
      simpa [hplain.1, hplainNext] using hrest

/-- The last token that is left, and no other, is a semicolon. -/
structure Cursor.Ending (tokens : List Token) (semicolon : Token) (c : Cursor) : Prop where
  rest : c.rest = tokens ++ [semicolon]
  semicolon : semicolon.kind = .semicolon
  plain : ∀ token ∈ tokens, token.kind ≠ .semicolon

/-- A reader of a statement, where the last token is its semicolon: if the statement is kept, the
semicolon is taken, and if not, it is left; and wherever these tokens stand, it does the same. -/
structure Concludes (semicolon : Token) (p : Reader Stmt) (c : Cursor) : Prop where
  inside : ∀ before behind endLine, p (c.inside before behind endLine)
    = ((p c).1, (p c).2.inside before behind endLine)
  kept : (p c).1 ≠ none → (p c).2.rest = []
  abandoned : (p c).1 = none →
    ∃ left, (p c).2.Ending left semicolon ∧ (p c).2.rest <:+ c.rest

section Concludes

variable {semicolon : Token} {c : Cursor} {tokens : List Token}

/-- Only the last step takes the semicolon. -/
theorem Cursor.Ending.concludes_expect (h : c.Ending tokens semicolon) (what : String)
    (s : Stmt) : Concludes semicolon (expect .semicolon what >>= fun _ => pure s) c := by
  cases tokens with
  | nil =>
      have hread (c : Cursor) (behind : List Token) (hrest : c.rest = semicolon :: behind) :
          (expect .semicolon what >>= fun _ => (pure s : Reader Stmt)) c
            = (some s, { c with rest := behind }) :=
        bind_of_some (expect_cons what c hrest h.semicolon)
      have heq := hread c [] h.rest
      refine ⟨fun before behind endLine => ?_, fun _ => ?_, fun hnone => ?_⟩
      · rw [hread _ behind (by rw [Cursor.inside, h.rest]; rfl), heq]
        rfl
      · rw [heq]
      · rw [heq] at hnone
        exact nomatch hnone
  | cons token rest =>
      have hother : token.kind ≠ .semicolon := h.plain token List.mem_cons_self
      have hread (c : Cursor) (others : List Token) (hrest : c.rest = token :: others) :
          (expect .semicolon what >>= fun _ => (pure s : Reader Stmt)) c
            = (none, (faultHere (.expected what) c).2) :=
        bind_of_none (expect_of_not what (by simpa [hrest] using hother))
      have heq := hread c (rest ++ [semicolon]) h.rest
      refine ⟨fun before behind endLine => ?_, fun hkept => ?_, fun _ => ?_⟩
      · have hhides : c.Hides (fun kind => kind ≠ .semicolon) behind endLine :=
          .stop h.rest (not_not_intro h.semicolon)
        rw [hread _ (rest ++ [semicolon] ++ behind) (by rw [Cursor.inside, h.rest]; rfl), heq,
          hhides.faultHere_inside]
      · rw [heq] at hkept
        exact absurd rfl hkept
      · rw [heq]
        exact ⟨token :: rest, ⟨h.rest, h.semicolon, h.plain⟩, List.suffix_refl _⟩

/-- What leads to a reader of the rest of the statement reads the statement. -/
theorem Concludes.of_eq {p q : Reader Stmt} {c' : Cursor} (h : Concludes semicolon q c')
    (heq : p c = q c') (hsuffix : c'.rest <:+ c.rest)
    (hinside : ∀ before behind endLine, p (c.inside before behind endLine)
      = q (c'.inside before behind endLine)) : Concludes semicolon p c := by
  refine ⟨fun before behind endLine => ?_, ?_, ?_⟩
  · rw [hinside, heq]
    exact h.inside before behind endLine
  · rw [heq]
    exact h.kept
  · rw [heq]
    intro habandoned
    obtain ⟨left, hleft, hrest⟩ := h.abandoned habandoned
    exact ⟨left, hleft, hrest.trans hsuffix⟩

/-- What comes before it takes no semicolon. -/
theorem Cursor.Ending.concludes_bind {α : Type} {P : Token → Prop} {Q : α → Prop} {p : Reader α}
    {f : α → Reader Stmt} (h : c.Ending tokens semicolon) (hP : ∀ token ∈ c.rest, P token)
    (hp : Built (fun kind => kind ≠ .semicolon) P Q p)
    (hf : ∀ a c' left, Q a → (∀ token ∈ c'.rest, P token) → c'.Ending left semicolon →
      Concludes semicolon (f a) c') : Concludes semicolon (p >>= f) c := by
  have hinside (before : List Fault) (behind : List Token) (endLine : Nat) :
      p (c.inside before behind endLine) = ((p c).1, (p c).2.inside before behind endLine) :=
    (hp.inside hP (.stop h.rest (not_not_intro h.semicolon))).1
  have hcomes := hp.comesTo hP
  -- No step has taken the semicolon, so it is still there.
  obtain ⟨left, hrest, hpart⟩ := hp.stops hP h.rest (not_not_intro h.semicolon)
  have hleft : (p c).2.Ending left semicolon :=
    ⟨hrest, h.semicolon, fun token htoken => h.plain token (hpart.subset htoken)⟩
  generalize hread : p c = outcome at hinside hcomes hleft
  rcases outcome with ⟨_ | a, c'⟩
  · have heq : (p >>= f) c = (none, c') := bind_of_none hread
    refine ⟨fun before behind endLine => ?_, fun hkept => ?_, fun _ => ?_⟩
    · rw [heq]
      exact bind_of_none (hinside before behind endLine)
    · rw [heq] at hkept
      exact absurd rfl hkept
    · rw [heq]
      exact ⟨left, hleft, hcomes.rest⟩
  · have hP' : ∀ token ∈ c'.rest, P token := fun token ht => hP token (hcomes.rest.subset ht)
    exact (hf a c' left (hcomes.kept a rfl) hP' hleft).of_eq (bind_of_some hread) hcomes.rest
      fun before behind endLine => bind_of_some (hinside before behind endLine)

/-! ### The statements of a stretch -/

section Statements

variable {P : Token → Prop} (h : c.Ending tokens semicolon) (hP : ∀ token ∈ c.rest, P token)

include h hP

theorem concludes_variable (fuel : Nat) : Concludes semicolon (variableDeclaration fuel) c := by
  rw [variableDeclaration_eq]
  refine h.concludes_bind hP (.expect (by decide) _) fun name c₁ left₁ _ hP₁ h₁ => ?_
  refine h₁.concludes_bind hP₁ (optionalInitializer_built (fun token _ => Derives.allows_any [token])
    (by decide) fuel) fun initializer c₂ left₂ _ _ h₂ => ?_
  exact h₂.concludes_expect _ _

theorem concludes_value (fuel : Nat) (what : String) (f : Expr → Stmt) :
    Concludes semicolon (anyExpression fuel >>= fun value =>
      expect .semicolon what >>= fun _ => pure (f value)) c :=
  h.concludes_bind hP (anyExpression_built (fun token _ => Derives.allows_any [token])
    (by decide) fuel) fun _ _ _ _ _ h₁ => h₁.concludes_expect _ _

theorem concludes_return (keyword : Token) (fuel : Nat) :
    Concludes semicolon (returnStatement keyword fuel) c :=
  h.concludes_bind hP (optionalExpression_built (fun token _ => Derives.allows_any [token])
    (by decide) .semicolon fuel) fun _ _ _ _ _ h₁ => h₁.concludes_expect _ _

end Statements

/-- The kinds of tokens that begin a statement without a semicolon of its own. -/
def compoundKinds : List TokenKind :=
  [.leftBrace, .kwClass, .kwFun, .kwFor, .kwIf, .kwWhile]

theorem concludes_statement (h : c.Ending tokens semicolon)
    (hplain : ∀ token ∈ c.rest, token.kind ∉ compoundKinds) (fuel : Nat) :
    Concludes semicolon (statement fuel) c := by
  cases fuel with
  | zero => exact ⟨fun _ _ _ => rfl, fun hkept => absurd rfl hkept,
      fun _ => ⟨tokens, h, List.suffix_refl _⟩⟩
  | succ fuel =>
      rw [statement_succ]
      refine h.concludes_bind hplain (.accept (by decide)) ?_
      rintro (_ | keyword) c₁ left hkeyword hplain₁ h₁
      · exact concludes_value h₁ hplain₁ fuel _ _
      obtain ⟨hother, hkind⟩ := hkeyword keyword rfl
      dsimp only
      unfold statementAt
      generalize keyword.kind = kind at hother hkind
      cases kind with
      | kwBreak => exact h₁.concludes_expect _ _
      | kwPrint => exact concludes_value h₁ hplain₁ fuel _ _
      | kwReturn => exact concludes_return h₁ hplain₁ keyword fuel
      | kwFor | kwIf | kwWhile | leftBrace => exact absurd (by decide) hother
      | _ => exact absurd hkind (by decide)

theorem concludes_declaration (h : c.Ending tokens semicolon)
    (hplain : ∀ token ∈ c.rest, token.kind ∉ compoundKinds) (fuel : Nat) :
    Concludes semicolon (keptDeclaration fuel) c := by
  refine h.concludes_bind hplain (.accept (by decide)) ?_
  rintro (_ | keyword) c₁ left hkeyword hplain₁ h₁
  · exact concludes_statement h₁ hplain₁ fuel
  obtain ⟨hother, hkind⟩ := hkeyword keyword rfl
  dsimp only
  unfold declarationAt
  generalize keyword.kind = kind at hother hkind
  cases kind with
  | kwVar => exact concludes_variable h₁ hplain₁ fuel
  | kwClass | kwFun => exact absurd (by decide) hother
  | _ => exact absurd hkind (by decide)

end Concludes

/-! ### One statement among others -/

section Apart

variable {tokens : List Token} {semicolon : Token} {c : Cursor}

theorem Stretch.ending (h : Stretch tokens) (hsemicolon : semicolon.kind = .semicolon)
    (hrest : c.rest = tokens ++ [semicolon]) : c.Ending tokens semicolon :=
  ⟨hrest, hsemicolon, fun token htoken hkind => h.plain token htoken (by rw [hkind]; decide)⟩

theorem Stretch.not_compound (h : Stretch tokens) (hsemicolon : semicolon.kind = .semicolon) :
    ∀ token ∈ tokens ++ [semicolon], token.kind ∉ compoundKinds := by
  rw [List.forall_mem_append, List.forall_mem_singleton, hsemicolon]
  have hkinds : ∀ kind ∈ compoundKinds, kind ∈ [TokenKind.semicolon, .leftBrace, .rightBrace,
      .kwClass, .kwFun, .kwFor, .kwIf, .kwWhile] := by decide
  exact ⟨fun token htoken hmem => h.plain token htoken (hkinds _ hmem), by decide⟩

/-- Nothing in what is left of a stretch looks like a new statement. -/
theorem Stretch.recover (h : Stretch tokens) {left : List Token} (hsuffix : left <:+ tokens)
    (hsemicolon : semicolon.kind = .semicolon) (behind : List Token) :
    recover (left ++ semicolon :: behind) = behind := by
  refine recover_through behind (fun token htoken hkind => ?_) (fun token htoken => ?_) hsemicolon
  · exact h.plain token (hsuffix.subset htoken) (by rw [hkind]; decide)
  · have hplain := h.plain token (hsuffix.subset (List.mem_of_mem_tail htoken))
    have htail : token ∈ tokens.tail := by
      obtain ⟨taken, rfl⟩ := hsuffix
      cases taken with
      | nil => exact htoken
      | cons first others => exact List.mem_append_right others (List.mem_of_mem_tail htoken)
    have hkeyword := h.tail token htail
    generalize token.kind = kind at hplain hkeyword
    cases kind <;> first | rfl | exact absurd (by decide) hplain | exact absurd (by decide) hkeyword

/-- **A stretch with its semicolon is read alike wherever it stands**, and up to its end,
whether something is kept of it or nothing. -/
theorem Stretch.declaration_apart (h : Stretch tokens) (hsemicolon : semicolon.kind = .semicolon)
    (hrest : c.rest = tokens ++ [semicolon]) {fuel : Nat} (hfuel : 0 < fuel) :
    (declaration fuel c).2.rest = [] ∧ ∀ before behind endLine,
      declaration fuel (c.inside before behind endLine)
        = ((declaration fuel c).1, (declaration fuel c).2.inside before behind endLine) := by
  obtain ⟨hinside, hkept, habandoned⟩ := concludes_declaration (h.ending hsemicolon hrest)
    (hrest ▸ h.not_compound hsemicolon) (fuel - 1)
  rw [declaration_eq hfuel]
  unfold recovering
  generalize keptDeclaration (fuel - 1) c = outcome at hinside hkept habandoned
  rcases outcome with ⟨_ | s, c'⟩
  · obtain ⟨left, hleft, hsuffix⟩ := habandoned rfl
    have hpart : left <:+ tokens := by
      obtain ⟨taken, htaken⟩ := hsuffix
      rw [hleft.rest, hrest, ← List.append_assoc] at htaken
      exact ⟨taken, List.append_cancel_right htaken⟩
    have hrecover (behind : List Token) : Grammar.recover (c'.rest ++ behind) = behind := by
      rw [hleft.rest, List.append_assoc]
      exact h.recover hpart hsemicolon behind
    have halone := hrecover []
    rw [List.append_nil] at halone
    refine ⟨halone, fun before behind endLine => ?_⟩
    rw [hinside]
    simp only [Cursor.inside, hrecover, halone, List.nil_append]
  · refine ⟨hkept (by simp), fun before behind endLine => ?_⟩
    rw [hinside]

end Apart

/-! ### Programs among others -/

/-- Behind other faults a program is read as if there were none. -/
theorem toEnd_inside (fuel : Nat) (c : Cursor) (before : List Fault) :
    toEnd fuel (c.inside before [] c.endLine)
      = ((toEnd fuel c).1, (toEnd fuel c).2.inside before [] c.endLine) := by
  induction fuel generalizing c with
  | zero => rfl
  | succ fuel ih =>
      have hrest : (c.inside before [] c.endLine).rest = c.rest := List.append_nil _
      rw [toEnd, toEnd, hrest]
      split
      · rfl
      · have hbuilt : Built (fun _ => True) (fun _ => True) _ (declaration fuel) :=
          declaration_built (fun token _ => Derives.allows_any [token]) (fun _ => trivial) fuel
        have hline := (hbuilt.comesTo (c := c) fun _ _ => trivial).endLine
        rw [(hbuilt.inside (fun _ _ => trivial) (.nothing rfl rfl)).1]
        dsimp only
        rw [← hline, ih]

/-- With any counter that is large enough, and behind any faults, what is read to the end is what
is read of a program of its own. -/
theorem toEnd_eq_parse {tokens : List Token} {fuel : Nat} (endLine lastId : Nat)
    (before : List Fault) (hfuel : 24 * tokens.length + 17 ≤ fuel) :
    ∃ c, toEnd fuel ⟨tokens, endLine, lastId, before⟩
        = ((parse tokens endLine lastId).program, c) ∧
      c.faults = before ++ (parse tokens endLine lastId).faults ∧
      c.lastId = (parse tokens endLine lastId).lastId := by
  let alone : Cursor := ⟨tokens, endLine, lastId, []⟩
  have hcursor : (⟨tokens, endLine, lastId, before⟩ : Cursor)
      = alone.inside before [] alone.endLine := by
    simp [Cursor.inside, alone]
  have hcounter : toEnd fuel alone = toEnd (fuelFor tokens) alone := by
    have hleast : 24 * alone.rest.length + 17 ≤ fuelFor tokens := by
      simp only [fuelFor, alone]
      omega
    rw [toEnd_of_le (Nat.le_refl _) hleast, toEnd_of_le (Nat.le_refl _) hfuel]
  rw [hcursor, toEnd_inside, hcounter, parse]
  generalize toEnd (fuelFor tokens) alone = outcome
  exact ⟨_, rfl, rfl, rfl⟩

/-- Behind a program that is read without a fault, what follows is read as a program of its own. -/
theorem parse_front {front behind : List Token} (frontLine endLine lastId : Nat)
    (hfront : (parse front frontLine lastId).faults = []) (hbehind : Avoids [.kwElse] behind) :
    let first := parse front frontLine lastId
    let others := parse behind endLine first.lastId
    parse (front ++ behind) endLine lastId
      = ⟨first.program ++ others.program, others.faults, others.lastId⟩ := by
  intro first others
  have hfuel : 24 * (front ++ behind).length + 17 ≤ fuelFor (front ++ behind) := by
    rw [fuelFor]
    omega
  have hshorter : 24 * behind.length + 17 ≤ fuelFor (front ++ behind) := by
    rw [List.length_append] at hfuel
    omega
  have hderives : Derives.Declarations lastId front first.lastId first.program :=
    parse_sound hfront
  obtain ⟨c, hread, hfaults, hlast⟩ := toEnd_eq_parse endLine first.lastId [] hshorter
  rw [parse, toEnd_front _ _ _ _ hderives hbehind hfuel, hread]
  dsimp only
  rw [hfaults, hlast, List.nil_append]

/-- A stretch and its semicolon are read as a program of their own, and what is behind them as
another one. -/
theorem Stretch.toEnd_apart {tokens : List Token} {semicolon : Token} {fuel : Nat}
    (h : Stretch tokens) (hsemicolon : semicolon.kind = .semicolon) (behind : List Token)
    (line endLine lastId : Nat) (before : List Fault)
    (hfuel : 24 * (tokens ++ semicolon :: behind).length + 17 ≤ fuel) :
    let own := parse (tokens ++ [semicolon]) line lastId
    let others := parse behind endLine own.lastId
    ∃ c, toEnd fuel ⟨tokens ++ semicolon :: behind, endLine, lastId, before⟩
        = (own.program ++ others.program, c) ∧
      c.faults = before ++ (own.faults ++ others.faults) ∧ c.lastId = others.lastId := by
  simp only [List.length_append, List.length_cons] at hfuel
  obtain ⟨fuel, rfl⟩ := Nat.exists_eq_succ_of_ne_zero (show fuel ≠ 0 by omega)
  let alone : Cursor := ⟨tokens ++ [semicolon], line, lastId, []⟩
  have hcursor : (⟨tokens ++ semicolon :: behind, endLine, lastId, before⟩ : Cursor)
      = alone.inside before behind endLine := by
    simp [Cursor.inside, alone]
  obtain ⟨token, rest, hhead⟩ : ∃ token rest, alone.rest = token :: rest :=
    List.exists_cons_of_ne_nil (by simp [alone])
  have hhead' : (alone.inside before behind endLine).rest = token :: (rest ++ behind) := by
    rw [Cursor.inside, hhead, List.cons_append]
  obtain ⟨hnothing, hinside⟩ := h.declaration_apart hsemicolon (c := alone) rfl
    (show 0 < fuel by omega)
  have henough : 24 * (tokens ++ [semicolon]).length + 17 ≤ fuel + 1 := by
    rw [List.length_append, List.length_singleton]
    omega
  obtain ⟨own, hread, hfaults, hlast⟩ := toEnd_eq_parse line lastId [] henough
  generalize hfirst : declaration fuel alone = outcome at hnothing hinside
  obtain ⟨first, c⟩ := outcome
  have halone := toEnd_of_declaration hhead hfirst
  rw [toEnd_of_nil hnothing, List.append_nil] at halone
  obtain ⟨hprogram, rfl⟩ := Prod.mk.inj (hread.symm.trans halone)
  -- Behind the stretch the counter is still large enough for the rest.
  have hrest : 24 * behind.length + 17 ≤ fuel := by omega
  obtain ⟨last, hbehind, hbehindFaults, hbehindLast⟩ :=
    toEnd_eq_parse endLine own.lastId (before ++ own.faults) hrest
  have hinner : own.inside before behind endLine
      = ⟨behind, endLine, own.lastId, before ++ own.faults⟩ := by
    rw [Cursor.inside, hnothing, List.nil_append]
  rw [hcursor, toEnd_of_declaration hhead' (hinside before behind endLine)]
  dsimp only
  rw [hinner, hbehind, ← hprogram, hlast]
  refine ⟨last, rfl, ?_, ?_⟩
  · rw [hbehindFaults, hfaults, hlast, List.nil_append, List.append_assoc]
  · rw [hbehindLast, hlast]

/-- **What is wrong with one statement is no concern of its neighbours.**  Between a program that
is read without a fault and any other tokens stand the tokens of one statement, in order or not,
and a semicolon.  Then each of the three is read as if it stood alone, with the numbers of the
one before going on: the statements of all three are kept in order, and so are the faults. -/
theorem parse_apart {front middle : List Token} {semicolon : Token} (back : List Token)
    (frontLine middleLine endLine lastId : Nat)
    (hfront : (parse front frontLine lastId).faults = []) (hmiddle : Stretch middle)
    (hsemicolon : semicolon.kind = .semicolon) :
    let first := parse front frontLine lastId
    let second := parse (middle ++ [semicolon]) middleLine first.lastId
    let third := parse back endLine second.lastId
    parse (front ++ middle ++ semicolon :: back) endLine lastId
      = ⟨first.program ++ second.program ++ third.program, second.faults ++ third.faults,
          third.lastId⟩ := by
  intro first second third
  have hfollow : Avoids [.kwElse] (middle ++ semicolon :: back) := by
    cases middle with
    | nil => exact avoids_cons (by rw [hsemicolon]; decide)
    | cons token rest => exact avoids_cons (hmiddle.head token rfl)
  have hfuel : 24 * (middle ++ semicolon :: back).length + 17
      ≤ fuelFor (middle ++ semicolon :: back) := by
    rw [fuelFor]
    omega
  obtain ⟨c, hread, hfaults, hlast⟩ := hmiddle.toEnd_apart hsemicolon back middleLine endLine
    first.lastId [] hfuel
  have hothers : parse (middle ++ semicolon :: back) endLine first.lastId
      = ⟨second.program ++ third.program, second.faults ++ third.faults, third.lastId⟩ := by
    rw [parse, hread]
    dsimp only
    rw [hfaults, hlast, List.nil_append]
  rw [List.append_assoc, parse_front frontLine endLine lastId hfront hfollow, hothers,
    List.append_assoc]

/-- The second of three statements has an operator without an operand in front and is dropped, and
the other two are kept, with numbers that count the operand that was dropped. -/
theorem parse_apart_dropped : ∃ front middle back : List Token, ∃ semicolon : Token,
    (parse front 1 0).faults = [] ∧ Stretch middle ∧ semicolon.kind = .semicolon ∧
      (parse (middle ++ [semicolon]) 1 1).program = [] ∧
      parse (front ++ middle ++ semicolon :: back) 1 0
        = ⟨[.print ⟨.kwPrint, "print", 1⟩ (.use ⟨⟨.identifier, "a", 1⟩, 1⟩),
            .expression (.use ⟨⟨.identifier, "c", 1⟩, 3⟩)],
          [⟨1, .lexeme "+", .missingLeftOperand⟩], 3⟩ := by
  let semicolon : Token := ⟨.semicolon, ";", 1⟩
  let front : List Token := [⟨.kwPrint, "print", 1⟩, ⟨.identifier, "a", 1⟩, semicolon]
  let middle : List Token := [⟨.kwPrint, "print", 1⟩, ⟨.plus, "+", 1⟩, ⟨.identifier, "b", 1⟩]
  let back : List Token := [⟨.identifier, "c", 1⟩, semicolon]
  have hfront : parse front 1 0
      = ⟨[.print ⟨.kwPrint, "print", 1⟩ (.use ⟨⟨.identifier, "a", 1⟩, 1⟩)], [], 1⟩ := by
    cbv
  have hmiddle : parse (middle ++ [semicolon]) 1 1
      = ⟨[], [⟨1, .lexeme "+", .missingLeftOperand⟩], 2⟩ := by
    cbv
  have hback : parse back 1 2 = ⟨[.expression (.use ⟨⟨.identifier, "c", 1⟩, 3⟩)], [], 3⟩ := by
    cbv
  have hstretch : Stretch middle := ⟨by decide, by decide, avoids_cons (by decide)⟩
  have hapart := parse_apart back 1 1 1 0 (congrArg Parsed.faults hfront) hstretch
    (rfl : semicolon.kind = .semicolon)
  dsimp only at hapart
  rw [hfront, hmiddle, hback] at hapart
  exact ⟨front, middle, back, semicolon, congrArg Parsed.faults hfront, hstretch, rfl,
    congrArg Parsed.program hmiddle, hapart⟩

end Lox.Grammar
