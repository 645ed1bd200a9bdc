/-
Where reading goes on behind a statement without its semicolon.

If a keyword that begins a declaration comes instead of the semicolon, the statement is
abandoned, at the latest at that keyword.  Recovery skips the token at which this happens
without a look at it.  So all depends on where the fault is found: if it is found in front
of the keyword, reading goes on at the keyword and nothing behind the statement is lost;
if it is found only at the keyword, the keyword is skipped, and the declaration that it
begins is lost.
-/
import Lox.Proofs.Grammar.Keywords
import Lox.Proofs.Grammar.Relabelling

namespace Lox

/-- A fault that is found wherever the source ends is at a token. -/
theorem Fault.PointsAt.atToken {P : Token → Prop} {fault : Fault}
    (h : ∀ endLine, fault.PointsAt P endLine) :
    ∃ token, P token ∧ fault = .atToken token fault.cause := by
  have hat {token : Token} (hline : fault.line = token.line)
      (hplace : fault.place = .lexeme token.lexeme) : fault = .atToken token fault.cause := by
    obtain ⟨line, place, cause⟩ := fault
    exact (congrArg₂ (fun line place => Fault.mk line place cause) hline hplace)
  rcases h 0 with ⟨token, htoken, hline, hplace⟩ | ⟨hzero, -⟩
  · exact ⟨token, htoken, hat hline hplace⟩
  · rcases h 1 with ⟨token, htoken, hline, hplace⟩ | ⟨hone, -⟩
    · exact ⟨token, htoken, hat hline hplace⟩
    · exact absurd (hzero.symm.trans hone) (by decide)

namespace Grammar

open Reader

/-! ### Recovery at a keyword -/

section Recovery

variable {tokens : List Token} {keyword : Token}

theorem ne_semicolon_of_restarts (hkeyword : restarts keyword.kind = true) :
    keyword.kind ≠ .semicolon := by
  intro hkind
  rw [hkind] at hkeyword
  exact absurd hkeyword (by decide)

/-- If nothing looks like the end or the start of a statement before it, recovery stops at the
next keyword behind the first token. -/
theorem recover_to (behind : List Token) (hkeyword : restarts keyword.kind = true)
    (hsome : tokens ≠ []) (hplain : ∀ token ∈ tokens, token.kind ≠ .semicolon)
    (hquiet : ∀ token ∈ tokens, restarts token.kind = false) :
    recover (tokens ++ keyword :: behind) = keyword :: behind := by
  induction tokens with
  | nil => exact absurd rfl hsome
  | cons skipped rest ih =>
      rw [List.forall_mem_cons] at hplain hquiet
      cases rest with
      | nil => simp [recover, hkeyword]
      | cons next others =>
          have hrest := ih (List.cons_ne_nil next others) hplain.2 hquiet.2
          have hnext : restarts next.kind = false := hquiet.2 next List.mem_cons_self
          rw [List.cons_append, List.cons_append, recover, ← List.cons_append, hrest]
          simp [hplain.1, hnext]

/-- A keyword at which recovery begins is lost. -/
theorem restarting_recover_lt (behind : List Token) (hkeyword : restarts keyword.kind = true) :
    restarting (recover (keyword :: behind)) < restarting (keyword :: behind) := by
  have hskipped : recover (keyword :: behind) <:+ behind := by
    have hshort := recover_length (keyword :: behind)
    rcases List.suffix_cons_iff.mp (recover_suffix (keyword :: behind)) with heq | hsuffix
    · rw [heq] at hshort
      simp at hshort
    · exact hsuffix
  have hle : restarting (recover (keyword :: behind)) ≤ restarting behind :=
    hskipped.sublist.countP_le
  simp only [restarting_cons, hkeyword, if_true]
  omega

end Recovery

/-! ### A statement without its semicolon -/

/-- The tokens of one statement that is not ended: no semicolon, no brace and no keyword that
begins a statement, except that it may be `break`. -/
structure Unfinished (tokens : List Token) : Prop where
  nonempty : tokens ≠ []
  plain : ∀ token ∈ tokens, token.kind ∉ [.semicolon, .leftBrace, .rightBrace]
  quiet : ∀ token ∈ tokens, restarts token.kind = false
  head : Avoids [.kwElse] tokens

/-- The tokens from the one on at which the first declaration is abandoned, or from behind it on
if it is kept. -/
def abandonedAt (tokens : List Token) : List Token :=
  (keptDeclaration (fuelFor tokens) ⟨tokens, 0, 0, []⟩).2.rest

/-- How a statement that is not ended is abandoned: with the tokens from `left` on and the keyword
behind them left, and with these faults, all of them at its tokens or at the keyword. -/
structure Abandoned (middle : List Token) (keyword : Token) (left : List Token)
    (found : List Fault) : Prop where
  suffix : left <:+ middle
  rest : abandonedAt (middle ++ [keyword]) = left ++ [keyword]
  nonempty : found ≠ []
  located : ∀ fault ∈ found, ∃ token ∈ middle ++ [keyword], fault = .atToken token fault.cause

/-! ### Reading it -/

/-- What reads a statement of which the first token begins no declaration and no other
statement. -/
def plainStatement (fuel : Nat) : Reader Stmt := do
  match ← accept [.kwBreak] with
  | none => expressionStatement fuel
  | some keyword => do
      let _ ← expect .semicolon "';' after 'break'"
      pure (.breakLoop keyword)

theorem keptDeclaration_eq_plain {c : Cursor}
    (h : Avoids [.kwClass, .kwFun, .kwVar, .kwFor, .kwIf, .kwPrint, .kwReturn, .kwWhile,
      .leftBrace] c.rest) (fuel : Nat) : keptDeclaration (fuel + 1) c = plainStatement fuel c := by
  have hdeclaration : accept [.kwClass, .kwFun, .kwVar] c = (some none, c) :=
    accept_of_not (h.subset (by decide))
  rw [keptDeclaration, bind_of_some hdeclaration]
  dsimp only
  rw [statement_succ, plainStatement]
  rcases accept_cases [.kwBreak] c with ⟨hnone, hnot⟩ | ⟨keyword, rest, hrest, hmem, hsome⟩
  · have hother : accept [.kwBreak, .kwFor, .kwIf, .kwPrint, .kwReturn, .kwWhile, .leftBrace] c
        = (some none, c) := by
      refine accept_of_not fun token htoken hmem => ?_
      rcases List.mem_cons.mp hmem with hbreak | hmem
      · exact hnot token htoken (by simp [hbreak])
      · have hkinds : ∀ kind ∈ [TokenKind.kwFor, .kwIf, .kwPrint, .kwReturn, .kwWhile, .leftBrace],
            kind ∈ [TokenKind.kwClass, .kwFun, .kwVar, .kwFor, .kwIf, .kwPrint, .kwReturn,
              .kwWhile, .leftBrace] := by decide
        exact h token htoken (hkinds _ hmem)
    rw [bind_of_some hnone, bind_of_some hother]
  · have hkind : keyword.kind = .kwBreak := List.mem_singleton.mp hmem
    have hbreak := accept_cons [.kwBreak, .kwFor, .kwIf, .kwPrint, .kwReturn, .kwWhile, .leftBrace]
      c hrest (by simp [hkind])
    rw [bind_of_some hsome, bind_of_some hbreak]
    simp only [statementAt, hkind]

/-- Without a semicolon nothing is kept. -/
theorem plainStatement_built {P : Token → Prop} (hP : ∀ token, P token → token.kind ≠ .semicolon)
    (fuel : Nat) : Built (fun kind => restarts kind = false) P (fun _ => False)
      (plainStatement fuel) := by
  have hending {s : Stmt} (what : String) : Built (fun kind => restarts kind = false) P
      (fun _ => False) (expect .semicolon what >>= fun _ => pure s) := by
    have hexpect : Built (fun kind => restarts kind = false) P
        (fun token => P token ∧ token.kind = .semicolon) (expect .semicolon what) :=
      .expect (by decide) what
    exact hexpect.bind fun token htoken => absurd htoken.2 (hP token htoken.1)
  refine (Built.accept (by decide)).andThen fun keyword? => ?_
  cases keyword? with
  | none =>
      exact (anyExpression_built (fun token _ => Derives.allows_any [token]) (by decide)
        fuel).andThen fun _ => hending _
  | some keyword => exact hending _

theorem plainStatement_shifts {n : Nat} {l : Nat → Nat} (fuel : Nat) :
    Shifts n l (Stmt.relabel (· + n) l) (plainStatement fuel) (plainStatement fuel) := by
  apply (Shifts.accept _).bind
  rintro (_ | keyword)
  · exact expressionStatement_shifts fuel
  · exact (Shifts.expect _ _).bind fun _ => .pure rfl

/-- Where a declaration is read, a larger counter makes no difference. -/
theorem keptDeclaration_of_le {fuel more : Nat} {c : Cursor} (h : 24 * c.rest.length + 15 ≤ fuel)
    (hle : fuel ≤ more) : keptDeclaration more c = keptDeclaration fuel c := by
  induction hle with
  | refl => rfl
  | @step more hle ih =>
      have hle : fuel ≤ more := hle
      rw [keptDeclaration_steady _ c (by omega)]
      exact ih

/-! ### How it is abandoned -/

namespace Unfinished

variable {middle : List Token} {keyword : Token}

theorem avoids (h : Unfinished middle) (behind : List Token) :
    Avoids [.kwClass, .kwFun, .kwVar, .kwFor, .kwIf, .kwPrint, .kwReturn, .kwWhile, .leftBrace]
      (middle ++ behind) := by
  obtain ⟨token, rest, rfl⟩ := List.exists_cons_of_ne_nil h.nonempty
  have hquiet := h.quiet token List.mem_cons_self
  have hplain := h.plain token List.mem_cons_self
  refine avoids_cons fun hmem => ?_
  generalize token.kind = kind at hquiet hplain hmem
  cases kind <;> first | exact absurd hquiet (by decide) | exact absurd (by decide) hplain |
    exact absurd hmem (by decide)

/-- No token up to the keyword ends the statement. -/
theorem not_semicolon (h : Unfinished middle) (hkeyword : restarts keyword.kind = true) :
    ∀ token ∈ middle ++ [keyword], token.kind ≠ .semicolon := by
  rw [List.forall_mem_append, List.forall_mem_singleton]
  exact ⟨fun token htoken hkind => h.plain token htoken (by rw [hkind]; decide),
    ne_semicolon_of_restarts hkeyword⟩

/-- Nothing is kept of it, and its faults are at its tokens or at the keyword, if the keyword is the
last token. -/
theorem comesTo (h : Unfinished middle) (hkeyword : restarts keyword.kind = true) {fuel : Nat}
    (hfuel : 0 < fuel) {c : Cursor} (hc : c.rest = middle ++ [keyword]) :
    ComesTo (· ∈ middle ++ [keyword]) (fun _ => False) c (keptDeclaration fuel c) := by
  obtain ⟨fuel, rfl⟩ := Nat.exists_eq_succ_of_ne_zero (Nat.ne_of_gt hfuel)
  have hbuilt := plainStatement_built (h.not_semicolon hkeyword) fuel
  rw [keptDeclaration_eq_plain (hc ▸ h.avoids _)]
  exact hbuilt.comesTo fun token htoken => hc ▸ htoken

/-- With a counter that is not used up it is abandoned and the keyword left, in the same way
wherever these tokens stand. -/
theorem keptDeclaration_eq (h : Unfinished middle) (hkeyword : restarts keyword.kind = true)
    {fuel : Nat} (hfuel : 0 < fuel) (lastId : Nat) :
    ∃ left found id, left <:+ middle ∧ ∀ before back endLine,
      keptDeclaration fuel ⟨middle ++ keyword :: back, endLine, lastId, before⟩
        = (none, ⟨left ++ keyword :: back, endLine, id, before ++ found⟩) := by
  obtain ⟨fuel, rfl⟩ := Nat.exists_eq_succ_of_ne_zero (Nat.ne_of_gt hfuel)
  let c : Cursor := ⟨middle ++ [keyword], 0, lastId, []⟩
  have hbuilt := plainStatement_built (h.not_semicolon hkeyword) fuel
  have hlast : ¬restarts keyword.kind = false := by simp [hkeyword]
  have hkept := (hbuilt.comesTo (c := c) fun token htoken => htoken).kept
  obtain ⟨left, hleft, hsuffix⟩ := hbuilt.stops (c := c) (fun token htoken => htoken) rfl hlast
  have hinside (before : List Fault) (back : List Token) (endLine : Nat) :
      plainStatement fuel (c.inside before back endLine)
        = ((plainStatement fuel c).1, (plainStatement fuel c).2.inside before back endLine) :=
    (hbuilt.inside (fun token htoken => htoken) (.stop rfl hlast)).1
  generalize plainStatement fuel c = outcome at hkept hleft hinside
  rcases outcome with ⟨_ | s, c'⟩
  · refine ⟨left, c'.faults, c'.lastId, hsuffix, fun before back endLine => ?_⟩
    have hcursor : c.inside before back endLine
        = ⟨middle ++ keyword :: back, endLine, lastId, before⟩ := by
      simp [Cursor.inside, c]
    have hrest : c'.rest ++ back = left ++ keyword :: back := by
      rw [show c'.rest = left ++ [keyword] from hleft, List.append_assoc, List.singleton_append]
    rw [keptDeclaration_eq_plain (h.avoids _), ← hcursor, hinside, Cursor.inside, hrest]
  · exact (hkept s rfl).elim

/-- Where it is abandoned does not depend on the numbers. -/
theorem abandonedAt_eq (h : Unfinished middle) (keyword : Token) (lastId : Nat) :
    (keptDeclaration (fuelFor (middle ++ [keyword])) ⟨middle ++ [keyword], 0, lastId, []⟩).2.rest
      = abandonedAt (middle ++ [keyword]) := by
  have hshift := plainStatement_shifts (n := lastId) (l := id)
    (24 * (middle ++ [keyword]).length + 47) ⟨middle ++ [keyword], 0, 0, []⟩
  have hcursor : Cursor.shift lastId id ⟨middle ++ [keyword], 0, 0, []⟩
      = ⟨middle ++ [keyword], 0, lastId, []⟩ := by
    simp [Cursor.shift]
  have hfuel : fuelFor (middle ++ [keyword]) = 24 * (middle ++ [keyword]).length + 47 + 1 := by
    rw [fuelFor]
    omega
  rw [abandonedAt, hfuel, keptDeclaration_eq_plain (h.avoids _),
    keptDeclaration_eq_plain (h.avoids _), ← hcursor, hshift]
  exact Token.map_reline_by_id _

/-- **It is abandoned with a fault** and with the keyword left, in the same way wherever its tokens
stand. -/
theorem abandoned (h : Unfinished middle) (hkeyword : restarts keyword.kind = true)
    (lastId : Nat) : ∃ left found id, Abandoned middle keyword left found ∧
      ∀ fuel before back endLine, 24 * (middle ++ [keyword]).length + 15 ≤ fuel →
        keptDeclaration fuel ⟨middle ++ keyword :: back, endLine, lastId, before⟩
          = (none, ⟨left ++ keyword :: back, endLine, id, before ++ found⟩) := by
  have hlarge : 24 * (middle ++ [keyword]).length + 15 < fuelFor (middle ++ [keyword]) := by
    rw [fuelFor]
    omega
  obtain ⟨left, found, id, hsuffix, hread⟩ :=
    h.keptDeclaration_eq hkeyword (Nat.zero_lt_of_lt hlarge) lastId
  have halone (line : Nat) := hread [] [] line
  refine ⟨left, found, id, ⟨hsuffix, ?_, ?_, fun fault hfault => ?_⟩, ?_⟩
  · rw [← h.abandonedAt_eq keyword lastId, halone]
  · have hblamed := (keptDeclaration_orderly (fuelFor (middle ++ [keyword]) + 1)
      ⟨middle ++ [keyword], 0, lastId, []⟩ (Nat.succ_le_succ (Nat.le_of_lt hlarge))).blamed
    rw [Nat.add_sub_cancel, halone] at hblamed
    rintro rfl
    exact absurd (hblamed rfl) (Nat.lt_irrefl _)
  · -- The source may end on any line, so no fault is at its end.
    refine Fault.PointsAt.atToken fun endLine => ?_
    have hcomes := h.comesTo hkeyword (Nat.zero_lt_of_lt hlarge)
      (c := ⟨middle ++ [keyword], endLine, lastId, []⟩) rfl
    obtain ⟨found', hfaults, hpoints⟩ := hcomes.faults
    rw [halone] at hfaults
    exact hpoints fault (List.append_cancel_left hfaults ▸ hfault)
  · intro fuel before back endLine hfuel
    have hpos : 0 < fuel := Nat.zero_lt_of_lt hfuel
    obtain ⟨left', found', id', -, hread'⟩ := h.keptDeclaration_eq hkeyword hpos lastId
    have hleast (more : Nat) (hmore : 24 * (middle ++ [keyword]).length + 15 ≤ more) :
        keptDeclaration more ⟨middle ++ [keyword], 0, lastId, []⟩ = keptDeclaration
          (24 * (middle ++ [keyword]).length + 15) ⟨middle ++ [keyword], 0, lastId, []⟩ :=
      keptDeclaration_of_le (Nat.le_refl _) hmore
    have hsame := (hleast fuel hfuel).trans (hleast _ (Nat.le_of_lt hlarge)).symm
    rw [halone, hread' [] []] at hsame
    obtain ⟨hleft, rfl, rfl⟩ := by simpa using hsame
    rw [hread', hleft]

end Unfinished

/-! ### Reading on -/

/-- Whether tokens are read without a fault does not depend on where the source ends or on the
number from which on it is counted. -/
theorem parse_faults_eq_nil {tokens : List Token} {endLine lastId : Nat}
    (h : (parse tokens endLine lastId).faults = []) (endLine' lastId' : Nat) :
    (parse tokens endLine' lastId').faults = [] := by
  have hzero : (parse tokens endLine 0).faults = [] := by
    have hshift := parse_shift tokens endLine 0 lastId id
    rw [Token.map_reline_by_id, id_eq, Nat.zero_add, Fault.map_reline_by_id] at hshift
    rw [← congrArg Parsed.faults hshift, h]
  have hends : (parse tokens endLine' 0).faults = [] := by
    rw [(parse_sound hzero).parse_eq endLine']
  have hshift := parse_shift tokens endLine' 0 lastId' id
  rw [Token.map_reline_by_id, id_eq, Nat.zero_add, Fault.map_reline_by_id] at hshift
  rw [hshift, hends]

namespace Unfinished

variable {middle back : List Token} {keyword : Token}

theorem avoids_else (h : Unfinished middle) (behind : List Token) :
    Avoids [.kwElse] (middle ++ behind) := by
  obtain ⟨token, rest, rfl⟩ := List.exists_cons_of_ne_nil h.nonempty
  exact avoids_cons (h.head token rfl)

/-- Behind it reading goes on where recovery stops. -/
theorem parse_eq (h : Unfinished middle) (hkeyword : restarts keyword.kind = true)
    (back : List Token) (endLine lastId : Nat) :
    ∃ left found id, Abandoned middle keyword left found ∧
      let others := parse (recover (left ++ keyword :: back)) endLine id
      parse (middle ++ keyword :: back) endLine lastId
        = ⟨others.program, found ++ others.faults, others.lastId⟩ := by
  obtain ⟨left, found, id, hleft, hread⟩ := h.abandoned hkeyword lastId
  refine ⟨left, found, id, hleft, ?_⟩
  intro others
  obtain ⟨token, rest, hhead⟩ := List.exists_cons_of_ne_nil h.nonempty
  obtain ⟨fuel, hfuel⟩ : ∃ fuel, fuelFor (middle ++ keyword :: back) = fuel + 1 :=
    Nat.exists_eq_succ_of_ne_zero (by rw [fuelFor]; omega)
  have hlength : 24 * (middle.length + back.length + 1) + 47 = fuel := by
    simp only [fuelFor, List.length_append, List.length_cons] at hfuel
    omega
  have hfirst : declaration fuel ⟨middle ++ keyword :: back, endLine, lastId, []⟩
      = (some none, ⟨recover (left ++ keyword :: back), endLine, id, found⟩) := by
    have hlarge : 24 * (middle ++ [keyword]).length + 15 ≤ fuel - 1 := by
      rw [List.length_append, List.length_singleton]
      omega
    rw [declaration_eq (by omega), recovering, hread (fuel - 1) [] back endLine hlarge]
    rfl
  have hless : 24 * (recover (left ++ keyword :: back)).length + 17 ≤ fuel := by
    have hshort := recover_length (left ++ keyword :: back)
    have hpart := hleft.suffix.length_le
    rw [List.length_append, List.length_cons] at hshort
    omega
  obtain ⟨c, hothers, hfaults, hlast⟩ := toEnd_eq_parse endLine id found hless
  rw [parse, hfuel, toEnd_of_declaration (by rw [hhead]; rfl) hfirst, hothers]
  dsimp only
  rw [hfaults, hlast]
  rfl

/-- Recovery stops at the keyword if the statement was abandoned in front of it. -/
theorem recover_eq (h : Unfinished middle) (hkeyword : restarts keyword.kind = true)
    {left : List Token} (hleft : left <:+ middle) (hsome : left ≠ []) :
    recover (left ++ keyword :: back) = keyword :: back := by
  refine recover_to back hkeyword hsome (fun token htoken hkind => ?_)
    fun token htoken => h.quiet token (hleft.subset htoken)
  exact h.plain token (hleft.subset htoken) (by rw [hkind]; decide)

/-- The program behind it is kept as a whole only if it is read from its keyword on: without that
keyword it is another program. -/
theorem kept_iff (h : Unfinished middle) (hkeyword : restarts keyword.kind = true)
    {left : List Token} (hleft : left <:+ middle) {backLine backId : Nat}
    (hback : (parse (keyword :: back) backLine backId).faults = []) (endLine id : Nat) :
    let others := parse (recover (left ++ keyword :: back)) endLine id
    (others.faults = [] ∧ ∃ n, others.program = (parse (keyword :: back) endLine n).program) ↔
      left ≠ [] := by
  intro others
  constructor
  · rintro ⟨hnil, n, hprogram⟩ rfl
    have hfewer := restarting_recover_lt back hkeyword
    have hothers : restarting (recover (keyword :: back)) = Stmt.keywordedAll others.program :=
      (parse_sound hnil).restarting
    have hall := (parse_sound (parse_faults_eq_nil hback endLine n)).restarting
    rw [hothers, hall, hprogram] at hfewer
    exact absurd hfewer (Nat.lt_irrefl _)
  · intro hsome
    have heq : others = parse (keyword :: back) endLine id := by
      simp only [others, h.recover_eq hkeyword hleft hsome]
    rw [heq]
    exact ⟨parse_faults_eq_nil hback endLine id, id, rfl⟩

end Unfinished

/-! ### Where only the semicolon is missing -/

section Ended

variable {before behind middle : List Token} {keyword semicolon : Token}

/-- The only semicolon of a row that ends in one is the last token. -/
theorem eq_of_only_semicolon (hplain : ∀ token ∈ middle, token.kind ≠ .semicolon)
    (hkind : keyword.kind = .semicolon)
    (h : before ++ keyword :: behind = middle ++ [semicolon]) : before = middle := by
  rcases List.append_eq_append_iff.mp h with ⟨rest, hmiddle, hrest⟩ | ⟨rest, hbefore, hrest⟩
  · cases rest with
    | nil => rw [hmiddle, List.append_nil]
    | cons token others =>
        obtain rfl : keyword = token := (List.cons.inj hrest).1
        exact absurd hkind (hplain keyword (by simp [hmiddle]))
  · cases rest with
    | nil => rw [hbefore, List.append_nil]
    | cons token others => simp at hrest

/-- With its semicolon it is an expression or `break`. -/
theorem Unfinished.cases_of_ended (h : Unfinished middle) {first last : Nat}
    {program : List Stmt} (hended : Derives.Declarations first (middle ++ [semicolon]) last program) :
    (∃ keyword, keyword.kind = .kwBreak ∧ middle = [keyword]) ∨
      ∃ last e, Derives.Expression .comma first middle last e := by
  have hhead := h.avoids [semicolon]
  have hplain : ∀ token ∈ middle, token.kind ≠ .semicolon := fun token htoken hkind =>
    h.plain token htoken (by rw [hkind]; decide)
  generalize hrow : middle ++ [semicolon] = row at hended hhead
  cases hended with
  | none => exact absurd hrow (by simp)
  | more declaration _ =>
      cases declaration with
      | statement statement =>
          cases statement with
          | expression isSemicolon value =>
              rw [List.append_assoc, List.singleton_append] at hrow
              exact .inr ⟨_, _, eq_of_only_semicolon hplain isSemicolon hrow.symm ▸ value⟩
          | @breakLoop keyword semicolon' _ isBreak isSemicolon =>
              have hmiddle : [keyword] = middle :=
                eq_of_only_semicolon hplain isSemicolon hrow.symm
              exact .inl ⟨keyword, isBreak, hmiddle.symm⟩
          | print hkind | returnWith hkind | block hkind | whileLoop hkind | forLoop hkind
          | ifOnly hkind | ifElse hkind =>
              exact absurd (by simp [hkind]) (hhead _ rfl)
      | var declared =>
          cases declared with
          | plain hkind | initialized hkind => exact absurd (by simp [hkind]) (hhead _ rfl)
      | function hkind | classDecl hkind => exact absurd (by simp [hkind]) (hhead _ rfl)

/-- A keyword where the semicolon should be is left. -/
theorem expect_semicolon_rest (hkeyword : restarts keyword.kind = true) (what : String) (s : Stmt)
    (endLine lastId : Nat) (faults : List Fault) :
    ((expect .semicolon what >>= fun _ => (pure s : Reader Stmt))
      ⟨[keyword], endLine, lastId, faults⟩).2.rest = [keyword] := by
  have hother : ∀ token ∈ [keyword].head?, token.kind ≠ .semicolon := by
    rintro _ ⟨⟩
    exact ne_semicolon_of_restarts hkeyword
  rw [bind_of_none (expect_of_not what hother)]
  rfl

/-- **If nothing but the semicolon is missing, the fault is found only at the keyword.** -/
theorem Unfinished.abandonedAt_of_ended (h : Unfinished middle)
    (hkeyword : restarts keyword.kind = true) {endLine lastId : Nat}
    (hended : (parse (middle ++ [semicolon]) endLine lastId).faults = []) :
    abandonedAt (middle ++ [keyword]) = [keyword] := by
  have hderives := parse_sound (parse_faults_eq_nil hended 0 0)
  have hfuel : fuelFor (middle ++ [keyword]) = 24 * (middle ++ [keyword]).length + 47 + 1 := by
    rw [fuelFor]
    omega
  rw [abandonedAt, hfuel, keptDeclaration_eq_plain (h.avoids _), plainStatement]
  rcases h.cases_of_ended hderives with ⟨first, hbreak, rfl⟩ | ⟨last, e, value⟩
  · have haccept := accept_cons [.kwBreak] ⟨[first] ++ [keyword], 0, 0, []⟩ rfl (by simp [hbreak])
    rw [bind_of_some haccept]
    exact expect_semicolon_rest hkeyword _ _ _ _ _
  · have hnot : accept [.kwBreak] ⟨middle ++ [keyword], 0, 0, []⟩
        = (some none, ⟨middle ++ [keyword], 0, 0, []⟩) :=
      accept_of_not (value.avoids (by decide) _)
    have hfollow : Avoids Level.comma.continues [keyword] := by
      have hkinds : ∀ kind ∈ Level.comma.continues, restarts kind = false := by decide
      exact avoids_cons fun hmem => by simp [hkinds _ hmem] at hkeyword
    have hread := value.reads.whole [keyword] 0 [] (24 * (middle ++ [keyword]).length + 47)
      hfollow (by simp only [Level.depth]; omega)
    rw [bind_of_some hnot]
    dsimp only
    rw [expressionStatement, anyExpression, bind_of_some hread]
    exact expect_semicolon_rest hkeyword _ _ _ _ _

end Ended

/-- **Behind a statement without its semicolon all is kept, or the next declaration is lost.**
Between a program that is read without a fault and another one, which begins with a keyword,
stand the tokens of one statement, with no semicolon.  It is abandoned with a fault, and reading
goes on where recovery stops.  The second program is kept, with no fault of its own, exactly if
the statement is abandoned in front of its keyword; so it is not, if only the semicolon is
missing. -/
theorem parse_unfinished {front middle back : List Token} {keyword : Token}
    (frontLine backLine endLine lastId backId : Nat)
    (hfront : (parse front frontLine lastId).faults = []) (hmiddle : Unfinished middle)
    (hkeyword : restarts keyword.kind = true)
    (hback : (parse (keyword :: back) backLine backId).faults = []) :
    let first := parse front frontLine lastId
    let whole := parse (front ++ middle ++ keyword :: back) endLine lastId
    ∃ left found id, Abandoned middle keyword left found ∧
      (let others := parse (recover (left ++ keyword :: back)) endLine id
       whole = ⟨first.program ++ others.program, found ++ others.faults, others.lastId⟩) ∧
      ((whole.faults = found ∧ ∃ n, whole.program
          = first.program ++ (parse (keyword :: back) endLine n).program) ↔ left ≠ []) ∧
      ∀ semicolon, (parse (middle ++ [semicolon]) endLine lastId).faults = [] → left = [] := by
  intro first whole
  obtain ⟨left, found, id, hleft, hread⟩ :=
    hmiddle.parse_eq hkeyword back endLine first.lastId
  have hwhole : whole
      = ⟨first.program ++ (parse (recover (left ++ keyword :: back)) endLine id).program,
          found ++ (parse (recover (left ++ keyword :: back)) endLine id).faults,
          (parse (recover (left ++ keyword :: back)) endLine id).lastId⟩ := by
    have hfollow := hmiddle.avoids_else (keyword :: back)
    have hbehind := parse_front frontLine endLine lastId hfront hfollow
    dsimp only at hbehind hread
    rw [← List.append_assoc, hread] at hbehind
    exact hbehind
  have hkept := hmiddle.kept_iff hkeyword hleft.suffix hback endLine id
  refine ⟨left, found, id, hleft, hwhole, ?_, fun semicolon hended => ?_⟩
  · rw [hwhole]
    simpa using hkept
  · have hrest := hmiddle.abandonedAt_of_ended hkeyword hended
    rw [hleft.rest] at hrest
    simpa using hrest

/-- The fault is found at the second name in a row, in front of the keyword, and what is behind
the statement is kept. -/
theorem parse_unfinished_kept : ∃ front middle back : List Token, ∃ keyword : Token,
    (parse front 1 0).faults = [] ∧ Unfinished middle ∧ restarts keyword.kind = true ∧
      (parse (keyword :: back) 1 0).faults = [] ∧
      (parse (front ++ middle ++ keyword :: back) 1 0).faults ≠ [] ∧
      ∃ n, (parse (front ++ middle ++ keyword :: back) 1 0).program
        = (parse front 1 0).program ++ (parse (keyword :: back) 1 n).program := by
  let middle : List Token := [⟨.identifier, "x", 1⟩, ⟨.identifier, "y", 1⟩]
  let keyword : Token := ⟨.kwPrint, "print", 1⟩
  let back : List Token := [⟨.kwTrue, "true", 1⟩, ⟨.semicolon, ";", 1⟩]
  have hback : (parse (keyword :: back) 1 0).faults = [] := by cbv
  have hmiddle : Unfinished middle := ⟨by decide, by decide, by decide, avoids_cons (by decide)⟩
  have hfront : (parse [] 1 0).faults = [] := rfl
  have hat : abandonedAt (middle ++ [keyword]) ≠ [keyword] := by decide +kernel
  obtain ⟨left, found, id, hleft, -, hkept, -⟩ :=
    parse_unfinished 1 1 1 0 0 hfront hmiddle (rfl : restarts keyword.kind = true) hback
  have hinside : left ≠ [] := by
    rintro rfl
    exact hat hleft.rest
  obtain ⟨hfaults, hprogram⟩ := hkept.mpr hinside
  exact ⟨[], middle, back, keyword, hfront, hmiddle, rfl, hback, hfaults ▸ hleft.nonempty,
    hprogram⟩

/-- What follows a statement without its semicolon is not always kept: where only the semicolon
is missing, the statement behind it is lost. -/
theorem following_statement_lost : ¬∀ (front middle back : List Token) (keyword : Token)
    (endLine lastId : Nat), (parse front endLine lastId).faults = [] → Unfinished middle →
      restarts keyword.kind = true → (parse (keyword :: back) endLine lastId).faults = [] →
      ∃ n, (parse (front ++ middle ++ keyword :: back) endLine lastId).program
        = (parse front endLine lastId).program ++ (parse (keyword :: back) endLine n).program := by
  intro hkept
  let middle : List Token := [⟨.identifier, "x", 1⟩]
  let keyword : Token := ⟨.kwPrint, "print", 1⟩
  let back : List Token := [⟨.kwTrue, "true", 1⟩, ⟨.semicolon, ";", 1⟩]
  have hback : (parse (keyword :: back) 1 0).faults = [] := by cbv
  have hmiddle : Unfinished middle := ⟨by decide, by decide, by decide, avoids_cons (by decide)⟩
  obtain ⟨n, hprogram⟩ := hkept [] middle back keyword 1 0 rfl hmiddle rfl hback
  have hlost : (parse ([] ++ middle ++ keyword :: back) 1 0).program = [] := by cbv
  have hnothing : (parse (keyword :: back) 1 n).program = [] :=
    (List.append_eq_nil_iff.mp (hprogram.symm.trans hlost)).2
  have hcount := (parse_sound (parse_faults_eq_nil hback 1 n)).restarting
  rw [hnothing] at hcount
  exact absurd hcount (by decide)

end Grammar

end Lox
