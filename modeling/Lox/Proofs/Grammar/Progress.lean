/-
Reading only moves forward.

A reader drops tokens from the front and adds faults at the back, and whoever abandons
what it reads has recorded a fault.  Both together are `Orderly`, and every reader of
the grammar is orderly as long as its counter is large enough.

How large that is: a reader calls a dozen others, each for a tighter level, before one
of them takes a token, and `depth` says how many for an expression of a level.  One
token more pays for two dozen calls more, so a counter of twenty-four times the tokens
left, and the depth on top, never runs out.
-/
import Lox.Proofs.Grammar.Steps

namespace Lox.Grammar

/-! ### What reading does to a cursor -/

/-- From the first cursor one can get to the second by reading. -/
structure Cursor.Reaches (c c' : Cursor) : Prop where
  rest : c'.rest <:+ c.rest
  faults : c.faults <+: c'.faults
  lastId : c.lastId ≤ c'.lastId
  endLine : c'.endLine = c.endLine

namespace Cursor.Reaches

variable {c c₁ c₂ : Cursor}

theorem refl (c : Cursor) : c.Reaches c :=
  ⟨List.suffix_refl _, List.prefix_refl _, Nat.le_refl _, rfl⟩

theorem trans (h₁ : c.Reaches c₁) (h₂ : c₁.Reaches c₂) : c.Reaches c₂ :=
  ⟨h₂.rest.trans h₁.rest, h₁.faults.trans h₂.faults, Nat.le_trans h₁.lastId h₂.lastId,
    h₂.endLine.trans h₁.endLine⟩

theorem rest_length_le (h : c.Reaches c₁) : c₁.rest.length ≤ c.rest.length :=
  h.rest.length_le

theorem faults_length_le (h : c.Reaches c₁) : c.faults.length ≤ c₁.faults.length :=
  h.faults.length_le

/-- Taking tokens is reading. -/
theorem of_rest {tokens : List Token} (h : tokens <:+ c.rest) :
    c.Reaches { c with rest := tokens } :=
  ⟨h, List.prefix_refl _, Nat.le_refl _, rfl⟩

/-- So is recording a fault. -/
theorem of_fault (fault : Fault) : c.Reaches { c with faults := c.faults ++ [fault] } :=
  ⟨List.suffix_refl _, List.prefix_append _ _, Nat.le_refl _, rfl⟩

end Cursor.Reaches

/-! ### Orderly readers -/

namespace Reader

variable {α β : Type}

/-- Started at a cursor, a reader moves forward, takes at least so many tokens if it keeps
what it read, and records a fault if it does not. -/
structure Orderly (p : Reader α) (least : Nat) (c : Cursor) : Prop where
  reaches : c.Reaches (p c).2
  taken : (p c).1 ≠ none → (p c).2.rest.length + least ≤ c.rest.length
  blamed : (p c).1 = none → c.faults.length < (p c).2.faults.length

namespace Orderly

variable {p : Reader α} {f : α → Reader β} {c c' : Cursor} {k m n : Nat}

theorem pure (a : α) : Orderly (Pure.pure a) 0 c :=
  ⟨.refl c, fun _ => Nat.le_refl _, fun h => by simp [pure_apply] at h⟩

theorem weaken (h : Orderly p m c) (hmn : n ≤ m) : Orderly p n c :=
  ⟨h.reaches, fun hs => by have := h.taken hs; omega, h.blamed⟩

/-- A reader that goes on as an orderly one does from a later cursor. -/
theorem of_eq {q : Reader α} (heq : p c = q c') (hreach : c.Reaches c')
    (hk : c'.rest.length + k ≤ c.rest.length + n) (hq : Orderly q n c') : Orderly p k c := by
  have hgrow := hreach.faults_length_le
  refine ⟨by rw [heq]; exact hreach.trans hq.reaches, ?_, ?_⟩
  · rw [heq]
    intro hs
    have := hq.taken hs
    omega
  · rw [heq]
    intro hs
    have := hq.blamed hs
    omega

/-- One orderly reader behind another. -/
theorem bind (hp : Orderly p m c) (hk : k ≤ m + n)
    (hf : ∀ a c', p c = (some a, c') → c'.rest.length + m ≤ c.rest.length →
      Orderly (f a) n c') : Orderly (p >>= f) k c := by
  obtain ⟨result, c', h⟩ : ∃ result c', p c = (result, c') := ⟨_, _, rfl⟩
  have hreach : c.Reaches c' := by simpa [h] using hp.reaches
  cases result with
  | none =>
      have hblamed : c.faults.length < c'.faults.length := by simpa [h] using hp.blamed
      have heq := bind_of_none (f := f) h
      exact ⟨by simpa [heq] using hreach, by simp [heq], by simpa [heq] using hblamed⟩
  | some a =>
      have htaken : c'.rest.length + m ≤ c.rest.length := by simpa [h] using hp.taken
      exact of_eq (bind_of_some h) hreach (by omega) (hf a c' h htaken)

theorem map {g : α → β} (hp : Orderly p k c) : Orderly (g <$> p) k c :=
  hp.bind (Nat.le_refl _) fun _ _ _ _ => pure _

theorem length_of_some {a : α} (hp : Orderly p k c) (h : p c = (some a, c')) :
    c'.rest.length + k ≤ c.rest.length := by
  simpa [h] using hp.taken

end Orderly

/-! ### The steps everything is read by

Each step has a rule for what is read behind it, since the tokens it saw decide that.
-/

variable {f : Token → Reader β} {c : Cursor} {k : Nat}

theorem orderly_accept_bind {kinds : List TokenKind} {f : Option Token → Reader β}
    (hnone : Orderly (f none) k c)
    (hsome : ∀ token rest, c.rest = token :: rest → token.kind ∈ kinds →
      Orderly (f (some token)) (k - 1) { c with rest := rest }) :
    Orderly (accept kinds >>= f) k c := by
  rcases accept_cases kinds c with ⟨h, -⟩ | ⟨token, rest, hrest, hmem, h⟩
  · exact .of_eq (bind_of_some h) (.refl c) (Nat.le_refl _) hnone
  · have hsuffix : rest <:+ c.rest := by rw [hrest]; exact List.suffix_cons token rest
    have hlength : c.rest.length = rest.length + 1 := by rw [hrest]; rfl
    exact .of_eq (bind_of_some h) (.of_rest hsuffix) (by simp only []; omega)
      (hsome token rest hrest hmem)

theorem orderly_nextKind_bind {f : Option TokenKind → Reader β}
    (h : Orderly (f (c.rest.head?.map Token.kind)) k c) : Orderly (nextKind >>= f) k c :=
  .of_eq (bind_of_some rfl) (.refl c) (Nat.le_refl _) h

theorem orderly_freshId_bind {f : Nat → Reader β}
    (h : ∀ c : Cursor, Orderly (f c.lastId) k c) : Orderly (freshId >>= f) k c :=
  .of_eq (bind_of_some rfl)
    ⟨List.suffix_refl _, List.prefix_refl _, Nat.le_succ _, rfl⟩ (Nat.le_refl _)
    (h { c with lastId := c.lastId + 1 })

theorem orderly_faultAt {token : Token} {cause : Fault.Cause} :
    Orderly (faultAt token cause) 0 c :=
  ⟨.of_fault _, fun _ => Nat.le_refl _, fun h => by simp [faultAt] at h⟩

theorem orderly_faultHere {cause : Fault.Cause} : Orderly (faultHere cause) 0 c :=
  ⟨.of_fault _, fun _ => Nat.le_refl _, fun h => by simp [faultHere] at h⟩

/-- Whoever says what is wrong may abandon what is being read. -/
theorem orderly_faultHere_abandon {cause : Fault.Cause} :
    Orderly (faultHere cause >>= fun _ => (abandon : Reader β)) k c := by
  refine ⟨.of_fault _, fun h => absurd rfl h, fun _ => ?_⟩
  simp [bind_apply, faultHere, abandon]

theorem orderly_expect {kind : TokenKind} {what : String} :
    Orderly (expect kind what) 1 c :=
  orderly_accept_bind orderly_faultHere_abandon fun token _ _ _ => .pure token

/-- What is expected is there, and is taken, or nothing behind it is read. -/
theorem orderly_expect_bind {kind : TokenKind} {what : String} (hk : k ≤ 1 + n)
    (h : ∀ token c', c'.rest.length + 1 ≤ c.rest.length → Orderly (f token) n c') :
    Orderly (expect kind what >>= f) k c :=
  orderly_expect.bind hk fun token c' _ hlength => h token c' hlength

end Reader

/-! ### Expressions -/

namespace Level

/-- How many readers call each other, the one for the level first, before a token is
taken. -/
def depth : Level → Nat
  | comma => 14
  | assignment => 13
  | conditional => 12
  | or => 11
  | and => 10
  | equality => 9
  | comparison => 8
  | term => 7
  | factor => 6
  | unary => 5
  | call => 4
  | primary => 3

theorem depth_le (level : Level) : level.depth ≤ 14 := by
  cases level <;> decide

theorem depth_tighter {level : Level} (h : level.isJoined) :
    level.tighter.depth + 1 = level.depth := by
  cases level <;> first | rfl | exact absurd h (by decide)

end Level

open Reader

theorem assignTo_orderly (target : Expr) (equals : Token) (value : Expr) (c : Cursor) :
    Orderly (assignTo target equals value) 0 c := by
  unfold assignTo
  split
  · exact orderly_freshId_bind fun _ => .pure _
  · exact .pure _
  · exact orderly_faultAt.bind (n := 0) (by omega) fun _ _ _ _ => .pure _

theorem checkCount_orderly (count : Nat) (cause : Fault.Cause) (c : Cursor) :
    Orderly (checkCount count cause) 0 c := by
  unfold checkCount
  split
  · exact orderly_faultHere
  · exact .pure _

/-- An operator without an operand belongs to the level at which it is read. -/
theorem Level.mem_operators_of_ofOrphan? {kind : TokenKind} {level : Level}
    (h : ofOrphan? kind = some level) : kind ∈ level.operators := by
  unfold ofOrphan? at h
  split at h
  · simp at h
  · simpa using List.find?_some h

mutual

theorem expression_orderly : ∀ (fuel : Nat) (level : Level) (c : Cursor),
    24 * c.rest.length + level.depth ≤ fuel → Orderly (expression fuel level) 1 c
  | 0, level, c, h => by cases level <;> simp [Level.depth] at h
  | fuel + 1, level, c, h => by
      by_cases hjoined : level.isJoined
      · have hdepth := Level.depth_tighter hjoined
        rw [expression_joined hjoined]
        refine (expression_orderly fuel level.tighter c (by omega)).bind (n := 0) (by omega)
          fun left c' _ hlength => ?_
        exact operations_orderly fuel level left c' (by omega)
      cases level with
      | assignment =>
          have h : 24 * c.rest.length + 13 ≤ fuel + 1 := h
          have htarget := expression_orderly fuel .conditional c
            (show _ + 12 ≤ fuel by omega)
          refine htarget.bind (n := 0) (by omega) fun target c' _ hlength => ?_
          refine orderly_accept_bind (.pure target) fun equals rest hrest _ => ?_
          have hshort : c'.rest.length = rest.length + 1 := by rw [hrest]; rfl
          have hvalue := expression_orderly fuel .assignment { c' with rest := rest }
            (show 24 * rest.length + 13 ≤ fuel by omega)
          exact hvalue.bind (n := 0) (by omega) fun value c'' _ _ =>
            assignTo_orderly target equals value c''
      | conditional =>
          have h : 24 * c.rest.length + 12 ≤ fuel + 1 := h
          have htest := expression_orderly fuel .or c (show _ + 11 ≤ fuel by omega)
          refine htest.bind (n := 0) (by omega) fun condition c' _ hlength => ?_
          refine orderly_accept_bind (.pure condition) fun question rest hrest _ => ?_
          have hshort : c'.rest.length = rest.length + 1 := by rw [hrest]; rfl
          have hchosen := expression_orderly fuel .comma { c' with rest := rest }
            (show 24 * rest.length + 14 ≤ fuel by omega)
          refine hchosen.bind (n := 0) (by omega) fun onTrue c₁ _ hlength₁ => ?_
          have hlength₁ : c₁.rest.length + 1 ≤ rest.length := hlength₁
          refine orderly_expect_bind (n := 0) (by omega) fun colon c₂ hlength₂ => ?_
          have hother := expression_orderly fuel .conditional c₂
            (show _ + 12 ≤ fuel by omega)
          exact hother.bind (n := 0) (by omega) fun onFalse _ _ _ => .pure _
      | unary =>
          have h : 24 * c.rest.length + 5 ≤ fuel + 1 := h
          have hcall := expression_orderly fuel .call c (show _ + 4 ≤ fuel by omega)
          refine orderly_accept_bind hcall fun operator rest hrest _ => ?_
          have hshort : c.rest.length = rest.length + 1 := by rw [hrest]; rfl
          have hoperand := expression_orderly fuel .unary { c with rest := rest }
            (show 24 * rest.length + 5 ≤ fuel by omega)
          exact hoperand.bind (n := 0) (by omega) fun operand _ _ _ => .pure _
      | call =>
          have h : 24 * c.rest.length + 4 ≤ fuel + 1 := h
          have hcallee := expression_orderly fuel .primary c (show _ + 3 ≤ fuel by omega)
          refine hcallee.bind (n := 0) (by omega) fun callee c' _ hlength => ?_
          exact suffixes_orderly fuel callee c' (by omega)
      | primary =>
          have h : 24 * c.rest.length + 3 ≤ fuel + 1 := h
          exact primary_orderly fuel c (by omega)
      | _ => exact absurd rfl hjoined

theorem operations_orderly : ∀ (fuel : Nat) (level : Level) (left : Expr) (c : Cursor),
    24 * c.rest.length + 1 ≤ fuel → Orderly (operations fuel level left) 0 c
  | 0, _, _, _, h => by omega
  | fuel + 1, level, left, c, h => by
      have hdepth := level.tighter.depth_le
      refine orderly_accept_bind (.pure left) fun operator rest hrest _ => ?_
      have hshort : c.rest.length = rest.length + 1 := by rw [hrest]; rfl
      have hright := expression_orderly fuel level.tighter { c with rest := rest }
        (show 24 * rest.length + level.tighter.depth ≤ fuel by omega)
      refine hright.bind (n := 0) (by omega) fun right c' _ hlength => ?_
      have hlength : c'.rest.length + 1 ≤ rest.length := hlength
      exact operations_orderly fuel level _ c' (by omega)

theorem suffixes_orderly : ∀ (fuel : Nat) (callee : Expr) (c : Cursor),
    24 * c.rest.length + 1 ≤ fuel → Orderly (suffixes fuel callee) 0 c
  | 0, _, _, h => by omega
  | fuel + 1, callee, c, h => by
      refine orderly_accept_bind (.pure callee) fun token rest hrest _ => ?_
      have hshort : c.rest.length = rest.length + 1 := by rw [hrest]; rfl
      by_cases hparen : token.kind = .leftParen
      · simp only [hparen, if_pos]
        have hrow := arguments_orderly fuel { c with rest := rest }
          (show 24 * rest.length + 15 ≤ fuel by omega)
        refine hrow.bind (n := 0) (by omega) fun arguments c₁ _ hlength₁ => ?_
        have hlength₁ : c₁.rest.length + 0 ≤ rest.length := hlength₁
        refine orderly_expect_bind (n := 0) (by omega) fun paren c₂ hlength₂ => ?_
        exact suffixes_orderly fuel _ c₂ (by omega)
      · simp only [hparen, if_false]
        refine orderly_expect_bind (n := 0) (by omega) fun property c₁ hlength₁ => ?_
        have hlength₁ : c₁.rest.length + 1 ≤ rest.length := hlength₁
        exact suffixes_orderly fuel _ c₁ (by omega)

theorem arguments_orderly : ∀ (fuel : Nat) (c : Cursor),
    24 * c.rest.length + 15 ≤ fuel → Orderly (arguments fuel) 0 c
  | 0, _, h => by omega
  | fuel + 1, c, h => by
      refine orderly_nextKind_bind ?_
      split
      · exact .pure []
      · exact (argumentsFrom_orderly fuel 0 c (by omega)).weaken (by omega)

theorem argumentsFrom_orderly : ∀ (fuel count : Nat) (c : Cursor),
    24 * c.rest.length + 14 ≤ fuel → Orderly (argumentsFrom fuel count) 1 c
  | 0, _, _, h => by omega
  | fuel + 1, count, c, h => by
      rw [argumentsFrom_succ]
      refine (checkCount_orderly _ _ _).bind (n := 1) (by omega) fun _ c₁ _ hlength₁ => ?_
      have hargument := expression_orderly fuel .assignment c₁ (show _ + 13 ≤ fuel by omega)
      refine hargument.bind (n := 0) (by omega) fun argument c₂ _ hlength₂ => ?_
      refine orderly_accept_bind (.pure [argument]) fun comma rest hrest _ => ?_
      have hshort : c₂.rest.length = rest.length + 1 := by rw [hrest]; rfl
      have hothers := argumentsFrom_orderly fuel (count + 1) { c₂ with rest := rest }
        (show 24 * rest.length + 14 ≤ fuel by omega)
      exact hothers.bind (n := 0) (by omega) fun others _ _ _ => .pure _

theorem primary_orderly : ∀ (fuel : Nat) (c : Cursor),
    24 * c.rest.length + 2 ≤ fuel → Orderly (primary fuel) 1 c
  | 0, _, h => by omega
  | fuel + 1, c, h => by
      rw [primary_succ]
      refine orderly_accept_bind (noOperand_orderly fuel c (by omega))
        fun token rest hrest _ => ?_
      have hshort : c.rest.length = rest.length + 1 := by rw [hrest]; rfl
      dsimp only
      unfold primaryAt
      split
      · exact .pure _
      · exact .pure _
      · exact .pure _
      · exact orderly_freshId_bind fun _ => .pure _
      · exact orderly_freshId_bind fun _ => .pure _
      · refine orderly_expect_bind (n := 0) (by omega) fun dot c₁ _ => ?_
        refine orderly_expect_bind (n := 0) (by omega) fun method c₂ _ => ?_
        exact orderly_freshId_bind fun _ => .pure _
      · have hinner := expression_orderly fuel .comma { c with rest := rest }
          (show 24 * rest.length + 14 ≤ fuel by omega)
        refine hinner.bind (n := 0) (by omega) fun inner c₁ _ _ => ?_
        exact orderly_expect_bind (n := 0) (by omega) fun _ _ _ => .pure _
      · exact .pure _

theorem noOperand_orderly : ∀ (fuel : Nat) (c : Cursor),
    24 * c.rest.length + 1 ≤ fuel → Orderly (noOperand fuel) 1 c
  | 0, _, h => by omega
  | fuel + 1, c, h => by
      refine orderly_nextKind_bind ?_
      split
      · exact orderly_faultHere_abandon
      · rename_i level hlevel
        obtain ⟨token, rest, hrest, horphan⟩ : ∃ token rest, c.rest = token :: rest ∧
            Level.ofOrphan? token.kind = some level := by
          cases hrest : c.rest with
          | nil => simp [hrest] at hlevel
          | cons token rest => exact ⟨token, rest, rfl, by simpa [hrest] using hlevel⟩
        have hshort : c.rest.length = rest.length + 1 := by rw [hrest]; rfl
        have hdepth := level.depth_le
        -- The operator is taken, so there is fuel to read behind it.
        obtain ⟨fault, hfault⟩ : ∃ fault, faultHere .missingLeftOperand c
            = (some (), { c with faults := c.faults ++ [fault] }) := ⟨_, rfl⟩
        have haccept := accept_cons
          level.operators ({ c with faults := c.faults ++ [fault] }) hrest
          (Level.mem_operators_of_ofOrphan? horphan)
        have hdropped := expression_orderly fuel level
          { c with rest := rest, faults := c.faults ++ [fault] }
          (show 24 * rest.length + level.depth ≤ fuel by omega)
        have hreach : c.Reaches { c with rest := rest, faults := c.faults ++ [fault] } :=
          ⟨by rw [hrest]; exact List.suffix_cons token rest, List.prefix_append _ _,
            Nat.le_refl _, rfl⟩
        have heq : (faultHere .missingLeftOperand >>= fun _ => accept level.operators >>=
            fun _ => attempt (expression fuel level) >>= fun _ => (abandon : Reader Expr)) c
            = (none, (expression fuel level
                { c with rest := rest, faults := c.faults ++ [fault] }).2) := by
          rw [bind_of_some hfault, bind_of_some haccept]
          rfl
        refine ⟨by rw [heq]; exact hreach.trans hdropped.reaches, fun hs => ?_, fun _ => ?_⟩
        · rw [heq] at hs
          exact absurd rfl hs
        · rw [heq]
          have := hdropped.reaches.faults_length_le
          simp only [List.length_append, List.length_singleton] at this ⊢
          omega

end

theorem anyExpression_orderly (fuel : Nat) (c : Cursor)
    (h : 24 * c.rest.length + 14 ≤ fuel) : Orderly (anyExpression fuel) 1 c :=
  expression_orderly fuel .comma c h

/-! ### Optional parts -/

theorem optionalExpression_orderly (stop : TokenKind) (fuel : Nat) (c : Cursor)
    (h : 24 * c.rest.length + 14 ≤ fuel) : Orderly (optionalExpression stop fuel) 0 c := by
  refine orderly_nextKind_bind ?_
  split
  · exact .pure none
  · exact ((anyExpression_orderly fuel c h).map).weaken (by omega)

theorem optionalInitializer_orderly (fuel : Nat) (c : Cursor)
    (h : 24 * c.rest.length ≤ fuel) : Orderly (optionalInitializer fuel) 0 c := by
  refine orderly_accept_bind (.pure none) fun equals rest hrest _ => ?_
  have hshort : c.rest.length = rest.length + 1 := by rw [hrest]; rfl
  have hvalue := anyExpression_orderly fuel { c with rest := rest }
    (show 24 * rest.length + 14 ≤ fuel by omega)
  exact hvalue.map.weaken (by omega)

theorem variableDeclaration_orderly (fuel : Nat) (c : Cursor)
    (h : 24 * c.rest.length ≤ fuel) : Orderly (variableDeclaration fuel) 1 c := by
  rw [variableDeclaration_eq]
  refine orderly_expect_bind (n := 0) (by omega) fun name c₁ hlength₁ => ?_
  refine (optionalInitializer_orderly fuel c₁ (by omega)).bind (n := 0) (by omega)
    fun initializer c₂ _ _ => ?_
  exact orderly_expect_bind (n := 0) (by omega) fun _ _ _ => .pure _

theorem expressionStatement_orderly (fuel : Nat) (c : Cursor)
    (h : 24 * c.rest.length + 14 ≤ fuel) : Orderly (expressionStatement fuel) 1 c := by
  refine (anyExpression_orderly fuel c h).bind (n := 0) (by omega) fun value c₁ _ _ => ?_
  exact orderly_expect_bind (n := 0) (by omega) fun _ _ _ => .pure _

theorem forInitializer_orderly (fuel : Nat) (c : Cursor)
    (h : 24 * c.rest.length + 14 ≤ fuel) : Orderly (forInitializer fuel) 1 c := by
  refine orderly_accept_bind (expressionStatement_orderly fuel c h).map
    fun token rest hrest _ => ?_
  have hshort : c.rest.length = rest.length + 1 := by rw [hrest]; rfl
  dsimp only
  split
  · exact .pure none
  · exact (variableDeclaration_orderly fuel { c with rest := rest }
      (show 24 * rest.length ≤ fuel by omega)).map.weaken (by omega)

theorem optionalSuperclass_orderly (c : Cursor) : Orderly optionalSuperclass 0 c := by
  refine orderly_accept_bind (.pure none) fun less rest hrest _ => ?_
  refine orderly_expect_bind (n := 0) (by omega) fun name c₁ _ => ?_
  exact orderly_freshId_bind fun _ => .pure _

theorem returnStatement_orderly (keyword : Token) (fuel : Nat) (c : Cursor)
    (h : 24 * c.rest.length + 14 ≤ fuel) : Orderly (returnStatement keyword fuel) 0 c := by
  refine (optionalExpression_orderly .semicolon fuel c h).bind (n := 0) (by omega)
    fun value c₁ _ _ => ?_
  exact orderly_expect_bind (n := 0) (by omega) fun _ _ _ => .pure _

theorem parenthesized_orderly (opening closing : String) (fuel : Nat) (c : Cursor)
    (h : 24 * c.rest.length ≤ fuel) : Orderly (parenthesized opening closing fuel) 1 c := by
  refine orderly_expect_bind (n := 0) (by omega) fun _ c₁ hlength₁ => ?_
  refine (anyExpression_orderly fuel c₁ (by omega)).bind (n := 0) (by omega)
    fun condition c₂ _ _ => ?_
  exact orderly_expect_bind (n := 0) (by omega) fun _ _ _ => .pure _

theorem paramsFrom_orderly : ∀ (fuel count : Nat) (c : Cursor),
    24 * c.rest.length + 1 ≤ fuel → Orderly (paramsFrom fuel count) 1 c
  | 0, _, _, h => by omega
  | fuel + 1, count, c, h => by
      rw [paramsFrom_succ]
      refine (checkCount_orderly _ _ _).bind (n := 1) (by omega) fun _ c₁ _ hlength₁ => ?_
      refine orderly_expect_bind (n := 0) (by omega) fun param c₂ hlength₂ => ?_
      refine orderly_accept_bind (.pure [param]) fun comma rest hrest _ => ?_
      have hshort : c₂.rest.length = rest.length + 1 := by rw [hrest]; rfl
      have hothers := paramsFrom_orderly fuel (count + 1) { c₂ with rest := rest }
        (show 24 * rest.length + 1 ≤ fuel by omega)
      exact hothers.bind (n := 0) (by omega) fun others _ _ _ => .pure _

theorem params_orderly (fuel : Nat) (c : Cursor) (h : 24 * c.rest.length + 1 ≤ fuel) :
    Orderly (params fuel) 0 c := by
  refine orderly_nextKind_bind ?_
  split
  · exact .pure []
  · exact (paramsFrom_orderly fuel 0 c h).weaken (by omega)

/-! ### Recovery -/

theorem recover_suffix (tokens : List Token) : recover tokens <:+ tokens := by
  fun_induction recover tokens with
  | case1 => exact List.suffix_refl _
  | case2 => exact List.nil_suffix
  | case3 skipped next rest _ => exact List.suffix_cons skipped (next :: rest)
  | case4 skipped next rest _ ih => exact ih.trans (List.suffix_cons skipped (next :: rest))

section Recovery

variable {α : Type} {p : Reader α} {least : Nat} {c : Cursor}

/-- Whether something was kept or not, the reading goes on, and further on if there was
anything to read. -/
theorem recovering_reaches (hp : Orderly p 1 c) :
    c.Reaches (recovering p c).2 ∧
      (recovering p c).2.rest.length ≤ c.rest.length - 1 := by
  have hreach := hp.reaches
  unfold recovering
  split
  · rename_i a c' h
    have htaken := hp.taken (by simp [h])
    rw [h] at hreach htaken
    exact ⟨hreach, by simp only at htaken ⊢; omega⟩
  · rename_i c' h
    rw [h] at hreach
    have hrest := hreach.rest_length_le
    have hrecover := recover_length c'.rest
    exact ⟨hreach.trans (.of_rest (recover_suffix c'.rest)), by simp only at hrest ⊢; omega⟩

theorem recovering_orderly (hp : Orderly p 1 c) : Orderly (recovering p) 0 c := by
  have hshort := (recovering_reaches hp).2
  refine ⟨(recovering_reaches hp).1, fun _ => by omega, fun h => ?_⟩
  unfold recovering at h
  split at h <;> simp at h

/-- Nothing is dropped without a fault. -/
theorem recovering_dropped (hp : Orderly p 1 c) (h : (recovering p c).1 = some none) :
    c.faults.length < (recovering p c).2.faults.length := by
  have hblamed := hp.blamed
  unfold recovering at h ⊢
  split at h
  · simp at h
  · rename_i c' hc
    rw [hc] at hblamed
    simpa [hc] using hblamed

end Recovery

/-! ### Statements and declarations -/

mutual

theorem keptDeclaration_orderly : ∀ (fuel : Nat) (c : Cursor),
    24 * c.rest.length + 16 ≤ fuel → Orderly (keptDeclaration (fuel - 1)) 1 c
  | 0, _, h => by omega
  | fuel + 1, c, h => by
      refine orderly_accept_bind (statement_orderly fuel c (by omega))
        fun token rest hrest _ => ?_
      have hshort : c.rest.length = rest.length + 1 := by rw [hrest]; rfl
      dsimp only
      unfold declarationAt
      split
      · exact (classDeclaration_orderly fuel { c with rest := rest }
          (show 24 * rest.length + 1 ≤ fuel by omega)).weaken (by omega)
      · exact (function_orderly fuel "function" { c with rest := rest }
          (show 24 * rest.length + 1 ≤ fuel by omega)).map.weaken (by omega)
      · exact (variableDeclaration_orderly fuel { c with rest := rest }
          (show 24 * rest.length ≤ fuel by omega)).weaken (by omega)

theorem classDeclaration_orderly : ∀ (fuel : Nat) (c : Cursor),
    24 * c.rest.length + 1 ≤ fuel → Orderly (classDeclaration fuel) 1 c
  | 0, _, h => by omega
  | fuel + 1, c, h => by
      rw [classDeclaration_succ]
      refine orderly_expect_bind (n := 0) (by omega) fun name c₁ hlength₁ => ?_
      refine (optionalSuperclass_orderly c₁).bind (n := 0) (by omega)
        fun superclass c₂ _ hlength₂ => ?_
      refine orderly_expect_bind (n := 0) (by omega) fun _ c₃ hlength₃ => ?_
      refine (methods_orderly fuel c₃ (by omega)).bind (n := 0) (by omega)
        fun declared c₄ _ _ => ?_
      exact orderly_expect_bind (n := 0) (by omega) fun _ _ _ => .pure _

theorem methods_orderly : ∀ (fuel : Nat) (c : Cursor),
    24 * c.rest.length + 2 ≤ fuel → Orderly (methods fuel) 0 c
  | 0, _, h => by omega
  | fuel + 1, c, h => by
      refine orderly_nextKind_bind ?_
      split
      · exact .pure []
      · exact .pure []
      · refine (function_orderly fuel "method" c (by omega)).bind (n := 0) (by omega)
          fun method c₁ _ hlength₁ => ?_
        exact (methods_orderly fuel c₁ (by omega)).bind (n := 0) (by omega)
          fun others _ _ _ => .pure _

theorem function_orderly : ∀ (fuel : Nat) (role : String) (c : Cursor),
    24 * c.rest.length + 1 ≤ fuel → Orderly (function fuel role) 1 c
  | 0, _, _, h => by omega
  | fuel + 1, role, c, h => by
      refine orderly_expect_bind (n := 0) (by omega) fun name c₁ hlength₁ => ?_
      refine orderly_expect_bind (n := 0) (by omega) fun _ c₂ hlength₂ => ?_
      refine (params_orderly fuel c₂ (by omega)).bind (n := 0) (by omega)
        fun params c₃ _ hlength₃ => ?_
      refine orderly_expect_bind (n := 0) (by omega) fun _ c₄ hlength₄ => ?_
      refine orderly_expect_bind (n := 0) (by omega) fun _ c₅ hlength₅ => ?_
      exact (block_orderly fuel c₅ (by omega)).bind (n := 0) (by omega)
        fun body _ _ _ => .pure _

theorem block_orderly : ∀ (fuel : Nat) (c : Cursor),
    24 * c.rest.length + 18 ≤ fuel → Orderly (block fuel) 1 c
  | 0, _, h => by omega
  | fuel + 1, c, h => by
      refine (declarations_orderly fuel c (by omega)).bind (n := 1) (by omega)
        fun body c₁ _ _ => ?_
      exact orderly_expect_bind (n := 0) (by omega) fun _ _ _ => .pure _

theorem declarations_orderly : ∀ (fuel : Nat) (c : Cursor),
    24 * c.rest.length + 17 ≤ fuel → Orderly (declarations fuel) 0 c
  | 0, _, h => by omega
  | fuel + 1, c, h => by
      refine orderly_nextKind_bind ?_
      split
      · exact .pure []
      · exact .pure []
      · rename_i kind _ hkind
        have hpos : c.rest ≠ [] := by
          rintro hnil
          simp [hnil] at hkind
        have hkept := keptDeclaration_orderly fuel c (by omega)
        rw [declaration_eq (by omega)]
        refine (recovering_orderly hkept).bind (n := 0) (by omega) fun first c₁ h₁ _ => ?_
        -- There was a token, so whether the declaration was kept or not, fewer are left.
        have hshort := (recovering_reaches hkept).2
        rw [h₁] at hshort
        have hlength := List.length_pos_iff.mpr hpos
        exact (declarations_orderly fuel c₁ (by simp only at hshort; omega)).bind (n := 0)
          (by omega) fun others _ _ _ => .pure _

theorem statement_orderly : ∀ (fuel : Nat) (c : Cursor),
    24 * c.rest.length + 15 ≤ fuel → Orderly (statement fuel) 1 c
  | 0, _, h => by omega
  | fuel + 1, c, h => by
      rw [statement_succ]
      refine orderly_accept_bind (expressionStatement_orderly fuel c (by omega))
        fun token rest hrest _ => ?_
      have hshort : c.rest.length = rest.length + 1 := by rw [hrest]; rfl
      generalize hc₀ : ({ c with rest := rest } : Cursor) = c₀
      have hlength₀ : c₀.rest.length + 1 = c.rest.length := by rw [hshort, ← hc₀]
      dsimp only
      unfold statementAt
      split
      · exact orderly_expect_bind (n := 0) (by omega) fun _ _ _ => .pure _
      · exact (forClauses_orderly fuel c₀ (by omega)).weaken (by omega)
      · refine (parenthesized_orderly _ _ fuel c₀ (by omega)).bind (n := 0) (by omega)
          fun condition c₁ _ hlength₁ => ?_
        refine (statement_orderly fuel c₁ (by omega)).bind (n := 0) (by omega)
          fun onTrue c₂ _ hlength₂ => ?_
        refine orderly_accept_bind (.pure _) fun otherwise rest₂ hrest₂ _ => ?_
        have hshort₂ : c₂.rest.length = rest₂.length + 1 := by rw [hrest₂]; rfl
        have helse := statement_orderly fuel { c₂ with rest := rest₂ }
          (show 24 * rest₂.length + 15 ≤ fuel by omega)
        exact helse.bind (n := 0) (by omega) fun onFalse _ _ _ => .pure _
      · refine (anyExpression_orderly fuel c₀ (by omega)).bind (n := 0) (by omega)
          fun value c₁ _ _ => ?_
        exact orderly_expect_bind (n := 0) (by omega) fun _ _ _ => .pure _
      · exact returnStatement_orderly token fuel c₀ (by omega)
      · refine (parenthesized_orderly _ _ fuel c₀ (by omega)).bind (n := 0) (by omega)
          fun condition c₁ _ hlength₁ => ?_
        exact (statement_orderly fuel c₁ (by omega)).bind (n := 0) (by omega)
          fun body _ _ _ => .pure _
      · exact (block_orderly fuel c₀ (by omega)).map.weaken (by omega)

theorem forClauses_orderly : ∀ (fuel : Nat) (c : Cursor),
    24 * c.rest.length + 1 ≤ fuel → Orderly (forClauses fuel) 1 c
  | 0, _, h => by omega
  | fuel + 1, c, h => by
      rw [forClauses_succ]
      refine orderly_expect_bind (n := 0) (by omega) fun _ c₁ hlength₁ => ?_
      refine (forInitializer_orderly fuel c₁ (by omega)).bind (n := 0) (by omega)
        fun initializer c₂ _ hlength₂ => ?_
      refine (optionalExpression_orderly _ fuel c₂ (by omega)).bind (n := 0) (by omega)
        fun condition c₃ _ hlength₃ => ?_
      refine orderly_expect_bind (n := 0) (by omega) fun _ c₄ hlength₄ => ?_
      refine (optionalExpression_orderly _ fuel c₄ (by omega)).bind (n := 0) (by omega)
        fun increment c₅ _ hlength₅ => ?_
      refine orderly_expect_bind (n := 0) (by omega) fun _ c₆ hlength₆ => ?_
      exact (statement_orderly fuel c₆ (by omega)).bind (n := 0) (by omega)
        fun body _ _ _ => .pure _

end

end Lox.Grammar
