/-
The words that outlines are made of.

Except for names every token in a tree is spelled in one way only, so its text says which
token it is; any other text is a name.  Lines aside, a token in a tree is thus the one that
is spelled like it (`Vocabulary.lexemes.spelled_eq`).
-/
import Lox.Proofs.Grammar.Words
import Lox.Proofs.Outline.Nested
import Lox.Proofs.Source.Spelling
import Lox.Proofs.Syntax.Relabelling

namespace Lox

/-- The token with this text, on no line. -/
def spelled (text : String) : Token :=
  ⟨(spellings.lookup text).getD .identifier, text, 0⟩

/-- How the tokens are spelled that can do something. -/
def Role.texts (role : Role) : List String :=
  (spellings.filter fun spelling => role.kinds.contains spelling.2).map Prod.fst

/-! ### Tokens in trees -/

theorem IsIdentifier.isWord {text : String} (h : IsIdentifier text.toList) :
    Outline.IsWord text := by
  refine ⟨fun hnil => ?_, fun c hc => Outline.isInside_of_isWordPart (h.letters c hc)⟩
  obtain ⟨c, hc, -⟩ := h.start
  rw [hnil] at hc
  cases hc

/-- Tokens do what their kinds are for, and are spelled as their kinds are. -/
def Vocabulary.lexemes : Vocabulary :=
  fun role token => token.kind ∈ role.kinds ∧ Lexeme token.kind token.lexeme.toList

/-- The words of every source do. -/
theorem Lexed.allows_lexemes (source : String) :
    Grammar.Derives.Allows .lexemes (ofSource source).tokens := by
  have hbang : Lexeme .bang "!".toList := .alone (c := '!')
    (show ('!', TokenKind.bang, TokenKind.bangEqual) ∈ Segment.comparisons by decide)
  have hequal : Lexeme .equalEqual "==".toList := .withEqual (c := '=')
    (show ('=', TokenKind.equal, TokenKind.equalEqual) ∈ Segment.comparisons by decide)
  exact ⟨fun token htoken _ hrole => ⟨hrole, ofSource_lexeme source token htoken⟩,
    fun _ _ _ => ⟨⟨List.mem_cons_self, hbang⟩, List.mem_cons_of_mem _ List.mem_cons_self, hequal⟩⟩

namespace Vocabulary.lexemes

variable {role : Role} {token : Token}

theorem isIdentifier (h : lexemes .name token) : IsIdentifier token.lexeme.toList :=
  h.2.isIdentifier (List.mem_singleton.mp h.1)

/-- What is no name is spelled in one way. -/
theorem mem_spellings (h : lexemes role token) (hrole : role ≠ .name) :
    (token.lexeme, token.kind) ∈ spellings := by
  have hkinds : ∀ kind ∈ role.kinds, kind ∈ spellings.map Prod.snd := by
    cases role with
    | name => exact absurd rfl hrole
    | _ => decide
  obtain ⟨⟨text, kind⟩, hspelling, hkind⟩ := List.mem_map.mp (hkinds _ h.1)
  have htext := String.toList_inj.mp (h.2.eq_spelling hspelling hkind.symm)
  rwa [htext, ← hkind]

theorem mem_texts (h : lexemes role token) (hrole : role ≠ .name) : token.lexeme ∈ role.texts :=
  List.mem_map.mpr ⟨_, List.mem_filter.mpr
    ⟨h.mem_spellings hrole, List.contains_iff_mem.mpr h.1⟩, rfl⟩

/-- All of them are words but the parenthesis that closes a call. -/
theorem isWord (h : lexemes role token) (hrole : role ≠ .closing) :
    Outline.IsWord token.lexeme := by
  have htexts : ∀ role : Role, role ≠ .closing → ∀ text ∈ role.texts, Outline.IsWord text := by
    intro role hrole
    cases role with
    | closing => exact absurd rfl hrole
    | _ => decide
  obtain rfl | hname := eq_or_ne role .name
  · exact h.isIdentifier.isWord
  · exact htexts role hrole _ (h.mem_texts hname)

/-- Apart from its line, a token in a tree is the one that is spelled like it. -/
theorem spelled_eq (h : lexemes role token) : spelled token.lexeme = token.reline fun _ => 0 := by
  have hlookup : (spellings.lookup token.lexeme).getD .identifier = token.kind := by
    obtain rfl | hrole := eq_or_ne role .name
    · have hnone := h.isIdentifier.lookup
      rw [String.ofList_toList] at hnone
      rw [hnone, Option.getD_none, List.mem_singleton.mp h.1]
    · have hfound : ∀ spelling ∈ spellings,
          spellings.lookup spelling.1 = some spelling.2 := by decide
      rw [hfound _ (h.mem_spellings hrole), Option.getD_some]
  rw [spelled, hlookup]
  rfl

/-- A token of a kind with one spelling is the one that is spelled so. -/
theorem spelled_eq_of_kind {text : String} {kind : TokenKind} (h : lexemes role token)
    (hspelling : (text, kind) ∈ spellings) (hkind : token.kind = kind) :
    spelled text = token.reline fun _ => 0 := by
  have htext : token.lexeme = text := String.toList_inj.mp (h.2.eq_spelling hspelling hkind)
  rw [← htext]
  exact h.spelled_eq

end Vocabulary.lexemes

end Lox
