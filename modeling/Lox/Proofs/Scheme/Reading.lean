/-
Reading Scheme.

Text is read from left to right, a character at a time.  What has to be remembered is
what is still open: the lists with what they hold so far, the quotes whose datum is yet
to come, and the symbol or string that is just being read.  A symbol ends where a
character follows that cannot be in one, so at the end of a text it may still be open
(`settle`); everything else has to be closed.

The reader knows as much of Scheme's notation as it takes to write programs: symbols,
among which numbers and constants count, strings, lists and quotes.
-/
import Mathlib.Data.List.Forall2
import Lox.Scheme.Program
import Lox.Source.Segment

namespace Lox.Scheme

/-! ### Data -/

/-- A datum; every symbol in it bears a mark. -/
inductive Datum (α : Type) where
  | symbol (text : String) (mark : α)
  | string (text : String)
  | quoted (datum : Datum α)
  | list (items : List (Datum α))

namespace Datum

variable {α : Type}

mutual

/-- A datum without its marks. -/
def plain : Datum α → Datum Unit
  | symbol text _ => symbol text ()
  | string text => string text
  | quoted datum => quoted datum.plain
  | list items => list (plainAll items)

/-- Data without their marks. -/
def plainAll : List (Datum α) → List (Datum Unit)
  | [] => []
  | datum :: rest => datum.plain :: plainAll rest

end

theorem plainAll_eq_map (data : List (Datum α)) : plainAll data = data.map plain := by
  induction data with
  | nil => rfl
  | cons datum rest ih => rw [plainAll, ih, List.map_cons]

@[simp] theorem plain_symbol (text : String) (mark : α) :
    (symbol text mark).plain = symbol text () :=
  rfl

@[simp] theorem plain_string (text : String) : (string text : Datum α).plain = string text :=
  rfl

@[simp] theorem plain_quoted (datum : Datum α) : (quoted datum).plain = quoted datum.plain :=
  rfl

@[simp] theorem plain_list (items : List (Datum α)) :
    (list items).plain = list (items.map plain) := by
  rw [plain, plainAll_eq_map]

end Datum

/-- A datum as it is read. -/
abbrev Plain := Datum Unit

/-! ### The reader -/

/-- Something that is open: a list with what it holds so far, or a quote. -/
inductive Frame where
  | list (items : List Plain)
  | quote

/-- What is just being read, if it is neither a list nor a quote. -/
inductive Mode where
  | between
  | symbol (text : List Char)
  | string (text : List Char)
  | escape (text : List Char)

/-- Where the reader stands: what is open, the innermost first, and what it is reading.
The outermost list is the row of all data. -/
structure Reading where
  frames : List Frame
  mode : Mode

/-- The characters of symbols. -/
def isConstituent (c : Char) : Bool :=
  c.isAlphanum ||
    ['!', '$', '%', '&', '*', '/', ':', '<', '=', '>', '?', '^', '_', '~', '+', '-', '.', '@',
      '#', '\\'].contains c

/-- A datum is complete. -/
def deliver (datum : Plain) : List Frame → List Frame
  | [] => []
  | .quote :: below => deliver (.quoted datum) below
  | .list items :: below => .list (items ++ [datum]) :: below

/-- The innermost list is complete; the outermost one never is, and a quote still waits. -/
def closeFrame : List Frame → Option (List Frame)
  | .list items :: outer :: below => some (deliver (.list items) (outer :: below))
  | _ => none

/-- A character between two data. -/
def startAt (frames : List Frame) (c : Char) : Option Reading :=
  if Segment.isBlank c then some ⟨frames, .between⟩
  else if c = '(' then some ⟨.list [] :: frames, .between⟩
  else if c = ')' then (closeFrame frames).map (fun frames => ⟨frames, .between⟩)
  else if c = '"' then some ⟨frames, .string []⟩
  else if c = '\'' then some ⟨.quote :: frames, .between⟩
  else if isConstituent c then some ⟨frames, .symbol [c]⟩
  else none

/-- The next character; a character that can stand nowhere is not read. -/
def step (r : Reading) (c : Char) : Option Reading :=
  match r.mode with
  | .between => startAt r.frames c
  | .symbol text =>
      if isConstituent c then some ⟨r.frames, .symbol (text ++ [c])⟩
      else startAt (deliver (.symbol (String.ofList text) ()) r.frames) c
  | .string text =>
      if c = '"' then some ⟨deliver (.string (String.ofList text)) r.frames, .between⟩
      else if c = '\\' then some ⟨r.frames, .escape text⟩
      else some ⟨r.frames, .string (text ++ [c])⟩
  | .escape text =>
      if c = '\\' || c = '"' then some ⟨r.frames, .string (text ++ [c])⟩ else none

/-- Reads on. -/
def readOn (r : Reading) (text : List Char) : Option Reading :=
  text.foldlM step r

/-- What is open if nothing more comes; a string would have to be closed. -/
def settle (r : Reading) : Option (List Frame) :=
  match r.mode with
  | .between => some r.frames
  | .symbol text => some (deliver (.symbol (String.ofList text) ()) r.frames)
  | .string _ | .escape _ => none

/-- The data that a text consists of. -/
def read (text : String) : Option (List Plain) :=
  match (readOn ⟨[.list []], .between⟩ text.toList).bind settle with
  | some [.list data] => some data
  | _ => none

/-! ### Reading piece by piece -/

variable {frames frames' frames'' below : List Frame} {text rest : List Char}

theorem readOn_append (r : Reading) (text rest : List Char) :
    readOn r (text ++ rest) = (readOn r text).bind fun r => readOn r rest := by
  rw [readOn, List.foldlM_append]
  rfl

theorem readOn_cons (r : Reading) (c : Char) (rest : List Char) :
    readOn r (c :: rest) = (step r c).bind fun r => readOn r rest := by
  rw [readOn, List.foldlM_cons]
  rfl

/-- Reading a text makes of what was open what is open then. -/
def Reads (frames : List Frame) (text : List Char) (frames' : List Frame) : Prop :=
  ∃ r, readOn ⟨frames, .between⟩ text = some r ∧ settle r = some frames'

/-- The same, and the text does not end in a symbol. -/
def Passes (frames : List Frame) (text : List Char) (frames' : List Frame) : Prop :=
  readOn ⟨frames, .between⟩ text = some ⟨frames', .between⟩

/-- Before this text a symbol ends. -/
def Ends (text : List Char) : Prop :=
  ∀ c ∈ text.head?, isConstituent c = false

theorem Passes.reads (h : Passes frames text frames') : Reads frames text frames' :=
  ⟨_, h, rfl⟩

theorem passes_nil (frames : List Frame) : Passes frames [] frames :=
  rfl

theorem Passes.passes (h : Passes frames text frames') (hrest : Passes frames' rest frames'') :
    Passes frames (text ++ rest) frames'' := by
  rw [Passes, readOn_append, h]
  exact hrest

theorem Passes.then (h : Passes frames text frames') (hrest : Reads frames' rest frames'') :
    Reads frames (text ++ rest) frames'' := by
  obtain ⟨r, hr, hsettle⟩ := hrest
  refine ⟨r, ?_, hsettle⟩
  rw [readOn_append, h]
  exact hr

/-- Where a symbol ends it makes no difference that it was being read. -/
theorem readOn_of_settle {r : Reading} (h : settle r = some frames') (hends : Ends rest)
    (hne : rest ≠ []) : readOn r rest = readOn ⟨frames', .between⟩ rest := by
  cases rest with
  | nil => exact absurd rfl hne
  | cons c rest =>
      have hc : isConstituent c = false := hends c rfl
      obtain ⟨frames, mode⟩ := r
      rw [readOn_cons, readOn_cons]
      cases mode with
      | between =>
          obtain rfl : frames = frames' := by simpa [settle] using h
          rfl
      | symbol text =>
          obtain rfl := Option.some.inj h
          simp [step, hc]
      | string text => exact absurd h (by simp [settle])
      | escape text => exact absurd h (by simp [settle])

theorem Reads.then (h : Reads frames text frames') (hends : Ends rest)
    (hrest : Reads frames' rest frames'') : Reads frames (text ++ rest) frames'' := by
  obtain ⟨r, hr, hsettle⟩ := h
  by_cases hne : rest = []
  · subst hne
    obtain ⟨r', hr', hsettle'⟩ := hrest
    obtain rfl := Option.some.inj hr'
    obtain rfl := Option.some.inj hsettle'
    exact ⟨r, by rwa [List.append_nil], hsettle⟩
  · obtain ⟨r', hr', hsettle'⟩ := hrest
    refine ⟨r', ?_, hsettle'⟩
    rw [readOn_append, hr, Option.bind_some, readOn_of_settle hsettle hends hne, hr']

theorem Reads.passes (h : Reads frames text frames') (hends : Ends rest) (hne : rest ≠ [])
    (hrest : Passes frames' rest frames'') : Passes frames (text ++ rest) frames'' := by
  obtain ⟨r, hr, hsettle⟩ := h
  rw [Passes, readOn_append, hr, Option.bind_some, readOn_of_settle hsettle hends hne, hrest]

/-! ### Brackets and blanks -/

theorem passes_blank {c : Char} (h : Segment.isBlank c = true) : Passes frames [c] frames := by
  simp [Passes, readOn, step, startAt, h]

theorem passes_blanks {row : List Char} (h : ∀ c ∈ row, Segment.isBlank c = true) :
    Passes frames row frames := by
  induction row with
  | nil => exact passes_nil frames
  | cons c rest ih =>
      rw [List.forall_mem_cons] at h
      exact (passes_blank h.1).passes (ih h.2)

theorem passes_open : Passes frames ['('] (.list [] :: frames) := by
  simp [Passes, readOn, step, startAt, Segment.isBlank]

theorem passes_close {items outer : List Plain} :
    Passes (.list items :: .list outer :: below) [')']
      (.list (outer ++ [.list items]) :: below) := by
  simp [Passes, readOn, step, startAt, Segment.isBlank, closeFrame, deliver]

theorem passes_quote : Passes frames ['\''] (.quote :: frames) := by
  simp [Passes, readOn, step, startAt, Segment.isBlank]

theorem ends_nil : Ends [] := by
  simp [Ends]

theorem ends_open : Ends ('(' :: rest) := by
  simp [Ends, isConstituent]

theorem ends_close : Ends (')' :: rest) := by
  simp [Ends, isConstituent]

theorem ends_space : Ends (' ' :: rest) := by
  simp [Ends, isConstituent]

theorem ends_newline : Ends ('\n' :: rest) := by
  simp [Ends, isConstituent]

/-! ### Symbols and strings -/

/-- The text of a symbol. -/
structure IsSymbol (text : String) : Prop where
  nonempty : text.toList ≠ []
  constituents : ∀ c ∈ text.toList, isConstituent c = true

instance (text : String) : Decidable (IsSymbol text) :=
  decidable_of_iff (text.toList ≠ [] ∧ text.toList.all isConstituent = true)
    ⟨fun h => ⟨h.1, List.all_eq_true.mp h.2⟩,
      fun h => ⟨h.nonempty, List.all_eq_true.mpr h.constituents⟩⟩

theorem startAt_constituent {c : Char} (h : isConstituent c = true) (frames : List Frame) :
    startAt frames c = some ⟨frames, .symbol [c]⟩ := by
  have hblank : Segment.isBlank c = false := by
    cases hblank : Segment.isBlank c with
    | false => rfl
    | true =>
        simp only [Segment.isBlank, Bool.or_eq_true, decide_eq_true_eq] at hblank
        rcases hblank with ((rfl | rfl) | rfl) | rfl <;> exact absurd h (by decide)
  have hother : c ≠ '(' ∧ c ≠ ')' ∧ c ≠ '"' ∧ c ≠ '\'' := by
    refine ⟨?_, ?_, ?_, ?_⟩ <;> rintro rfl <;> exact absurd h (by decide)
  simp [startAt, hblank, hother, h]

theorem readOn_symbol (frames : List Frame) (text rest : List Char)
    (h : ∀ c ∈ rest, isConstituent c = true) :
    readOn ⟨frames, .symbol text⟩ rest = some ⟨frames, .symbol (text ++ rest)⟩ := by
  induction rest generalizing text with
  | nil => simp [readOn]
  | cons c rest ih =>
      rw [List.forall_mem_cons] at h
      rw [readOn_cons, step]
      simp only [h.1, if_true, Option.bind_some]
      rw [ih (text ++ [c]) h.2, List.append_assoc]
      rfl

theorem IsSymbol.reads {text : String} (h : IsSymbol text) (frames : List Frame) :
    Reads frames text.toList (deliver (.symbol text ()) frames) := by
  obtain ⟨hne, hall⟩ := h
  cases htext : text.toList with
  | nil => exact absurd htext hne
  | cons c rest =>
      rw [htext, List.forall_mem_cons] at hall
      refine ⟨⟨frames, .symbol (c :: rest)⟩, ?_, ?_⟩
      · rw [readOn_cons, step]
        dsimp only
        rw [startAt_constituent hall.1, Option.bind_some, readOn_symbol frames [c] rest hall.2]
        rfl
      · show some (deliver (.symbol (String.ofList (c :: rest)) ()) frames) = _
        rw [← htext, String.ofList_toList]

/-- Inside of a string, escaped text stands for itself. -/
theorem readOn_escape (frames : List Frame) (text rest : List Char) :
    readOn ⟨frames, .string text⟩ (escape rest) = some ⟨frames, .string (text ++ rest)⟩ := by
  induction rest generalizing text with
  | nil => simp [readOn, escape]
  | cons c rest ih =>
      rw [escape]
      split
      · rename_i hc
        rw [readOn_cons, step]
        simp only [Option.bind_some, Char.reduceEq, if_false, if_true]
        rw [readOn_cons, step]
        simp only [hc, if_true, Option.bind_some]
        rw [ih (text ++ [c]), List.append_assoc]
        rfl
      · rename_i hc
        simp only [Bool.or_eq_true, decide_eq_true_eq, not_or] at hc
        rw [readOn_cons, step]
        simp only [hc.1, hc.2, if_false, Option.bind_some]
        rw [ih (text ++ [c]), List.append_assoc]
        rfl

/-- A string literal is read as the string that it was made for. -/
theorem passes_quoted (text : String) (frames : List Frame) :
    Passes frames (quote text).toList (deliver (.string text) frames) := by
  have htext : (quote text).toList = '"' :: (escape text.toList ++ ['"']) := by
    simp [quote]
  have hstart : step ⟨frames, .between⟩ '"' = some ⟨frames, .string []⟩ := rfl
  rw [htext, Passes, readOn_cons, hstart, Option.bind_some, readOn_append, readOn_escape,
    Option.bind_some]
  simp [readOn, step]

/-! ### Texts of data -/

/-- A text that adds a datum to the list it stands in. -/
def Yields (text : String) (datum : Plain) : Prop :=
  ∀ items below, Reads (.list items :: below) text.toList (.list (items ++ [datum]) :: below)

theorem IsSymbol.yields {text : String} (h : IsSymbol text) : Yields text (.symbol text ()) :=
  fun items below => h.reads (.list items :: below)

theorem yields_quote (text : String) : Yields (quote text) (.string text) :=
  fun items below => (passes_quoted text (.list items :: below)).reads

theorem IsSymbol.yields_datum {name : Token} (h : IsSymbol name.lexeme) :
    Yields (datum name) (.quoted (.symbol name.lexeme ())) := by
  intro items below
  have htext : (datum name).toList = ['\''] ++ name.lexeme.toList := by
    rw [datum, String.toList_append]
    rfl
  rw [htext]
  exact passes_quote.then (h.reads (.quote :: .list items :: below))

/-- Operands, each behind a space. -/
def spaced (operands : List String) : List Char :=
  operands.flatMap fun operand => ' ' :: operand.toList

theorem toList_intercalate_cons (operator : String) (operands : List String) :
    (" ".intercalate (operator :: operands)).toList = operator.toList ++ spaced operands := by
  induction operands generalizing operator with
  | nil => simp [spaced]
  | cons operand rest ih =>
      rw [String.intercalate_cons_cons, String.toList_append, String.toList_append, ih, spaced,
        spaced, List.flatMap_cons, List.append_assoc]
      rfl

theorem ends_spaced (operands : List String) : Ends (spaced operands) := by
  cases operands with
  | nil => exact ends_nil
  | cons operand rest => exact ends_space

theorem reads_spaced {operands : List String} {data : List Plain}
    (h : List.Forall₂ Yields operands data) (items : List Plain) (below : List Frame) :
    Reads (.list items :: below) (spaced operands) (.list (items ++ data) :: below) := by
  induction h generalizing items with
  | nil => simpa [spaced] using (passes_nil (.list items :: below)).reads
  | @cons operand datum operands data hfirst _ ih =>
      have hrest := ih (items ++ [datum])
      rw [List.append_assoc] at hrest
      have hoperand := ((passes_blank (c := ' ') rfl).then (hfirst items below)).then
        (ends_spaced operands) hrest
      simpa [spaced] using hoperand

theorem Reads.close {items outer : List Plain}
    (h : Reads frames text (.list items :: .list outer :: below)) :
    Reads frames (text ++ [')']) (.list (outer ++ [.list items]) :: below) :=
  (h.passes ends_close (by simp) passes_close).reads

/-- The text of a list of symbols and other data. -/
theorem yields_list {operator : String} {datum : Plain} {operands : List String}
    {data : List Plain} (hoperator : Yields operator datum)
    (h : List.Forall₂ Yields operands data) :
    Yields (form operator operands) (.list (datum :: data)) := by
  intro items below
  have htext : (form operator operands).toList
      = ['('] ++ (operator.toList ++ spaced operands) ++ [')'] := by
    rw [form, String.toList_append, String.toList_append, toList_intercalate_cons]
    rfl
  rw [htext]
  exact (passes_open.then ((hoperator [] _).then (ends_spaced operands)
    (reads_spaced h [datum] _))).close

end Lox.Scheme
