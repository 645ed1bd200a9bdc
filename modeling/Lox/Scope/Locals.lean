/-
Distances by occurrence.

What the analysis of one program after the other has found about its occurrences, kept
for as long as functions of those programs may run.
-/
import Std.Data.TreeMap
import Lox.Scope.Analysis

namespace Lox.Scope

/-- How many frames out an occurrence is bound; one that is absent is a global. -/
abbrev Locals := Std.TreeMap Nat Nat

namespace Locals

/-- Adds what the analysis of a further program found. -/
def extend (locals : Locals) (found : List (Nat × Nat)) : Locals :=
  found.foldl (fun locals entry => locals.insert entry.1 entry.2) locals

/-- The entries by number of the occurrence. -/
def entries (locals : Locals) : List (Nat × Nat) :=
  locals.toList

end Locals

end Lox.Scope
