import Lox.Main
import Lox.Proofs.Grammar.Exactness
import Lox.Proofs.Syntax.Trees
import Lox.Proofs.Source.Spelling
import Lox.Proofs.Grammar.Trees
import Lox.Proofs.Scope.Resolved
import Lox.Proofs.Scope.Acceptance
import Lox.Proofs.Session.Accepted
import Lox.Proofs.Machine.Frames
import Lox.Proofs.Machine.Scoped
import Lox.Proofs.Machine.Waiting
import Lox.Proofs.Machine.Preservation
import Lox.Proofs.Session.Reachable
import Lox.Proofs.Session.Names
import Lox.Proofs.Lexical.Evaluator
import Lox.Proofs.Lexical.Session
import Lox.Proofs.Grammar.Words
import Lox.Proofs.Scheme.Balance
import Lox.Proofs.Scheme.Meanings
import Lox.Proofs.Scheme.Programs
import Lox.Proofs.Scope.Exactness
import Lox.Proofs.Scheme.Binding
import Lox.Proofs.Session.Interference
import Lox.Proofs.Lexical.Refinement
import Lox.Proofs.Source.Tiling
import Lox.Proofs.Session.Counter
import Lox.Proofs.Session.Jumps
import Lox.Proofs.Session.Dispatch
import Lox.Proofs.Session.Pieces
import Lox.Proofs.Session.Restoring
import Lox.Proofs.Session.Recursion
import Lox.Proofs.Session.Initializers
import Lox.Proofs.Session.Origins
import Lox.Proofs.Grammar.Recovery
import Lox.Proofs.Machine.Environments
import Lox.Proofs.Grammar.Numbering
import Lox.Proofs.Scope.Distances
import Lox.Proofs.Scheme.Methods
import Lox.Proofs.Grammar.Resumption
import Lox.Proofs.Grammar.Operands
import Lox.Proofs.Grammar.Termination
import Lox.Proofs.Source.Rescanning
import Lox.Proofs.Scheme.Quoting
import Lox.Proofs.Scheme.Depths
import Lox.Proofs.Session.Shapes
import Lox.Proofs.Outline.Faithful
