import Lox.Main
import Lox.Token.Piece.Lossless
import Lox.Proofs.Execution.Restoration
import Lox.Proofs.Execution.CallTree
import Lox.Proofs.Execution.Return
import Lox.Proofs.Grammar.Language
import Lox.Proofs.Grammar.Linearisation
import Lox.Proofs.Execution.Likeness
import Lox.Proofs.Execution.Simulation
import Lox.Proofs.Execution.Invariant
import Lox.Proofs.Execution.Frame
import Lox.Proofs.Execution.Caller
import Lox.Proofs.Execution.Fallback
import Lox.Proofs.Execution.Renaming
import Lox.Proofs.Execution.Locality
import Lox.Proofs.Grammar.Boundary
import Lox.Proofs.Grammar.Sequence
import Lox.Proofs.Execution.Layout
import Lox.Proofs.Grammar.FirstError
import Lox.Proofs.Grammar.Isolation
import Lox.Proofs.Grammar.Omission
import Lox.Proofs.Grammar.Origin
import Lox.Proofs.Execution.ForLoop
import Lox.Proofs.Execution.Chronology
import Lox.Proofs.Execution.Custody
import Lox.Proofs.Execution.Heap
import Lox.Proofs.Execution.Binding
import Lox.Proofs.Execution.Echo
import Lox.Proofs.Execution.Pieces
import Lox.Proofs.Token.Opening
import Lox.Proofs.Execution.Verdict
import Lox.Proofs.Execution.Dialogue
import Lox.Proofs.Execution.Spelling
import Lox.Proofs.Execution.Blame
import Lox.Proofs.Token.Respacing
import Lox.Proofs.Token.Line
import Lox.Proofs.Token.Remark
import Lox.Proofs.Grammar.Fragment
import Lox.Proofs.Execution.BareExpression
import Lox.Proofs.Grammar.Brackets
import Lox.Proofs.Grammar.Capacity
import Lox.Proofs.Execution.Ownership
import Lox.Proofs.Execution.Travel
import Lox.Proofs.Token.Highlighting
import Lox.Proofs.Token.Searching
import Lox.Proofs.Rendering.Parenthesised
import Lox.Proofs.Rendering.Postfix
