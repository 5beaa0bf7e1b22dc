import Lox.Diagnostic
import Lox.Token.Piece

/-!
# The tokens of a text

The tokens and lexical reports of a text are read off its pieces. A token has the line on
which its last character stands, a stray character its own line; a string or a comment that
is not closed is reported on the last line of the text. The list of tokens ends with one
end-of-input token on the last line.

## Main definitions

* `Scan`: the tokens of a text and what is wrong with it.
* `Scan.ofText`: the scan of a text.
-/

namespace Lox

namespace Piece

/-- The line on which a piece ends that begins on line `line`. -/
def lineBehind (line : Int) (p : Piece) : Int := line + newlines p.text

/-- The tokens among the pieces of a text from line `line` on, and the end of input. -/
def tokensFrom (line : Int) : List Piece → List Token
  | [] => [⟨.endOfInput, "", .nil, line⟩]
  | p :: ps =>
    match p with
    | token kind lexeme literal =>
      ⟨kind, String.ofList lexeme, literal, p.lineBehind line⟩ :: tokensFrom (p.lineBehind line) ps
    | _ => tokensFrom (p.lineBehind line) ps

/-- The lexical reports on the pieces of a text from line `line` on. -/
def reportsFrom (line : Int) : List Piece → List LexicalReport
  | [] => []
  | p :: ps =>
    match p with
    | stray c => ⟨line, .unexpectedCharacter c⟩ :: reportsFrom (p.lineBehind line) ps
    | openString _ => ⟨p.lineBehind line, .unterminatedString⟩ :: reportsFrom (p.lineBehind line) ps
    | openComment _ => ⟨p.lineBehind line, .unclosedComment⟩ :: reportsFrom (p.lineBehind line) ps
    | _ => reportsFrom (p.lineBehind line) ps

end Piece

/-- The tokens of a text, the end of input last, and its lexical reports. -/
structure Scan where
  tokens : List Token
  reports : List LexicalReport
  deriving DecidableEq, Repr, Inhabited

namespace Scan

/-- The scan of the pieces of a text. -/
def ofPieces (ps : List Piece) : Scan :=
  ⟨Piece.tokensFrom 1 ps, Piece.reportsFrom 1 ps⟩

/-- The scan of a text. -/
def ofText (source : String) : Scan :=
  ofPieces (Piece.split source.toList)

/-- The reports of a scan as diagnostics. -/
def diagnostics (s : Scan) : List Diagnostic :=
  s.reports.map .ofLexical

end Scan

end Lox
