import DotLang.Text.Location

/-!
# Pointing at a position

A position is shown as the source up to its line, with a caret below its column. Lines are split at
line feeds here, and a carriage return before a line feed goes with it; one that stands alone stays in
its line.
-/

namespace DotLang

/-- The lines of a text, without their ends. A line feed at the very end begins no further line. -/
def sourceLines : List Char → List (List Char)
  | [] => []
  | '\n' :: rest => [] :: sourceLines rest
  | '\r' :: '\n' :: rest => [] :: sourceLines rest
  | c :: rest =>
    match sourceLines rest with
    | [] => [[c]]
    | line :: lines => (c :: line) :: lines

theorem sourceLines_feed (rest : List Char) : sourceLines ('\n' :: rest) = [] :: sourceLines rest := rfl

theorem sourceLines_pair (rest : List Char) : sourceLines ('\r' :: '\n' :: rest) = [] :: sourceLines rest := rfl

/-- The lines up to that of a position, or all if it is beyond the last, and a caret in its column. -/
def caretDiagnostic (source : String) (loc : Location) : String :=
  let lines := sourceLines source.toList
  let shown := if loc.line = 0 then lines else lines.take loc.line
  String.ofList ((shown ++ [List.replicate (loc.column - 1) ' ' ++ ['^']]).flatMap (· ++ ['\n']))

end DotLang
