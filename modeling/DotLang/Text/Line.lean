/-!
# Indented lines

Output is made line by line. A line knows how deep it is nested; each level is four spaces.
-/

namespace DotLang

structure Line where
  depth : Nat
  text : String
deriving Repr, DecidableEq

/-- The characters of a line, with its indentation and its end. -/
def Line.chars (line : Line) : List Char :=
  List.replicate (4 * line.depth) ' ' ++ line.text.toList ++ ['\n']

/-- The text that lines make up. -/
def joinLines (lines : List Line) : String :=
  String.ofList (lines.flatMap Line.chars)

end DotLang
