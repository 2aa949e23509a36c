/-!
# Positions in a source text

A text is a list of characters; a position counts the UTF-8 bytes in front of it, its line and its
column, which counts bytes too. A line ends with a line feed, with a carriage return, or with the two
of them in that order.
-/

namespace DotLang

/-- The number of bytes of a text in UTF-8. -/
def byteLength (text : List Char) : Nat :=
  text.foldr (fun c bytes => c.utf8Size + bytes) 0

@[simp] theorem byteLength_nil : byteLength [] = 0 := rfl

@[simp] theorem byteLength_cons (c : Char) (text : List Char) :
    byteLength (c :: text) = c.utf8Size + byteLength text := rfl

@[simp] theorem byteLength_append (a b : List Char) : byteLength (a ++ b) = byteLength a + byteLength b := by
  induction a with
  | nil => simp
  | cons c a ih => simp [ih, Nat.add_assoc]

/-- A position in a source text. Offsets start at zero, lines and columns at one. -/
structure Location where
  offset : Nat := 0
  line : Nat := 1
  column : Nat := 1
deriving Repr, DecidableEq, Inhabited

namespace Location

instance : ToString Location where
  toString loc := s!"byte {loc.offset} (line {loc.line}, column {loc.column})"

/-- Whether the character `c` ends a line when `rest` follows it: a carriage return before a line feed
leaves that to the line feed. -/
def endsLine (c : Char) (rest : List Char) : Bool :=
  c = '\n' || (c = '\r' && rest.head? ≠ some '\n')

/-- The position behind the character `c`, which stands at `loc` with `rest` after it. -/
def after (loc : Location) (c : Char) (rest : List Char) : Location :=
  if endsLine c rest then ⟨loc.offset + c.utf8Size, loc.line + 1, 1⟩
  else ⟨loc.offset + c.utf8Size, loc.line, loc.column + c.utf8Size⟩

@[simp] theorem offset_after (loc : Location) (c : Char) (rest : List Char) :
    (loc.after c rest).offset = loc.offset + c.utf8Size := by
  unfold after; split <;> rfl

end Location

end DotLang
