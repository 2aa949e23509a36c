import DotLang.Note
import DotLang.Token.Lexer

/-!
# The state of a parser

A parser reads one token ahead. All of its state outlives a failure: where the lexer stands, the token
it holds, how many bodies it took to be open, and the notes it has taken.
-/

namespace DotLang

structure Parser where
  lexer : Lexer
  /-- The token in hand, and where it stands. -/
  token : Token := .eof
  loc : Location := {}
  /-- The number of group bodies that are open. -/
  depth : Nat := 0
  notes : List Note := []

def Parser.ofString (text : String) : Parser := { lexer := .ofString text }

theorem Parser.ofString_ofList (text : List Char) : ofString (String.ofList text) = { lexer := ⟨text, {}⟩ } := by
  rw [ofString, Lexer.ofString_ofList]

abbrev Parse := EStateM Error Parser

namespace Parse

def advance : Parse Unit := fun parser =>
  match parser.lexer.next with
  | (.ok (token, loc), lexer) => .ok () { parser with lexer, token, loc }
  | (.error error, lexer) => .error error { parser with lexer }

def token : Parse Token := return (← get).token

def note (notes : List Note) : Parse Unit :=
  modify fun parser => { parser with notes := parser.notes ++ notes }

def unexpected {α : Type} (wanted : Expectation) : Parse α := do
  let parser ← get
  throw (.unexpected parser.token.describe wanted parser.loc)

/-- Passes a token, which must be in hand. -/
def expect (token : Token) (wanted : Expectation) : Parse Unit := do
  if (← Parse.token) = token then advance else unexpected wanted

/-- The result of an edit, whose failure points at `loc`. -/
def ofEdit {α : Type} (loc : Location) : Except Error α → Parse α
  | .ok result => return result
  | .error error => throw (error.located loc)

/-- More than the number of tokens that are left, the one in hand among them. Loops that pass a token in
each round end within as many rounds. -/
def fuel : Parse Nat := return (← get).lexer.rest.length + 2

end Parse

end DotLang
