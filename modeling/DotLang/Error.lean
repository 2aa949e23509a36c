import DotLang.Markup.Validation

/-!
# What can go wrong

Every failure of reading or editing a graph, as its cause and the place it points at. The words are
made from the cause in one place each; a `custom` cause is a failure described by its own words.
-/

namespace DotLang

inductive LexicalFault
  | unterminatedComment
  | unterminatedString
  | unterminatedMarkup
  | malformedMarkup (fault : Markup.Fault)
  /-- A character that could begin a numeral or an edge operator, and does not. -/
  | strayCharacter (c : Char)
  /-- A character that begins no token; it is told by its byte. -/
  | strayByte (c : Char)
  | custom (text : String)
deriving Repr, DecidableEq

/-- What would have been right where another token was met. -/
inductive Expectation
  | graphKeyword
  | openBrace
  | closeBrace
  | openBracket
  | statement
  | id
  | value
  | quotedString
  | compass
  | attributeName
  | equals
  | operand
  | endOfInput
  | shallowNesting
  | custom (text : String)
deriving Repr, DecidableEq

/-- A document of the right shape that does not describe a graph. -/
inductive SemanticFault
  /-- The edge operator of the other kind, in a graph that is directed or not. -/
  | wrongEdgeOp (directed : Bool)
  | custom (text : String)
deriving Repr, DecidableEq

/-- An attribute that cannot be kept, since it could not be written. -/
inductive AttributeFault
  | emptyName
  | unquotable
  | malformedMarkup (fault : Markup.Fault)
  | custom (text : String)
deriving Repr, DecidableEq

def hexByte (n : Nat) : String :=
  String.ofList [Nat.digitChar (n / 16 % 16), Nat.digitChar (n % 16)]

def LexicalFault.message : LexicalFault → String
  | .unterminatedComment => "unterminated block comment"
  | .unterminatedString => "unterminated quoted string"
  | .unterminatedMarkup => "unterminated html string"
  | .malformedMarkup fault => "invalid markup in html string: " ++ fault.message
  | .strayCharacter c => "unexpected character '" ++ c.toString ++ "'"
  | .strayByte c => "unexpected byte 0x" ++ hexByte c.toNat
  | .custom text => text

def Expectation.message : Expectation → String
  | .graphKeyword => "expected 'graph' or 'digraph'"
  | .openBrace => "expected '\x7b'"
  | .closeBrace => "expected '\x7d'"
  | .openBracket => "expected '['"
  | .statement => "expected a statement"
  | .id => "expected an ID"
  | .value => "expected a value after '='"
  | .quotedString => "expected a quoted string after '+'"
  | .compass => "expected a compass point"
  | .attributeName => "expected an attribute name or ']'"
  | .equals => "expected '='"
  | .operand => "expected a node or a subgraph"
  | .endOfInput => "expected the end of the input"
  | .shallowNesting => "subgraphs are nested too deeply"
  | .custom text => text

def SemanticFault.message : SemanticFault → String
  | .wrongEdgeOp true => "'--' is not allowed in a digraph, use '->'"
  | .wrongEdgeOp false => "'->' is not allowed in a graph, use '--'"
  | .custom text => text

def AttributeFault.message : AttributeFault → String
  | .emptyName => "attribute names must be non-empty strings"
  | .unquotable => "odd runs of backslashes must be followed by another character"
  | .malformedMarkup fault => "invalid markup value: " ++ fault.message
  | .custom text => text

/-- A failure. Only that of an attribute can be without a place. -/
inductive Error
  | lexical (fault : LexicalFault) (loc : Location)
  /-- A token, described by `found`, that cannot go on with what was read. -/
  | unexpected (found : String) (wanted : Expectation) (loc : Location)
  | semantic (fault : SemanticFault) (loc : Location)
  | attribute (fault : AttributeFault) (loc : Option Location)
deriving Repr, DecidableEq

namespace Error

def location? : Error → Option Location
  | .lexical _ loc | .unexpected _ _ loc | .semantic _ loc => some loc
  | .attribute _ loc => loc

def located (error : Error) (loc : Location) : Error :=
  match error with
  | .attribute fault none => .attribute fault (some loc)
  | _ => error

def detail : Error → String
  | .lexical fault _ => fault.message
  | .unexpected _ wanted _ => wanted.message
  | .semantic fault _ => fault.message
  | .attribute fault _ => fault.message

def message (error : Error) : String :=
  match error with
  | .lexical _ loc => s!"lexical error at {loc}: {error.detail}"
  | .unexpected found _ loc => s!"syntax error at {loc}: unexpected {found}, {error.detail}"
  | .semantic _ loc => s!"semantic error at {loc}: {error.detail}"
  | .attribute _ _ => s!"invalid attribute: {error.detail}"

end Error

end DotLang
