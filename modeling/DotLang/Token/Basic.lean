/-!
# Tokens

The words and signs that a document is made of. Keywords are written in any mixture of cases.
-/

namespace DotLang

inductive Keyword
  | graph
  | node
  | edge
  | digraph
  | strict
  | subgraph
deriving Repr, DecidableEq

namespace Keyword

def name : Keyword → String
  | graph => "graph"
  | node => "node"
  | edge => "edge"
  | digraph => "digraph"
  | strict => "strict"
  | subgraph => "subgraph"

def all : List Keyword := [graph, node, edge, digraph, strict, subgraph]

/-- The keyword that a word spells, with upper and lower case letters alike. -/
def ofName? (word : String) : Option Keyword :=
  all.find? fun keyword => keyword.name.toList == word.toList.map Char.toLower

end Keyword

inductive Token
  | eof
  | identifier (name : String)
  | numeral (text : String)
  | quoted (text : String)
  | html (markup : String)
  | keyword (word : Keyword)
  | equal
  | colon
  | comma
  | semicolon
  | plus
  | arrow
  | line
  | openBracket
  | closeBracket
  | openBrace
  | closeBrace
deriving Repr, DecidableEq

namespace Token

def isId : Token → Bool
  | identifier _ | numeral _ | quoted _ | html _ => true
  | _ => false

def isEdgeOp : Token → Bool
  | arrow | line => true
  | _ => false

def edgeOp (directed : Bool) : Token :=
  if directed then arrow else line

def ofSign? : Char → Option Token
  | '=' => some equal
  | ';' => some semicolon
  | ':' => some colon
  | ',' => some comma
  | '+' => some plus
  | '[' => some openBracket
  | ']' => some closeBracket
  | '{' => some openBrace
  | '}' => some closeBrace
  | _ => none

def describe : Token → String
  | eof => "end of input"
  | identifier name => "identifier '" ++ name ++ "'"
  | numeral text => "numeral '" ++ text ++ "'"
  | quoted text => "string \"" ++ text ++ "\""
  | html _ => "html string"
  | keyword word => "'" ++ word.name ++ "'"
  | equal => "'='"
  | colon => "':'"
  | comma => "','"
  | semicolon => "';'"
  | plus => "'+'"
  | arrow => "'->'"
  | line => "'--'"
  | openBracket => "'['"
  | closeBracket => "']'"
  | openBrace => "'\x7b'"
  | closeBrace => "'\x7d'"

end Token

end DotLang
