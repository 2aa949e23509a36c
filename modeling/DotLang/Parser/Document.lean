import DotLang.Parser.Statement

/-!
# Documents

    document : [strict] (graph | digraph) [id] '{' (stmt [';'])* '}'

A parser reads one document at a time, and the text must end behind it.
-/

namespace DotLang

namespace Parse

/-- Whether a graph is directed, by its keyword. -/
def directedness : Parse Bool := do
  match ← token with
  | .keyword .graph =>
    advance
    return false
  | .keyword .digraph =>
    advance
    return true
  | _ => unexpected .graphKeyword

def graph : Parse Graph := do
  let strict := (← token) = .keyword .strict
  if strict then advance
  let directed ← directedness
  let name ← name
  expect .openBrace .openBrace
  let builder ← body (← fuel) (Builder.new name ⟨directed, strict⟩).enterScope
  return builder.leaveScope.graph

def document : Parse Graph := do
  advance
  let graph ← graph
  if (← token) ≠ .eof then unexpected .endOfInput
  note [.parsed graph.kind graph.nodes.size graph.edges.length]
  return graph

end Parse

namespace Parser

/-- Runs an action; whether it fails or not, the parser goes on from where it stopped. -/
def run {α : Type} (parser : Parser) (action : Parse α) : Except Error α × Parser :=
  match EStateM.run action parser with
  | .ok result parser => (.ok result, parser)
  | .error error parser => (.error error, parser)

def process (parser : Parser) : Except Error Graph × Parser :=
  parser.run Parse.document

end Parser

/-- The graph that a text describes. -/
def parse (text : String) : Except Error Graph :=
  (Parser.ofString text).process.1

end DotLang
