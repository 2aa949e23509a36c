import DotLang.Builder
import DotLang.Parser.Clause

/-!
# Statements and bodies

    stmt     : (graph | node | edge) attrs
             | id '=' id
             | endpoint attrs
             | subgraph
             | operand (op operand)+ attrs
    operand  : endpoint | subgraph
    subgraph : [subgraph [id]] '{' (stmt [';'])* '}' | subgraph id

Each statement goes to the builder as it is read. What reads a statement is given `body`, which reads
a nested body; the loop at the end ties the two together.
-/

namespace DotLang

def maxNesting : Nat := 128

namespace Parse

section
variable (body : Builder → Parse Builder)

/-! ## Groups -/

/-- A group with a body, of a name that was read; gives the names of its nodes. -/
def bracedGroup (builder : Builder) (name : String) : Parse (List String × Builder) := do
  if (← token) = .openBrace ∧ maxNesting ≤ (← get).depth then unexpected .shallowNesting
  expect .openBrace .openBrace
  modify fun parser => { parser with depth := parser.depth + 1 }
  let builder ← body (builder.openSubgraph name)
  modify fun parser => { parser with depth := parser.depth - 1 }
  note builder.closeNotes
  return builder.closeSubgraph

/-- A group; gives the names of its nodes. A name without a body refers to the group of that name. -/
def subgraph (builder : Builder) : Parse (List String × Builder) := do
  if (← token) = .keyword .subgraph then
    advance
    let name ← name
    if (← token) ≠ .openBrace ∧ ¬ name.isEmpty then return builder.referToSubgraph name
    else bracedGroup body builder name
  else bracedGroup body builder ""

/-! ## Edges -/

def operand (builder : Builder) : Parse (Operand × Builder) := do
  match ← token with
  | .keyword .subgraph | .openBrace =>
    let (names, builder) ← subgraph body builder
    return (.group names, builder)
  | token =>
    if token.isId then
      let node := (← ident).text
      return (.node (← endpoint node), builder)
    else unexpected .operand

/-- Goes on with edge operators and operands behind those of `chain`. -/
def chainFrom : (fuel : Nat) → Builder → (chain : List Operand) → Parse (List Operand × Builder)
  | 0, builder, chain => return (chain, builder)
  | fuel + 1, builder, chain => do
    if (← token).isEdgeOp then
      let directed := builder.kind.directed
      if (← token) ≠ .edgeOp directed then throw (.semantic (.wrongEdgeOp directed) (← get).loc)
      advance
      let (next, builder) ← operand body builder
      chainFrom fuel builder (chain ++ [next])
    else return (chain, builder)

def edgeStatement (builder : Builder) (first : Operand) : Parse Builder := do
  let (chain, builder) ← chainFrom body (← fuel) builder [first]
  return builder.connect chain (← attributes)

/-! ## Statements -/

def defaultsStatement (builder : Builder) (category : Category) : Parse Builder := do
  advance
  if (← token) = .openBracket then return builder.setDefaults category (← attributes)
  else unexpected .openBracket

def idStatement (builder : Builder) : Parse Builder := do
  let loc := (← get).loc
  let id ← ident
  if (← token) = .equal then
    advance
    ofEdit loc (builder.setAttribute id.text (← value))
  else
    let endpoint ← endpoint id.text
    if (← token).isEdgeOp then edgeStatement body builder (.node endpoint)
    else return builder.declareNode endpoint.node (← attributes)

def groupStatement (builder : Builder) : Parse Builder := do
  let (names, builder) ← subgraph body builder
  if (← token).isEdgeOp then edgeStatement body builder (.group names) else return builder

def statement (builder : Builder) : Parse Builder := do
  match ← token with
  | .keyword .graph => defaultsStatement builder .graph
  | .keyword .node => defaultsStatement builder .node
  | .keyword .edge => defaultsStatement builder .edge
  | .keyword .subgraph | .openBrace => groupStatement body builder
  | token => if token.isId then idStatement body builder else unexpected .statement

end

/-- The statements of a body up to the brace that closes it, which is passed. -/
def body : (fuel : Nat) → Builder → Parse Builder
  | 0, _ => unexpected .closeBrace
  | fuel + 1, builder => do
    match ← token with
    | .closeBrace =>
      advance
      return builder
    | .eof => unexpected .closeBrace
    | _ =>
      let builder ← statement (body fuel) builder
      if (← token) = .semicolon then advance
      body fuel builder

end Parse

end DotLang
