import DotLang.Parser.Basic

/-!
# IDs, endpoints and attribute lists

The parts of statements that do not change the graph.

    id       : identifier | numeral | html | string ('+' string)*
    endpoint : id [':' id [':' compass]]
    attrs    : ('[' (id '=' id [';' | ','])* ']')*
-/

namespace DotLang

/-- An ID. That of markup gives a markup value where a value is wanted. -/
inductive Ident
  | plain (text : String)
  | html (markup : String)
deriving Repr, DecidableEq

def Ident.text : Ident → String
  | plain text | html text => text

def Ident.value : Ident → AttrValue
  | plain text => .string text
  | html markup => .markup markup

namespace Parse

/-! ## IDs -/

def concatenation : (fuel : Nat) → String → Parse String
  | 0, text => return text
  | fuel + 1, text => do
    if (← token) = .plus then
      advance
      match ← token with
      | .quoted more =>
        advance
        concatenation fuel (text ++ more)
      | _ => unexpected .quotedString
    else return text

def ident : Parse Ident := do
  match ← token with
  | .identifier text | .numeral text =>
    advance
    return .plain text
  | .html markup =>
    advance
    return .html markup
  | .quoted text =>
    advance
    return .plain (← concatenation (← fuel) text)
  | _ => unexpected .id

/-- The name of a graph or a group, which may be missing. -/
def name : Parse String := do
  if (← token).isId then return (← ident).text else return ""

def value : Parse AttrValue := do
  if (← token).isId then return (← ident).value else unexpected .value

/-! ## Endpoints -/

/-- The compass point that a token names. A quoted one is a port. -/
def compassOf? : Token → Option Compass
  | .identifier name => Compass.ofName? name
  | _ => none

/-- The port and the side behind a node. One alone is a side if it is spelled like one and not quoted. -/
def endpoint (node : String) : Parse Endpoint := do
  if (← token) = .colon then
    advance
    let alone := compassOf? (← token)
    let port := (← ident).text
    if (← token) = .colon then
      advance
      match compassOf? (← token) with
      | some compass =>
        advance
        return { node, port := some port, compass := some compass }
      | none => unexpected .compass
    else
      match alone with
      | some compass => return { node, compass := some compass }
      | none => return { node, port := some port }
  else return { node }

/-! ## Attribute lists -/

def assignment (attrs : Attributes) : Parse Attributes := do
  let loc := (← get).loc
  let name := (← ident).text
  expect .equal .equals
  let attrs ← ofEdit loc (attrs.set name (← value))
  if (← token) = .semicolon ∨ (← token) = .comma then advance
  return attrs

/-- Goes on inside of brackets, and through further brackets that follow. -/
def attributeList : (fuel : Nat) → Attributes → Parse Attributes
  | 0, attrs => return attrs
  | fuel + 1, attrs => do
    if (← token) = .closeBracket then
      advance
      if (← token) = .openBracket then
        advance
        attributeList fuel attrs
      else return attrs
    else if (← token).isId then attributeList fuel (← assignment attrs)
    else unexpected .attributeName

/-- The attributes in all brackets from here on. -/
def attributes : Parse Attributes := do
  if (← token) = .openBracket then
    advance
    attributeList (← fuel) ∅
  else return ∅

end Parse

end DotLang
