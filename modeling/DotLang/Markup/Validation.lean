import DotLang.Markup.Event

/-!
# Well formed markup

Markup is accepted when it is one element: outside of it only blank text, comments, declarations,
instructions and document types may stand. The check counts open elements and elements that stand at
the top, over the events of the reader.
-/

namespace DotLang.Markup

inductive Fault
  /-- The reader stopped, at an offset in the markup. -/
  | unreadable (fault : ReadFault) (offset : Nat)
  | unbalancedClose
  | looseText
  | looseCdata
  | unclosed
  | noRoot
  | severalRoots
deriving Repr, DecidableEq

def Fault.message : Fault → String
  | .unreadable fault offset => s!"{fault.message} (at markup offset {offset})"
  | .unbalancedClose => "unbalanced closing tag"
  | .looseText => "text outside of the root element"
  | .looseCdata => "CDATA outside of the root element"
  | .unclosed => "unclosed element"
  | .noRoot => "expected a root element"
  | .severalRoots => "expected a single root element"

/-- How many elements are open, and how many stood at the top so far. -/
structure Tally where
  depth : Nat := 0
  roots : Nat := 0
deriving Repr, DecidableEq

namespace Tally

def root (tally : Tally) : Tally :=
  if tally.depth = 0 then { tally with roots := tally.roots + 1 } else tally

/-- Counts an event, or refuses it where it stands. Blank text may stand anywhere; a form feed counts
as blank here. -/
def add (tally : Tally) : Event → Except Fault Tally
  | .start _ => .ok { tally.root with depth := tally.depth + 1 }
  | .close _ =>
    if tally.depth = 0 then .error .unbalancedClose else .ok { tally with depth := tally.depth - 1 }
  | .empty => .ok tally.root
  | .text content =>
    if tally.depth = 0 && !content.all (fun c => c.isWhitespace || c = '\x0c') then .error .looseText
    else .ok tally
  | .cdata => if tally.depth = 0 then .error .looseCdata else .ok tally
  | .aside => .ok tally

end Tally

/-- The events of a text; a byte order mark in front of it does not count. -/
def events (text : List Char) : Reading :=
  match text with
  | '\uFEFF' :: rest => read [] 0 rest
  | _ => read [] 0 text

/-- Judges a reading: the first event that cannot stand where it stands, then the reader's fault, then
the counts at the end. -/
def Reading.judge (reading : Reading) : Except Fault Unit := do
  let tally ← reading.events.foldlM Tally.add {}
  if let some (fault, offset) := reading.fault then throw (.unreadable fault offset)
  if tally.depth ≠ 0 then throw .unclosed
  match tally.roots with
  | 0 => throw .noRoot
  | 1 => return ()
  | _ => throw .severalRoots

def validate (text : List Char) : Except Fault Unit :=
  (events text).judge

end DotLang.Markup
