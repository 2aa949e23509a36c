import DotLang.Note

/-!
# Which records are shown

A filter is a list of directives, each with the least weight of the records it lets through. The one
with the longest target that a record's target begins with decides; without a directive, only errors
are shown.
-/

namespace DotLang.CommandLine

structure Record where
  level : Level
  target : String
  message : String
deriving Repr, DecidableEq

def Record.ofNote (note : Note) : Record := ⟨note.level, note.target, note.message⟩

/-- A record as it is printed. Lines of a message behind its first are indented. -/
def Record.text (record : Record) : String :=
  let level := record.level.name
  let padding := String.ofList (List.replicate (5 - level.length) ' ')
  let indent (c : Char) := if c = '\n' then "\n    ".toList else [c]
  "[" ++ level ++ padding ++ " " ++ record.target ++ "] " ++ String.ofList (record.message.toList.flatMap indent) ++ "\n"

structure Directive where
  /-- What targets begin with; the empty text for all of them. -/
  target : String := ""
  /-- The rank of the least weighty level that is shown; zero for none. -/
  rank : Nat
deriving Repr, DecidableEq

abbrev Filter := List Directive

namespace Filter

/-- The ranks that words stand for, in upper or lower case. -/
def rankOf? (word : String) : Option Nat :=
  match String.ofList (word.toList.map Char.toLower) with
  | "off" => some 0
  | "error" => some Level.error.rank
  | "warn" => some Level.warn.rank
  | "info" => some Level.info.rank
  | "debug" => some Level.debug.rank
  | "trace" => some Level.trace.rank
  | _ => none

def trim (text : List Char) : List Char :=
  ((text.dropWhile Char.isWhitespace).reverse.dropWhile Char.isWhitespace).reverse

def splitAt (separator : Char) : List Char → List (List Char)
  | [] => [[]]
  | c :: rest =>
    if c = separator then [] :: splitAt separator rest
    else match splitAt separator rest with
      | [] => [[c]]
      | part :: parts => (c :: part) :: parts

/-- A directive: a level, a target, or a target with its level. What cannot be one is returned. -/
def directive? (text : List Char) : Except String Directive :=
  match splitAt '=' text with
  | [word] =>
    match rankOf? (String.ofList word) with
    | some rank => .ok { rank }
    | none => .ok { target := String.ofList word, rank := Level.trace.rank }
  | [target, level] =>
    let target := String.ofList target
    let level := String.ofList (trim level)
    match level, rankOf? level with
    | "", _ => .ok { target, rank := Level.trace.rank }
    | _, some rank => .ok { target, rank }
    | _, none => .error level
  | _ => .error (String.ofList text)

/-- The directives between commas, and the warnings about those that are none. -/
def ofSpec (spec : String) : Filter × List String :=
  let parts := ((splitAt ',' spec.toList).map trim).filter (!·.isEmpty)
  (parts.map directive?).foldr
    (fun result (filter, warnings) =>
      match result with
      | .ok directive => (directive :: filter, warnings)
      | .error text => (filter, s!"warning: invalid logging spec '{text}', ignoring it\n" :: warnings))
    ([], [])

/-- The directive that decides on a target: the longest that fits, and the last of those alike. -/
def deciding? (filter : Filter) (target : String) : Option Directive :=
  filter.foldl
    (fun best directive =>
      if directive.target.toList.isPrefixOf target.toList
          && best.all (fun other => other.target.length ≤ directive.target.length) then some directive
      else best)
    none

def shows (filter : Filter) (record : Record) : Bool :=
  let filter := if filter.isEmpty then [{ rank := Level.error.rank }] else filter
  match deciding? filter record.target with
  | some directive => record.level.rank ≤ directive.rank
  | none => false

end Filter

end DotLang.CommandLine
