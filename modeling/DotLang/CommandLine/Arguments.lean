/-!
# Arguments

What the program is asked to do. Options may come in any order, before and behind the input; short ones
may share a dash, and one that takes a value takes the rest of its argument or the next one.
-/

namespace DotLang.CommandLine

structure Options where
  /-- The path to read. -/
  input : String
  /-- The path to write to; without one the text goes to the standard output. -/
  output : Option String := none
  summary : Bool := false
  debug : Bool := false
deriving Repr, DecidableEq

inductive Stop
  | version
  | help
  | misuse
deriving Repr, DecidableEq

inductive Request
  | debug
  | summary
  | version
  | help
  /-- The output, whose path is the next argument if it is not here. -/
  | output (path : Option String)
  | unknown
deriving Repr, DecidableEq

namespace Request

def ofShort : List Char → List Request
  | [] => []
  | 'd' :: rest => debug :: ofShort rest
  | 's' :: rest => summary :: ofShort rest
  | 'V' :: _ => [version]
  | 'h' :: _ => [help]
  | ['o'] => [output none]
  | 'o' :: '=' :: path => [output (some (String.ofList path))]
  | 'o' :: path => [output (some (String.ofList path))]
  | _ => [unknown]

def ofLong (text : List Char) : Request :=
  let key := text.takeWhile (· ≠ '=')
  match String.ofList key, text.drop key.length with
  | "debug", [] => debug
  | "summary", [] => summary
  | "version", [] => version
  | "help", [] => help
  | "output", [] => output none
  | "output", _ :: path => output (some (String.ofList path))
  | _, _ => unknown

end Request

/-- What the next argument is taken for. -/
inductive Mode
  | any
  /-- The value of an option. -/
  | value
  /-- An input, whatever it looks like. -/
  | input
deriving Repr, DecidableEq

structure Draft where
  input : Option String := none
  output : Option String := none
  summary : Bool := false
  debug : Bool := false
  mode : Mode := .any

namespace Draft

def setInput (draft : Draft) (path : String) : Except Stop Draft :=
  if draft.input.isSome then .error .misuse else .ok { draft with input := some path }

def setOutput (draft : Draft) (path : String) : Except Stop Draft :=
  if draft.output.isSome then .error .misuse else .ok { draft with output := some path, mode := .any }

/-- Meets a request. None but a value may be repeated. -/
def meet (draft : Draft) : Request → Except Stop Draft
  | .debug => if draft.debug then .error .misuse else .ok { draft with debug := true }
  | .summary => if draft.summary then .error .misuse else .ok { draft with summary := true }
  | .version => .error .version
  | .help => .error .help
  | .output (some path) => draft.setOutput path
  | .output none => .ok { draft with mode := .value }
  | .unknown => .error .misuse

/-- Takes the next argument. A dash alone is a path. -/
def take (draft : Draft) (arg : String) : Except Stop Draft :=
  match draft.mode, arg.toList with
  | .input, _ => draft.setInput arg
  | .value, '-' :: _ :: _ => .error .misuse
  | .value, _ => draft.setOutput arg
  | .any, ['-', '-'] => .ok { draft with mode := .input }
  | .any, '-' :: '-' :: text => draft.meet (.ofLong text)
  | .any, '-' :: c :: text => (Request.ofShort (c :: text)).foldlM meet draft
  | .any, _ => draft.setInput arg

end Draft

/-- What all arguments ask for. An input is required, and no option may still wait for its value. -/
def Options.ofArguments (args : List String) : Except Stop Options := do
  let draft ← args.foldlM Draft.take {}
  match draft.input, draft.mode with
  | some input, .any | some input, .input =>
    return { input, output := draft.output, summary := draft.summary, debug := draft.debug }
  | _, _ => throw .misuse

end DotLang.CommandLine
