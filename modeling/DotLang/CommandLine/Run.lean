import DotLang.CommandLine.Arguments
import DotLang.CommandLine.Filter
import DotLang.Parser.Document
import DotLang.Summary
import DotLang.Text.Diagnostic

/-!
# A run of the program

The program reads a document, checks it, and writes it in its canonical form to a file or to the
standard output. How files are read and written is a parameter: a run is the same whether they are
those of the system or values in memory.
-/

namespace DotLang.CommandLine

/-- Access to files. A failure is the system's text for it. -/
structure Files (m : Type → Type) where
  read : (path : String) → m (Except String ByteArray)
  write : (path content : String) → m (Except String Unit)

/-- What a run prints, and the code it ends with. -/
structure Outcome where
  exitCode : Nat := 0
  stdout : String := ""
  stderr : String := ""
deriving Repr, DecidableEq

def versionText : String := "dotgraph 0.1.0\n"

def usageText : String := "Usage: dotgraph [OPTIONS] <INPUT>\n"

def helpText : String :=
  String.join (List.map (· ++ "\n")
    ["Parses a GraphViz file and writes it in canonical DOT form",
      "",
      usageText,
      "Arguments:",
      "  <INPUT>  Sets the input file to use",
      "",
      "Options:",
      "  -d, --debug          Enables debug logging",
      "  -s, --summary        Print a summary of the graph hierarchy",
      "  -o, --output <FILE>  Path of the output file (default: stdout)",
      "  -h, --help           Print help",
      "  -V, --version        Print version"])

def Stop.outcome : Stop → Outcome
  | .version => { stdout := versionText }
  | .help => { stdout := helpText }
  | .misuse => { exitCode := 2, stderr := usageText }

namespace Outcome

def print (outcome : Outcome) (text : String) : Outcome :=
  { outcome with stdout := outcome.stdout ++ text }

def printError (outcome : Outcome) (text : String) : Outcome :=
  { outcome with stderr := outcome.stderr ++ text }

def log (outcome : Outcome) (filter : Filter) (records : List Record) : Outcome :=
  outcome.printError (String.join ((records.filter filter.shows).map Record.text))

/-- Ends with the code for failure, after records of errors. -/
def fail (outcome : Outcome) (filter : Filter) (messages : List String) : Outcome :=
  { outcome.log filter (messages.map fun message => ⟨.error, "dotgraph", message⟩) with exitCode := 1 }

end Outcome

/-- The text in bytes that were read, or the failure to read them. -/
def decodeText (bytes : Except String ByteArray) : Except String String := do
  match String.fromUTF8? (← bytes) with
  | some text => return text
  | none => throw "stream did not contain valid UTF-8"

section
variable {m : Type → Type} [Monad m] (files : Files m)

def writeGraph (options : Options) (filter : Filter) (graph : Graph) (outcome : Outcome) : m Outcome := do
  let content := graph.toDot
  match options.output with
  | none => return outcome.print content
  | some path =>
    match ← files.write path content with
    | .ok _ =>
      return outcome.log filter
        [.ofNote (.wrote content.utf8ByteSize path), ⟨.info, "dotgraph", "Wrote " ++ path⟩]
    | .error problem =>
      return outcome.fail filter ["Could not write the file " ++ path, "Error " ++ problem]

def process (options : Options) (filter : Filter) (outcome : Outcome) : m Outcome := do
  match decodeText (← files.read options.input) with
  | .error problem =>
    return outcome.fail filter ["Can't open the file " ++ options.input, "Error " ++ problem]
  | .ok source =>
    let (result, parser) := (Parser.ofString source).process
    let outcome := outcome.log filter (parser.notes.map .ofNote)
    match result with
    | .error error =>
      let outcome := match error.location? with
        | some loc => outcome.printError (caretDiagnostic source loc)
        | none => outcome
      return outcome.fail filter ["Error: " ++ error.message]
    | .ok graph =>
      let outcome := if options.summary then outcome.print graph.summary else outcome
      writeGraph files options filter graph outcome

/-- A run with arguments, and with a specification of the records to show if there is one. Asking for
debug output shows all records of that weight. -/
def run (args : List String) (spec : Option String) : m Outcome := do
  match Options.ofArguments args with
  | .error stop => return stop.outcome
  | .ok options =>
    let (directives, warnings) := Filter.ofSpec (spec.getD "")
    let filter := if options.debug then directives ++ [{ rank := Level.debug.rank }] else directives
    process files options filter (Outcome.printError {} (String.join warnings))

end

end DotLang.CommandLine
