import DotLang.Graph.Query
import DotLang.Graph.Edit
import DotLang.Main
import DotLang.Proofs.Attributes
import DotLang.Proofs.Nodes
import DotLang.Proofs.Hierarchy
import DotLang.Proofs.Attaching
import DotLang.Proofs.Everywhere
import DotLang.Proofs.Editing
import DotLang.Proofs.Builder.Steps
import DotLang.Proofs.Builder.Distinct
import DotLang.Proofs.Builder.Rooted
import DotLang.Proofs.Builder.Edges
import DotLang.Proofs.Grammar.Tree
import DotLang.Proofs.Grammar.Acceptance
import DotLang.Proofs.WellFormed
import DotLang.Proofs.Builder.Built
import DotLang.Proofs.Values
import DotLang.Proofs.Alike
import DotLang.Proofs.Builder.Holding
import DotLang.Proofs.Builder.Closing
import DotLang.Proofs.Builder.Naming
import DotLang.Proofs.Builder.Referring
import DotLang.Proofs.Builder.Reopening
import DotLang.Proofs.Builder.Gaining
import DotLang.Proofs.Grammar.Reading
import DotLang.Proofs.Grammar.Mentions
import DotLang.Proofs.Grammar.Surroundings
import DotLang.Proofs.Grammar.Replay
import DotLang.Proofs.Writing.Document
import DotLang.Proofs.Writing.Gathering
import DotLang.Proofs.Writing.Nesting
import DotLang.Proofs.Writing.Parsed
import DotLang.Proofs.Writing.Stability
import DotLang.Proofs.Writing.Bracketing
import DotLang.Proofs.Merging
import DotLang.Proofs.Grammar.Boundaries
import DotLang.Proofs.Grammar.Ending
import DotLang.Proofs.Positions
import DotLang.Proofs.Reporting
import DotLang.Proofs.Pointing
import DotLang.Proofs.Grammar.Counting
import DotLang.Proofs.Lexical.Calls
import DotLang.Proofs.Lexical.Markup
import DotLang.Proofs.Bytes.Calls
import DotLang.Proofs.Elements
import DotLang.Proofs.Writing.Strings
import DotLang.Proofs.Removal
import DotLang.Proofs.Retention
import DotLang.Proofs.Strictness
import DotLang.Proofs.Builder.Connecting
import DotLang.Proofs.Adjacency
import DotLang.Proofs.Searching
import DotLang.Proofs.Detaching
import DotLang.Proofs.Indexing
import DotLang.Proofs.Collections
import DotLang.Proofs.Scoping
import DotLang.Proofs.Writing.Endpoints
import DotLang.Proofs.Writing.AttributeLines
import DotLang.Proofs.Grammar.Consumption
