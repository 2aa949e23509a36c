import DotLang.Proofs.Grammar.Acceptance

/-!
# Texts and their documents

A text reads as a document if its tokens are those of the document, taken as a parser takes them. Then, and
only then, it is accepted, and the graph is that of the document.
-/

namespace DotLang.Grammar

structure Document.Reads (doc : Document) (text : String) : Prop where
  greedy : doc.Greedy
  admissible : doc.Admissible
  tokens : (Lexer.ofString text).tokens = (doc.tokens ++ [Token.eof]).map .ok

theorem Document.Reads.parse {doc : Document} {text : String} (h : doc.Reads text) : parse text = .ok doc.graph :=
  parse_complete h.greedy h.admissible h.tokens

/-- A text is accepted if and only if it reads as a document. -/
theorem accepted_iff_reads (text : String) : (∃ graph, parse text = .ok graph) ↔ ∃ doc : Document, doc.Reads text := by
  rw [accepted_iff_derivable]
  constructor
  · rintro ⟨doc, ha, ht⟩
    rw [← doc.tokens_regroup] at ht
    exact ⟨doc.regroup, doc.greedy_regroup, Document.admissible_regroup ha, ht⟩
  · rintro ⟨doc, h⟩
    exact ⟨doc, h.admissible, h.tokens⟩

instance : DecidableEq (Except Error Token)
  | .ok a, .ok b => decidable_of_iff (a = b) ⟨congrArg Except.ok, Except.ok.inj⟩
  | .error a, .error b => decidable_of_iff (a = b) ⟨congrArg Except.error, Except.error.inj⟩
  | .ok _, .error _ => isFalse nofun
  | .error _, .ok _ => isFalse nofun

end DotLang.Grammar
