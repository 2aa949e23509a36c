import DotLang.Proofs.Grammar.Completeness
import DotLang.Proofs.Grammar.Soundness

/-!
# The language of the parser

Soundness and completeness together. A derivation that is not greedy is regrouped first, since no parser
finds it as it is.
-/

namespace DotLang.Grammar

theorem Document.admissible_regroup {doc : Document} (h : doc.Admissible) : doc.regroup.Admissible :=
  doc.body.admissible_regroup h

theorem Document.greedy_regroup (doc : Document) : doc.regroup.Greedy := doc.body.greedy_regroup

/-- A text is accepted if and only if it is read to its end as the tokens of a derivation that is
admissible. -/
theorem accepted_iff_derivable (text : String) :
    (∃ graph, parse text = .ok graph) ↔
      ∃ doc : Document, doc.Admissible ∧
        (Lexer.ofString text).tokens = (doc.tokens ++ [Token.eof]).map .ok := by
  constructor
  · rintro ⟨graph, h⟩
    obtain ⟨doc, ha, -, ht⟩ := parse_sound h
    exact ⟨doc, ha, ht⟩
  · rintro ⟨doc, ha, ht⟩
    rw [← doc.tokens_regroup] at ht
    exact ⟨_, parse_complete doc.greedy_regroup (Document.admissible_regroup ha) ht⟩

/-- The same of any parser, for which the bodies count that it takes to be open. -/
theorem accepts_iff_derivable (p : Parser) :
    (∃ graph q, p.process = (.ok graph, q)) ↔
      ∃ doc : Document, doc.body.Admissible doc.directed p.depth ∧
        p.lexer.tokens = (doc.tokens ++ [Token.eof]).map .ok := by
  constructor
  · rintro ⟨graph, q, h⟩
    obtain ⟨doc, ha, -, ht⟩ := process_sound h
    exact ⟨doc, ha, ht⟩
  · rintro ⟨doc, ha, ht⟩
    rw [← doc.tokens_regroup] at ht
    exact ⟨_, process_complete doc.greedy_regroup (doc.body.admissible_regroup ha) ht⟩

end DotLang.Grammar
