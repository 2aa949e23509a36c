import DotLang.Proofs.Grammar.Soundness
import DotLang.Proofs.Writing.RoundTrip

/-!
# How deep braces stand

Tokens alone tell how many braces are open at once. A derivation that is admissible keeps to the limit, and
the document of a graph needs as many as its groups are deep. So a graph that is deeper than the limit has
a text that is not parsed.
-/

namespace DotLang
open Grammar

/-- The number of braces that are open behind tokens, if there never are more than `limit`. -/
def nest (limit : Nat) : (depth : Nat) → List Token → Option Nat
  | depth, [] => some depth
  | depth, .openBrace :: rest => if depth < limit then nest limit (depth + 1) rest else none
  | depth, .closeBrace :: rest => nest limit (depth - 1) rest
  | depth, _ :: rest => nest limit depth rest

/-! ## Tokens that close what they open -/

/-- Tokens without braces. -/
def Flat (tokens : List Token) : Prop := ∀ token ∈ tokens, token ≠ .openBrace ∧ token ≠ .closeBrace

/-- Tokens that leave the number of open braces as it is and keep to the limit. -/
def Closes (limit depth : Nat) (tokens : List Token) : Prop :=
  ∀ rest, nest limit depth (tokens ++ rest) = nest limit depth rest

section
variable {limit depth : Nat}

theorem Closes.append {a b : List Token} (ha : Closes limit depth a) (hb : Closes limit depth b) :
    Closes limit depth (a ++ b) := by
  intro rest
  rw [List.append_assoc, ha, hb]

theorem Flat.closes : ∀ {tokens : List Token}, Flat tokens → Closes limit depth tokens
  | [], _, _ => rfl
  | token :: tokens, h, rest => by
    unfold Flat at h
    rw [List.forall_mem_cons] at h
    have ih : nest limit depth (tokens ++ rest) = nest limit depth rest := Flat.closes h.2 rest
    obtain ⟨⟨hopen, hclose⟩, -⟩ := h
    cases token <;> first | exact ih | contradiction

theorem closes_braces {tokens : List Token} (hd : depth < limit) (h : Closes limit (depth + 1) tokens) :
    Closes limit depth (.openBrace :: (tokens ++ [.closeBrace])) := by
  intro rest
  rw [List.cons_append, nest, if_pos hd, List.append_assoc, h]
  rfl

end

/-! ## Derivations -/

theorem Flat.append {a b : List Token} (ha : Flat a) (hb : Flat b) : Flat (a ++ b) :=
  List.forall_mem_append.2 ⟨ha, hb⟩

theorem Flat.cons {token : Token} {rest : List Token} (ht : token ≠ .openBrace ∧ token ≠ .closeBrace) (h : Flat rest) :
    Flat (token :: rest) :=
  List.forall_mem_cons.2 ⟨ht, h⟩

theorem flat_nil : Flat [] := nofun

theorem flat_flatMap {α : Type} {f : α → List Token} {entries : List α} (h : ∀ entry ∈ entries, Flat (f entry)) :
    Flat (entries.flatMap f) := by
  intro token ht
  obtain ⟨entry, he, hm⟩ := List.mem_flatMap.1 ht
  exact h entry he token hm

namespace Grammar

theorem Id.flat (id : Id) : Flat id.tokens := by
  cases id with
  | strings first more => exact .cons (by simp) (flat_flatMap fun text _ => by simp [Flat])
  | _ => exact .cons (by simp) flat_nil

theorem flat_nameTokens (name : Option Id) : Flat (nameTokens name) := by
  cases name with
  | none => exact flat_nil
  | some id => exact id.flat

theorem Assignment.flat (a : Assignment) : Flat a.tokens := by
  have hseparator : Flat a.separator.tokens := by cases a.separator <;> simp [Flat, Separator.tokens]
  exact a.name.flat.append (.cons (by simp) (a.value.flat.append hseparator))

theorem flat_attrTokens (brackets : List (List Assignment)) : Flat (attrTokens brackets) :=
  flat_flatMap fun _ _ =>
    .cons (by simp) ((flat_flatMap fun a _ => a.flat).append (.cons (by simp) flat_nil))

theorem NodeId.flat (id : NodeId) : Flat id.tokens := by
  refine id.node.flat.append ?_
  cases id.port with
  | absent => exact flat_nil
  | alone id => exact .cons (by simp) id.flat
  | sided id compass => exact .cons (by simp) (id.flat.append (by simp [Flat]))

theorem flat_semicolonTokens (semicolon : Bool) : Flat (semicolonTokens semicolon) := by
  cases semicolon <;> simp [Flat, semicolonTokens]

theorem flat_edgeOp (directed : Bool) : Flat [.edgeOp directed] := by
  cases directed <;> exact .cons (by decide) flat_nil

theorem Head.flat (head : Head) : Flat head.tokens := by
  cases head with
  | absent => exact flat_nil
  | keyword name => exact .cons (by simp) (flat_nameTokens name)

section
variable {directed : Bool}

mutual
theorem Group.closes : ∀ {depth : Nat} (group : Group), group.Admissible directed depth →
    Closes (maxNesting + 1) (depth + 1) group.tokens
  | _, .braced head body, h => head.flat.closes.append (closes_braces (Nat.succ_lt_succ h.1) (Body.closes body h.2))
  | _, .reference id, _ => by
    have hkeyword : Flat [.keyword .subgraph] := .cons (by simp) flat_nil
    exact (hkeyword.append id.flat).closes

theorem Body.closes : ∀ {depth : Nat} (body : Body), body.Admissible directed depth →
    Closes (maxNesting + 1) (depth + 1) body.tokens
  | _, .nil, _ => fun _ => rfl
  | _, .cons stmt semicolon rest, h =>
    (Stmt.closes stmt h.1).append ((flat_semicolonTokens semicolon).closes.append (Body.closes rest h.2))

theorem Operand.closes : ∀ {depth : Nat} (operand : Operand), operand.Admissible directed depth →
    Closes (maxNesting + 1) (depth + 1) operand.tokens
  | _, .node id, _ => id.flat.closes
  | _, .group group, h => Group.closes group h

theorem Chain.closes : ∀ {depth : Nat} (chain : Chain), chain.Admissible directed depth →
    Closes (maxNesting + 1) (depth + 1) chain.tokens
  | _, .nil, _ => fun _ => rfl
  | _, .cons op operand rest, h => by
    exact (flat_edgeOp op).closes.append ((Operand.closes operand h.2.1).append (Chain.closes rest h.2.2))

theorem Stmt.closes : ∀ {depth : Nat} (stmt : Stmt), stmt.Admissible directed depth →
    Closes (maxNesting + 1) (depth + 1) stmt.tokens
  | _, .defaults category first more, _ => by
    have hcategory : categoryToken category ≠ .openBrace ∧ categoryToken category ≠ .closeBrace := by
      cases category <;> simp [categoryToken]
    exact (Flat.cons hcategory (flat_attrTokens _)).closes
  | _, .assign name value, _ => by
    have hequal : Flat [.equal] := .cons (by simp) flat_nil
    exact (name.flat.append (hequal.append value.flat)).closes
  | _, .node id attrs, _ => (id.flat.append (flat_attrTokens attrs)).closes
  | _, .group group, h => Group.closes group h
  | _, .edge first op second more attrs, ⟨hf, _, hs, hm, _⟩ => by
    have htail := (Chain.closes more hm).append (flat_attrTokens attrs).closes
    exact (Operand.closes first hf).append ((flat_edgeOp op).closes.append ((Operand.closes second hs).append htail))
end

end

/-- The tokens in front of the first brace of a document. -/
def Document.headTokens (doc : Document) : List Token :=
  (if doc.strict then [.keyword .strict] else [])
    ++ .keyword (if doc.directed then .digraph else .graph) :: nameTokens doc.name

theorem Document.tokens_eq (doc : Document) :
    doc.tokens = doc.headTokens ++ .openBrace :: (doc.body.tokens ++ [.closeBrace]) := by
  simp [Document.tokens, Document.headTokens]

theorem Document.flat_headTokens (doc : Document) : Flat doc.headTokens := by
  have hstrict : Flat (if doc.strict then [.keyword .strict] else []) := by
    cases doc.strict <;> simp [Flat]
  exact hstrict.append (.cons (by simp) (flat_nameTokens doc.name))

theorem Document.nest_tokens {doc : Document} (h : doc.Admissible) : nest (maxNesting + 1) 0 doc.tokens = some 0 := by
  have hbody := closes_braces (Nat.succ_pos maxNesting) (Body.closes doc.body h)
  have hall := (doc.flat_headTokens.closes.append hbody) []
  rwa [← Document.tokens_eq, List.append_nil] at hall

end Grammar

/-! ## The document of a graph -/

section
variable {limit : Nat}

theorem flat_attributeStatements (attrs : Attributes) : Flat (statementTokens attrs.statements) := by
  rw [statementTokens_attributes]
  exact flat_flatMap fun a _ => a.flat

theorem flat_nodeStatements (inSubgraph : Bool) (nodes : List Node) :
    Flat (statementTokens (nodes.map (Node.statement inSubgraph))) := by
  refine flat_flatMap fun stmt hs => ?_
  obtain ⟨node, -, rfl⟩ := List.mem_map.1 hs
  exact ((NodeId.flat _).append (flat_attrTokens _)).append (flat_semicolonTokens _)

mutual
/-- A body whose braces keep to the limit is not deeper than that. -/
theorem height_of_nest : ∀ {depth : Nat} {inSubgraph : Bool} (sub : Subgraph) {rest : List Token}, depth ≤ limit →
    (nest limit depth (statementTokens (sub.statements inSubgraph) ++ rest)).isSome = true →
    depth + sub.height ≤ limit ∧ (nest limit depth rest).isSome = true
  | depth, inSubgraph, ⟨name, attrs, nodes, children⟩, rest, hd, h => by
    rw [Subgraph.statements, statementTokens_append, statementTokens_append, List.append_assoc, List.append_assoc,
      (flat_attributeStatements attrs).closes, (flat_nodeStatements inSubgraph nodes.toList).closes] at h
    exact heights_of_nest children hd h

theorem heights_of_nest : ∀ {depth : Nat} (children : List Subgraph) {rest : List Token}, depth ≤ limit →
    (nest limit depth (statementTokens (Subgraph.groupStatements children) ++ rest)).isSome = true →
    depth + Subgraph.heights children ≤ limit ∧ (nest limit depth rest).isSome = true
  | _, [], _, hd, h => ⟨hd, h⟩
  | depth, child :: others, rest, hd, h => by
    have htokens : statementTokens (Subgraph.groupStatements (child :: others)) ++ rest =
        (Head.keyword (nameId child.name)).tokens ++ (.openBrace :: (statementTokens (child.statements true) ++
          (.closeBrace :: (statementTokens (Subgraph.groupStatements others) ++ rest)))) := by
      rw [Subgraph.groupStatements, statementTokens_cons]
      simp [Stmt.tokens, Group.tokens, Body.tokens_ofList, semicolonTokens]
    rw [htokens, (Head.flat _).closes, nest] at h
    split at h
    · rename_i hlt
      obtain ⟨hchild, hafter⟩ := height_of_nest child (Nat.succ_le_of_lt hlt) h
      obtain ⟨hothers, hrest⟩ := heights_of_nest others hd hafter
      rw [Subgraph.heights]
      exact ⟨by omega, hrest⟩
    · cases h
end

end

theorem height_le_of_parse {graph again : Graph} (hl : graph.Legible) (h : parse graph.toDot = .ok again) :
    graph.body.height ≤ maxNesting := by
  obtain ⟨doc, ha, -, ht⟩ := parse_sound h
  rw [tokens_toDot hl] at ht
  have hsame : graph.document.tokens = doc.tokens := by
    refine List.append_cancel_right (List.map_injective_iff.2 ?_ ht)
    exact fun a b hab => Except.ok.inj hab
  have hnest := Document.nest_tokens ha
  rw [← hsame, Document.tokens_eq, (Document.flat_headTokens _).closes, nest, if_pos (Nat.succ_pos _)] at hnest
  have hbody : graph.document.body.tokens = statementTokens (graph.body.statements false) ++
      statementTokens (graph.edges.map (Edge.statement graph.kind.directed)) := by
    rw [← statementTokens_append, ← Body.tokens_ofList]
    rfl
  rw [hbody, List.append_assoc] at hnest
  have hdeep := (height_of_nest graph.body (Nat.le_add_left 1 maxNesting) (by rw [hnest]; rfl)).1
  omega

end DotLang
