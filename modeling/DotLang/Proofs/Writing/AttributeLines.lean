import DotLang.Proofs.Collections
import DotLang.Proofs.Writing.Bracketing
import DotLang.Proofs.Writing.Endpoints
import DotLang.Proofs.Writing.RoundTrip

/-!
# Attribute lines that are read back

The lines of a collection are read back as the collection, in brackets as well as at the start of a body: each
line is read as a name, the sign, a value and a semicolon, and both readers go through them one by one.
-/

namespace DotLang
open Parse Grammar Builder

/-- The token that a value is written as. -/
def AttrValue.token : AttrValue → Token
  | .string text => .quoted text
  | .markup text => .html text

/-- The tokens of the line of an attribute. -/
def Attribute.tokens (attr : Attribute) : List Token :=
  [if isBareName attr.name then .identifier attr.name else .quoted attr.name, .equal, attr.value.token, .semicolon]

theorem tokens_assignments (attrs : Attributes) :
    attrs.assignments.flatMap Assignment.tokens = attrs.entries.flatMap Attribute.tokens := by
  unfold Attributes.assignments
  rw [List.flatMap_map]
  congr 1
  funext attr
  have hname : (attributeId attr.name).tokens =
      [if isBareName attr.name then .identifier attr.name else .quoted attr.name] := by
    unfold attributeId
    split <;> rfl
  have hvalue : attr.value.id.tokens = [attr.value.token] := by cases attr.value <;> rfl
  rw [Assignment.tokens, hname, hvalue]
  rfl

/-! ## What is read back -/

/-- No carriage return stands in the name or the text, and markup is read as one token. -/
structure Attribute.Unbroken (attr : Attribute) : Prop where
  name : '\r' ∉ attr.name.toList
  text : ∀ text, attr.value = .string text → '\r' ∉ text.toList
  markup : ∀ markup, attr.value = .markup markup →
    (Lexer.ofString ("<" ++ markup ++ ">")).tokens = [.ok (.html markup), .ok .eof]

theorem Attribute.Valid.readable {attr : Attribute} (h : attr.Valid) (hu : attr.Unbroken) : attr.Readable where
  ne_empty := h.ne_empty
  name := ⟨h.name, hu.name⟩
  value := by
    obtain ⟨name, value⟩ := attr
    cases value with
    | string text => exact ⟨h.text text rfl, hu.text text rfl⟩
    | markup markup => exact sound_of_tokens (hu.markup markup rfl)

theorem Attribute.Readable.isWritable {attr : Attribute} (h : attr.Readable) : attr.value.isWritable = true := by
  have hv := h.value
  revert hv
  cases attr.value with
  | string text => exact fun hv => hv.quotable
  | markup text => exact fun _ => rfl

section
variable {attrs : Attributes} (h : ∀ attr ∈ attrs.entries, attr.Readable)
include h

theorem scans_lines (depth : Nat) (rest : List Char) :
    Scans (joinLines (attrs.lines depth)).toList (attrs.assignments.flatMap Assignment.tokens) rest := by
  rw [joinLines, String.toList_ofList]
  exact linesScan_attributes h depth rest

theorem scans_bracket (depth : Nat) (rest : List Char) :
    Scans ('[' :: ((joinLines (attrs.lines depth)).toList ++ [']'])) (attrTokens [attrs.assignments]) rest := by
  have hinner := (scans_lines h depth (']' :: rest)).append (scans_sign (c := ']') rfl rest)
  have hall := (scans_sign (c := '[') rfl _).append hinner
  simpa [attrTokens, bracketTokens] using hall

theorem attributes_exact {p q : Parser} (hn : attrs.names.Nodup) (hp : p.Advances (attrTokens [attrs.assignments]) q)
    (hq : q.token ≠ .openBracket) : attributes p = .ok attrs q := by
  have hcan : AttrsCanName [attrs.assignments] := by
    intro a ha
    rw [List.flatten_singleton] at ha
    obtain ⟨attr, hm, rfl⟩ := List.mem_map.1 ha
    exact canName_attributeId (h attr hm)
  have hyields := attributes_complete hcan hp.passes.ahead (follows_ahead (C := Token.endsAttrs) (bne_iff_ne.2 hq))
  rw [attributesOf_assignments hn] at hyields
  exact (Advancing.attributes p).exact hyields hp

theorem body_exact (fuel : Nat) {builder : Builder} {p q : Parser}
    (hp : p.Advances (attrs.assignments.flatMap Assignment.tokens) q) :
    body (fuel + attrs.size) builder p =
      body fuel (builder.modifyCurrent fun body => { body with attributes := body.attributes.merge attrs }) q := by
  let pairs := attrs.entries.map fun attr => (attributeId attr.name, attr.value.id)
  have hpairs : ∀ a ∈ pairs, a.1.CanName ∧ a.2.ident.value.isWritable = true := by
    intro a ha
    obtain ⟨attr, hm, rfl⟩ := List.mem_map.1 ha
    refine ⟨canName_attributeId (h attr hm), ?_⟩
    rw [value_id]
    exact (h attr hm).isWritable
  have hp' : p.Advances (pairs.flatMap fun a => Assignment.tokens ⟨a.1, a.2, .semicolon⟩) q := by
    rw [List.flatMap_map]
    rwa [Attributes.assignments, List.flatMap_map] at hp
  have hbody := body_assignments fuel hpairs builder hp'
  have hruns : pairs.foldl (fun builder a => builder.assign ⟨a.1.text, a.2.ident.value⟩) builder =
      attrs.statements.foldl (fun builder stmt => stmt.1.run builder) builder := by
    rw [List.foldl_map, Attributes.statements, List.foldl_map]
    rfl
  rw [hruns, run_attributes, List.length_map] at hbody
  exact hbody

end

/-! ## Documents -/

/-- A graph without nodes, groups and edges. -/
def Graph.plain (kind : GraphKind) (attrs : Attributes) : Graph :=
  { Graph.new "" kind with body := { Subgraph.new "" with attributes := attrs } }

theorem parse_plain {attrs : Attributes} (h : ∀ attr ∈ attrs.entries, attr.Readable) (hn : attrs.names.Nodup)
    (kind : GraphKind) : parse (Graph.plain kind attrs).toDot = .ok (Graph.plain kind attrs) := by
  have hgroups : (Graph.plain kind attrs).body.hierarchy = [(Graph.plain kind attrs).body] :=
    Subgraph.hierarchy_eq _
  have hnodes : (Graph.plain kind attrs).nodes.toList = [] := rfl
  have hnone {P : Node → Prop} : ∀ node ∈ (Graph.plain kind attrs).nodes.toList, P node := by
    rw [hnodes]
    exact fun _ hm => absurd hm List.not_mem_nil
  have hlegible : (Graph.plain kind attrs).Legible := by
    refine ⟨?_, hnone, fun _ hm => absurd hm List.not_mem_nil⟩
    rw [hgroups, List.forall_mem_singleton]
    have hname : DotLang.Readable "" := by decide
    exact ⟨hname, h, hnone⟩
  have hregular : (Graph.plain kind attrs).Regular := by
    refine ⟨?_, hnone, fun _ hm => absurd hm List.not_mem_nil, fun _ => .nil, .nil⟩
    rw [hgroups, List.forall_mem_singleton]
    exact hn
  have hreread : (Graph.plain kind attrs).reread = Graph.plain kind attrs := by
    have hempty : (Subgraph.new "").attributes.merge attrs = attrs := Attributes.empty_merge hn
    unfold Graph.reread Subgraph.filled
    show Graph.mk kind { Subgraph.new "" with attributes := (Subgraph.new "").attributes.merge attrs } [] = _
    rw [hempty]
    rfl
  rw [parse_toDot hlegible hregular (Nat.zero_le _), hreread]

/-- The lines of a collection whose attributes are made, without carriage returns and with markup that is read as
one token, are read back as the collection: in brackets, and as statements at the start of a body. -/
theorem attribute_lines_reread {attrs : Attributes} (hm : attrs.Made) (hu : ∀ attr ∈ attrs.entries, attr.Unbroken)
    (depth : Nat) :
    let text := joinLines (attrs.lines depth)
    (∀ {p : Parser} {rest : List Char} {t : Token} {loc : Location} {lexer : Lexer}, 0 < p.lexer.loc.column →
      p.lexer.rest = '[' :: (text.toList ++ ']' :: rest) →
      (p.lexer.skip (text.length + 2)).next = (.ok (t, loc), lexer) → t ≠ .openBracket →
        (do advance; attributes) p = .ok attrs { p with lexer, token := t, loc }) ∧
    (∀ {p : Parser} {rest : List Char} {t : Token} {loc : Location} {lexer : Lexer}, 0 < p.lexer.loc.column →
      p.lexer.rest = text.toList ++ rest → (p.lexer.skip text.length).next = (.ok (t, loc), lexer) →
      ∀ (name : String) (kind : GraphKind) (fuel : Nat),
        (do advance; body (fuel + attrs.size) (Builder.new name kind).enterScope) p =
          body fuel { (Builder.new name kind).enterScope with graph.body.attributes := attrs }
            { p with lexer, token := t, loc }) ∧
    (∀ kind, parse (Graph.plain kind attrs).toDot = .ok (Graph.plain kind attrs)) ∧
    (Lexer.ofString text).tokens = (attrs.entries.flatMap Attribute.tokens ++ [Token.eof]).map .ok := by
  have hr : ∀ attr ∈ attrs.entries, attr.Readable := fun attr ha => (hm.built.entries attr ha).readable (hu attr ha)
  have hn := hm.built.nodup
  intro text
  refine ⟨?_, ?_, parse_plain hr hn, ?_⟩
  · intro p rest t loc lexer hcolumn hrest hnext ht
    have hlength : ('[' :: (text.toList ++ [']'])).length = text.length + 2 := by
      rw [List.length_cons, List.length_append, List.length_singleton, String.length_toList]
    rw [← hlength] at hnext
    obtain ⟨q, hadvance, hq⟩ := (scans_bracket hr depth rest).advances hcolumn (by simpa using hrest) hnext
    rw [bind_of_ok hadvance]
    exact attributes_exact hr hn hq ht
  · intro p rest t loc lexer hcolumn hrest hnext name kind fuel
    rw [← String.length_toList] at hnext
    obtain ⟨q, hadvance, hq⟩ := (scans_lines hr depth rest).advances hcolumn hrest hnext
    have hempty : (∅ : Attributes).merge attrs = attrs := Attributes.empty_merge hn
    have hgiven : (Builder.new name kind).enterScope.modifyCurrent
        (fun body => { body with attributes := body.attributes.merge attrs }) =
        { (Builder.new name kind).enterScope with graph.body.attributes := (∅ : Attributes).merge attrs } := rfl
    rw [bind_of_ok hadvance, body_exact hr fuel hq, hgiven, hempty]
  · rw [← tokens_assignments]
    exact tokens_of_scans (scans_lines hr depth [])

/-- A keyword that is a name, with text, and a label with markup. -/
def keywordAttributes : Attributes := ⟨[⟨"node", .string "x;y"⟩, ⟨"label", .markup "<b>1</b>"⟩]⟩

theorem attribute_lines_reread_keyword :
    (do advance; attributes) (Parser.ofString "[\"node\"=\"x;y\";\nlabel=<<b>1</b>>;\n];") =
      .ok keywordAttributes { lexer := ⟨[], ⟨35, 3, 3⟩⟩, token := .semicolon, loc := ⟨34, 3, 2⟩ } ∧
    parse (Graph.plain ⟨true, false⟩ keywordAttributes).toDot =
      .ok (Graph.plain ⟨true, false⟩ keywordAttributes) := by
  have hmade : Attributes.ofPairs [("node", .string "x;y"), ("label", .markup "<b>1</b>")] =
      .ok keywordAttributes := rfl
  have hunbroken : ∀ attr ∈ keywordAttributes.entries, attr.Unbroken := by
    unfold keywordAttributes
    rw [List.forall_mem_cons, List.forall_mem_singleton]
    constructor
    · refine ⟨by decide, ?_, nofun⟩
      intro text ht
      obtain rfl := AttrValue.string.inj ht
      decide
    · refine ⟨by decide, nofun, ?_⟩
      intro markup hm
      obtain rfl := AttrValue.markup.inj hm
      exact tokens_of_sound (by decide +kernel)
  obtain ⟨hbrackets, -, hdocument, -⟩ := attribute_lines_reread (.ofPairs hmade) hunbroken 0
  let p := Parser.ofString "[\"node\"=\"x;y\";\nlabel=<<b>1</b>>;\n];"
  have hrest : p.lexer.rest = '[' :: ((joinLines (keywordAttributes.lines 0)).toList ++ ']' :: [';']) := rfl
  have hnext : (p.lexer.skip ((joinLines (keywordAttributes.lines 0)).length + 2)).next =
      (.ok (.semicolon, ⟨34, 3, 2⟩), ⟨[], ⟨35, 3, 3⟩⟩) := rfl
  exact ⟨hbrackets Nat.one_pos hrest hnext nofun, hdocument _⟩

end DotLang
