import DotLang.Proofs.Writing.Gathering
import DotLang.Proofs.Writing.Nesting
import DotLang.Proofs.Writing.Parsed

/-!
# When the written form is stable

Writing a parsed graph, parsing the text and writing again gives the same text if the groups of the graph
have the nodes of their hierarchies already. Reading gathers them in any case, so a group without one of
them gets a longer body in the second text. This happens where a group is opened again: what it gains goes
to the place where it was first, but its nodes do not go to the groups around that place.
-/

namespace DotLang

/-- The group has all nodes of its hierarchy. -/
def Subgraph.Gathered (sub : Subgraph) : Prop := ∀ name ∈ sub.nodeNames, name ∈ sub.nodes.names

instance (sub : Subgraph) : Decidable sub.Gathered :=
  inferInstanceAs (Decidable (∀ name ∈ sub.nodeNames, name ∈ sub.nodes.names))

/-! ## Lines of a body -/

theorem Subgraph.bodyLines_eq (depth : Nat) (setting : Setting) (sub : Subgraph) :
    sub.bodyLines depth setting = sub.attributes.lines depth
      ++ sub.nodes.toList.flatMap (fun node => node.lines depth setting)
      ++ Subgraph.childLines depth { setting with inSubgraph := true } sub.children := by
  cases sub
  rfl

/-- The lines of nodes that are listed by name alone. -/
def nameLines (depth : Nat) (names : List String) : List Line := names.map fun name => ⟨depth, quote name ++ ";"⟩

/-- In a group, the names of the nodes are all that is written of them. -/
theorem nodeLines_eq (depth : Nat) (directed : Bool) (nodes : List Node) :
    nodes.flatMap (fun node => node.lines depth ⟨directed, true⟩) = nameLines depth (nodes.map Node.name) := by
  rw [nameLines, List.map_map, ← List.flatMap_pure_eq_map]
  rfl

namespace Subgraph

/-- The names that a group lacks are behind those that it has. -/
theorem nodeNames_eq_append (sub : Subgraph) : ∃ lacking, sub.nodeNames = sub.nodes.names ++ lacking := by
  rw [nodeNames_eq, memberNames_eq_append, List.eraseDups_append, eraseDups_of_nodup sub.nodes.nodup_names]
  exact ⟨_, rfl⟩

theorem gathered_iff {sub : Subgraph} : sub.Gathered ↔ sub.nodeNames = sub.nodes.names := by
  constructor
  · intro h
    have hsub : ∀ name ∈ sub.children.flatMap memberNames, name ∈ sub.nodes.names := by
      intro name hn
      refine h name ?_
      rw [nodeNames_eq, List.mem_eraseDups, memberNames_eq_append]
      exact List.mem_append_right _ hn
    rw [nodeNames_eq, memberNames_eq_append, eraseDups_append_of_subset hsub,
      eraseDups_of_nodup sub.nodes.nodup_names]
  · intro h name hn
    rwa [← h]

end Subgraph

/-! ## Sizes of texts -/

/-- The number of characters in lines. -/
def textSize (lines : List Line) : Nat := (lines.flatMap Line.chars).length

@[simp] theorem textSize_append (a b : List Line) : textSize (a ++ b) = textSize a + textSize b := by
  simp [textSize]

@[simp] theorem textSize_cons (line : Line) (rest : List Line) :
    textSize (line :: rest) = line.chars.length + textSize rest := by
  simp [textSize]

theorem textSize_braced (depth : Nat) (head : String) (body : List Line) :
    textSize (bracedLines depth head body) = textSize (bracedLines depth head []) + textSize body := by
  simp [bracedLines]
  omega

theorem textSize_nameLines (depth : Nat) (names : List String) : names.length ≤ textSize (nameLines depth names) := by
  induction names with
  | nil => exact Nat.zero_le _
  | cons name rest ih =>
    have hline : 1 ≤ (Line.chars ⟨depth, quote name ++ ";"⟩).length := by
      simp only [Line.chars, List.length_append, List.length_singleton]
      omega
    rw [nameLines, List.map_cons, textSize_cons, List.length_cons]
    unfold nameLines at ih
    omega

/-! ## What reading a body again does to its text -/

namespace Subgraph

theorem header_reread (sub : Subgraph) : sub.reread.header = sub.header := by
  unfold header
  rw [name_reread]

theorem nodeLines_reread (depth : Nat) (directed : Bool) (sub : Subgraph) :
    sub.reread.nodes.toList.flatMap (fun node => node.lines depth ⟨directed, true⟩) =
      nameLines depth sub.nodeNames := by
  rw [nodeLines_eq, nodes_reread, names_bareNodes]

section
variable (directed : Bool)

mutual
/-- The text of a gathered group stays. -/
theorem bodyLines_reread : ∀ (depth : Nat) (sub : Subgraph), (∀ group ∈ sub.hierarchy, group.attributes.names.Nodup) →
    (∀ group ∈ sub.hierarchy, group.Gathered) →
    sub.reread.bodyLines depth ⟨directed, true⟩ = sub.bodyLines depth ⟨directed, true⟩
  | depth, ⟨name, attrs, nodes, children⟩, ha, hg => by
    rw [hierarchy_eq, List.forall_mem_cons] at ha hg
    rw [bodyLines_eq, bodyLines_eq, nodeLines_reread, attributes_reread ha.1, children_reread,
      gathered_iff.1 hg.1, nodeLines_eq]
    congr 1
    exact childLines_reread depth children ha.2 hg.2

theorem childLines_reread : ∀ (depth : Nat) (subs : List Subgraph),
    (∀ group ∈ subs.flatMap hierarchy, group.attributes.names.Nodup) →
    (∀ group ∈ subs.flatMap hierarchy, group.Gathered) →
    childLines depth ⟨directed, true⟩ (rereadAll subs) = childLines depth ⟨directed, true⟩ subs
  | _, [], _, _ => rfl
  | depth, child :: rest, ha, hg => by
    rw [List.flatMap_cons, List.forall_mem_append] at ha hg
    rw [rereadAll, childLines, childLines, header_reread, bodyLines_reread (depth + 1) child ha.1 hg.1,
      childLines_reread depth rest ha.2 hg.2]
end

theorem textSize_bodyLines (depth : Nat) (sub : Subgraph) :
    textSize (sub.bodyLines depth ⟨directed, true⟩) = textSize (sub.attributes.lines depth) +
      textSize (nameLines depth sub.nodes.names) + textSize (childLines depth ⟨directed, true⟩ sub.children) := by
  rw [bodyLines_eq, nodeLines_eq, textSize_append, textSize_append]
  rfl

/-- A group that is read back has a line more for each node that it lacked. -/
theorem textSize_body_reread (depth : Nat) (sub : Subgraph) (ha : sub.attributes.names.Nodup) : ∃ lacking,
    sub.nodeNames = sub.nodes.names ++ lacking ∧
      textSize (sub.reread.bodyLines depth ⟨directed, true⟩) =
        textSize (sub.attributes.lines depth) + textSize (nameLines depth sub.nodes.names) +
          textSize (nameLines depth lacking) +
          textSize (childLines depth ⟨directed, true⟩ (rereadAll sub.children)) := by
  obtain ⟨lacking, hnames⟩ := sub.nodeNames_eq_append
  refine ⟨lacking, hnames, ?_⟩
  rw [bodyLines_eq, nodeLines_reread, attributes_reread ha, children_reread, hnames, nameLines, List.map_append]
  simp only [textSize_append, nameLines, Nat.add_assoc]

mutual
/-- The text of a group does not become shorter, and only that of a gathered group keeps its size. -/
theorem textSize_bodyLines_reread : ∀ (depth : Nat) (sub : Subgraph),
    (∀ group ∈ sub.hierarchy, group.attributes.names.Nodup) →
    textSize (sub.bodyLines depth ⟨directed, true⟩) ≤ textSize (sub.reread.bodyLines depth ⟨directed, true⟩) ∧
      (textSize (sub.bodyLines depth ⟨directed, true⟩) = textSize (sub.reread.bodyLines depth ⟨directed, true⟩) →
        ∀ group ∈ sub.hierarchy, group.Gathered)
  | depth, ⟨name, attrs, nodes, children⟩, ha => by
    rw [hierarchy_eq, List.forall_mem_cons] at ha
    obtain ⟨hle, heq⟩ := textSize_childLines_reread depth children ha.2
    obtain ⟨lacking, hnames, hafter⟩ := textSize_body_reread directed depth _ ha.1
    have hlacking := textSize_nameLines depth lacking
    rw [textSize_bodyLines, hafter]
    dsimp only
    refine ⟨by omega, fun h => ?_⟩
    have hnone : lacking = [] := List.eq_nil_of_length_eq_zero (by omega)
    rw [hnone, List.append_nil] at hnames
    rw [hierarchy_eq, List.forall_mem_cons]
    exact ⟨gathered_iff.2 hnames, heq (by omega)⟩

theorem textSize_childLines_reread : ∀ (depth : Nat) (subs : List Subgraph),
    (∀ group ∈ subs.flatMap hierarchy, group.attributes.names.Nodup) →
    textSize (childLines depth ⟨directed, true⟩ subs) ≤ textSize (childLines depth ⟨directed, true⟩ (rereadAll subs)) ∧
      (textSize (childLines depth ⟨directed, true⟩ subs) =
          textSize (childLines depth ⟨directed, true⟩ (rereadAll subs)) →
        ∀ group ∈ subs.flatMap hierarchy, group.Gathered)
  | _, [], _ => ⟨Nat.le_refl _, fun _ => nofun⟩
  | depth, child :: rest, ha => by
    rw [List.flatMap_cons, List.forall_mem_append] at ha
    obtain ⟨hle, heq⟩ := textSize_bodyLines_reread (depth + 1) child ha.1
    obtain ⟨hles, heqs⟩ := textSize_childLines_reread depth rest ha.2
    rw [rereadAll, childLines, childLines, header_reread, textSize_append, textSize_append, textSize_braced,
      textSize_braced depth _ (child.reread.bodyLines _ _)]
    refine ⟨by omega, fun h => ?_⟩
    rw [List.flatMap_cons, List.forall_mem_append]
    exact ⟨heq (by omega), heqs (by omega)⟩
end

end

end Subgraph

/-! ## Edges and graphs -/

theorem written_reread (endpoint : Endpoint) : endpoint.reread.written = endpoint.written := by
  obtain ⟨node, port, compass⟩ := endpoint
  unfold Endpoint.reread Endpoint.written
  cases port with
  | none => rfl
  | some port =>
    cases compass with
    | some compass => rfl
    | none =>
      by_cases h : (Compass.ofName? port).isSome
      · simp [h, Compass.name]
      · simp [h]

theorem edgeLines_reread (edge : Edge) (depth : Nat) (setting : Setting) :
    edge.reread.lines depth setting = edge.lines depth setting := by
  unfold Edge.lines
  rw [show edge.reread.source = edge.source.reread from rfl,
    show edge.reread.destination = edge.destination.reread from rfl, written_reread, written_reread]
  rfl

theorem textSize_of_joinLines {a b : List Line} (h : joinLines a = joinLines b) : textSize a = textSize b := by
  have hchars := congrArg String.toList h
  unfold joinLines at hchars
  rw [String.toList_ofList, String.toList_ofList] at hchars
  exact congrArg List.length hchars

/-- The lines of a graph around those of its groups. -/
def Graph.linesAround (graph : Graph) (groups : List Line) : List Line :=
  bracedLines 0 graph.header (graph.body.attributes.lines 1
    ++ graph.nodes.toList.flatMap (fun node => node.lines 1 ⟨graph.kind.directed, false⟩) ++ groups
    ++ graph.edges.flatMap fun edge => edge.lines 1 ⟨graph.kind.directed, false⟩)

theorem toDot_eq (graph : Graph) :
    graph.toDot = joinLines (graph.linesAround (Subgraph.childLines 1 ⟨graph.kind.directed, true⟩ graph.body.children)) := by
  rw [Graph.toDot, Graph.lines, Subgraph.bodyLines_eq]
  rfl

/-- A root that is gathered is read back with the same lines around its groups. -/
theorem toDot_reread_eq {graph : Graph} (ha : graph.body.attributes.names.Nodup) (hg : graph.body.Gathered) :
    graph.reread.toDot = joinLines (graph.linesAround
      (Subgraph.childLines 1 ⟨graph.kind.directed, true⟩ (Subgraph.rereadAll graph.body.children))) := by
  have hheader : graph.reread.header = graph.header := by
    unfold Graph.header
    rw [show graph.reread.name = graph.name from name_reread_root graph]
    rfl
  have hnodes : graph.reread.nodes.toList = graph.nodes.toList := by
    rw [nodes_reread_root, Subgraph.gathered_iff.1 hg]
    exact map_rootNode_names graph
  have hedges : (graph.reread.edges.flatMap fun edge => edge.lines 1 ⟨graph.kind.directed, false⟩) =
      graph.edges.flatMap fun edge => edge.lines 1 ⟨graph.kind.directed, false⟩ := by
    rw [show graph.reread.edges = graph.edges.map Edge.reread from rfl, List.flatMap_map]
    simp only [edgeLines_reread]
  rw [toDot_eq, Graph.linesAround, hheader, hnodes, attributes_reread_root ha, children_reread_root]
  show joinLines (bracedLines 0 _ (_ ++ graph.reread.edges.flatMap fun edge => edge.lines 1 ⟨graph.kind.directed, false⟩)) = _
  rw [hedges]
  rfl

/-- What is read back of a graph is written as the graph is, if and only if all its groups are gathered. -/
theorem toDot_reread_iff {graph : Graph} (hr : graph.Regular) (hroot : graph.body.Gathered) :
    graph.reread.toDot = graph.toDot ↔ ∀ group ∈ graph.body.hierarchy, group.Gathered := by
  have ha := hr.attributes
  rw [Subgraph.hierarchy_eq, List.forall_mem_cons] at ha
  rw [toDot_reread_eq ha.1 hroot, toDot_eq, Subgraph.hierarchy_eq, List.forall_mem_cons]
  constructor
  · intro h
    have hsize := textSize_of_joinLines h
    have hgroups := (Subgraph.textSize_childLines_reread graph.kind.directed 1 graph.body.children ha.2).2
    unfold Graph.linesAround at hsize
    rw [textSize_braced, textSize_braced 0 _ (_ ++ _ ++ Subgraph.childLines _ _ graph.body.children ++ _)] at hsize
    simp only [textSize_append] at hsize
    exact ⟨hroot, hgroups (by omega)⟩
  · rintro ⟨-, hg⟩
    rw [Subgraph.childLines_reread graph.kind.directed 1 graph.body.children ha.2 hg]

theorem gathered_of_parse {text : String} {graph : Graph} (h : parse text = .ok graph) : graph.body.Gathered := by
  intro name hm
  rw [Subgraph.nodeNames_eq, List.mem_eraseDups, Subgraph.mem_memberNames] at hm
  obtain ⟨group, hg, hm⟩ := hm
  exact (wellFormed_of_parse h).members group hg name hm

/-- The written form of a parsed graph with readable names is stable if and only if it is not too deep to be
parsed, and all groups have the nodes of their hierarchies. -/
theorem stable_iff_gathered {text : String} {graph : Graph} (h : parse text = .ok graph)
    (hn : ∀ name ∈ graph.names, Readable name) :
    (∃ again, parse graph.toDot = .ok again ∧ again.toDot = graph.toDot) ↔
      graph.body.height ≤ maxNesting ∧ ∀ group ∈ graph.body.hierarchy, group.Gathered := by
  have hl := legible_of_parse h hn
  have hr := regular_of_parse h
  rw [← toDot_reread_iff hr (gathered_of_parse h)]
  constructor
  · rintro ⟨again, hp, hs⟩
    have hd := height_le_of_parse hl hp
    obtain rfl := Except.ok.inj ((parse_toDot hl hr hd).symm.trans hp)
    exact ⟨hd, hs⟩
  · rintro ⟨hd, hs⟩
    exact ⟨graph.reread, parse_toDot hl hr hd, hs⟩

/-- A group that is opened again outside of the group around it. -/
def strayText : String :=
  "graph \x7b subgraph t \x7b subgraph s \x7b a \x7d \x7d subgraph s \x7b b \x7d \x7d"

theorem parse_strayText : ∃ graph, parse strayText = .ok graph ∧ (∀ name ∈ graph.names, Readable name) ∧
    graph.body.height ≤ maxNesting ∧ ¬ ∀ group ∈ graph.body.hierarchy, group.Gathered := by
  have h : ((parse strayText).toOption.any fun graph =>
      decide ((∀ name ∈ graph.names, Readable name) ∧ graph.body.height ≤ maxNesting ∧
        ¬ ∀ group ∈ graph.body.hierarchy, group.Gathered)) = true := by
    rw [parse, strayText, Parser.ofString_ofList]
    decide +kernel
  cases hp : parse strayText with
  | error error =>
    rw [hp] at h
    cases h
  | ok graph =>
    rw [hp] at h
    exact ⟨graph, rfl, of_decide_eq_true h⟩

/-- Its text is parsed, and written otherwise. -/
theorem unstable_strayText : ∃ graph again, parse strayText = .ok graph ∧ parse graph.toDot = .ok again ∧
    again.toDot ≠ graph.toDot := by
  obtain ⟨graph, hp, hn, hd, hg⟩ := parse_strayText
  have hr := regular_of_parse hp
  refine ⟨graph, graph.reread, hp, parse_toDot (legible_of_parse hp hn) hr hd, fun hs => hg ?_⟩
  exact (toDot_reread_iff hr (gathered_of_parse hp)).1 hs

theorem ungathered_strayText : ∃ graph, parse strayText = .ok graph ∧ (∀ name ∈ graph.names, Readable name) ∧
    ((∃ again, parse graph.toDot = .ok again ∧ again.toDot = graph.toDot) ↔
      graph.body.height ≤ maxNesting ∧ ∀ group ∈ graph.body.hierarchy, group.Gathered) := by
  obtain ⟨graph, hp, hn, -, -⟩ := parse_strayText
  exact ⟨graph, hp, hn, stable_iff_gathered hp hn⟩

end DotLang
