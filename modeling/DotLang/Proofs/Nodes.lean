import DotLang.Node
import DotLang.Proofs.Attributes
import Mathlib.Data.List.Nodup

/-!
# Nodes as a list

What the operations on a map of nodes do to its list: a new node comes last, and one that is there gets
the attributes merged in where it stands. The index only answers where a name is, so most of what follows
does without it; a list and an index that are changed one after the other are put beside a map in `Indexing`.
-/

namespace DotLang.NodeMap

/-- The nodes with one of a name declared among them. -/
def declare (name : String) (attrs : Attributes) : List Node → List Node
  | [] => [⟨name, attrs⟩]
  | node :: rest =>
    if node.name = name then ⟨name, node.attributes.merge attrs⟩ :: rest else node :: declare name attrs rest

/-- The nodes with others declared among them in turn. -/
def declareAll (nodes new : List Node) : List Node :=
  new.foldl (fun nodes node => declare node.name node.attributes nodes) nodes

/-- The map with a node of a name, which starts with the attributes given if it is not there yet. -/
def ensure (attrs : Attributes) (map : NodeMap) (name : String) : NodeMap :=
  if map.contains name then map else map.add name attrs

/-! ## The index -/

theorem index_eq_some {map : NodeMap} {name : String} {i : Nat} :
    map.index[name]? = some i ↔ (map.toList[i]?).map Node.name = some name := by
  rw [map.index_spec, toList, Array.getElem?_toList]

theorem index_eq_none {map : NodeMap} {name : String} : map.index[name]? = none ↔ name ∉ map.names := by
  constructor
  · intro h hm
    obtain ⟨node, hn, rfl⟩ := List.mem_map.1 hm
    obtain ⟨i, hi⟩ := List.getElem?_of_mem hn
    have : map.index[node.name]? = some i := index_eq_some.2 (by rw [hi]; rfl)
    rw [h] at this
    cases this
  · intro h
    cases hi : map.index[name]? with
    | none => rfl
    | some i =>
      obtain ⟨node, hn, he⟩ := Option.map_eq_some_iff.1 (index_eq_some.1 hi)
      exact absurd (List.mem_map.2 ⟨node, List.mem_of_getElem? hn, he⟩) h

theorem mem_names_of_place {map : NodeMap} {name : String} {i : Nat} (h : map.index[name]? = some i) :
    name ∈ map.names := by
  refine Decidable.not_not.1 fun hn => ?_
  rw [index_eq_none.2 hn] at h
  cases h

theorem contains_iff {map : NodeMap} {name : String} : map.contains name = true ↔ name ∈ map.names := by
  rw [contains, Std.TreeMap.contains_eq_isSome_getElem?, Option.isSome_iff_ne_none, Ne, index_eq_none,
    Decidable.not_not]

theorem nodup_names (map : NodeMap) : map.names.Nodup := by
  rw [List.nodup_iff_getElem?_ne_getElem?]
  intro i j hij hj he
  have hn : ∀ k, map.names[k]? = (map.toList[k]?).map Node.name := fun k => by rw [names, List.getElem?_map]
  obtain ⟨name, hname⟩ : ∃ name, map.names[j]? = some name := ⟨_, List.getElem?_eq_getElem hj⟩
  have h₁ : map.index[name]? = some i := index_eq_some.2 (by rw [← hn, he, hname])
  have h₂ : map.index[name]? = some j := index_eq_some.2 (by rw [← hn, hname])
  rw [h₁] at h₂
  exact absurd (Option.some.inj h₂) (Nat.ne_of_lt hij)

theorem get?_of_mem {map : NodeMap} {node : Node} (h : node ∈ map.toList) : map.get? node.name = some node := by
  obtain ⟨i, hi⟩ := List.getElem?_of_mem h
  have hindex : map.index[node.name]? = some i := index_eq_some.2 (by rw [hi]; rfl)
  rw [get?, hindex, ← hi, toList, Array.getElem?_toList]
  rfl

theorem get?_of_not_mem {map : NodeMap} {name : String} (h : name ∉ map.names) : map.get? name = none := by
  rw [get?, index_eq_none.2 h]
  rfl

/-- The list says what the index says. -/
theorem index_eq_idxOf? (map : NodeMap) (name : String) : map.index[name]? = map.names.idxOf? name := by
  cases h : map.names.idxOf? name with
  | none => exact index_eq_none.2 (List.idxOf?_eq_none_iff.1 h)
  | some i =>
    obtain ⟨hlt, he, -⟩ := List.idxOf?_eq_some_iff.1 h
    rw [index_eq_some, ← List.getElem?_map]
    exact List.getElem?_eq_some_iff.2 ⟨hlt, he⟩

theorem get?_of_no_place {map : NodeMap} {name : String} (h : map.index[name]? = none) : map.get? name = none :=
  get?_of_not_mem (index_eq_none.1 h)

/-! ## Declaring -/

theorem declare_of_not_mem {name : String} {attrs : Attributes} : ∀ {nodes : List Node},
    name ∉ nodes.map Node.name → declare name attrs nodes = nodes ++ [⟨name, attrs⟩]
  | [], _ => rfl
  | node :: rest, h => by
    rw [List.map_cons, List.mem_cons, not_or] at h
    rw [declare, if_neg (Ne.symm h.1), declare_of_not_mem h.2]
    rfl

theorem declare_eq_modify {name : String} {attrs : Attributes} : ∀ {nodes : List Node} {i : Nat},
    (nodes.map Node.name).Nodup → (nodes[i]?).map Node.name = some name →
      nodes.modify i (fun node => { node with attributes := node.attributes.merge attrs }) =
        declare name attrs nodes
  | [], i, _, h => by simp at h
  | node :: rest, 0, _, h => by
    have h : node.name = name := by simpa using h
    rw [declare, if_pos h, ← h]
    rfl
  | node :: rest, i + 1, hd, h => by
    rw [List.map_cons, List.nodup_cons] at hd
    have hm : name ∈ rest.map Node.name := by
      rw [List.getElem?_cons_succ, ← List.getElem?_map] at h
      exact List.mem_of_getElem? h
    have hne : node.name ≠ name := fun e => hd.1 (e ▸ hm)
    rw [declare, if_neg hne, ← declare_eq_modify hd.2 (by simpa using h)]
    rfl

/-- A node changes where the index says it is. -/
theorem toList_modify_of_place {map : NodeMap} {name : String} {i : Nat} (h : map.index[name]? = some i)
    (f : Attributes → Attributes) :
    (map.modify name f).toList = map.toList.modify i fun node => { node with attributes := f node.attributes } := by
  unfold modify
  split
  · rename_i h'
    rw [h] at h'
    cases h'
  · rename_i j h'
    rw [h] at h'
    obtain rfl := Option.some.inj h'
    exact Array.toList_modify ..

theorem toList_add (map : NodeMap) (name : String) (attrs : Attributes) :
    (map.add name attrs).toList = declare name attrs map.toList := by
  unfold add
  split
  · rename_i h
    rw [declare_of_not_mem (index_eq_none.1 h)]
    simp [push, toList]
  · rename_i i h
    rw [toList_modify_of_place h]
    exact declare_eq_modify (nodup_names map) (index_eq_some.1 h)

theorem add_of_mem {map : NodeMap} {name : String} (h : name ∈ map.names) (attrs : Attributes) :
    map.add name attrs = map.modify name (·.merge attrs) := by
  unfold add
  split
  · rename_i hi
    exact absurd h (index_eq_none.1 hi)
  · rfl

theorem index_add_of_not_mem {map : NodeMap} {name : String} (h : name ∉ map.names) (attrs : Attributes) :
    (map.add name attrs).index = map.index.insert name map.nodes.size := by
  unfold add
  split
  · rfl
  · rename_i hi
    exact absurd (mem_names_of_place hi) h

theorem toList_addAll (map : NodeMap) (new : List Node) :
    (map.addAll new).toList = declareAll map.toList new := by
  unfold addAll declareAll
  induction new generalizing map with
  | nil => rfl
  | cons node new ih => rw [List.foldl_cons, List.foldl_cons, ih, toList_add]

/-! ## Names -/

theorem names_declare (name : String) (attrs : Attributes) : ∀ nodes : List Node,
    (declare name attrs nodes).map Node.name =
      if name ∈ nodes.map Node.name then nodes.map Node.name else nodes.map Node.name ++ [name]
  | [] => rfl
  | node :: rest => by
    unfold declare
    by_cases h : node.name = name
    · simp [h]
    · have hne : ¬ name = node.name := fun e => h e.symm
      rw [if_neg h, List.map_cons, names_declare name attrs rest]
      by_cases hm : name ∈ rest.map Node.name
      · rw [if_pos hm, if_pos (by rw [List.map_cons]; exact List.mem_cons_of_mem _ hm), List.map_cons]
      · rw [if_neg hm, if_neg (by rw [List.map_cons, List.mem_cons]; exact not_or.2 ⟨hne, hm⟩)]
        rfl

theorem mem_names_declareAll {name : String} : ∀ {new nodes : List Node},
    name ∈ (declareAll nodes new).map Node.name ↔ name ∈ nodes.map Node.name ∨ name ∈ new.map Node.name
  | [], nodes => by simp [declareAll]
  | node :: new, nodes => by
    show name ∈ (declareAll (declare node.name node.attributes nodes) new).map Node.name ↔ _
    rw [mem_names_declareAll, names_declare, List.map_cons, List.mem_cons]
    split
    · rename_i hm
      constructor
      · rintro (h | h)
        · exact Or.inl h
        · exact Or.inr (Or.inr h)
      · rintro (h | rfl | h)
        · exact Or.inl h
        · exact Or.inl hm
        · exact Or.inr h
    · rw [List.mem_append, List.mem_singleton, or_assoc]

theorem mem_names_add {map : NodeMap} {name other : String} {attrs : Attributes} :
    name ∈ (map.add other attrs).names ↔ name ∈ map.names ∨ name = other := by
  have h := @mem_names_declareAll name [⟨other, attrs⟩] map.toList
  rw [names, toList_add]
  simpa [declareAll, names] using h

theorem mem_names_addAll {map : NodeMap} {name : String} {new : List Node} :
    name ∈ (map.addAll new).names ↔ name ∈ map.names ∨ name ∈ new.map Node.name := by
  rw [names, toList_addAll, mem_names_declareAll, names]

theorem ensure_of_mem {map : NodeMap} {name : String} (h : name ∈ map.names) (attrs : Attributes) :
    map.ensure attrs name = map :=
  if_pos (contains_iff.2 h)

theorem ensure_of_not_mem {map : NodeMap} {name : String} (h : name ∉ map.names) (attrs : Attributes) :
    map.ensure attrs name = map.add name attrs :=
  if_neg fun hc => h (contains_iff.1 hc)

theorem mem_names_ensure {map : NodeMap} {name other : String} {attrs : Attributes} :
    name ∈ (map.ensure attrs other).names ↔ name ∈ map.names ∨ name = other := by
  by_cases h : other ∈ map.names
  · rw [ensure_of_mem h]
    refine ⟨Or.inl, ?_⟩
    rintro (hn | rfl)
    · exact hn
    · exact h
  · rw [ensure_of_not_mem h, mem_names_add]

/-! ## Removing and changing -/

theorem eraseIdx_eq_filter {name : String} : ∀ {nodes : List Node} {i : Nat}, (nodes.map Node.name).Nodup →
    (nodes[i]?).map Node.name = some name → nodes.eraseIdx i = nodes.filter fun node => node.name ≠ name
  | [], i, _, h => by simp at h
  | node :: rest, 0, hd, h => by
    have h : node.name = name := by simpa using h
    rw [List.map_cons, List.nodup_cons, h] at hd
    have hrest : ∀ other ∈ rest, other.name ≠ name := by
      intro other ho he
      exact hd.1 (he ▸ List.mem_map_of_mem ho)
    have hkeep : (rest.filter fun other => other.name ≠ name) = rest :=
      List.filter_eq_self.2 fun other ho => by simpa using hrest other ho
    rw [List.eraseIdx_cons_zero, List.filter_cons, hkeep]
    simp [h]
  | node :: rest, i + 1, hd, h => by
    rw [List.map_cons, List.nodup_cons] at hd
    have hm : name ∈ rest.map Node.name := by
      rw [List.getElem?_cons_succ, ← List.getElem?_map] at h
      exact List.mem_of_getElem? h
    have hne : node.name ≠ name := by
      intro he
      exact hd.1 (he ▸ hm)
    rw [List.eraseIdx_cons_succ, eraseIdx_eq_filter hd.2 (by simpa using h), List.filter_cons]
    simp [hne]

theorem erase_of_not_mem {map : NodeMap} {name : String} (h : name ∉ map.names) : map.erase name = map := by
  unfold erase
  split
  · rfl
  · rename_i place hi
    rw [index_eq_none.2 h] at hi
    cases hi

/-- A node is taken out where the index says it is. -/
theorem toList_erase_of_place {map : NodeMap} {name : String} {i : Nat} (h : map.index[name]? = some i) :
    (map.erase name).toList = map.toList.eraseIdx i := by
  unfold erase
  split
  · rename_i h'
    rw [h] at h'
    cases h'
  · rename_i j h'
    rw [h] at h'
    obtain rfl := Option.some.inj h'
    simp [toList]

theorem toList_erase (map : NodeMap) (name : String) :
    (map.erase name).toList = map.toList.filter fun node => node.name ≠ name := by
  cases h : map.index[name]? with
  | some place => rw [toList_erase_of_place h, eraseIdx_eq_filter (nodup_names map) (index_eq_some.1 h)]
  | none =>
    have hm := index_eq_none.1 h
    rw [erase_of_not_mem hm]
    symm
    apply List.filter_eq_self.2
    intro node hn
    have hne : node.name ≠ name := by
      intro he
      exact hm (he ▸ List.mem_map_of_mem hn)
    simpa using hne

theorem mem_names_erase {map : NodeMap} {name other : String} :
    other ∈ (map.erase name).names ↔ other ∈ map.names ∧ other ≠ name := by
  rw [names, toList_erase, names, List.mem_map, List.mem_map]
  simp only [List.mem_filter, decide_eq_true_eq]
  constructor
  · rintro ⟨node, ⟨hn, hne⟩, rfl⟩
    exact ⟨⟨node, hn, rfl⟩, hne⟩
  · rintro ⟨⟨node, hn, rfl⟩, hne⟩
    exact ⟨node, ⟨hn, hne⟩, rfl⟩

theorem modify_of_not_mem {map : NodeMap} {name : String} (h : name ∉ map.names) (f : Attributes → Attributes) :
    map.modify name f = map := by
  simp only [modify, index_eq_none.2 h]

theorem index_modify (map : NodeMap) (name : String) (f : Attributes → Attributes) :
    (map.modify name f).index = map.index := by
  unfold modify
  split
  · rfl
  · rfl

theorem names_modify (map : NodeMap) (name : String) (f : Attributes → Attributes) :
    (map.modify name f).names = map.names := by
  unfold modify
  split
  · rfl
  · rename_i i h
    apply List.ext_getElem?
    intro j
    simp only [names, toList, List.getElem?_map, Array.getElem?_toList, Array.getElem?_modify]
    by_cases hi : i = j <;> simp [hi, Option.map_map, Function.comp_def]

/-! ## The attributes of a node -/

/-- The attributes that a node has here, none if it is not here. -/
def attrsOf (map : NodeMap) (name : String) : Attributes := ((map.get? name).map Node.attributes).getD ∅

theorem get?_eq_find? (map : NodeMap) (name : String) :
    map.get? name = map.toList.find? fun node => node.name == name := by
  cases h : map.toList.find? fun node => node.name == name with
  | none =>
    apply get?_of_not_mem
    intro hm
    obtain ⟨node, hn, he⟩ := List.mem_map.1 hm
    have := List.find?_eq_none.1 h node hn
    simp [he] at this
  | some node =>
    have he : node.name = name := by simpa using List.find?_some h
    rw [← he]
    exact get?_of_mem (List.mem_of_find?_eq_some h)

/-- Lookups go on to find the other nodes, each as it was. -/
theorem get?_erase (map : NodeMap) (name other : String) :
    (map.erase name).get? other = if other = name then none else map.get? other := by
  rw [get?_eq_find?, get?_eq_find?, toList_erase, List.find?_filter]
  by_cases h : other = name
  · simp [h]
  · rw [if_neg h]
    congr 1
    funext node
    by_cases hn : node.name = other
    · simp [hn, h]
    · simp [hn]

theorem map_attributes_get? (map : NodeMap) (name : String) :
    (map.get? name).map Node.attributes = if name ∈ map.names then some (map.attrsOf name) else none := by
  unfold attrsOf
  by_cases hm : name ∈ map.names
  · obtain ⟨node, hn, he⟩ := List.mem_map.1 hm
    have hg : map.get? name = some node := he ▸ get?_of_mem hn
    simp [hm, hg]
  · simp [hm, get?_of_not_mem hm]

theorem attrsOf_of_not_mem {map : NodeMap} {name : String} (h : name ∉ map.names) : map.attrsOf name = ∅ := by
  unfold attrsOf
  rw [get?_of_not_mem h]
  rfl

theorem find?_declare {other : String} {attrs : Attributes} (name : String) : ∀ nodes : List Node,
    ((declare other attrs nodes).find? fun node => node.name == name) =
      if name = other then
        some ⟨name, (((nodes.find? fun node => node.name == name).map (·.attributes.merge attrs)).getD attrs)⟩
      else nodes.find? fun node => node.name == name
  | [] => by
    by_cases h : name = other
    · simp [declare, h]
    · simp [declare, h, Ne.symm h]
  | node :: rest => by
    unfold declare
    by_cases hn : node.name = other
    · by_cases h : name = other
      · simp [hn, h]
      · have ho : other ≠ name := Ne.symm h
        simp [hn, h, ho]
    · rw [if_neg hn]
      by_cases hm : node.name = name
      · have h : name ≠ other := fun e => hn (hm.trans e)
        simp [hm, h]
      · have hm' : (node.name == name) = false := by simpa using hm
        rw [List.find?_cons, List.find?_cons]
        simp only [hm']
        exact find?_declare name rest

theorem attrsOf_add_self {attrs : Attributes} (h : attrs.names.Nodup) (map : NodeMap) (name : String) :
    (map.add name attrs).attrsOf name = (map.attrsOf name).merge attrs := by
  unfold attrsOf
  rw [get?_eq_find?, toList_add, find?_declare, if_pos rfl, ← get?_eq_find?]
  cases map.get? name with
  | none => exact (Attributes.empty_merge h).symm
  | some node => rfl

theorem attrsOf_add_of_ne {name other : String} (h : name ≠ other) (map : NodeMap) (attrs : Attributes) :
    (map.add other attrs).attrsOf name = map.attrsOf name := by
  unfold attrsOf
  rw [get?_eq_find?, toList_add, find?_declare, if_neg h, ← get?_eq_find?]

theorem attrsOf_add_empty (map : NodeMap) (other name : String) : (map.add other ∅).attrsOf name = map.attrsOf name := by
  by_cases h : name = other
  · rw [h, attrsOf_add_self Attributes.nodup_names_empty, Attributes.merge_empty]
  · exact attrsOf_add_of_ne h map ∅

theorem attrsOf_addAll (name : String) : ∀ {new : List Node} (map : NodeMap),
    (∀ node ∈ new, node.name = name → node.attributes.names.Nodup) →
      (map.addAll new).attrsOf name =
        ((new.filter fun node => node.name == name).map Node.attributes).foldl Attributes.merge (map.attrsOf name)
  | [], _, _ => rfl
  | node :: new, map, h => by
    rw [List.forall_mem_cons] at h
    show ((map.add node.name node.attributes).addAll new).attrsOf name = _
    rw [attrsOf_addAll name _ h.2, List.filter_cons]
    by_cases hn : node.name = name
    · subst hn
      rw [attrsOf_add_self (h.1 rfl), if_pos (by simp)]
      rfl
    · rw [attrsOf_add_of_ne (Ne.symm hn), if_neg (by simpa using hn)]

/-- The attributes of a node after another is declared: its own, and those of the other if it is the same. -/
theorem mem_attrsOf_add {map : NodeMap} {other name key : String} {attrs : Attributes} :
    key ∈ ((map.add other attrs).attrsOf name).names ↔
      key ∈ (map.attrsOf name).names ∨ other = name ∧ key ∈ attrs.names := by
  by_cases h : other = name
  · subst h
    unfold attrsOf
    rw [get?_eq_find? (map.add other attrs), toList_add, find?_declare, if_pos rfl, ← get?_eq_find?]
    have hnone : key ∉ (∅ : Attributes).names := List.not_mem_nil
    cases map.get? other with
    | none => simp [hnone]
    | some node => simp [Attributes.mem_names_merge]
  · rw [attrsOf_add_of_ne (Ne.symm h)]
    simp [h]

theorem mem_attrsOf_addAll {name key : String} : ∀ {new : List Node} {map : NodeMap},
    key ∈ ((map.addAll new).attrsOf name).names ↔
      key ∈ (map.attrsOf name).names ∨ ∃ node ∈ new, node.name = name ∧ key ∈ node.attributes.names
  | [], map => by simp [addAll]
  | node :: new, map => by
    show key ∈ (((map.add node.name node.attributes).addAll new).attrsOf name).names ↔ _
    rw [mem_attrsOf_addAll, mem_attrsOf_add]
    simp [or_assoc]

theorem filter_name_toList (map : NodeMap) (name : String) :
    map.toList.filter (fun node => node.name == name) = (map.get? name).toList := by
  have hone : (map.toList.filter fun node => node.name == name).length ≤ 1 := by
    have hc := List.nodup_iff_count_le_one.1 (nodup_names map) name
    rw [← List.countP_eq_length_filter]
    rw [List.count, names, List.countP_map] at hc
    exact hc
  rw [get?_eq_find?, ← List.head?_filter]
  generalize map.toList.filter (fun node => node.name == name) = found at hone ⊢
  match found, hone with
  | [], _ => rfl
  | [node], _ => rfl
  | _ :: _ :: _, h => simp at h

/-- Taking in all nodes of another map merges what the node has there. -/
theorem attrsOf_addAll_toList {other : NodeMap} {name : String} (h : (other.attrsOf name).names.Nodup)
    (map : NodeMap) : (map.addAll other.toList).attrsOf name = (map.attrsOf name).merge (other.attrsOf name) := by
  have hall : ∀ node ∈ other.toList, node.name = name → node.attributes.names.Nodup := by
    rintro node hn rfl
    unfold attrsOf at h
    rwa [get?_of_mem hn] at h
  rw [attrsOf_addAll name map hall, filter_name_toList]
  unfold attrsOf
  cases other.get? name <;> rfl

end DotLang.NodeMap
