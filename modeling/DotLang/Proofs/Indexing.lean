import DotLang.Proofs.Nodes
import DotLang.Proofs.Occurrences

/-!
# A list and its index, kept apart

The nodes of a map stand in a list, and an index says where each name is. Here list and index are changed one after
the other, and nothing but the order of the changes sees to it that they agree: a place that the index gives may be
one where no node is. It never is, whatever was called before, and the answers are those of a list alone.
-/

namespace DotLang

namespace NodeMap

/-! ## Calls and answers -/

inductive Call
  | add (name : String) (attrs : Attributes)
  | amend (name : String) (f : Attributes → Attributes)
  | remove (name : String)
  | get (name : String)
  | contains (name : String)
  | all
  | size

inductive Answer
  | done
  | node (found : Option Node)
  | holds (there : Bool)
  | nodes (all : List Node)
  | count (n : Nat)

/-- Answers calls one after the other. -/
def run {σ : Type} (answer : σ → Call → Answer × σ) : σ → List Call → List Answer × σ
  | state, [] => ([], state)
  | state, call :: calls =>
    let rest := run answer (answer state call).2 calls
    ((answer state call).1 :: rest.1, rest.2)

/-- An attribute update is given the node that it changes. -/
def answer (map : NodeMap) : Call → Answer × NodeMap
  | .add name attrs => (.done, map.add name attrs)
  | .amend name f => (.node (map.get? name), map.modify name f)
  | .remove name => (.node (map.get? name), map.erase name)
  | .get name => (.node (map.get? name), map)
  | .contains name => (.holds (map.contains name), map)
  | .all => (.nodes map.toList, map)
  | .size => (.count map.size, map)

/-- The nodes with the attributes of one changed where it stands. -/
def amend (name : String) (f : Attributes → Attributes) (nodes : List Node) : List Node :=
  nodes.map fun node => if node.name = name then { node with attributes := f node.attributes } else node

/-- The answers of a list in which nodes stand in the order of their declaration. -/
def listed (nodes : List Node) : Call → Answer × List Node
  | .add name attrs => (.done, declare name attrs nodes)
  | .amend name f => (.node (nodes.find? fun node => node.name == name), amend name f nodes)
  | .remove name => (.node (nodes.find? fun node => node.name == name), nodes.filter fun node => node.name ≠ name)
  | .get name => (.node (nodes.find? fun node => node.name == name), nodes)
  | .contains name => (.holds (decide (name ∈ nodes.map Node.name)), nodes)
  | .all => (.nodes nodes, nodes)
  | .size => (.count nodes.length, nodes)

end NodeMap

/-- A place at which no node is. -/
structure NoNode where
  place : Nat

/-- Nodes, and an index that is to say where they are. -/
structure Roster where
  nodes : List Node
  index : Std.TreeMap String Nat

namespace Roster

open NodeMap (Call Answer)

def empty : Roster := ⟨[], ∅⟩

def nodeAt (roster : Roster) (place : Nat) : Except NoNode Node :=
  match roster.nodes[place]? with
  | some node => .ok node
  | none => .error ⟨place⟩

def get (roster : Roster) (name : String) : Except NoNode (Option Node) :=
  match roster.index[name]? with
  | none => .ok none
  | some place => (roster.nodeAt place).map some

/-- Changes the attributes of a node at the place that the index gives; gives the node that was there. -/
def amend (roster : Roster) (name : String) (f : Attributes → Attributes) : Except NoNode (Option Node × Roster) :=
  match roster.index[name]? with
  | none => .ok (none, roster)
  | some place => do
    let node ← roster.nodeAt place
    .ok (some node, { roster with nodes := roster.nodes.set place { node with attributes := f node.attributes } })

def add (roster : Roster) (name : String) (attrs : Attributes) : Except NoNode Roster := do
  match ← roster.amend name (·.merge attrs) with
  | (some _, roster) => .ok roster
  | (none, roster) => .ok ⟨roster.nodes ++ [⟨name, attrs⟩], roster.index.insert name roster.nodes.length⟩

/-- The index with the places of nodes that stand in a row from a place on. -/
def renumber (index : Std.TreeMap String Nat) : List Node → Nat → Std.TreeMap String Nat
  | [], _ => index
  | node :: rest, place => renumber (index.insert node.name place) rest (place + 1)

/-- Takes a node out at the place that the index gives, and renumbers the nodes behind it. -/
def remove (roster : Roster) (name : String) : Except NoNode (Option Node × Roster) :=
  match roster.index[name]? with
  | none => .ok (none, roster)
  | some place => do
    let node ← roster.nodeAt place
    let nodes := roster.nodes.eraseIdx place
    .ok (some node, ⟨nodes, renumber (roster.index.erase name) (nodes.drop place) place⟩)

def answer (roster : Roster) : Call → Except NoNode (Answer × Roster)
  | .add name attrs => do .ok (.done, ← roster.add name attrs)
  | .amend name f => do
    let (found, roster) ← roster.amend name f
    .ok (.node found, roster)
  | .remove name => do
    let (found, roster) ← roster.remove name
    .ok (.node found, roster)
  | .get name => do .ok (.node (← roster.get name), roster)
  | .contains name => .ok (.holds (roster.index.contains name), roster)
  | .all => .ok (.nodes roster.nodes, roster)
  | .size => .ok (.count roster.nodes.length, roster)

def run (roster : Roster) : List Call → Except NoNode (List Answer × Roster)
  | [] => .ok ([], roster)
  | call :: calls => do
    let (found, next) ← roster.answer call
    let (rest, last) ← next.run calls
    .ok (found :: rest, last)

def names (roster : Roster) : List String := roster.nodes.map Node.name

end Roster

/-! ## The answers of a map are those of its list -/

namespace NodeMap

theorem amend_of_not_mem {name : String} {nodes : List Node} (h : name ∉ nodes.map Node.name)
    (f : Attributes → Attributes) : amend name f nodes = nodes := by
  rw [amend, List.map_congr_left (g := id), List.map_id]
  intro node hn
  rw [if_neg, id]
  rintro rfl
  exact h (List.mem_map_of_mem hn)

theorem toList_modify (map : NodeMap) (name : String) (f : Attributes → Attributes) :
    (map.modify name f).toList = amend name f map.toList := by
  cases h : map.index[name]? with
  | none =>
    have hm := index_eq_none.1 h
    rw [modify_of_not_mem hm, amend_of_not_mem hm]
  | some i =>
    rw [toList_modify_of_place h, amend]
    apply List.ext_getElem?
    intro j
    rw [List.getElem?_modify, List.getElem?_map]
    cases hj : map.toList[j]? with
    | none => rfl
    | some node =>
      have hplace : i = j ↔ node.name = name := by
        have hj' := @index_eq_some map name j
        rwa [h, hj, Option.map_some, Option.some_inj, Option.some_inj] at hj'
      simp [hplace]

theorem listed_toList (map : NodeMap) (call : Call) :
    listed map.toList call = ((map.answer call).1, (map.answer call).2.toList) := by
  cases call with
  | add name attrs => rw [listed, answer, toList_add]
  | amend name f => rw [listed, answer, toList_modify, get?_eq_find?]
  | remove name => rw [listed, answer, toList_erase, get?_eq_find?]
  | get name => rw [listed, answer, get?_eq_find?]
  | contains name =>
    have hc : map.contains name = decide (name ∈ map.toList.map Node.name) := by
      rw [Bool.eq_iff_iff, contains_iff, decide_eq_true_iff, names]
    rw [listed, answer, hc]
  | all => rfl
  | size => rfl

theorem run_listed_toList : ∀ (calls : List Call) (map : NodeMap),
    run listed map.toList calls = ((run answer map calls).1, (run answer map calls).2.toList)
  | [], _ => rfl
  | call :: calls, map => by
    have hrest := run_listed_toList calls (map.answer call).2
    rw [run, run, listed_toList, hrest]

end NodeMap

/-! ## List and index are those of a map -/

namespace Roster

open NodeMap (Call Answer)

/-- The list and the places are those of a map. -/
structure Mirrors (roster : Roster) (map : NodeMap) : Prop where
  nodes : roster.nodes = map.toList
  places : ∀ name : String, roster.index[name]? = map.index[name]?

section
variable {roster : Roster} {map : NodeMap} {name : String}

/-- A place that the index gives is there, and the node of the name is at it. -/
theorem Mirrors.exists_node (h : roster.Mirrors map) {i : Nat} (hi : map.index[name]? = some i) :
    ∃ node, map.get? name = some node ∧ map.toList[i]? = some node ∧ roster.nodeAt i = .ok node := by
  obtain ⟨node, hn, he⟩ := Option.map_eq_some_iff.1 (NodeMap.index_eq_some.1 hi)
  refine ⟨node, ?_, hn, ?_⟩
  · rw [← he]
    exact NodeMap.get?_of_mem (List.mem_of_getElem? hn)
  · rw [nodeAt, h.nodes, hn]

theorem Mirrors.get (h : roster.Mirrors map) (name : String) : roster.get name = .ok (map.get? name) := by
  unfold Roster.get
  rw [h.places]
  cases hi : map.index[name]? with
  | none => rw [NodeMap.get?_of_no_place hi]
  | some i =>
    obtain ⟨node, hg, -, ha⟩ := h.exists_node hi
    rw [hg]
    simp only [ha]
    rfl

theorem Mirrors.amend (h : roster.Mirrors map) (name : String) (f : Attributes → Attributes) :
    ∃ next, roster.amend name f = .ok (map.get? name, next) ∧ next.Mirrors (map.modify name f) := by
  unfold Roster.amend
  rw [h.places]
  cases hi : map.index[name]? with
  | none =>
    refine ⟨roster, by rw [NodeMap.get?_of_no_place hi], ?_⟩
    rw [NodeMap.modify_of_not_mem (NodeMap.index_eq_none.1 hi)]
    exact h
  | some i =>
    obtain ⟨node, hg, hn, ha⟩ := h.exists_node hi
    refine ⟨{ roster with nodes := roster.nodes.set i { node with attributes := f node.attributes } }, ?_, ?_, ?_⟩
    · simp only [ha, hg]
      rfl
    · rw [NodeMap.toList_modify_of_place hi, List.modify_eq_set_getElem?, hn, h.nodes]
      rfl
    · rw [NodeMap.index_modify]
      exact h.places

theorem Mirrors.add (h : roster.Mirrors map) (name : String) (attrs : Attributes) :
    ∃ next, roster.add name attrs = .ok next ∧ next.Mirrors (map.add name attrs) := by
  obtain ⟨next, hn, hm⟩ := h.amend name (·.merge attrs)
  cases hi : map.index[name]? with
  | some i =>
    obtain ⟨node, hg, -, -⟩ := h.exists_node hi
    refine ⟨next, ?_, ?_⟩
    · rw [Roster.add, hn, hg]
      rfl
    · rw [NodeMap.add_of_mem (NodeMap.mem_names_of_place hi)]
      exact hm
  | none =>
    have habsent := NodeMap.index_eq_none.1 hi
    rw [NodeMap.modify_of_not_mem habsent] at hm
    refine ⟨⟨next.nodes ++ [⟨name, attrs⟩], next.index.insert name next.nodes.length⟩, ?_, ?_, ?_⟩
    · rw [Roster.add, hn, NodeMap.get?_of_no_place hi]
      rfl
    · rw [NodeMap.toList_add, NodeMap.declare_of_not_mem habsent, hm.nodes]
    · intro other
      rw [NodeMap.index_add_of_not_mem habsent, Std.TreeMap.getElem?_insert, Std.TreeMap.getElem?_insert, hm.places,
        hm.nodes]
      rfl

/-- The places of the nodes in the row are new, the others stay. -/
theorem getElem?_renumber (other : String) : ∀ (row : List Node) (index : Std.TreeMap String Nat) (place : Nat),
    (row.map Node.name).Nodup →
      (renumber index row place)[other]? = (((row.map Node.name).idxOf? other).map (· + place)).or index[other]?
  | [], _, _, _ => rfl
  | node :: rest, index, place, h => by
    rw [List.map_cons, List.nodup_cons] at h
    rw [renumber, getElem?_renumber other rest _ _ h.2, List.map_cons, List.idxOf?_cons, Std.TreeMap.getElem?_insert]
    by_cases hn : node.name = other
    · have hnone : (rest.map Node.name).idxOf? other = none := List.idxOf?_eq_none_iff.2 (hn ▸ h.1)
      simp [hn, hnone]
    · have hne : (node.name == other) = false := beq_eq_false_iff_ne.2 hn
      have hcmp : compare node.name other ≠ .eq := by rwa [Ne, Std.LawfulEqCmp.compare_eq_iff_eq]
      rw [hne, if_neg hcmp]
      cases (rest.map Node.name).idxOf? other with
      | none => rfl
      | some i => simp [Nat.add_assoc, Nat.add_comm 1]

/-- With the nodes behind it renumbered, the index is the one of the nodes that are left. -/
theorem getElem?_renumber_erase {i : Nat} (hi : map.index[name]? = some i) {index : Std.TreeMap String Nat}
    (h : ∀ name : String, index[name]? = map.index[name]?) (other : String) :
    (renumber (index.erase name) ((map.erase name).toList.drop i) i)[other]? = (map.erase name).index[other]? := by
  let front := map.names.take i
  let behind := map.names.drop (i + 1)
  have hplace : map.names[i]? = some name := by
    rw [NodeMap.names, List.getElem?_map]
    exact NodeMap.index_eq_some.1 hi
  have hfront : front.length = i := List.length_take_of_le (Nat.le_of_lt (List.getElem?_eq_some_iff.1 hplace).1)
  have hold : map.names = front ++ name :: behind := eq_take_append_drop hplace
  have hnew : (map.erase name).names = front ++ behind := by
    rw [NodeMap.names, NodeMap.toList_erase_of_place hi, List.eraseIdx_eq_take_drop_succ, List.map_append,
      List.map_take, List.map_drop]
    rfl
  have hrow : ((map.erase name).toList.drop i).map Node.name = behind := by
    rw [List.map_drop, ← NodeMap.names, hnew, ← hfront, List.drop_left]
  have hnodup : (front ++ name :: behind).Nodup := hold ▸ map.nodup_names
  obtain ⟨-, hbehind, hapart⟩ := List.nodup_append.1 hnodup
  rw [List.nodup_cons] at hbehind
  rw [getElem?_renumber other _ _ _ (hrow ▸ hbehind.2), hrow, Std.TreeMap.getElem?_erase, h,
    NodeMap.index_eq_idxOf?, NodeMap.index_eq_idxOf?, hnew, hold, idxOf?_append, idxOf?_append, hfront,
    List.idxOf?_cons]
  simp only [Std.LawfulEqCmp.compare_eq_iff_eq, beq_iff_eq]
  -- Names are distinct: another one is in front, where its place stays, or behind, where it is new.
  by_cases hn : name = other
  · have hnone : front.idxOf? other = none := by
      rw [List.idxOf?_eq_none_iff]
      exact fun hm => hapart other hm name (List.mem_cons_self ..) hn.symm
    simp [hn, hnone]
  · rw [if_neg hn, if_neg hn]
    cases hb : behind.idxOf? other with
    | none => simp
    | some k =>
      have hm : other ∈ behind := List.isSome_idxOf?.1 (by rw [hb]; rfl)
      have hnone : front.idxOf? other = none := by
        rw [List.idxOf?_eq_none_iff]
        exact fun hf => hapart other hf other (List.mem_cons_of_mem _ hm) rfl
      simp [hnone]

theorem Mirrors.remove (h : roster.Mirrors map) (name : String) :
    ∃ next, roster.remove name = .ok (map.get? name, next) ∧ next.Mirrors (map.erase name) := by
  unfold Roster.remove
  rw [h.places]
  cases hi : map.index[name]? with
  | none =>
    refine ⟨roster, by rw [NodeMap.get?_of_no_place hi], ?_⟩
    rw [NodeMap.erase_of_not_mem (NodeMap.index_eq_none.1 hi)]
    exact h
  | some i =>
    obtain ⟨node, hg, -, ha⟩ := h.exists_node hi
    have hlist : roster.nodes.eraseIdx i = (map.erase name).toList := by
      rw [NodeMap.toList_erase_of_place hi, h.nodes]
    refine ⟨⟨(map.erase name).toList, renumber (roster.index.erase name) ((map.erase name).toList.drop i) i⟩, ?_,
      rfl, getElem?_renumber_erase hi h.places⟩
    simp only [ha, hg, ← hlist]
    rfl

end

/-- One call has the answer of the map, and leaves the list and the places of the map after it. -/
theorem Mirrors.answer {roster : Roster} {map : NodeMap} (h : roster.Mirrors map) (call : Call) :
    ∃ next, roster.answer call = .ok ((map.answer call).1, next) ∧ next.Mirrors (map.answer call).2 := by
  cases call with
  | add name attrs =>
    obtain ⟨next, hn, hm⟩ := h.add name attrs
    exact ⟨next, by rw [Roster.answer, hn]; rfl, hm⟩
  | amend name f =>
    obtain ⟨next, hn, hm⟩ := h.amend name f
    exact ⟨next, by rw [Roster.answer, hn]; rfl, hm⟩
  | remove name =>
    obtain ⟨next, hn, hm⟩ := h.remove name
    exact ⟨next, by rw [Roster.answer, hn]; rfl, hm⟩
  | get name => exact ⟨roster, by rw [Roster.answer, h.get]; rfl, h⟩
  | contains name =>
    have hc : roster.index.contains name = map.contains name := by
      rw [NodeMap.contains, Std.TreeMap.contains_eq_isSome_getElem?, Std.TreeMap.contains_eq_isSome_getElem?, h.places]
    exact ⟨roster, by rw [Roster.answer, hc]; rfl, h⟩
  | all => exact ⟨roster, by rw [Roster.answer, h.nodes]; rfl, h⟩
  | size => exact ⟨roster, by rw [Roster.answer, h.nodes]; rfl, h⟩

theorem Mirrors.run : ∀ (calls : List Call) {roster : Roster} {map : NodeMap}, roster.Mirrors map →
    ∃ last, roster.run calls = .ok ((NodeMap.run NodeMap.answer map calls).1, last) ∧
      last.Mirrors (NodeMap.run NodeMap.answer map calls).2
  | [], roster, _, h => ⟨roster, rfl, h⟩
  | call :: calls, _, _, h => by
    obtain ⟨next, hn, hm⟩ := h.answer call
    obtain ⟨last, hl, hm'⟩ := Mirrors.run calls hm
    refine ⟨last, ?_, hm'⟩
    rw [Roster.run, hn]
    show (do
      let (rest, last) ← next.run calls
      Except.ok (_, last)) = _
    rw [hl]
    rfl

theorem mirrors_empty : empty.Mirrors ∅ := ⟨rfl, fun _ => rfl⟩

/-- Calls from the empty list on never meet a place without a node. The names stay distinct, the index has these
names with their places, and every answer is that of an association list in the order of declaration; a map gives
the same answers, with the same list and the same places. -/
theorem answers_in_order (calls : List Call) :
    ∃ answers last, empty.run calls = .ok (answers, last) ∧
      last.names.Nodup ∧
      (∀ name, name ∈ last.index ↔ name ∈ last.names) ∧
      (∀ (name : String) (i : Nat), last.index[name]? = some i ↔ last.names[i]? = some name) ∧
      NodeMap.run NodeMap.listed [] calls = (answers, last.nodes) ∧
      ∃ map, NodeMap.run NodeMap.answer ∅ calls = (answers, map) ∧ map.toList = last.nodes ∧
        ∀ name : String, map.index[name]? = last.index[name]? := by
  obtain ⟨last, hrun, h⟩ := Mirrors.run calls mirrors_empty
  have hnames : last.names = (NodeMap.run NodeMap.answer ∅ calls).2.names := by rw [names, h.nodes, NodeMap.names]
  refine ⟨_, last, hrun, ?_, ?_, ?_, ?_, _, rfl, h.nodes.symm, fun name => (h.places name).symm⟩
  · rw [hnames]
    exact NodeMap.nodup_names _
  · intro name
    rw [Std.TreeMap.mem_iff_isSome_getElem?, h.places, NodeMap.index_eq_idxOf?, ← hnames, List.isSome_idxOf?]
  · intro name i
    rw [h.places, NodeMap.index_eq_some, ← h.nodes, names, List.getElem?_map]
  · rw [h.nodes]
    exact NodeMap.run_listed_toList calls ∅

end Roster

end DotLang
