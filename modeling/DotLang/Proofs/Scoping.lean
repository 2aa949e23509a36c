import DotLang.Proofs.Builder.Built
import DotLang.Proofs.Occurrences

/-!
# Scopes

The value that the innermost scope has for a key is the one the key has when all scopes are put into one.
Calls that close what they opened leave the scopes outside as they were, so what is inherited is the merge of
the defaults in the open scopes, from the outermost inwards.
-/

namespace DotLang

/-! ## Nesting -/

/-- What a call does to the open scopes. -/
inductive Nesting
  | opens
  | closes
  | stays
deriving Repr, DecidableEq

/-- Whether all scopes are closed in the end, and none but those that are opened here; `depth` are open now. -/
def Nesting.isBalanced : (depth : Nat) → List Nesting → Bool
  | depth, [] => depth == 0
  | depth, .opens :: rest => isBalanced (depth + 1) rest
  | 0, .closes :: _ => false
  | depth + 1, .closes :: rest => isBalanced depth rest
  | depth, .stays :: rest => isBalanced depth rest

theorem Nesting.isBalanced_append {front : List Nesting} (h : ∀ nesting ∈ front, nesting = .stays) (depth : Nat)
    (rest : List Nesting) : isBalanced depth (front ++ rest) = isBalanced depth rest := by
  induction front with
  | nil => rfl
  | cons nesting front ih =>
    obtain ⟨rfl, hfront⟩ := List.forall_mem_cons.1 h
    cases depth with
    | zero => exact ih hfront
    | succ depth => exact ih hfront

/-! ## One scope -/

section
variable {κ ν : Type} [DecidableEq κ]

/-- The pairs with new ones put in, one after the other. -/
def upsertAll (pairs new : List (κ × ν)) : List (κ × ν) :=
  new.foldl (fun pairs (key, value) => upsert key value pairs) pairs

theorem upsertAll_concat (pairs new : List (κ × ν)) (key : κ) (value : ν) :
    upsertAll pairs (new ++ [(key, value)]) = upsert key value (upsertAll pairs new) :=
  List.foldl_concat ..

theorem keys_upsert (key : κ) (value : ν) : ∀ pairs : List (κ × ν),
    (upsert key value pairs).map Prod.fst =
      if key ∈ pairs.map Prod.fst then pairs.map Prod.fst else pairs.map Prod.fst ++ [key]
  | [] => rfl
  | pair :: rest => by
    unfold upsert
    by_cases h : pair.1 = key
    · simp [h]
    · have hne : ¬ key = pair.1 := fun e => h e.symm
      rw [if_neg h, List.map_cons, keys_upsert key value rest, List.map_cons]
      by_cases hm : key ∈ rest.map Prod.fst
      · rw [if_pos hm, if_pos (List.mem_cons_of_mem _ hm)]
      · rw [if_neg hm, if_neg (by rw [List.mem_cons]; exact not_or.2 ⟨hne, hm⟩), List.cons_append]

theorem keys_upsertAll (new : List (κ × ν)) :
    (upsertAll [] new).map Prod.fst = (new.map Prod.fst).eraseDups := by
  induction new using List.reverseRecOn with
  | nil => rfl
  | append_singleton new pair ih =>
    rw [upsertAll_concat, keys_upsert, ih, List.map_append, List.map_singleton, eraseDups_concat]
    simp only [List.mem_eraseDups]

theorem lookup_pair (other key : κ) (value : ν) (rest : List (κ × ν)) :
    ((key, value) :: rest).lookup other = if other = key then some value else rest.lookup other := by
  rw [List.lookup_cons]
  by_cases h : other = key
  · rw [if_pos h, beq_iff_eq.2 h]
  · rw [if_neg h, beq_eq_false_iff_ne.2 h]

theorem lookup_upsert (other key : κ) (value : ν) : ∀ pairs : List (κ × ν),
    (upsert key value pairs).lookup other = if other = key then some value else pairs.lookup other
  | [] => lookup_pair other key value []
  | (first, old) :: rest => by
    have ih := lookup_upsert other key value rest
    unfold upsert
    by_cases hf : first = key
    · rw [if_pos hf, lookup_pair, lookup_pair, hf]
      by_cases h : other = key
      · rw [if_pos h, if_pos h]
      · rw [if_neg h, if_neg h, if_neg h]
    · rw [if_neg hf, lookup_pair, lookup_pair, ih]
      by_cases h : other = first
      · rw [if_pos h, if_pos h, if_neg fun e => hf (h.symm.trans e)]
      · rw [if_neg h, if_neg h]

/-- The last value that is put in counts. -/
theorem lookup_upsertAll (key : κ) (new : List (κ × ν)) :
    (upsertAll [] new).lookup key = new.reverse.lookup key := by
  induction new using List.reverseRecOn with
  | nil => rfl
  | append_singleton new pair ih =>
    rw [upsertAll_concat, lookup_upsert, ih, List.reverse_append, List.reverse_singleton, List.singleton_append,
      lookup_pair]

/-- Where no key stands twice, a value is found from both ends. -/
theorem lookup_reverse {pairs : List (κ × ν)} (h : (pairs.map Prod.fst).Nodup) (key : κ) :
    pairs.reverse.lookup key = pairs.lookup key := by
  induction pairs with
  | nil => rfl
  | cons pair rest ih =>
    obtain ⟨hnew, hrest⟩ := List.nodup_cons.1 h
    rw [List.reverse_cons, List.lookup_append, ih hrest, lookup_pair, lookup_pair]
    by_cases hk : key = pair.1
    · have hnone : rest.lookup key = none := by
        rw [List.lookup_eq_none_iff]
        intro other ho
        rw [bne_iff_ne, hk]
        intro e
        exact hnew (e ▸ List.mem_map_of_mem ho)
      rw [if_pos hk, if_pos hk, hnone, Option.none_or]
    · rw [if_neg hk, if_neg hk, List.lookup_nil, Option.or_none]

theorem find?_key (key : κ) : ∀ pairs : List (κ × ν),
    (pairs.find? fun pair => pair.1 = key).map Prod.snd = pairs.lookup key
  | [] => rfl
  | (first, value) :: rest => by
    rw [lookup_pair, ← find?_key key rest]
    by_cases h : first = key
    · simp [h]
    · simp [h, Ne.symm h]

end

/-! ## A stack of scopes -/

theorem eraseDups_flatten {α : Type} [BEq α] [LawfulBEq α] : ∀ lists : List (List α),
    (lists.map List.eraseDups).flatten.eraseDups = lists.flatten.eraseDups
  | [] => rfl
  | list :: rest => by
    rw [List.map_cons, List.flatten_cons, List.flatten_cons, eraseDups_append_right _ (eraseDups_flatten rest)]
    exact eraseDups_append_left _ (eraseDups_of_nodup (nodup_eraseDups list))

namespace ScopedMap

/-- The calls that change a map. -/
inductive Call (κ ν : Type)
  | push
  | pop
  | insert (key : κ) (value : ν)

section
variable {κ ν : Type}

def Call.nesting : Call κ ν → Nesting
  | .push => .opens
  | .pop => .closes
  | .insert .. => .stays

/-- What was inserted into each of the open scopes, innermost first, when a call is added. -/
def Call.note : Call κ ν → List (List (κ × ν)) → List (List (κ × ν))
  | .push, logs => [] :: logs
  | .pop, logs => logs.tail
  | .insert key value, logs => logs.modifyHead (· ++ [(key, value)])

/-- What was inserted into each of the scopes that are open after some calls, innermost first. -/
def journal (calls : List (Call κ ν)) : List (List (κ × ν)) := calls.foldl (fun logs call => call.note logs) []

variable [DecidableEq κ]

def Call.apply : Call κ ν → ScopedMap κ ν → ScopedMap κ ν
  | .push, map => map.push
  | .pop, map => map.pop
  | .insert key value, map => map.insert key value

def run (map : ScopedMap κ ν) (calls : List (Call κ ν)) : ScopedMap κ ν :=
  calls.foldl (fun map call => call.apply map) map

theorem scopes_insert (map : ScopedMap κ ν) (key : κ) (value : ν) :
    (map.insert key value).scopes = map.scopes.modifyHead (upsert key value) := by
  obtain ⟨scopes⟩ := map
  cases scopes with
  | nil => rfl
  | cons scope outer => rfl

theorem Call.scopes_apply (call : Call κ ν) {map : ScopedMap κ ν} {logs : List (List (κ × ν))}
    (h : map.scopes = logs.map (upsertAll [])) : (call.apply map).scopes = (call.note logs).map (upsertAll []) := by
  cases call with
  | push => exact congrArg ([] :: ·) h
  | pop =>
    show map.scopes.tail = logs.tail.map (upsertAll [])
    rw [h, List.map_tail]
  | insert key value =>
    rw [Call.apply, scopes_insert, h, Call.note]
    cases logs with
    | nil => rfl
    | cons log outer => exact congrArg (· :: outer.map (upsertAll [])) (upsertAll_concat [] log key value).symm

/-- Every open scope holds what was inserted into it. -/
theorem scopes_run (calls : List (Call κ ν)) :
    (run ∅ calls).scopes = (journal calls).map (upsertAll []) := by
  refine List.foldl_rel
    (r := fun (map : ScopedMap κ ν) (logs : List (List (κ × ν))) => map.scopes = logs.map (upsertAll [])) rfl ?_
  intro call _ map logs h
  exact call.scopes_apply h

theorem keys_flatten (map : ScopedMap κ ν) :
    map.flatten.map Prod.fst = (map.scopes.reverse.flatten.map Prod.fst).eraseDups :=
  keys_upsertAll _

theorem keys_flatten_run (calls : List (Call κ ν)) :
    (run ∅ calls).flatten.map Prod.fst = ((journal calls).reverse.flatten.map Prod.fst).eraseDups := by
  have hkeys : (run ∅ calls).scopes.map (List.map Prod.fst) =
      ((journal calls).map (List.map Prod.fst)).map List.eraseDups := by
    rw [scopes_run, List.map_map, List.map_map]
    exact List.map_congr_left fun log _ => keys_upsertAll log
  rw [keys_flatten, List.map_flatten, List.map_reverse, hkeys, ← List.map_reverse, eraseDups_flatten,
    ← List.map_reverse, List.map_flatten]

theorem lookup_scopes (key : κ) : ∀ {scopes : List (List (κ × ν))},
    (∀ scope ∈ scopes, (scope.map Prod.fst).Nodup) →
    (scopes.map List.reverse).flatten.lookup key = (ScopedMap.mk scopes).get? key
  | [], _ => rfl
  | scope :: outer, h => by
    rw [List.forall_mem_cons] at h
    have houter := lookup_scopes key h.2
    unfold get? at houter ⊢
    rw [List.map_cons, List.flatten_cons, List.lookup_append, lookup_reverse h.1, houter, List.findSome?_cons,
      find?_key]
    cases scope.lookup key with
    | none => rfl
    | some value => rfl

theorem lookup_flatten {map : ScopedMap κ ν} (h : ∀ scope ∈ map.scopes, (scope.map Prod.fst).Nodup) (key : κ) :
    map.flatten.lookup key = map.get? key := by
  show (upsertAll [] map.scopes.reverse.flatten).lookup key = _
  rw [lookup_upsertAll, List.reverse_flatten, List.map_reverse, List.reverse_reverse]
  exact lookup_scopes key h

theorem lookup_flatten_run (calls : List (Call κ ν)) (key : κ) :
    (run ∅ calls).flatten.lookup key = (run ∅ calls).get? key := by
  apply lookup_flatten
  intro scope hs
  rw [scopes_run] at hs
  obtain ⟨log, -, rfl⟩ := List.mem_map.1 hs
  rw [keys_upsertAll]
  exact nodup_eraseDups _

theorem scopes_insertAll (new : List (κ × ν)) (map : ScopedMap κ ν) :
    (run map (new.map fun pair => .insert pair.1 pair.2)).scopes = map.scopes.modifyHead (upsertAll · new) := by
  induction new generalizing map with
  | nil => exact (congrFun List.modifyHead_id map.scopes).symm
  | cons pair new ih =>
    refine (ih (map.insert pair.1 pair.2)).trans ?_
    rw [scopes_insert, List.modifyHead_modifyHead]
    rfl

/-! ## Balanced calls -/

/-- However many scopes stand inside, they are gone in the end, and only the innermost of the others is new. -/
theorem pop_run (outer : List (List (κ × ν))) : ∀ (calls : List (Call κ ν)) (inner : List (List (κ × ν)))
    (scope : List (κ × ν)), Nesting.isBalanced inner.length (calls.map Call.nesting) = true →
      (run ⟨inner ++ scope :: outer⟩ calls).pop = ⟨outer⟩
  | [], inner, scope, h => by
    have hnil : inner = [] := List.length_eq_zero_iff.1 (beq_iff_eq.1 h)
    rw [hnil]
    rfl
  | .push :: calls, inner, scope, h => pop_run outer calls ([] :: inner) scope h
  | .pop :: calls, [], _, h => nomatch h
  | .pop :: calls, _ :: inner, scope, h => pop_run outer calls inner scope h
  | .insert key value :: calls, [], scope, h => pop_run outer calls [] (upsert key value scope) h
  | .insert key value :: calls, first :: inner, scope, h =>
    pop_run outer calls (upsert key value first :: inner) scope h

theorem run_balanced (map : ScopedMap κ ν) {calls : List (Call κ ν)}
    (h : Nesting.isBalanced 0 (calls.map Call.nesting) = true) : run map (.push :: calls ++ [.pop]) = map := by
  unfold run
  rw [List.foldl_concat]
  exact pop_run map.scopes calls [] [] h

end

end ScopedMap

/-! ## Defaults -/

/-- The attributes that a scope of defaults stands for. -/
def Attributes.ofScope (scope : List (String × AttrValue)) : Attributes :=
  ⟨scope.map fun pair => ⟨pair.1, pair.2⟩⟩

namespace Attributes

theorem exists_scope (attrs : Attributes) : ∃ scope, ofScope scope = attrs := by
  refine ⟨attrs.entries.map fun attr => (attr.name, attr.value), congrArg Attributes.mk ?_⟩
  rw [List.map_map]
  exact List.map_id _

theorem entries_ofScope_upsert (name : String) (value : AttrValue) : ∀ scope : List (String × AttrValue),
    (ofScope (upsert name value scope)).entries = insertEntry ⟨name, value⟩ (ofScope scope).entries
  | [] => rfl
  | pair :: rest => by
    have ih := entries_ofScope_upsert name value rest
    show _ = insertEntry ⟨name, value⟩ (⟨pair.1, pair.2⟩ :: (ofScope rest).entries)
    unfold upsert insertEntry
    by_cases h : pair.1 = name
    · rw [if_pos h, if_pos h]
      rfl
    · rw [if_neg h, if_neg h, ← ih]
      rfl

theorem ofScope_upsertAll (scope new : List (String × AttrValue)) :
    ofScope (upsertAll scope new) = (ofScope scope).merge (ofScope new) := by
  unfold merge
  show _ = (new.map _).foldl insert (ofScope scope)
  rw [List.foldl_map, upsertAll, List.foldl_hom ofScope]
  intro scope pair
  exact congrArg Attributes.mk (entries_ofScope_upsert pair.1 pair.2 scope).symm

theorem merge_ofScope_flatten : ∀ (scopes : List (List (String × AttrValue))) (attrs : Attributes),
    attrs.merge (ofScope scopes.flatten) = (scopes.map ofScope).foldl merge attrs
  | [], _ => rfl
  | scope :: rest, attrs => by
    rw [List.map_cons, List.foldl_cons, ← merge_ofScope_flatten rest]
    show ((scope ++ rest.flatten).map _).foldl insert attrs = _
    rw [List.map_append, List.foldl_append]
    rfl

end Attributes

namespace Scopes
open Attributes

theorem inherited_eq (scopes : Scopes) (category : Category) :
    scopes.inherited category = mergeAll ((scopes.of category).scopes.reverse.map ofScope) := by
  let flat := (scopes.of category).flatten
  have hnodup : (ofScope flat).names.Nodup := by
    have hkeys : (ofScope flat).names = flat.map Prod.fst := List.map_map
    rw [hkeys, ScopedMap.keys_flatten]
    exact nodup_eraseDups _
  have hinherited : scopes.inherited category = (∅ : Attributes).merge (ofScope flat) := by
    unfold Attributes.merge ofScope
    rw [List.foldl_map]
    rfl
  have hflat : ofScope flat = (∅ : Attributes).merge (ofScope (scopes.of category).scopes.reverse.flatten) :=
    ofScope_upsertAll [] _
  rw [hinherited, empty_merge hnodup, hflat]
  exact merge_ofScope_flatten _ ∅

/-- The calls that change the defaults. -/
inductive Call
  | push
  | pop
  | merge (category : Category) (attrs : Attributes)

namespace Call

def apply : Call → Scopes → Scopes
  | .push, scopes => scopes.push
  | .pop, scopes => scopes.pop
  | .merge category attrs, scopes => scopes.merge category attrs

def nesting : Call → Nesting
  | .push => .opens
  | .pop => .closes
  | .merge .. => .stays

/-- Whether a call has to do with a category. -/
def concerns (category : Category) : Call → Bool
  | .push | .pop => true
  | .merge other _ => category = other

/-- The defaults of a category in the open scopes, innermost first, when a call is added. -/
def note (category : Category) : Call → List Attributes → List Attributes
  | .push, frames => ∅ :: frames
  | .pop, frames => frames.tail
  | .merge other attrs, frames => if category = other then frames.modifyHead (·.merge attrs) else frames

/-- What a call is to the map of a category. -/
def on (category : Category) : Call → List (ScopedMap.Call String AttrValue)
  | .push => [.push]
  | .pop => [.pop]
  | .merge other attrs =>
    if category = other then attrs.entries.map fun attr => .insert attr.name attr.value else []

end Call

def run (scopes : Scopes) (calls : List Call) : Scopes := calls.foldl (fun scopes call => call.apply scopes) scopes

/-- The defaults of a category in the scopes that are open after some calls, innermost first. -/
def frames (category : Category) (calls : List Call) : List Attributes :=
  calls.foldl (fun frames call => call.note category frames) []

theorem Call.of_apply (call : Call) (scopes : Scopes) (category : Category) :
    (call.apply scopes).of category = ScopedMap.run (scopes.of category) (call.on category) := by
  cases call with
  | push => cases category <;> rfl
  | pop => cases category <;> rfl
  | merge other attrs =>
    rw [apply, of_merge, on]
    by_cases h : category = other
    · rw [if_pos h, if_pos h, ScopedMap.run, List.foldl_map, h]
      rfl
    · rw [if_neg h, if_neg h]
      rfl

theorem of_run (category : Category) (calls : List Call) (scopes : Scopes) :
    (run scopes calls).of category = ScopedMap.run (scopes.of category) (calls.flatMap (Call.on category)) := by
  induction calls generalizing scopes with
  | nil => rfl
  | cons call calls ih =>
    rw [List.flatMap_cons, ScopedMap.run, List.foldl_append]
    exact (ih (call.apply scopes)).trans (congrArg (ScopedMap.run · _) (call.of_apply scopes category))

theorem isBalanced_on (category : Category) : ∀ (calls : List Call) (depth : Nat),
    Nesting.isBalanced depth ((calls.flatMap (Call.on category)).map ScopedMap.Call.nesting) =
      Nesting.isBalanced depth (calls.map Call.nesting)
  | [], _ => rfl
  | .push :: calls, depth => isBalanced_on category calls (depth + 1)
  | .pop :: _, 0 => rfl
  | .pop :: calls, depth + 1 => isBalanced_on category calls depth
  | .merge other attrs :: calls, depth => by
    have hstays : ∀ call ∈ (Call.merge other attrs).on category, call.nesting = .stays := by
      intro call hc
      rw [Call.on] at hc
      split at hc
      · obtain ⟨attr, -, rfl⟩ := List.mem_map.1 hc
        rfl
      · exact absurd hc List.not_mem_nil
    rw [List.flatMap_cons, List.map_append, Nesting.isBalanced_append (List.forall_mem_map.2 hstays)]
    exact isBalanced_on category calls depth

theorem run_balanced (scopes : Scopes) {calls : List Call}
    (h : Nesting.isBalanced 0 (calls.map Call.nesting) = true) : run scopes (.push :: calls ++ [.pop]) = scopes := by
  have hof (category : Category) : (run scopes (.push :: calls ++ [.pop])).of category = scopes.of category := by
    rw [of_run, List.flatMap_append]
    exact ScopedMap.run_balanced _ ((isBalanced_on category calls 0).trans h)
  have hgraph := hof .graph
  have hnode := hof .node
  have hedge := hof .edge
  generalize run scopes (.push :: calls ++ [.pop]) = next at hgraph hnode hedge
  cases next
  cases scopes
  exact (Scopes.mk.injEq ..).symm ▸ ⟨hgraph, hnode, hedge⟩

theorem Call.frames_apply (category : Category) (call : Call) {scopes : Scopes} {frames : List Attributes}
    (h : (scopes.of category).scopes.map ofScope = frames) :
    ((call.apply scopes).of category).scopes.map ofScope = call.note category frames := by
  subst h
  rw [of_apply]
  cases call with
  | push => rfl
  | pop => exact List.map_tail
  | merge other attrs =>
    rw [on, note]
    by_cases h : category = other
    · rw [if_pos h, if_pos h]
      obtain ⟨new, rfl⟩ := attrs.exists_scope
      have hentries : (ofScope new).entries.map (fun attr => ScopedMap.Call.insert attr.name attr.value) =
          new.map fun pair => .insert pair.1 pair.2 := List.map_map
      rw [hentries, ScopedMap.scopes_insertAll]
      cases (scopes.of category).scopes with
      | nil => rfl
      | cons scope outer => exact congrArg (· :: outer.map ofScope) (ofScope_upsertAll scope new)
    · rw [if_neg h, if_neg h]
      rfl

/-- The open scopes of a category hold what was merged into each of them. -/
theorem frames_run (category : Category) (calls : List Call) :
    ((run {} calls).of category).scopes.map ofScope = frames category calls := by
  refine List.foldl_rel
    (r := fun (scopes : Scopes) frames => (scopes.of category).scopes.map ofScope = frames) ?_ ?_
  · cases category <;> rfl
  · intro call _ scopes frames h
    exact call.frames_apply category h

theorem inherited_run (category : Category) (calls : List Call) :
    (run {} calls).inherited category = mergeAll (frames category calls).reverse := by
  rw [inherited_eq, List.map_reverse, frames_run]

theorem frames_filter (category : Category) (calls : List Call) :
    frames category (calls.filter (Call.concerns category)) = frames category calls := by
  unfold frames
  rw [List.foldl_filter]
  congr 1
  funext frames call
  cases call with
  | push => rfl
  | pop => rfl
  | merge other attrs =>
    by_cases h : category = other
    · simp [Call.concerns, h]
    · simp [Call.concerns, Call.note, h]

/-- A key has its value of all open scopes in one, where it stands as it came in first. Scopes that are opened and
closed again change nothing, and what is inherited is the merge of the defaults in those that are open. -/
theorem inherits_from_open_scopes {κ ν : Type} [DecidableEq κ] :
    (∀ calls : List (ScopedMap.Call κ ν),
      (∀ key, (ScopedMap.run ∅ calls).get? key = (ScopedMap.run ∅ calls).flatten.lookup key) ∧
      FirstSeen ((ScopedMap.journal calls).reverse.flatten.map Prod.fst)
        ((ScopedMap.run ∅ calls).flatten.map Prod.fst)) ∧
    (∀ (map : ScopedMap κ ν) (calls : List (ScopedMap.Call κ ν)),
      Nesting.isBalanced 0 (calls.map ScopedMap.Call.nesting) = true →
        ScopedMap.run map (.push :: calls ++ [.pop]) = map) ∧
    (∀ (calls : List Call) (category : Category),
      (run {} calls).inherited category = mergeAll (frames category calls).reverse ∧
      (run {} (calls.filter (Call.concerns category))).inherited category = (run {} calls).inherited category) ∧
    (∀ (scopes : Scopes) (calls : List Call), Nesting.isBalanced 0 (calls.map Call.nesting) = true →
      run scopes (.push :: calls ++ [.pop]) = scopes) := by
  refine ⟨?_, fun map _ h => ScopedMap.run_balanced map h, ?_, fun scopes _ h => run_balanced scopes h⟩
  · intro calls
    refine ⟨fun key => (ScopedMap.lookup_flatten_run calls key).symm, ?_⟩
    rw [ScopedMap.keys_flatten_run]
    exact firstSeen_eraseDups _
  · intro calls category
    refine ⟨inherited_run category calls, ?_⟩
    rw [inherited_run, inherited_run, frames_filter]

/-- Three open scopes, the innermost of them empty. -/
def threeOpen : List (ScopedMap.Call String Nat) :=
  [.push, .insert "b" 1, .insert "a" 1, .push, .insert "c" 3, .insert "b" 2, .push]

/-- Defaults for nodes that a body inside has another value for. -/
def redInside : List Call :=
  [.push, .merge .node ⟨[⟨"color", .string "blue"⟩, ⟨"shape", .string "box"⟩]⟩, .push,
    .merge .node ⟨[⟨"color", .string "red"⟩]⟩]

theorem inherits_from_open_scopes_threeOpen :
    (ScopedMap.run ∅ threeOpen).get? "b" = some 2 ∧
    ScopedMap.run (ScopedMap.run ∅ threeOpen) [.push, .insert "b" 7, .push, .insert "a" 8, .pop, .pop] =
      ScopedMap.run ∅ threeOpen ∧
    (run {} redInside).inherited .node = ⟨[⟨"color", .string "red"⟩, ⟨"shape", .string "box"⟩]⟩ ∧
    run (run {} redInside) [.push, .merge .edge ⟨[⟨"style", .string "bold"⟩]⟩, .push, .pop, .pop] =
      run {} redInside := by
  obtain ⟨hlookup, hmap, hinherited, hscopes⟩ := @inherits_from_open_scopes String Nat _
  refine ⟨?_, ?_, ?_, ?_⟩
  · rw [(hlookup threeOpen).1]
    decide
  · exact hmap _ [.insert "b" 7, .push, .insert "a" 8, .pop] (by decide)
  · rw [(hinherited redInside .node).1]
    decide
  · exact hscopes _ [.merge .edge ⟨[⟨"style", .string "bold"⟩]⟩, .push, .pop] (by decide)

end Scopes

end DotLang
