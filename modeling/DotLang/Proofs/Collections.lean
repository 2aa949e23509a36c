import DotLang.Proofs.Attributes

/-!
# Collections of attributes

Whatever a collection went through, its names are distinct, and names and values can be written. On such
collections merging is a monoid with the empty one as its unit: the values on the right win, and the names
on the left keep their places in front of the new ones.
-/

namespace DotLang

/-- What `Attribute.make` makes sure of. -/
structure Attribute.Valid (attr : Attribute) : Prop where
  ne_empty : attr.name ≠ ""
  name : isQuotable attr.name = true
  text : ∀ text, attr.value = .string text → isQuotable text = true

theorem Attribute.valid_of_make {name : String} {value : AttrValue} {attr : Attribute}
    (h : Attribute.make name value = .ok attr) : attr.Valid := by
  obtain ⟨hn, hq, hw, rfl⟩ := Attributes.make_eq_ok.1 h
  refine ⟨hn, hq, ?_⟩
  intro text ht
  change value = .string text at ht
  rwa [ht] at hw

namespace Attributes

/-! ## Setting in place -/

/-- Gives a value to a name in the collection at hand, as `set` does. -/
def setInPlace (name : String) (value : AttrValue) : EStateM Error Attributes Unit :=
  match Attribute.make name value with
  | .ok attr => modify (·.insert attr)
  | .error error => throw error

theorem setInPlace_eq (name : String) (value : AttrValue) (attrs : Attributes) :
    setInPlace name value attrs = match attrs.set name value with
      | .ok next => .ok () next
      | .error error => .error error attrs := by
  unfold setInPlace set
  cases Attribute.make name value with
  | ok attr => rfl
  | error error => rfl

/-! ## Lookup -/

theorem get?_nil (name : String) : (Attributes.mk []).get? name = none := rfl

theorem get?_cons (attr : Attribute) (rest : List Attribute) (name : String) :
    (Attributes.mk (attr :: rest)).get? name =
      if attr.name = name then some attr.value else (Attributes.mk rest).get? name := by
  by_cases h : attr.name = name
  · simp [get?, h]
  · simp [get?, h]

theorem get?_eq_none {name : String} : ∀ {attrs : Attributes}, attrs.get? name = none ↔ name ∉ attrs.names
  | ⟨[]⟩ => by simp [get?_nil, names]
  | ⟨attr :: rest⟩ => by
    have ih := @get?_eq_none name ⟨rest⟩
    rw [get?_cons, show (Attributes.mk (attr :: rest)).names = attr.name :: (Attributes.mk rest).names from rfl,
      List.mem_cons, not_or, ← ih]
    by_cases h : attr.name = name
    · simp [h]
    · simp [h, Ne.symm h]

theorem get?_insert (attr : Attribute) (name : String) : ∀ attrs : Attributes,
    (attrs.insert attr).get? name = if attr.name = name then some attr.value else attrs.get? name
  | ⟨[]⟩ => get?_cons attr [] name
  | ⟨entry :: rest⟩ => by
    have ih := get?_insert attr name ⟨rest⟩
    unfold insert at ih ⊢
    unfold insertEntry
    by_cases he : entry.name = attr.name
    · rw [if_pos he, get?_cons, get?_cons, he]
      by_cases hn : attr.name = name
      · rw [if_pos hn, if_pos hn]
      · rw [if_neg hn, if_neg hn, if_neg hn]
    · rw [if_neg he, get?_cons, get?_cons, ih]
      by_cases hn : entry.name = name
      · rw [if_pos hn, if_pos hn, if_neg fun h => he (hn.trans h.symm)]
      · rw [if_neg hn, if_neg hn]

theorem get?_merge {other : Attributes} (h : other.names.Nodup) (attrs : Attributes) (name : String) :
    (attrs.merge other).get? name = (other.get? name).or (attrs.get? name) := by
  obtain ⟨entries⟩ := other
  induction entries generalizing attrs with
  | nil => rfl
  | cons attr rest ih =>
    obtain ⟨hnew, hrest⟩ := List.nodup_cons.1 h
    have htail := ih (attrs.insert attr) hrest
    rw [get?_insert] at htail
    rw [get?_cons]
    refine htail.trans ?_
    by_cases hn : attr.name = name
    · have hnone : (Attributes.mk rest).get? name = none := get?_eq_none.2 (hn ▸ hnew)
      rw [if_pos hn, if_pos hn, hnone, Option.none_or, Option.some_or]
    · rw [if_neg hn, if_neg hn]

/-! ## Names -/

theorem names_merge {other : Attributes} (h : other.names.Nodup) (attrs : Attributes) :
    (attrs.merge other).names = attrs.names ++ other.names.filter (· ∉ attrs.names) := by
  obtain ⟨entries⟩ := other
  induction entries generalizing attrs with
  | nil => exact (List.append_nil _).symm
  | cons attr rest ih =>
    obtain ⟨hnew, hrest⟩ := List.nodup_cons.1 h
    have htail := ih (attrs.insert attr) hrest
    have hnames : (attrs.insert attr).names =
        if attr.name ∈ attrs.names then attrs.names else attrs.names ++ [attr.name] :=
      names_insertEntry attr attrs.entries
    refine htail.trans ?_
    show _ = attrs.names ++ (attr.name :: (Attributes.mk rest).names).filter (· ∉ attrs.names)
    rw [hnames]
    by_cases hm : attr.name ∈ attrs.names
    · rw [if_pos hm, List.filter_cons_of_neg (by simp [hm])]
    · -- The name is now on the left, but none behind it is that name.
      have hsame : (Attributes.mk rest).names.filter (· ∉ attrs.names ++ [attr.name]) =
          (Attributes.mk rest).names.filter (· ∉ attrs.names) := by
        refine List.filter_congr fun name hn => ?_
        have hne : name ≠ attr.name := fun e => hnew (e ▸ hn)
        simp [hne]
      rw [if_neg hm, List.filter_cons_of_pos (by simp [hm]), hsame, List.append_assoc, List.singleton_append]

theorem Built.erase {P : Attribute → Prop} {attrs : Attributes} (h : attrs.Built P) (name : String) :
    (attrs.erase name).Built P where
  nodup := h.nodup.sublist (List.eraseP_sublist.map Attribute.name)
  entries attr ha := h.entries attr (List.mem_of_mem_eraseP ha)

/-! ## The collections that there are -/

/-- What `ofPairs`, `set`, `insert`, `erase` and `merge` lead to. -/
inductive Made : Attributes → Prop
  | ofPairs {pairs : List (String × AttrValue)} {attrs : Attributes} (h : ofPairs pairs = .ok attrs) : Made attrs
  | set {attrs next : Attributes} {name : String} {value : AttrValue} (h : Made attrs)
      (hs : attrs.set name value = .ok next) : Made next
  | insert {attrs : Attributes} {name : String} {value : AttrValue} {attr : Attribute} (h : Made attrs)
      (ha : Attribute.make name value = .ok attr) : Made (attrs.insert attr)
  | erase {attrs : Attributes} (h : Made attrs) (name : String) : Made (attrs.erase name)
  | merge {attrs other : Attributes} (h : Made attrs) (ho : Made other) : Made (attrs.merge other)

theorem Built.set {attrs next : Attributes} {name : String} {value : AttrValue}
    (h : attrs.Built Attribute.Valid) (hs : attrs.set name value = .ok next) : next.Built Attribute.Valid := by
  obtain ⟨hn, hq, hw, rfl⟩ := set_eq_ok.1 hs
  exact h.insert (Attribute.valid_of_make (make_eq_ok.2 ⟨hn, hq, hw, rfl⟩))

theorem Built.setAll {pairs : List (String × AttrValue)} {attrs next : Attributes}
    (h : attrs.Built Attribute.Valid)
    (hs : pairs.foldlM (fun attrs (name, value) => attrs.set name value) attrs = .ok next) :
    next.Built Attribute.Valid := by
  induction pairs generalizing attrs with
  | nil => exact Except.ok.inj hs ▸ h
  | cons pair pairs ih =>
    obtain ⟨name, value⟩ := pair
    rw [List.foldlM_cons] at hs
    cases hset : attrs.set name value with
    | error error =>
      simp only [hset] at hs
      cases hs
    | ok first =>
      simp only [hset] at hs
      exact ih (h.set hset) hs

theorem Made.built {attrs : Attributes} (h : Made attrs) : attrs.Built Attribute.Valid := by
  induction h with
  | ofPairs h => exact Built.empty.setAll h
  | set _ hs ih => exact ih.set hs
  | insert _ ha ih => exact ih.insert (Attribute.valid_of_make ha)
  | erase _ name ih => exact ih.erase name
  | merge _ _ iha ihb => exact iha.merge ihb

/-- The collections that can be made, under merging. -/
theorem Made.merge_laws {a b : Attributes} (ha : Made a) (hb : Made b) (c : Attributes) :
    (a.names.Nodup ∧ ∀ attr ∈ a.entries, attr.Valid) ∧
    (∀ name value, setInPlace name value a = match a.set name value with
      | .ok next => .ok () next
      | .error error => .error error a) ∧
    (a.merge b).merge c = a.merge (b.merge c) ∧
    a.merge ∅ = a ∧ (∅ : Attributes).merge a = a ∧
    a.merge a = a ∧
    (∀ name, (a.merge b).get? name = if b.contains name then b.get? name else a.get? name) ∧
    (a.merge b).names = a.names ++ b.names.filter (· ∉ a.names) := by
  have hnodup := ha.built.nodup
  refine ⟨⟨hnodup, ha.built.entries⟩, fun name value => setInPlace_eq name value a,
    merge_assoc hb.built.nodup a c, merge_empty a, empty_merge hnodup, merge_self hnodup, ?_,
    names_merge hb.built.nodup a⟩
  intro name
  rw [get?_merge hb.built.nodup, contains]
  cases b.get? name with
  | none => rfl
  | some value => rfl

/-- A red box. -/
def redBox : Attributes := ⟨[⟨"color", .string "red"⟩, ⟨"shape", .string "box"⟩]⟩

/-- A label in blue. -/
def blueLabel : Attributes := ⟨[⟨"label", .string "x"⟩, ⟨"color", .string "blue"⟩]⟩

theorem merge_laws_redBox :
    (redBox.merge blueLabel).get? "color" = some (.string "blue") ∧
    (redBox.merge blueLabel).names = ["color", "shape", "label"] ∧
    setInPlace "label" (.string "a\\") redBox = .error (.attribute .unquotable none) redBox := by
  have hbox : ofPairs [("color", .string "red"), ("shape", .string "box")] = .ok redBox := rfl
  have hlabel : ofPairs [("label", .string "x"), ("color", .string "blue")] = .ok blueLabel := rfl
  have hrefused : redBox.set "label" (.string "a\\") = .error (.attribute .unquotable none) := rfl
  obtain ⟨-, hset, -, -, -, -, hget, hnames⟩ := Made.merge_laws (.ofPairs hbox) (.ofPairs hlabel) ∅
  refine ⟨?_, ?_, ?_⟩
  · rw [hget]
    decide
  · rw [hnames]
    decide
  · rw [hset, hrefused]

end Attributes

end DotLang
