import DotLang.Attribute

/-!
# Merging attributes

A collection in which no name stands twice keeps that through every insertion, and inserting new names
into it appends them. So the attributes that are read back one after the other come in as they were.
-/

namespace DotLang.Attributes

theorem names_insertEntry (attr : Attribute) : ∀ entries : List Attribute,
    (insertEntry attr entries).map Attribute.name =
      if attr.name ∈ entries.map Attribute.name then entries.map Attribute.name
      else entries.map Attribute.name ++ [attr.name]
  | [] => rfl
  | entry :: rest => by
    unfold insertEntry
    by_cases h : entry.name = attr.name
    · simp [h]
    · have hne : ¬ attr.name = entry.name := fun e => h e.symm
      rw [if_neg h, List.map_cons, names_insertEntry attr rest]
      by_cases hm : attr.name ∈ rest.map Attribute.name
      · rw [if_pos hm, if_pos (by rw [List.map_cons]; exact List.mem_cons_of_mem _ hm), List.map_cons]
      · rw [if_neg hm, if_neg (by rw [List.map_cons, List.mem_cons]; exact not_or.2 ⟨hne, hm⟩)]
        rfl

theorem insertEntry_of_not_mem (attr : Attribute) : ∀ {entries : List Attribute},
    attr.name ∉ entries.map Attribute.name → insertEntry attr entries = entries ++ [attr]
  | [], _ => rfl
  | entry :: rest, h => by
    rw [List.map_cons, List.mem_cons, not_or] at h
    unfold insertEntry
    rw [if_neg (Ne.symm h.1), insertEntry_of_not_mem attr h.2]
    rfl

theorem mem_insertEntry {attr entry : Attribute} : ∀ {entries : List Attribute},
    entry ∈ insertEntry attr entries → entry = attr ∨ entry ∈ entries
  | [], h => Or.inl (List.mem_singleton.1 h)
  | first :: rest, h => by
    unfold insertEntry at h
    split at h
    · rcases List.mem_cons.1 h with h | h
      · exact Or.inl h
      · exact Or.inr (List.mem_cons_of_mem _ h)
    · rcases List.mem_cons.1 h with h | h
      · exact Or.inr (h ▸ List.mem_cons_self ..)
      · exact (mem_insertEntry h).imp_right (List.mem_cons_of_mem _)

theorem nodup_names_insert {attrs : Attributes} (h : attrs.names.Nodup) (attr : Attribute) :
    (attrs.insert attr).names.Nodup := by
  show ((insertEntry attr attrs.entries).map Attribute.name).Nodup
  rw [names_insertEntry]
  split
  · exact h
  · rename_i hm
    exact List.nodup_append.2 ⟨h, by simp, fun a ha b hb e => hm (by simp_all)⟩

theorem mem_names_insert {attrs : Attributes} {attr : Attribute} {name : String} :
    name ∈ (attrs.insert attr).names ↔ name ∈ attrs.names ∨ name = attr.name := by
  have h : (attrs.insert attr).names = if attr.name ∈ attrs.names then attrs.names else attrs.names ++ [attr.name] :=
    names_insertEntry attr attrs.entries
  rw [h]
  by_cases hm : attr.name ∈ attrs.names
  · rw [if_pos hm]
    refine ⟨Or.inl, ?_⟩
    intro hn
    exact hn.elim id fun he => he ▸ hm
  · simp [hm]

theorem mem_names_merge {attrs other : Attributes} {name : String} :
    name ∈ (attrs.merge other).names ↔ name ∈ attrs.names ∨ name ∈ other.names := by
  have key : ∀ (entries : List Attribute) (attrs : Attributes),
      name ∈ (entries.foldl insert attrs).names ↔ name ∈ attrs.names ∨ name ∈ entries.map Attribute.name := by
    intro entries
    induction entries with
    | nil => simp
    | cons attr rest ih =>
      intro attrs
      rw [List.foldl_cons, ih, mem_names_insert, List.map_cons, List.mem_cons, or_assoc]
  exact key other.entries attrs

/-! ## Setting -/

theorem make_eq_ok {name : String} {value : AttrValue} {attr : Attribute} :
    Attribute.make name value = .ok attr ↔
      name ≠ "" ∧ isQuotable name = true ∧ value.isWritable = true ∧ attr = ⟨name, value⟩ := by
  unfold Attribute.make
  split
  · rename_i hn
    rw [String.isEmpty_iff] at hn
    exact ⟨nofun, fun h => absurd hn h.1⟩
  · rename_i hn
    rw [String.isEmpty_iff] at hn
    split
    · rename_i hw
      rw [Bool.and_eq_true] at hw
      exact ⟨fun h => ⟨hn, hw.1, hw.2, (Except.ok.inj h).symm⟩, fun h => congrArg Except.ok h.2.2.2.symm⟩
    · rename_i hw
      exact ⟨nofun, fun h => absurd (Bool.and_eq_true _ _ ▸ ⟨h.2.1, h.2.2.1⟩) hw⟩

theorem set_eq_ok {attrs result : Attributes} {name : String} {value : AttrValue} :
    attrs.set name value = .ok result ↔
      name ≠ "" ∧ isQuotable name = true ∧ value.isWritable = true ∧ result = attrs.insert ⟨name, value⟩ := by
  unfold set
  cases h : Attribute.make name value with
  | error error =>
    refine ⟨nofun, fun ⟨hn, hq, hw, _⟩ => ?_⟩
    rw [make_eq_ok.2 ⟨hn, hq, hw, rfl⟩] at h
    cases h
  | ok attr =>
    obtain ⟨hn, hq, hw, rfl⟩ := make_eq_ok.1 h
    simp [Except.map, hn, hq, hw, eq_comm]

/-! ## Merging -/

theorem foldl_insert_of_nodup : ∀ (new : List Attribute) (attrs : Attributes),
    (attrs.names ++ new.map Attribute.name).Nodup → new.foldl insert attrs = ⟨attrs.entries ++ new⟩
  | [], attrs, _ => by simp
  | attr :: new, attrs, h => by
    have hm : attr.name ∉ attrs.entries.map Attribute.name := fun hm =>
      (List.nodup_append.1 h).2.2 _ hm attr.name (by simp) rfl
    have he : attrs.insert attr = ⟨attrs.entries ++ [attr]⟩ :=
      congrArg Attributes.mk (insertEntry_of_not_mem attr hm)
    rw [List.foldl_cons, he, foldl_insert_of_nodup new _ (by simpa [names] using h)]
    simp

theorem empty_merge {attrs : Attributes} (h : attrs.names.Nodup) : (∅ : Attributes).merge attrs = attrs :=
  foldl_insert_of_nodup attrs.entries ∅ h

@[simp] theorem merge_empty (attrs : Attributes) : attrs.merge ∅ = attrs := rfl

theorem nodup_names_empty : (∅ : Attributes).names.Nodup := List.nodup_nil

theorem nodup_names_foldl {α : Type} {f : Attributes → α → Attributes}
    (hf : ∀ (attrs : Attributes) (a : α), attrs.names.Nodup → (f attrs a).names.Nodup) {attrs : Attributes}
    (h : attrs.names.Nodup) (l : List α) : (l.foldl f attrs).names.Nodup := by
  induction l generalizing attrs with
  | nil => exact h
  | cons a l ih => exact ih (hf attrs a h)

theorem nodup_names_merge {attrs : Attributes} (h : attrs.names.Nodup) (other : Attributes) :
    (attrs.merge other).names.Nodup :=
  nodup_names_foldl (fun _ attr hn => nodup_names_insert hn attr) h other.entries

theorem insertEntry_ne_nil (attr : Attribute) (entries : List Attribute) : insertEntry attr entries ≠ [] := by
  cases entries with
  | nil => exact List.cons_ne_nil _ _
  | cons entry rest =>
    unfold insertEntry
    split
    · exact List.cons_ne_nil _ _
    · exact List.cons_ne_nil _ _

theorem merge_eq_empty {attrs other : Attributes} : attrs.merge other = ∅ ↔ attrs = ∅ ∧ other = ∅ := by
  constructor
  · obtain ⟨entries⟩ := other
    unfold merge
    induction entries generalizing attrs with
    | nil => exact fun h => ⟨h, rfl⟩
    | cons attr rest ih =>
      intro h
      have he := congrArg entries (ih h).1
      exact absurd he (insertEntry_ne_nil attr attrs.entries)
  · rintro ⟨rfl, rfl⟩
    rfl

/-! ## Merging in turn -/

theorem insertEntry_insertEntry {a b : Attribute} (h : a.name = b.name) : ∀ entries : List Attribute,
    insertEntry b (insertEntry a entries) = insertEntry b entries
  | [] => by simp [insertEntry, h]
  | entry :: rest => by
    by_cases he : entry.name = a.name
    · simp [insertEntry, he, h]
    · have hb : entry.name ≠ b.name := h ▸ he
      simp [insertEntry, he, hb, insertEntry_insertEntry h rest]

/-- A name that is there is replaced where it stands, so it does not matter when. -/
theorem insertEntry_comm {a b : Attribute} (h : a.name ≠ b.name) : ∀ {entries : List Attribute},
    b.name ∈ entries.map Attribute.name →
      insertEntry b (insertEntry a entries) = insertEntry a (insertEntry b entries)
  | entry :: rest, hm => by
    by_cases ha : entry.name = a.name
    · have hb : entry.name ≠ b.name := fun e => h (ha.symm.trans e)
      have hr : ¬ a.name = b.name := h
      simp [insertEntry, ha, hr]
    · by_cases hb : entry.name = b.name
      · have hr : ¬ b.name = a.name := fun e => h e.symm
        simp [insertEntry, hb, hr]
      · have hm : b.name ∈ rest.map Attribute.name := by
          rcases List.mem_cons.1 hm with hm | hm
          · exact absurd hm.symm hb
          · exact hm
        simp [insertEntry, ha, hb, insertEntry_comm h hm]

theorem insert_foldl {attr : Attribute} : ∀ {rest : List Attribute} {attrs : Attributes},
    attr.name ∈ attrs.names → attr.name ∉ rest.map Attribute.name →
      (rest.foldl insert attrs).insert attr = rest.foldl insert (attrs.insert attr)
  | [], _, _, _ => rfl
  | next :: rest, attrs, hm, hr => by
    rw [List.map_cons, List.mem_cons, not_or] at hr
    have hnext : attr.name ∈ (attrs.insert next).names := by
      show attr.name ∈ (insertEntry next attrs.entries).map Attribute.name
      rw [names_insertEntry]
      split
      · exact hm
      · exact List.mem_append_left _ hm
    have hswap : (attrs.insert next).insert attr = (attrs.insert attr).insert next :=
      congrArg Attributes.mk (insertEntry_comm (Ne.symm hr.1) hm)
    rw [List.foldl_cons, List.foldl_cons, insert_foldl hnext hr.2, hswap]

theorem foldl_insertEntry (attr : Attribute) : ∀ (entries : List Attribute) (attrs : Attributes),
    (entries.map Attribute.name).Nodup →
      (insertEntry attr entries).foldl insert attrs = (entries.foldl insert attrs).insert attr
  | [], _, _ => rfl
  | entry :: rest, attrs, h => by
    rw [List.map_cons, List.nodup_cons] at h
    unfold insertEntry
    split
    · rename_i he
      have hm : attr.name ∈ (attrs.insert entry).names := by
        show attr.name ∈ (insertEntry entry attrs.entries).map Attribute.name
        rw [names_insertEntry, ← he]
        split
        · assumption
        · simp
      have hsame : (attrs.insert entry).insert attr = attrs.insert attr :=
        congrArg Attributes.mk (insertEntry_insertEntry he attrs.entries)
      rw [List.foldl_cons, List.foldl_cons, insert_foldl hm (he ▸ h.1), hsame]
    · rw [List.foldl_cons, List.foldl_cons, foldl_insertEntry attr rest _ h.2]

theorem merge_assoc {b : Attributes} (h : b.names.Nodup) (a c : Attributes) :
    (a.merge b).merge c = a.merge (b.merge c) := by
  obtain ⟨entries⟩ := c
  induction entries generalizing b with
  | nil => rfl
  | cons attr rest ih =>
    have hstep : (a.merge b).insert attr = a.merge (b.insert attr) :=
      (foldl_insertEntry attr b.entries a h).symm
    show ((a.merge b).insert attr).merge ⟨rest⟩ = a.merge ((b.insert attr).merge ⟨rest⟩)
    rw [hstep]
    exact ih (nodup_names_insert h attr)

theorem merge_foldl {b : Attributes} (h : b.names.Nodup) (a : Attributes) (more : List Attributes) :
    a.merge (more.foldl merge b) = more.foldl merge (a.merge b) := by
  induction more generalizing b with
  | nil => rfl
  | cons c more ih => rw [List.foldl_cons, List.foldl_cons, ih (nodup_names_merge h c), merge_assoc h]

theorem insertEntry_of_mem {attr : Attribute} : ∀ {entries : List Attribute},
    (entries.map Attribute.name).Nodup → attr ∈ entries → insertEntry attr entries = entries
  | entry :: rest, hn, hm => by
    rw [List.map_cons, List.nodup_cons] at hn
    unfold insertEntry
    by_cases he : entry.name = attr.name
    · rcases List.mem_cons.1 hm with rfl | hm
      · simp
      · exact absurd (he ▸ List.mem_map_of_mem hm) hn.1
    · rcases List.mem_cons.1 hm with rfl | hm
      · exact absurd rfl he
      · rw [if_neg he, insertEntry_of_mem hn.2 hm]

theorem merge_self {attrs : Attributes} (h : attrs.names.Nodup) : attrs.merge attrs = attrs := by
  unfold merge
  refine List.foldlRecOn (motive := fun next => next = attrs) _ _ rfl fun next hn attr ha => ?_
  rw [hn]
  exact congrArg Attributes.mk (insertEntry_of_mem h ha)

/-- All of them, merged one after the other. -/
def mergeAll (values : List Attributes) : Attributes := values.foldl merge ∅

theorem nodup_names_mergeAll (values : List Attributes) : (mergeAll values).names.Nodup :=
  nodup_names_foldl (fun _ value hn => nodup_names_merge hn value) nodup_names_empty values

theorem mergeAll_append (a b : List Attributes) : mergeAll (a ++ b) = (mergeAll a).merge (mergeAll b) := by
  unfold mergeAll
  rw [List.foldl_append, merge_foldl nodup_names_empty, merge_empty]

theorem mergeAll_cons (value : Attributes) (rest : List Attributes) :
    mergeAll (value :: rest) = (mergeAll [value]).merge (mergeAll rest) :=
  mergeAll_append [value] rest

theorem mergeAll_singleton {value : Attributes} (h : value.names.Nodup) : mergeAll [value] = value := empty_merge h

theorem mergeAll_eq_empty {values : List Attributes} : mergeAll values = ∅ ↔ ∀ value ∈ values, value = ∅ := by
  induction values with
  | nil => simp [mergeAll]
  | cons value rest ih =>
    have hone : mergeAll [value] = ∅ ↔ value = ∅ := merge_eq_empty.trans (and_iff_right rfl)
    rw [mergeAll_cons, merge_eq_empty, ih, hone, List.forall_mem_cons]

/-! ## What holds of every collection that is built -/

/-- No name stands twice, and each entry is as `P` says. -/
structure Built (P : Attribute → Prop) (attrs : Attributes) : Prop where
  nodup : attrs.names.Nodup
  entries : ∀ attr ∈ attrs.entries, P attr

section
variable {P : Attribute → Prop}

theorem Built.empty : Built P ∅ := ⟨nodup_names_empty, fun _ h => absurd h List.not_mem_nil⟩

theorem Built.insert {attrs : Attributes} (h : Built P attrs) {attr : Attribute} (ha : P attr) :
    Built P (attrs.insert attr) where
  nodup := nodup_names_insert h.nodup attr
  entries entry he := by
    rcases mem_insertEntry he with rfl | he
    · exact ha
    · exact h.entries entry he

theorem Built.foldl {new : List Attribute} {attrs : Attributes} (h : Built P attrs)
    (hn : ∀ attr ∈ new, P attr) : Built P (new.foldl Attributes.insert attrs) := by
  induction new generalizing attrs with
  | nil => exact h
  | cons attr new ih =>
    rw [List.forall_mem_cons] at hn
    exact ih (h.insert hn.1) hn.2

theorem Built.merge {attrs other : Attributes} (h : Built P attrs) (ho : Built P other) :
    Built P (attrs.merge other) :=
  Built.foldl h ho.entries

end

end DotLang.Attributes
