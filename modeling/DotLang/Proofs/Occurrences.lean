import Mathlib.Data.List.Induction
import Mathlib.Data.List.Nodup

/-!
# First occurrences

A list from which repetitions are erased keeps each entry where it comes first. So it has the same entries,
none twice, in the order of their first places, and an entry that is added at the end is either there already
or comes last. The first entry that passes a test may be taken out by its place.
-/

namespace DotLang

section
variable {α : Type} [BEq α] [LawfulBEq α]

theorem nodup_eraseDups : ∀ entries : List α, entries.eraseDups.Nodup
  | [] => List.nodup_nil
  | entry :: rest => by
    rw [List.eraseDups_cons, List.nodup_cons]
    refine ⟨fun h => ?_, nodup_eraseDups _⟩
    simpa using List.mem_eraseDups.1 h
termination_by entries => entries.length
decreasing_by exact Nat.lt_succ_of_le (List.length_filter_le ..)

theorem eraseDups_of_nodup : ∀ {entries : List α}, entries.Nodup → entries.eraseDups = entries
  | [], _ => rfl
  | entry :: rest, h => by
    rw [List.nodup_cons] at h
    have hrest : (rest.filter fun other => !other == entry) = rest := by
      rw [List.filter_eq_self]
      intro other ho
      rw [Bool.not_eq_true', beq_eq_false_iff_ne]
      rintro rfl
      exact h.1 ho
    rw [List.eraseDups_cons, hrest, eraseDups_of_nodup h.2]

theorem filter_eraseDups (p : α → Bool) : ∀ entries : List α,
    entries.eraseDups.filter p = (entries.filter p).eraseDups
  | [] => rfl
  | entry :: rest => by
    have ih := filter_eraseDups p (rest.filter fun other => !other == entry)
    rw [List.eraseDups_cons, List.filter_cons, ih, List.filter_cons]
    split
    · rw [List.eraseDups_cons, List.filter_comm]
    · rename_i hp
      -- Those that pass are not `entry`, which does not.
      rw [List.filter_comm, List.filter_eq_self.2]
      intro other ho
      rw [Bool.not_eq_true', beq_eq_false_iff_ne]
      rintro rfl
      exact hp (List.mem_filter.1 ho).2
termination_by entries => entries.length
decreasing_by exact Nat.lt_succ_of_le (List.length_filter_le ..)

theorem eraseDups_append_right (a : List α) {b c : List α} (h : b.eraseDups = c.eraseDups) :
    (a ++ b).eraseDups = (a ++ c).eraseDups := by
  rw [List.eraseDups_append, List.eraseDups_append, List.removeAll, List.removeAll, ← filter_eraseDups,
    ← filter_eraseDups, h]

theorem eraseDups_append_left {a b : List α} (c : List α) (h : a.eraseDups = b.eraseDups) :
    (a ++ c).eraseDups = (b ++ c).eraseDups := by
  have hmem (entry : α) : entry ∈ a ↔ entry ∈ b := by
    rw [← List.mem_eraseDups, h, List.mem_eraseDups]
  rw [List.eraseDups_append, List.eraseDups_append, h, List.removeAll, List.removeAll]
  congr 2
  refine List.filter_congr fun entry _ => ?_
  simp [hmem]

theorem eraseDups_append_of_subset {a b : List α} (h : ∀ entry ∈ b, entry ∈ a) :
    (a ++ b).eraseDups = a.eraseDups := by
  have hnone : b.removeAll a = [] := by
    rw [List.removeAll, List.filter_eq_nil_iff]
    intro entry he
    simpa using h entry he
  rw [List.eraseDups_append, hnone, List.eraseDups_nil, List.append_nil]

theorem eraseDups_concat (xs : List α) (x : α) [Decidable (x ∈ xs)] :
    (xs ++ [x]).eraseDups = if x ∈ xs then xs.eraseDups else xs.eraseDups ++ [x] := by
  have hnew : [x].removeAll xs = if x ∈ xs then [] else [x] := by
    by_cases h : x ∈ xs
    · simp [List.removeAll, h]
    · simp [List.removeAll, h]
  rw [List.eraseDups_append, hnew]
  split
  · exact List.append_nil _
  · rfl

/-- The entries of a list, each once and in the order in which they come first. -/
structure FirstSeen (all seen : List α) : Prop where
  once : seen.Nodup
  same : ∀ entry, entry ∈ seen ↔ entry ∈ all
  order : seen.Pairwise fun a b => all.idxOf a < all.idxOf b

theorem firstSeen_eraseDups (all : List α) : FirstSeen all all.eraseDups where
  once := nodup_eraseDups all
  same _ := List.mem_eraseDups
  order := by
    classical
    induction all using List.reverseRecOn with
    | nil => exact .nil
    | append_singleton xs x ih =>
      -- Another entry at the end moves none of the first places that there are.
      have hkeep : xs.eraseDups.Pairwise fun a b => (xs ++ [x]).idxOf a < (xs ++ [x]).idxOf b := by
        refine ih.imp_of_mem fun {a b} ha hb hab => ?_
        rw [List.idxOf_append, List.idxOf_append, if_pos (List.mem_eraseDups.1 ha), if_pos (List.mem_eraseDups.1 hb)]
        exact hab
      rw [eraseDups_concat]
      split
      · exact hkeep
      · rename_i hx
        refine List.pairwise_append.2 ⟨hkeep, List.pairwise_singleton .., fun a ha b hb => ?_⟩
        obtain rfl := List.mem_singleton.1 hb
        have ha : a ∈ xs := List.mem_eraseDups.1 ha
        rw [List.idxOf_append, List.idxOf_append, if_pos ha, if_neg hx]
        exact Nat.lt_add_left _ (List.idxOf_lt_length_iff.2 ha)

end

/-! ## The first entry that passes a test -/

section
variable {α : Type}

/-- Takes the first entry that passes out of a list, by its place. -/
def takeFirst (p : α → Bool) (entries : List α) : Option α × List α :=
  match entries.findIdx? p with
  | none => (none, entries)
  | some place => (entries[place]?, entries.eraseIdx place)

theorem takeFirst_eq (p : α → Bool) (entries : List α) :
    takeFirst p entries = (entries.find? p, entries.eraseP p) := by
  unfold takeFirst
  rw [List.eraseP_eq_eraseIdx, List.find?_eq_getElem?_findIdx]
  cases h : entries.findIdx? p with
  | none => rw [List.findIdx_eq_length_of_false (List.findIdx?_eq_none_iff.1 h), List.getElem?_length]
  | some place => rw [(List.findIdx?_eq_some_iff_findIdx_eq.1 h).2]

theorem exists_place_of_find? {p : α → Bool} {entries : List α} {entry : α} (h : entries.find? p = some entry) :
    ∃ place, entries[place]? = some entry ∧ entries.eraseP p = entries.eraseIdx place := by
  have ht := takeFirst_eq p entries
  rw [h] at ht
  unfold takeFirst at ht
  split at ht
  · cases ht
  · exact ⟨_, congrArg Prod.fst ht, (congrArg Prod.snd ht).symm⟩

end

/-! ## Places -/

section
variable {α : Type}

theorem eq_take_append_drop {entries : List α} {entry : α} {i : Nat} (h : entries[i]? = some entry) :
    entries = entries.take i ++ entry :: entries.drop (i + 1) := by
  obtain ⟨hi, rfl⟩ := List.getElem?_eq_some_iff.1 h
  rw [← List.drop_eq_getElem_cons hi, List.take_append_drop]

theorem idxOf?_append [BEq α] (a b : List α) (entry : α) :
    (a ++ b).idxOf? entry = (a.idxOf? entry).or ((b.idxOf? entry).map (· + a.length)) := List.findIdx?_append

end

end DotLang
