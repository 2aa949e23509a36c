import DotLang.Proofs.Lexical.Calls

/-!
# Markup in a text

The lexer counts angle brackets, and ends markup where the first one is closed that it did not see opened. So it
reads markup as it stands between its brackets exactly if no front of it closes more than it opens and the whole
closes all, and if it is well formed; then it goes on right behind the last bracket.
-/

namespace DotLang

/-- No front of the text closes more angle brackets than it opens, and the whole closes all. -/
structure BracketsPair (text : List Char) : Prop where
  front : ∀ front, front <+: text → front.count '>' ≤ front.count '<'
  whole : text.count '>' = text.count '<'

theorem forall_prefix_cons {P : List Char → Prop} {c : Char} {text : List Char} :
    (∀ front, front <+: c :: text → P front) ↔ P [] ∧ ∀ front, front <+: text → P (c :: front) := by
  constructor
  · intro h
    exact ⟨h [] (List.nil_prefix), fun front hf => h _ (List.cons_prefix_cons.2 ⟨rfl, hf⟩)⟩
  · intro ⟨hn, h⟩ front hf
    cases front with
    | nil => exact hn
    | cons d front =>
      rw [List.cons_prefix_cons] at hf
      obtain ⟨rfl, hf⟩ := hf
      exact h front hf

/-- The depth of the counter is what was opened before the text and is still to be closed. -/
theorem isBalanced_iff {depth : Nat} {text : List Char} : isBalanced depth text = true ↔
    (∀ front, front <+: text → front.count '>' ≤ depth + front.count '<') ∧
      text.count '>' = depth + text.count '<' := by
  fun_induction isBalanced depth text with
  | case1 depth =>
    simp
    omega
  | case2 depth text ih =>
    rw [ih, forall_prefix_cons]
    simp [Nat.add_right_comm, Nat.add_assoc]
  | case3 text =>
    rw [forall_prefix_cons]
    simp only [Bool.false_eq_true, false_iff, not_and]
    intro h
    simpa using h.2 [] List.nil_prefix
  | case4 depth text ih =>
    rw [ih, forall_prefix_cons]
    simp [Nat.add_right_comm]
  | case5 depth c text hl h0 hs ih =>
    have hne := ne_close h0 hs
    have hne' : c ≠ '<' := hl
    rw [ih, forall_prefix_cons]
    simp [hne, hne']

theorem bracketsPair_iff {text : List Char} : BracketsPair text ↔ isBalanced 0 text = true := by
  rw [isBalanced_iff]
  simp only [Nat.zero_add]
  exact ⟨fun h => ⟨h.front, h.whole⟩, fun h => ⟨h.1, h.2⟩⟩

theorem ofMarkup_of_bracketed? {text : List Char} {markup : String} (hb : bracketed? 0 text = some markup.toList)
    (hv : Markup.validate markup.toList = .ok ()) :
    Lexeme.ofMarkup text = .ok (.html markup) (markup.toList.length + 2) := by
  unfold Lexeme.ofMarkup
  rw [hb]
  dsimp only
  rw [hv]
  simp

theorem ofMarkup_eq_ok_iff {text : List Char} {markup : String} : (Lexeme.ofMarkup text).outcome = .ok (.html markup) ↔
    bracketed? 0 text = some markup.toList ∧ Markup.validate markup.toList = .ok () := by
  constructor
  · intro h
    unfold Lexeme.ofMarkup at h
    split at h
    · rename_i content hb
      split at h
      · rename_i hv
        cases h
        simp [hb, hv]
      · cases h
    · cases h
  · intro ⟨hb, hv⟩
    rw [ofMarkup_of_bracketed? hb hv]
    rfl

section
variable {text passed rest : List Char}

theorem Placed.next_angle (h : Placed text passed ⟨'<' :: rest, .behind passed⟩) :
    (Lexer.mk ('<' :: rest) (.behind passed)).next = ((Lexeme.ofMarkup rest).result (.behind passed),
      (Lexer.mk ('<' :: rest) (.behind passed)).skip (Lexeme.ofMarkup rest).length) := by
  have hs : gapLength (.behind (passed ++ [])) 0 ('<' :: rest) = .ok 0 := by
    rw [GapMode.behind]
    cases decide ((Location.behind (passed ++ [])).column = 1) <;> rfl
  have hnext := (h.next_of_gap (List.nil_append _).symm .nil hs).2
  rwa [List.append_nil] at hnext

theorem result_ofMarkup_iff {loc : Location} {markup : String} :
    ((Lexeme.ofMarkup rest).result loc).map Prod.fst = .ok (.html markup) ↔
      bracketed? 0 rest = some markup.toList ∧ Markup.validate markup.toList = .ok () := by
  rw [← ofMarkup_eq_ok_iff, Lexeme.result]
  cases (Lexeme.ofMarkup rest).outcome <;> simp [Except.map]

/-- What is read up to a bracket is the text in front of it exactly if the brackets in there pair. -/
theorem bracketed?_append_iff {content : List Char} :
    bracketed? 0 (content ++ '>' :: rest) = some content ↔ BracketsPair content := by
  rw [bracketsPair_iff]
  exact ⟨isBalanced_of_bracketed?, bracketed?_of_isBalanced rest⟩

end

def inAngles (markup : String) : String := "<" ++ markup ++ ">"

theorem toList_inAngles (markup : String) : (inAngles markup).toList = '<' :: markup.toList ++ ['>'] := by
  simp [inAngles]

/-- In angle brackets, whatever follows, markup is read as it is exactly if its own brackets pair and it is well formed.
Then the lexer stands behind the closing bracket. -/
theorem reads_markup_iff (markup rest : String) :
    ((Lexer.ofString (inAngles markup ++ rest)).next.1.map Prod.fst = .ok (.html markup) ↔
      BracketsPair markup.toList ∧ Markup.validate markup.toList = .ok ()) ∧
    ((Lexer.ofString (inAngles markup ++ rest)).next.1.map Prod.fst = .ok (.html markup) ↔
      (Lexer.ofString (inAngles markup ++ rest)).next =
        (.ok (.html markup, {}), ⟨rest.toList, .behind (inAngles markup).toList⟩)) := by
  have hplaced := placed_ofString (inAngles markup ++ rest)
  have hrest : (Lexer.ofString (inAngles markup ++ rest)).rest = '<' :: (markup.toList ++ '>' :: rest.toList) := by
    simp [Lexer.ofString, toList_inAngles]
  generalize Lexer.ofString (inAngles markup ++ rest) = lexer at hplaced hrest ⊢
  have hlexer := hplaced.eq
  rw [hrest] at hlexer
  have hnext := (hlexer ▸ hplaced).next_angle
  rw [← hlexer] at hnext
  have hread : lexer.next.1.map Prod.fst = .ok (.html markup) ↔
      BracketsPair markup.toList ∧ Markup.validate markup.toList = .ok () := by
    rw [hnext, ← bracketed?_append_iff]
    exact result_ofMarkup_iff
  refine ⟨hread, ?_, fun h => by rw [h]; rfl⟩
  intro h
  obtain ⟨hb, hv⟩ := hread.1 h
  have hskip : lexer.skip (markup.toList.length + 2) = ⟨rest.toList, .behind (inAngles markup).toList⟩ := by
    have hlength : (inAngles markup).toList.length = markup.toList.length + 2 := by simp [toList_inAngles]
    have hsplit : lexer.rest = (inAngles markup).toList ++ rest.toList := by simp [hrest, toList_inAngles]
    -- The last character is no carriage return, so no line break is cut in two.
    have hsettled : Settled ([] ++ (inAngles markup).toList) rest.toList := by
      rw [List.nil_append, toList_inAngles, Settled, List.getLast?_concat]
      simp
    obtain ⟨hbehind, hr⟩ := hplaced.skip hsplit hsettled
    rw [← hlength, hbehind.eq, hr, List.nil_append]
  rw [hnext, ofMarkup_of_bracketed? (bracketed?_append_iff.2 hb) hv]
  exact congrArg (Prod.mk _) hskip

/-- The line break in it stays as it is, which it would not in a quoted string. -/
example : (Lexer.ofString "<<b>\r\n</b>> a").next.1.map Prod.fst = .ok (.html "<b>\r\n</b>") := by decide +kernel

end DotLang
