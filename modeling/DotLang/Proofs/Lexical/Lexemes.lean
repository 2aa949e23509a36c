import DotLang.Proofs.Lexical.Words

/-!
# What begins a token

Edge operators, strings and markup are told by their first characters, and come before everything else. Then a name
is looked for, then a numeral, then a sign; no two of these begin with the same character. What begins with none of
them is stray.
-/

namespace DotLang

def Token.isWord : Token → Bool
  | identifier _ | keyword _ => true
  | _ => false

def Token.isNumeral : Token → Bool
  | numeral _ => true
  | _ => false

def LexicalFault.isStray : LexicalFault → Bool
  | strayCharacter _ | strayByte _ => true
  | _ => false

/-- An edge operator is in front of the text. -/
def BeginsEdgeOp (text : List Char) : Prop := ['-', '-'] <+: text ∨ ['-', '>'] <+: text

/-- The text begins like a token. -/
inductive Begins : List Char → Prop
  | edgeOp {text : List Char} (h : BeginsEdgeOp text) : Begins text
  | sign {c : Char} {rest : List Char} (h : c ∈ ['=', ';', ':', ',', '+', '[', ']', '{', '}']) : Begins (c :: rest)
  | string {rest : List Char} : Begins ('"' :: rest)
  | markup {rest : List Char} : Begins ('<' :: rest)
  | name {text : List Char} {b : UInt8} (h : (utf8 text).head? = some b) (hb : IsNameByte b) : Begins text
  | numeral {digits rest : List Char} (h : IsNumeral digits) : Begins (digits ++ rest)

/-! ## First characters -/

section
variable {c : Char} {text : List Char}

theorem ofSign?_isSome_iff : (Token.ofSign? c).isSome = true ↔ c ∈ ['=', ';', ':', ',', '+', '[', ']', '{', '}'] := by
  unfold Token.ofSign?
  split <;> simp_all

theorem IsNumeral.exists_cons {digits : List Char} (h : IsNumeral digits) :
    ∃ c rest, digits = c :: rest ∧ (c = '-' ∨ c = '.' ∨ c.isDigit = true) := by
  cases h with
  | unsigned h =>
    obtain ⟨c, rest, rfl, hc⟩ := h.exists_cons
    exact ⟨c, rest, rfl, Or.inr hc⟩
  | negative h => exact ⟨_, _, rfl, Or.inl rfl⟩

theorem isNameStart_eq_false (hc : c = '-' ∨ c = '.' ∨ c.isDigit = true) : isNameStart c = false := by
  rw [Bool.eq_false_iff, Ne, isNameStart_iff_toNat]
  rcases hc with rfl | rfl | hc
  · decide
  · decide
  · rw [isDigit_iff_toNat] at hc
    omega

theorem not_numeral_of_ofSign? {token : Token} (h : Token.ofSign? c = some token) :
    (c = '-' || c = '.' || c.isDigit) = false := by
  unfold Token.ofSign? at h
  split at h <;> first | rfl | cases h

theorem head_of_numeral? {digits : List Char} (h : numeral? (c :: text) = some digits) :
    c = '-' ∨ c = '.' ∨ c.isDigit = true := by
  obtain ⟨rest, he⟩ := eq_of_numeral? h
  obtain ⟨d, more, rfl, hd⟩ := (isNumeral_of_numeral? h).exists_cons
  obtain rfl := (List.cons.inj he).1
  exact hd

theorem begins_iff : Begins (c :: text) ↔ BeginsEdgeOp (c :: text) ∨ (Token.ofSign? c).isSome = true ∨ c = '"' ∨ c = '<' ∨
    isNameStart c = true ∨ (numeral? (c :: text)).isSome = true := by
  constructor
  · generalize hwhole : c :: text = whole
    intro h
    cases h with
    | edgeOp h => exact Or.inl h
    | sign h =>
      obtain rfl := (List.cons.inj hwhole).1
      exact Or.inr (Or.inl (ofSign?_isSome_iff.2 h))
    | string => exact Or.inr (Or.inr (Or.inl (List.cons.inj hwhole).1))
    | markup => exact Or.inr (Or.inr (Or.inr (Or.inl (List.cons.inj hwhole).1)))
    | name h hb =>
      obtain ⟨d, rest, rfl, hd⟩ := exists_isNameStart hb h
      obtain rfl := (List.cons.inj hwhole).1
      exact Or.inr (Or.inr (Or.inr (Or.inr (Or.inl hd))))
    | @numeral _ rest h =>
      obtain ⟨digits, hd, -⟩ := numeral?_ge h rest
      rw [hd]
      exact Or.inr (Or.inr (Or.inr (Or.inr (Or.inr rfl))))
  · rintro (h | h | rfl | rfl | h | h)
    · exact .edgeOp h
    · exact .sign (ofSign?_isSome_iff.1 h)
    · exact .string
    · exact .markup
    · obtain ⟨b, more, hb⟩ := exists_utf8 c
      have hhead : (utf8 (c :: text)).head? = some b := by
        rw [utf8, List.flatMap_cons, hb]
        rfl
      exact .name hhead ((isNameByte_iff (c := c) (by rw [hb]; exact List.mem_cons_self ..)).2 h)
    · obtain ⟨digits, hd⟩ := Option.isSome_iff_exists.1 h
      obtain ⟨rest, hr⟩ := eq_of_numeral? hd
      rw [hr]
      exact .numeral (isNumeral_of_numeral? hd)

end

/-! ## What is read there -/

namespace Lexeme

section
variable {c : Char} {text : List Char}

theorem ofText_of_beginsEdgeOp (h : BeginsEdgeOp text) : ∃ token : Token, ofText text = ok token 2 ∧ token.isEdgeOp = true := by
  rcases h with ⟨rest, rfl⟩ | ⟨rest, rfl⟩
  · exact ⟨.line, rfl, rfl⟩
  · exact ⟨.arrow, rfl, rfl⟩

theorem ofText_eq_ofChar (he : ¬ BeginsEdgeOp (c :: text)) (hs : c ≠ '"') (hm : c ≠ '<') :
    ofText (c :: text) = ofChar c text := by
  rw [ofText]
  · rintro rest rfl rfl
    exact he (Or.inr ⟨rest, rfl⟩)
  · rintro rest rfl rfl
    exact he (Or.inl ⟨rest, rfl⟩)
  · exact hs
  · exact hm

/-- What begins like a token is one, or a string or markup with a fault. -/
theorem not_isStray_of_begins (h : Begins (c :: text)) {fault : LexicalFault}
    (hf : (ofText (c :: text)).outcome = .error fault) : fault.isStray = false := by
  by_cases he : BeginsEdgeOp (c :: text)
  · obtain ⟨token, ht, -⟩ := ofText_of_beginsEdgeOp he
    rw [ht] at hf
    cases hf
  by_cases hs : c = '"'
  · subst hs
    rw [ofText, ofQuoted] at hf
    split at hf <;> cases hf
    rfl
  by_cases hm : c = '<'
  · subst hm
    rw [ofText, ofMarkup] at hf
    split at hf
    · split at hf <;> cases hf
      rfl
    · cases hf
      rfl
  rw [ofText_eq_ofChar he hs hm, ofChar] at hf
  split at hf
  · cases hf
  rename_i hn
  rcases begins_iff.1 h with h | h | h | h | h | h
  · exact absurd h he
  · obtain ⟨token, ht⟩ := Option.isSome_iff_exists.1 h
    rw [not_numeral_of_ofSign? ht, ht] at hf
    cases hf
  · exact absurd h hs
  · exact absurd h hm
  · exact absurd h hn
  · obtain ⟨digits, hd⟩ := Option.isSome_iff_exists.1 h
    have hcond : (c = '-' || c = '.' || c.isDigit) = true := by simpa [or_assoc] using head_of_numeral? hd
    rw [hcond, hd] at hf
    cases hf

/-- What begins like no token is stray, and left where it is. -/
theorem ofText_of_not_begins (h : ¬ Begins (c :: text)) :
    ∃ problem : LexicalFault, problem.isStray = true ∧ ofText (c :: text) = fault problem 0 := by
  rw [begins_iff, not_or, not_or, not_or, not_or, not_or] at h
  obtain ⟨he, hsign, hs, hm, hn, hd⟩ := h
  rw [ofText_eq_ofChar he hs hm, ofChar, if_neg hn]
  split
  · rw [Option.not_isSome_iff_eq_none.1 hd]
    exact ⟨.strayCharacter c, rfl, rfl⟩
  · rw [Option.not_isSome_iff_eq_none.1 hsign]
    exact ⟨.strayByte c, rfl, rfl⟩

theorem isStray_iff : (∃ fault, (ofText text).outcome = .error fault ∧ fault.isStray = true) ↔ text ≠ [] ∧ ¬ Begins text := by
  cases text with
  | nil => exact ⟨fun ⟨_, h, _⟩ => (by cases h), fun h => absurd rfl h.1⟩
  | cons c text =>
    constructor
    · rintro ⟨fault, hf, hs⟩
      refine ⟨List.cons_ne_nil _ _, fun h => ?_⟩
      rw [not_isStray_of_begins h hf] at hs
      cases hs
    · rintro ⟨-, h⟩
      obtain ⟨fault, hs, hf⟩ := ofText_of_not_begins h
      exact ⟨fault, congrArg outcome hf, hs⟩

/-- Only strings and markup can have a fault of another kind. -/
theorem isStray_of_fault {fault : LexicalFault} (hf : (ofText text).outcome = .error fault) :
    fault.isStray = true ∨ text.head? = some '"' ∨ text.head? = some '<' := by
  cases text with
  | nil => cases hf
  | cons c text =>
    by_cases he : BeginsEdgeOp (c :: text)
    · obtain ⟨token, ht, -⟩ := ofText_of_beginsEdgeOp he
      rw [ht] at hf
      cases hf
    by_cases hs : c = '"'
    · exact Or.inr (Or.inl (congrArg some hs))
    by_cases hm : c = '<'
    · exact Or.inr (Or.inr (congrArg some hm))
    left
    rw [ofText_eq_ofChar he hs hm, ofChar] at hf
    split at hf
    · cases hf
    · split at hf
      · split at hf <;> cases hf
        rfl
      · split at hf <;> cases hf
        rfl

theorem length_of_not_begins (hne : text ≠ []) (h : ¬ Begins text) : (ofText text).length = 0 := by
  obtain ⟨c, rest, rfl⟩ := List.exists_cons_of_ne_nil hne
  obtain ⟨fault, -, hf⟩ := ofText_of_not_begins h
  exact congrArg length hf

theorem ofText_of_numeral? {digits : List Char} (he : ¬ BeginsEdgeOp text) (h : numeral? text = some digits) :
    ofText text = ok (.numeral (String.ofList digits)) digits.length := by
  cases text with
  | nil => cases h
  | cons c text =>
    have hc := head_of_numeral? h
    have hs : c ≠ '"' := by
      rintro rfl
      exact absurd hc (by decide)
    have hm : c ≠ '<' := by
      rintro rfl
      exact absurd hc (by decide)
    have hcond : (c = '-' || c = '.' || c.isDigit) = true := by simpa [or_assoc] using hc
    rw [ofText_eq_ofChar he hs hm, ofChar, if_neg (by rw [isNameStart_eq_false hc]; nofun), hcond, h]
    rfl

theorem exists_numeral? {name : String} (h : (ofText text).outcome = .ok (.numeral name)) :
    ∃ digits, numeral? text = some digits := by
  unfold ofText at h
  split at h
  · cases h
  · cases h
  · cases h
  · unfold ofQuoted at h
    split at h <;> cases h
  · unfold ofMarkup at h
    split at h
    · split at h <;> cases h
    · cases h
  · unfold ofChar at h
    split at h
    · have hword := Except.ok.inj h
      unfold Token.ofWord at hword
      split at hword <;> cases hword
    · split at h
      · split at h
        · rename_i digits hd
          exact ⟨digits, hd⟩
        · cases h
      · split at h
        · rename_i token hs
          obtain rfl := Except.ok.inj h
          unfold Token.ofSign? at hs
          split at hs <;> cases hs
        · cases h

end

end Lexeme

/-! ## Which tokens are names and numerals -/

theorem Token.isWord_ofWord (word : String) : (Token.ofWord word).isWord = true := by
  unfold ofWord
  split <;> rfl

theorem Spells.exists_isNameStart {lexeme : List Char} {token : Token} (h : Spells lexeme token)
    (hw : token.isWord = true) : ∃ c word, lexeme = c :: word ∧ isNameStart c = true := by
  cases h with
  | identifier hc h => exact ⟨_, _, rfl, hc⟩
  | keyword h hk =>
    rw [ofName?_eq_some_iff, String.toList_ofList] at hk
    exact exists_isNameStart_of_keyword hk
  | sign hs =>
    unfold Token.ofSign? at hs
    split at hs <;> cases hs <;> cases hw
  | eof => cases hw
  | numeral => cases hw
  | quoted => cases hw
  | html => cases hw
  | arrow => cases hw
  | line => cases hw

theorem exists_isNameStart_of_isName {word : List Char} (h : IsName (utf8 word)) : ∃ c rest, word = c :: rest ∧ isNameStart c = true := by
  generalize hbytes : utf8 word = bytes at h
  cases h with
  | intro hb hm => exact exists_isNameStart hb (by rw [hbytes]; rfl)

section
variable {lexeme more : List Char} {token : Token} (h : Lexeme.ofText (lexeme ++ more) = .ok token lexeme.length)
include h

/-- Where a name can begin, the longest name is read. -/
theorem longest_name_of_ofText {c : Char} {word : List Char} (hl : lexeme = c :: word) (hc : isNameStart c = true) :
    token = .ofWord (String.ofList lexeme) ∧ Longest (fun name _ => IsName name) (utf8 lexeme) (utf8 more) := by
  subst hl
  rw [List.cons_append, ofText_of_isNameStart hc, Lexeme.ofChar, if_pos hc] at h
  obtain ⟨ht, hlength⟩ : Except.ok (Token.ofWord (String.ofList (c :: (word ++ more).takeWhile isNameChar))) =
      Except.ok (ε := LexicalFault) token ∧ ((word ++ more).takeWhile isNameChar).length + 1 = word.length + 1 := by
    simpa [Lexeme.ok] using h
  have hsplit : (word ++ more).takeWhile isNameChar ++ (word ++ more).dropWhile isNameChar = word ++ more :=
    List.takeWhile_append_dropWhile
  obtain ⟨htake, hdrop⟩ := List.append_inj hsplit (Nat.succ.inj hlength)
  rw [htake] at ht
  refine ⟨(Except.ok.inj ht).symm, longest_name hc (htake ▸ List.all_takeWhile) fun d hd => ?_⟩
  have hstop := List.head?_dropWhile_not isNameChar (word ++ more)
  rw [hdrop, Option.mem_def.1 hd] at hstop
  simpa using hstop

theorem isWord_iff (hs : Spells lexeme token) :
    token.isWord = true ↔ Longest (fun name _ => IsName name) (utf8 lexeme) (utf8 more) := by
  constructor
  · intro hw
    obtain ⟨c, word, hl, hc⟩ := hs.exists_isNameStart hw
    exact (longest_name_of_ofText h hl hc).2
  · intro hlongest
    obtain ⟨c, word, hl, hc⟩ := exists_isNameStart_of_isName hlongest.holds
    rw [(longest_name_of_ofText h hl hc).1]
    exact Token.isWord_ofWord _

theorem eq_keyword_iff (hs : Spells lexeme token) (known : Keyword) :
    token = .keyword known ↔ lexeme.map Char.toLower = known.name.toList := by
  have hiff {c : Char} {word : List Char} (hl : lexeme = c :: word) (hc : isNameStart c = true) :
      token = .keyword known ↔ lexeme.map Char.toLower = known.name.toList := by
    rw [(longest_name_of_ofText h hl hc).1, ofWord_eq_keyword_iff, String.toList_ofList]
  constructor
  · intro ht
    obtain ⟨c, word, hl, hc⟩ := hs.exists_isNameStart (by rw [ht]; rfl)
    exact (hiff hl hc).1 ht
  · intro hk
    obtain ⟨c, word, hl, hc⟩ := exists_isNameStart_of_keyword hk
    exact (hiff hl hc).2 hk

theorem isNumeral_iff : token.isNumeral = true ↔
    ¬ BeginsEdgeOp (lexeme ++ more) ∧ Longest (fun numeral _ => IsNumeral numeral) lexeme more := by
  constructor
  · intro hn
    have he : ¬ BeginsEdgeOp (lexeme ++ more) := by
      intro he
      obtain ⟨op, hop, ho⟩ := Lexeme.ofText_of_beginsEdgeOp he
      obtain rfl : op = token := Except.ok.inj (congrArg Lexeme.outcome (hop.symm.trans h))
      cases op with
      | numeral => cases ho
      | _ => cases hn
    obtain ⟨name, rfl⟩ : ∃ name, token = .numeral name := by
      cases token with
      | numeral name => exact ⟨name, rfl⟩
      | _ => cases hn
    obtain ⟨digits, hd⟩ := Lexeme.exists_numeral? (congrArg Lexeme.outcome h)
    have hlength : lexeme.length = digits.length :=
      congrArg Lexeme.length (h.symm.trans (Lexeme.ofText_of_numeral? he hd))
    obtain ⟨rest, hr, hlongest⟩ := longest_numeral hd
    obtain ⟨rfl, rfl⟩ := List.append_inj hr hlength
    exact ⟨he, hlongest⟩
  · rintro ⟨he, hlongest⟩
    obtain ⟨digits, hd, -⟩ := numeral?_ge hlongest.holds more
    obtain rfl : Token.numeral (String.ofList digits) = token :=
      Except.ok.inj (congrArg Lexeme.outcome ((Lexeme.ofText_of_numeral? he hd).symm.trans h))
    rfl

end

end DotLang
