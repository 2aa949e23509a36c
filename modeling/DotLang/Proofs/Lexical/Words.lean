import DotLang.Proofs.Lexical.Gaps

/-!
# Names and numerals

What a name is, is said of the bytes of a text: all bytes of a character behind the ASCII ones can stand in a name.
What a numeral is, is said of its characters, all of which are in ASCII. The lexer takes the longest of either.
-/

namespace DotLang

/-- A front all of whose elements have a property goes no further than to the first that has not. -/
theorem length_le_of_forall {α : Type} {p : α → Prop} {front rest word tail : List α}
    (he : front ++ rest = word ++ tail) (hp : ∀ a ∈ front, p a) (ht : ∀ a ∈ tail.head?, ¬ p a) :
    front.length ≤ word.length := by
  rcases List.append_eq_append_iff.1 he with ⟨more, rfl, -⟩ | ⟨more, rfl, htail⟩
  · simp
  · cases more with
    | nil => simp
    | cons a more =>
      have hhead : a ∈ tail.head? := by rw [htail]; rfl
      exact absurd (hp a (List.mem_append_right _ (List.mem_cons_self ..))) (ht a hhead)

/-! ## Bytes -/

def utf8 (text : List Char) : List UInt8 := text.flatMap String.utf8EncodeChar

/-- `A-Z`, `a-z`, `_` and all bytes from `\x80` on. -/
def IsNameByte (b : UInt8) : Prop :=
  (65 ≤ b.toNat ∧ b.toNat ≤ 90) ∨ (97 ≤ b.toNat ∧ b.toNat ≤ 122) ∨ b.toNat = 95 ∨ 128 ≤ b.toNat

/-- `0-9`. -/
def IsDigitByte (b : UInt8) : Prop := 48 ≤ b.toNat ∧ b.toNat ≤ 57

/-- A name byte, and name bytes and digits behind it. -/
inductive IsName : List UInt8 → Prop
  | intro {b : UInt8} {more : List UInt8} (hb : IsNameByte b) (hm : ∀ c ∈ more, IsNameByte c ∨ IsDigitByte c) :
    IsName (b :: more)

theorem IsName.forall_mem {name : List UInt8} (h : IsName name) : ∀ b ∈ name, IsNameByte b ∨ IsDigitByte b := by
  cases h with
  | intro hb hm => exact List.forall_mem_cons.2 ⟨Or.inl hb, hm⟩

section
variable {c : Char} {b : UInt8}

/-- A byte of a character is that of an ASCII character, or it and the character are behind those. -/
theorem toNat_of_mem_utf8 (hb : b ∈ String.utf8EncodeChar c) :
    (b.toNat = c.toNat ∧ c.toNat < 128) ∨ (128 ≤ b.toNat ∧ 128 ≤ c.toNat) := by
  unfold String.utf8EncodeChar at hb
  dsimp only at hb
  show (b.toNat = c.val.toNat ∧ c.val.toNat < 128) ∨ (128 ≤ b.toNat ∧ 128 ≤ c.val.toNat)
  split at hb
  · obtain rfl := List.mem_singleton.1 hb
    rw [UInt8.toNat_ofNat']
    omega
  · refine Or.inr ⟨?_, by omega⟩
    split at hb
    · simp only [List.mem_cons, List.not_mem_nil, or_false] at hb
      rcases hb with rfl | rfl <;> rw [UInt8.toNat_ofNat'] <;> omega
    · split at hb
      · simp only [List.mem_cons, List.not_mem_nil, or_false] at hb
        rcases hb with rfl | rfl | rfl <;> rw [UInt8.toNat_ofNat'] <;> omega
      · simp only [List.mem_cons, List.not_mem_nil, or_false] at hb
        rcases hb with rfl | rfl | rfl | rfl <;> rw [UInt8.toNat_ofNat'] <;> omega

theorem isUpper_iff_toNat : c.isUpper = true ↔ 65 ≤ c.toNat ∧ c.toNat ≤ 90 := by
  show decide (c.val ≥ 'A'.val ∧ c.val ≤ 'Z'.val) = true ↔ _
  rw [decide_eq_true_iff, ge_iff_le, UInt32.le_iff_toNat_le, UInt32.le_iff_toNat_le]
  rfl

theorem isLower_iff_toNat : c.isLower = true ↔ 97 ≤ c.toNat ∧ c.toNat ≤ 122 := by
  show (decide (c.val ≥ 'a'.val) && decide (c.val ≤ 'z'.val)) = true ↔ _
  rw [Bool.and_eq_true, decide_eq_true_iff, decide_eq_true_iff, ge_iff_le, UInt32.le_iff_toNat_le,
    UInt32.le_iff_toNat_le]
  rfl

theorem isNameStart_iff_toNat : isNameStart c = true ↔
    (65 ≤ c.toNat ∧ c.toNat ≤ 90) ∨ (97 ≤ c.toNat ∧ c.toNat ≤ 122) ∨ c.toNat = 95 ∨ 128 ≤ c.toNat := by
  have hunderscore : c = '_' ↔ c.toNat = 95 := Char.toNat_inj.symm
  show (c.isUpper || c.isLower || decide (c = '_') || decide (128 ≤ c.toNat)) = true ↔ _
  simp only [Bool.or_eq_true, isUpper_iff_toNat, isLower_iff_toNat, decide_eq_true_iff, hunderscore, or_assoc]

theorem isDigit_iff_toNat : c.isDigit = true ↔ 48 ≤ c.toNat ∧ c.toNat ≤ 57 := by
  simp only [Char.isDigit, Bool.and_eq_true, decide_eq_true_iff, ge_iff_le, UInt32.le_iff_toNat_le]
  rfl

theorem isNameByte_iff (hb : b ∈ String.utf8EncodeChar c) : IsNameByte b ↔ isNameStart c = true := by
  rw [isNameStart_iff_toNat, IsNameByte]
  rcases toNat_of_mem_utf8 hb with ⟨he, -⟩ | ⟨hb, hc⟩ <;> omega

theorem isDigitByte_iff (hb : b ∈ String.utf8EncodeChar c) : IsDigitByte b ↔ c.isDigit = true := by
  rw [isDigit_iff_toNat, IsDigitByte]
  rcases toNat_of_mem_utf8 hb with ⟨he, -⟩ | ⟨hb, hc⟩ <;> omega

theorem isNameChar_iff (hb : b ∈ String.utf8EncodeChar c) :
    IsNameByte b ∨ IsDigitByte b ↔ isNameChar c = true := by
  rw [isNameByte_iff hb, isDigitByte_iff hb, isNameChar, Bool.or_eq_true]

theorem exists_utf8 (c : Char) : ∃ b more, String.utf8EncodeChar c = b :: more := by
  have hc := String.length_utf8EncodeChar c
  have hpos := c.utf8Size_pos
  exact List.exists_cons_of_ne_nil (fun h => by rw [h, List.length_nil] at hc; omega)

end

/-! ## Names -/

section
variable {text more : List Char}

theorem exists_isNameStart {b : UInt8} (hb : IsNameByte b) (hm : b ∈ (utf8 text).head?) :
    ∃ c rest, text = c :: rest ∧ isNameStart c = true := by
  cases text with
  | nil => cases hm
  | cons c rest =>
    obtain ⟨first, others, he⟩ := exists_utf8 c
    rw [utf8, List.flatMap_cons, he] at hm
    obtain rfl : first = b := by simpa using hm
    exact ⟨c, rest, rfl, (isNameByte_iff (by rw [he]; exact List.mem_cons_self ..)).1 hb⟩

theorem isName_utf8 {c : Char} (hc : isNameStart c = true) (h : more.all isNameChar = true) : IsName (utf8 (c :: more)) := by
  obtain ⟨first, others, he⟩ := exists_utf8 c
  have hall : ∀ b ∈ utf8 (c :: more), IsNameByte b ∨ IsDigitByte b := by
    intro b hb
    obtain ⟨d, hd, hb⟩ := List.mem_flatMap.1 hb
    exact (isNameChar_iff hb).2 (List.all_eq_true.1 (all_isNameChar_cons hc h) d hd)
  have hutf8 : utf8 (c :: more) = first :: (others ++ utf8 more) := by
    rw [utf8, List.flatMap_cons, he]
    rfl
  rw [hutf8] at hall ⊢
  refine .intro ((isNameByte_iff (c := c) (by rw [he]; exact List.mem_cons_self ..)).2 hc) fun b hb => ?_
  exact hall b (List.mem_cons_of_mem _ hb)

/-- A word is the longest name if no more name characters follow. -/
theorem longest_name {c : Char} {word : List Char} (hc : isNameStart c = true) (hw : word.all isNameChar = true)
    (hm : ∀ d ∈ more.head?, isNameChar d = false) :
    Longest (fun name _ => IsName name) (utf8 (c :: word)) (utf8 more) where
  holds := isName_utf8 hc hw
  le front rest he h := by
    refine length_le_of_forall he h.forall_mem fun b hb hname => ?_
    cases more with
    | nil => cases hb
    | cons d more =>
      obtain ⟨first, others, hd⟩ := exists_utf8 d
      rw [utf8, List.flatMap_cons, hd] at hb
      obtain rfl : first = b := by simpa using hb
      have hno := hm d rfl
      rw [(isNameChar_iff (by rw [hd]; exact List.mem_cons_self ..)).1 hname] at hno
      cases hno

end

/-! ## Keywords -/

theorem ofName?_eq_some_iff {word : String} {known : Keyword} :
    Keyword.ofName? word = some known ↔ word.toList.map Char.toLower = known.name.toList := by
  constructor
  · intro h
    have hname := List.find?_some h
    rw [beq_iff_eq] at hname
    exact hname.symm
  · intro h
    rw [Keyword.ofName?, h]
    cases known <;> decide

theorem ofWord_eq_keyword_iff {word : String} {known : Keyword} :
    Token.ofWord word = .keyword known ↔ word.toList.map Char.toLower = known.name.toList := by
  rw [← ofName?_eq_some_iff, Token.ofWord]
  split
  · rename_i other h
    rw [h, Token.keyword.injEq, Option.some.injEq]
  · rename_i h
    rw [h]
    exact ⟨nofun, nofun⟩

theorem isNameStart_of_toLower {c : Char} (h : c.toLower.isLower = true) : isNameStart c = true := by
  rw [isNameStart_iff_toNat]
  unfold Char.toLower at h
  split at h
  · rename_i hupper
    rw [ge_iff_le, UInt32.le_iff_toNat_le, UInt32.le_iff_toNat_le] at hupper
    exact Or.inl hupper
  · exact Or.inr (Or.inl (isLower_iff_toNat.1 h))

/-- What spells a keyword in any mixture of cases begins like a name. -/
theorem exists_isNameStart_of_keyword {word : List Char} {known : Keyword}
    (h : word.map Char.toLower = known.name.toList) : ∃ c rest, word = c :: rest ∧ isNameStart c = true := by
  cases word with
  | nil => cases known <;> cases h
  | cons c rest =>
    have hlower : c.toLower.isLower = true := by
      rw [List.map_cons] at h
      cases known <;> (rw [(List.cons.inj h).1]; rfl)
    exact ⟨c, rest, rfl, isNameStart_of_toLower hlower⟩

/-! ## Numerals -/

/-- `\.[0-9]+|[0-9]+(\.[0-9]*)?` -/
inductive IsUnsigned : List Char → Prop
  | fraction {digits : List Char} (hne : digits ≠ []) (h : digits.all Char.isDigit = true) : IsUnsigned ('.' :: digits)
  | whole {digits : List Char} (hne : digits ≠ []) (h : digits.all Char.isDigit = true) : IsUnsigned digits
  | decimal {whole fraction : List Char} (hne : whole ≠ []) (hw : whole.all Char.isDigit = true)
    (hf : fraction.all Char.isDigit = true) : IsUnsigned (whole ++ '.' :: fraction)

/-- `-?(\.[0-9]+|[0-9]+(\.[0-9]*)?)` -/
inductive IsNumeral : List Char → Prop
  | unsigned {digits : List Char} (h : IsUnsigned digits) : IsNumeral digits
  | negative {digits : List Char} (h : IsUnsigned digits) : IsNumeral ('-' :: digits)

theorem isUnsigned_of_unsignedNumeral? {text digits : List Char} (h : unsignedNumeral? text = some digits) :
    IsUnsigned digits := by
  unfold unsignedNumeral? at h
  dsimp only at h
  split at h
  · rename_i rest _
    split at h
    · cases h
    · rename_i hne
      obtain rfl := Option.some.inj h
      cases hw : text.takeWhile Char.isDigit with
      | nil =>
        rw [hw] at hne
        exact .fraction (by simpa using hne) List.all_takeWhile
      | cons c whole => exact .decimal (List.cons_ne_nil _ _) (hw ▸ List.all_takeWhile) List.all_takeWhile
  · split at h
    · cases h
    · rename_i hne
      obtain rfl := Option.some.inj h
      exact .whole (by simpa using hne) List.all_takeWhile

theorem takeWhile_isDigit_append {digits : List Char} (h : digits.all Char.isDigit = true) (rest : List Char) :
    (digits ++ rest).takeWhile Char.isDigit = digits ++ rest.takeWhile Char.isDigit ∧
      (digits ++ rest).dropWhile Char.isDigit = rest.dropWhile Char.isDigit :=
  ⟨List.takeWhile_append_of_pos (List.all_eq_true.1 h), List.dropWhile_append_of_pos (List.all_eq_true.1 h)⟩

theorem unsignedNumeral?_point {whole : List Char} (h : whole.all Char.isDigit = true) (rest : List Char)
    (hne : whole ≠ [] ∨ rest.takeWhile Char.isDigit ≠ []) :
    unsignedNumeral? (whole ++ '.' :: rest) = some (whole ++ '.' :: rest.takeWhile Char.isDigit) := by
  obtain ⟨htake, hdrop⟩ := takeWhile_isDigit_append h ('.' :: rest)
  rw [show ('.' :: rest).takeWhile Char.isDigit = [] from rfl, List.append_nil] at htake
  rw [show ('.' :: rest).dropWhile Char.isDigit = '.' :: rest from rfl] at hdrop
  unfold unsignedNumeral?
  rw [htake, hdrop]
  refine if_neg fun hempty => ?_
  rw [Bool.and_eq_true, List.isEmpty_iff, List.isEmpty_iff] at hempty
  rcases hne with hne | hne
  · exact hne hempty.1
  · exact hne hempty.2

/-- The reader finds a numeral where one stands, and no shorter one. -/
theorem unsignedNumeral?_ge {front : List Char} (h : IsUnsigned front) (rest : List Char) :
    ∃ digits, unsignedNumeral? (front ++ rest) = some digits ∧ front.length ≤ digits.length := by
  cases h with
  | @fraction digits hne hd =>
    obtain ⟨htake, -⟩ := takeWhile_isDigit_append hd rest
    have hfraction : (digits ++ rest).takeWhile Char.isDigit ≠ [] := by
      rw [htake]
      exact fun hempty => hne (List.append_eq_nil_iff.1 hempty).1
    have hread : unsignedNumeral? ('.' :: digits ++ rest) = some ('.' :: (digits ++ rest).takeWhile Char.isDigit) :=
      @unsignedNumeral?_point [] rfl _ (Or.inr hfraction)
    exact ⟨_, hread, by simp [htake]⟩
  | whole hne hd =>
    obtain ⟨htake, hdrop⟩ := takeWhile_isDigit_append hd rest
    have hnot : (front ++ rest.takeWhile Char.isDigit).isEmpty = false := by
      rw [List.isEmpty_eq_false_iff]
      exact fun hempty => hne (List.append_eq_nil_iff.1 hempty).1
    unfold unsignedNumeral?
    dsimp only
    rw [htake, hdrop, hnot]
    split
    · exact ⟨_, rfl, by simp⟩
    · exact ⟨_, rfl, by simp⟩
  | @decimal whole fraction hne hw hf =>
    obtain ⟨htake, -⟩ := takeWhile_isDigit_append hf rest
    rw [List.append_assoc, List.cons_append]
    exact ⟨_, unsignedNumeral?_point hw (fraction ++ rest) (Or.inl hne), by simp [htake]⟩

theorem isNumeral_of_numeral? {text digits : List Char} (h : numeral? text = some digits) : IsNumeral digits := by
  unfold numeral? at h
  split at h
  · obtain ⟨digits, hd, rfl⟩ := Option.map_eq_some_iff.1 h
    exact .negative (isUnsigned_of_unsignedNumeral? hd)
  · exact .unsigned (isUnsigned_of_unsignedNumeral? h)

theorem IsUnsigned.exists_cons {front : List Char} (h : IsUnsigned front) :
    ∃ c rest, front = c :: rest ∧ (c = '.' ∨ c.isDigit = true) := by
  have hdigits {digits : List Char} (hne : digits ≠ []) (hd : digits.all Char.isDigit = true) (rest : List Char) :
      ∃ c more, digits ++ rest = c :: more ∧ (c = '.' ∨ c.isDigit = true) := by
    obtain ⟨c, more, rfl⟩ := List.exists_cons_of_ne_nil hne
    rw [List.all_cons, Bool.and_eq_true] at hd
    exact ⟨c, _, rfl, Or.inr hd.1⟩
  cases h with
  | fraction hne hd => exact ⟨_, _, rfl, Or.inl rfl⟩
  | whole hne hd => simpa using hdigits hne hd []
  | decimal hne hw hf => exact hdigits hne hw _

theorem numeral?_ge {front : List Char} (h : IsNumeral front) (rest : List Char) :
    ∃ digits, numeral? (front ++ rest) = some digits ∧ front.length ≤ digits.length := by
  cases h with
  | unsigned h =>
    obtain ⟨c, more, rfl, hc⟩ := h.exists_cons
    have hsign : numeral? (c :: more ++ rest) = unsignedNumeral? (c :: more ++ rest) := by
      rw [List.cons_append, numeral?]
      rintro tail he
      obtain rfl := (List.cons.inj he).1
      rcases hc with hc | hc <;> cases hc
    rw [hsign]
    exact unsignedNumeral?_ge h rest
  | negative h =>
    obtain ⟨digits, hd, hl⟩ := unsignedNumeral?_ge h rest
    exact ⟨'-' :: digits, by rw [List.cons_append, numeral?, hd]; rfl, Nat.succ_le_succ hl⟩

theorem longest_numeral {text digits : List Char} (h : numeral? text = some digits) :
    ∃ more, text = digits ++ more ∧ Longest (fun numeral _ => IsNumeral numeral) digits more := by
  obtain ⟨more, rfl⟩ := eq_of_numeral? h
  refine ⟨more, rfl, isNumeral_of_numeral? h, fun front rest he hf => ?_⟩
  obtain ⟨found, hfound, hl⟩ := numeral?_ge hf rest
  rw [he, h] at hfound
  obtain rfl := Option.some.inj hfound
  exact hl

end DotLang
