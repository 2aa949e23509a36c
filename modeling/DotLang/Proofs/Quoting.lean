import DotLang.Text.Quoted

/-!
# Quoting and reading back

A text is quotable exactly as long as its backslashes pair up before the characters that matter, and what
a quoted string stands for is always such a text, without carriage returns. Such a text is `Readable`: in
quotes it is read back as it is.
-/

namespace DotLang

namespace Quoted

/-- The backslash that an odd run leaves over. -/
def leftOver (odd : Bool) : List Char := if odd then ['\\'] else []

/-- Induction on a string that ends: at once, behind a character, or behind a backslash and what it protects. -/
@[elab_as_elim]
theorem body?_induction {motive : ∀ text body : List Char, body? text = some body → Prop}
    (quote : ∀ rest, motive ('"' :: rest) [] rfl)
    (guarded : ∀ (c : Char) {rest body : List Char} (h : body? rest = some body), motive rest body h →
      motive ('\\' :: c :: rest) ('\\' :: c :: body) (by rw [body?_protected, h]; rfl))
    (plain : ∀ {c : Char} {rest body : List Char} (hq : c ≠ '"') (hb : c ≠ '\\') (h : body? rest = some body),
      motive rest body h → motive (c :: rest) (c :: body) (by rw [body?_cons_of_ne hq hb, h]; rfl))
    {text body : List Char} (h : body? text = some body) : motive text body h := by
  match text with
  | [] => cases h
  | c :: rest =>
    by_cases hq : c = '"'
    · subst hq
      cases h
      exact quote rest
    · by_cases hb : c = '\\'
      · subst hb
        cases rest with
        | nil => cases h
        | cons c rest =>
          obtain ⟨body, hr, rfl⟩ := Option.map_eq_some_iff.1 ((body?_protected c rest).symm.trans h)
          exact guarded c hr (body?_induction quote guarded plain hr)
      · obtain ⟨body, hr, rfl⟩ := Option.map_eq_some_iff.1 ((body?_cons_of_ne hq hb rest).symm.trans h)
        exact plain hq hb hr (body?_induction quote guarded plain hr)

theorem eq_of_body? {text body : List Char} (h : body? text = some body) :
    ∃ rest, text = body ++ '"' :: rest := by
  induction h using body?_induction with
  | quote rest => exact ⟨rest, rfl⟩
  | guarded c _ ih =>
    obtain ⟨more, rfl⟩ := ih
    exact ⟨more, rfl⟩
  | plain _ _ _ ih =>
    obtain ⟨more, rfl⟩ := ih
    exact ⟨more, rfl⟩

/-- The quote that ends a body is the first that can. -/
theorem body?_self {text body : List Char} (h : body? text = some body) : body? (body ++ ['"']) = some body := by
  induction h using body?_induction with
  | quote => rfl
  | guarded c _ ih =>
    rw [List.cons_append, List.cons_append, body?_protected, ih]
    rfl
  | plain hq hb _ ih =>
    rw [List.cons_append, body?_cons_of_ne hq hb, ih]
    rfl

/-- The character behind an odd run of backslashes in a text whose backslashes pair up. -/
theorem ne_of_backslashesPair {c : Char} {rest : List Char} (hb : c ≠ '\\')
    (h : backslashesPair true (c :: rest) = true) :
    c ≠ '"' ∧ c ≠ '\n' ∧ c ≠ '\r' ∧ backslashesPair false rest = true := by
  rw [backslashesPair_cons_of_ne hb] at h
  simpa [and_assoc] using h

theorem backslashesPair_of_ne {c : Char} {rest : List Char} (hb : c ≠ '\\') :
    backslashesPair false (c :: rest) = backslashesPair false rest :=
  backslashesPair_cons_of_ne hb false rest

/-! ## Writing and reading back -/

/-- The written form ends at its last quote, whichever text follows. -/
theorem body?_encode (rest : List Char) : ∀ (odd : Bool) (text : List Char), backslashesPair odd text = true →
    body? (leftOver odd ++ encode text ++ '"' :: rest) = some (leftOver odd ++ encode text)
  | false, [], _ => rfl
  | true, [], h => absurd h Bool.false_ne_true
  | odd, c :: text, h => by
    by_cases hb : c = '\\'
    · subst hb
      rw [encode_cons_of_ne (by decide)]
      cases odd with
      | false => exact body?_encode rest true text h
      | true =>
        have ih : body? (encode text ++ '"' :: rest) = some (encode text) := body?_encode rest false text h
        show body? ('\\' :: '\\' :: (encode text ++ '"' :: rest)) = _
        rw [body?_protected, ih]
        rfl
    · cases odd with
      | true =>
        obtain ⟨hq, -, -, h⟩ := ne_of_backslashesPair hb h
        have ih : body? (encode text ++ '"' :: rest) = some (encode text) := body?_encode rest false text h
        rw [encode_cons_of_ne hq]
        show body? ('\\' :: c :: (encode text ++ '"' :: rest)) = _
        rw [body?_protected, ih]
        rfl
      | false =>
        rw [backslashesPair_of_ne hb] at h
        have ih : body? (encode text ++ '"' :: rest) = some (encode text) := body?_encode rest false text h
        show body? (encode (c :: text) ++ '"' :: rest) = some (encode (c :: text))
        by_cases hq : c = '"'
        · subst hq
          rw [encode_quote, List.cons_append, List.cons_append, body?_protected, ih]
          rfl
        · rw [encode_cons_of_ne hq, List.cons_append, body?_cons_of_ne hq hb, ih]
          rfl

theorem decode_encode : ∀ (odd : Bool) (text : List Char), backslashesPair odd text = true → '\r' ∉ text →
    decode (leftOver odd ++ encode text) = leftOver odd ++ text
  | false, [], _, _ => rfl
  | true, [], h, _ => absurd h Bool.false_ne_true
  | odd, c :: text, h, hr => by
    have hc : c ≠ '\r' := fun e => hr (e ▸ List.mem_cons_self ..)
    have ht : '\r' ∉ text := fun hm => hr (List.mem_cons_of_mem _ hm)
    by_cases hb : c = '\\'
    · subst hb
      rw [encode_cons_of_ne (by decide)]
      cases odd with
      | false => exact decode_encode true text h ht
      | true =>
        have ih : decode (encode text) = text := decode_encode false text h ht
        show decode ('\\' :: '\\' :: encode text) = '\\' :: '\\' :: text
        rw [decode_protected (by decide) (by decide) (by decide), ih]
    · cases odd with
      | true =>
        obtain ⟨hq, hn, -, h⟩ := ne_of_backslashesPair hb h
        have ih : decode (encode text) = text := decode_encode false text h ht
        rw [encode_cons_of_ne hq]
        show decode ('\\' :: c :: encode text) = '\\' :: c :: text
        rw [decode_protected hq hc hn, ih]
      | false =>
        rw [backslashesPair_of_ne hb] at h
        have ih : decode (encode text) = text := decode_encode false text h ht
        show decode (encode (c :: text)) = c :: text
        by_cases hq : c = '"'
        · subst hq
          rw [encode_quote, decode_quote, ih]
        · rw [encode_cons_of_ne hq, decode_cons_of_ne hb hc, ih]

/-! ## What a quoted string stands for -/

theorem not_mem_decode (body : List Char) : '\r' ∉ decode body := by
  fun_induction decode body <;> simp_all [eq_comm]

theorem backslashesPair_decode_cons {c : Char} {body : List Char} (hb : c ≠ '\\')
    (ih : backslashesPair false (decode body) = true) : backslashesPair false (decode (c :: body)) = true := by
  by_cases hr : c = '\r'
  · subst hr
    -- A line feed behind the carriage return goes with it; both stand for one line feed.
    by_cases hn : body.head? = some '\n'
    · obtain ⟨body, rfl⟩ := List.head?_eq_some_iff.1 hn
      rw [decode_cons_of_ne (by decide) (by decide), backslashesPair_of_ne (by decide)] at ih
      rw [decode_pair, backslashesPair_of_ne (by decide)]
      exact ih
    · rw [decode_return hn, backslashesPair_of_ne (by decide)]
      exact ih
  · rw [decode_cons_of_ne hb hr, backslashesPair_of_ne hb]
    exact ih

theorem backslashesPair_decode_protected {c : Char} {body : List Char}
    (ih : backslashesPair false (decode body) = true) :
    backslashesPair false (decode ('\\' :: c :: body)) = true := by
  by_cases hq : c = '"'
  · subst hq
    rw [decode_quote, backslashesPair_of_ne (by decide)]
    exact ih
  by_cases hn : c = '\n'
  · subst hn
    rw [decode_joinedFeed]
    exact ih
  by_cases hr : c = '\r'
  · subst hr
    by_cases hf : body.head? = some '\n'
    · obtain ⟨body, rfl⟩ := List.head?_eq_some_iff.1 hf
      rw [decode_cons_of_ne (by decide) (by decide), backslashesPair_of_ne (by decide)] at ih
      rw [decode_joinedPair]
      exact ih
    · rw [decode_joinedReturn hf]
      exact ih
  rw [decode_protected hq hr hn]
  show backslashesPair true (c :: decode body) = true
  by_cases hb : c = '\\'
  · subst hb
    exact ih
  · rw [backslashesPair_cons_of_ne hb]
    simp [hq, hn, hr, ih]

/-- A body that ends at a quote has no backslash left over at its end. -/
theorem backslashesPair_decode {text body : List Char} (h : body? text = some body) :
    backslashesPair false (decode body) = true := by
  induction h using body?_induction with
  | quote => rfl
  | guarded c _ ih => exact backslashesPair_decode_protected ih
  | plain _ hb _ ih => exact backslashesPair_decode_cons hb ih

/-! ## Texts put together -/

theorem backslashesPair_append (b : List Char) (hb : backslashesPair false b = true) : ∀ (odd : Bool)
    (a : List Char), backslashesPair odd a = true → backslashesPair odd (a ++ b) = true
  | false, [], _ => hb
  | true, [], h => absurd h Bool.false_ne_true
  | odd, c :: a, h => by
    by_cases hc : c = '\\'
    · subst hc
      exact backslashesPair_append b hb (!odd) a h
    · rw [backslashesPair_cons_of_ne hc, Bool.and_eq_true] at h
      rw [List.cons_append, backslashesPair_cons_of_ne hc, Bool.and_eq_true]
      exact ⟨h.1, backslashesPair_append b hb false a h.2⟩

theorem backslashesPair_of_not_mem : ∀ {text : List Char}, '\\' ∉ text → backslashesPair false text = true
  | [], _ => rfl
  | c :: text, h => by
    rw [List.mem_cons, not_or] at h
    rw [backslashesPair_of_ne (Ne.symm h.1)]
    exact backslashesPair_of_not_mem h.2

end Quoted

/-! ## Readable texts -/

/-- A text that is read back as it is when it stands in quotes. -/
structure Readable (text : String) : Prop where
  quotable : isQuotable text = true
  noReturn : '\r' ∉ text.toList

instance (text : String) : Decidable (Readable text) :=
  decidable_of_iff (isQuotable text = true ∧ '\r' ∉ text.toList)
    ⟨fun h => ⟨h.1, h.2⟩, fun h => ⟨h.quotable, h.noReturn⟩⟩

theorem Readable.append {a b : String} (ha : Readable a) (hb : Readable b) : Readable (a ++ b) where
  quotable := by
    unfold isQuotable
    rw [String.toList_append]
    exact Quoted.backslashesPair_append _ hb.quotable false _ ha.quotable
  noReturn := by
    rw [String.toList_append, List.mem_append]
    exact fun h => h.elim ha.noReturn hb.noReturn

theorem readable_of_plain {text : List Char} (hb : '\\' ∉ text) (hr : '\r' ∉ text) :
    Readable (String.ofList text) where
  quotable := by
    unfold isQuotable
    rw [String.toList_ofList]
    exact Quoted.backslashesPair_of_not_mem hb
  noReturn := by rwa [String.toList_ofList]

theorem readable_decode {text body : List Char} (h : Quoted.body? text = some body) :
    Readable (String.ofList (Quoted.decode body)) where
  quotable := by
    unfold isQuotable
    rw [String.toList_ofList]
    exact Quoted.backslashesPair_decode h
  noReturn := by
    rw [String.toList_ofList]
    exact Quoted.not_mem_decode body

theorem Readable.body? {text : String} (h : Readable text) (rest : List Char) :
    Quoted.body? (Quoted.encode text.toList ++ '"' :: rest) = some (Quoted.encode text.toList) :=
  Quoted.body?_encode rest false text.toList h.quotable

theorem Readable.decode {text : String} (h : Readable text) :
    String.ofList (Quoted.decode (Quoted.encode text.toList)) = text := by
  have hd : Quoted.decode (Quoted.encode text.toList) = text.toList :=
    Quoted.decode_encode false text.toList h.quotable h.noReturn
  rw [hd, String.ofList_toList]

end DotLang
