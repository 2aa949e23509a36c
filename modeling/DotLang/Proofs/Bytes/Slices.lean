import DotLang.Proofs.Bytes.Walk

/-!
# Slices of a text

The bytes of a text fall into those of its characters. An ASCII character is one byte, and all bytes of the others are
behind ASCII, so a byte of a text is an ASCII character exactly if the character is. Behind a front of a text there is
always a boundary, and what stands between two fronts is a slice.
-/

namespace DotLang

section
variable {c d : Char} {b : UInt8} {more text rest : List _}

theorem utf8_nil : utf8 [] = [] := rfl

theorem utf8_cons (c : Char) (text : List Char) : utf8 (c :: text) = String.utf8EncodeChar c ++ utf8 text := rfl

theorem utf8_append (a b : List Char) : utf8 (a ++ b) = utf8 a ++ utf8 b := List.flatMap_append

theorem exists_utf8_cons (c : Char) (text : List Char) :
    ∃ b more, b ∈ String.utf8EncodeChar c ∧ utf8 (c :: text) = b :: more := by
  obtain ⟨b, more, hc⟩ := exists_utf8 c
  refine ⟨b, more ++ utf8 text, by rw [hc]; exact List.mem_cons_self .., ?_⟩
  rw [utf8_cons, hc]
  rfl

theorem length_utf8 (text : List Char) : (utf8 text).length = byteLength text := by
  induction text with
  | nil => rfl
  | cons c text ih => rw [utf8_cons, List.length_append, ih, String.length_utf8EncodeChar, byteLength_cons]

theorem bytesOf_eq (text : String) : bytesOf text = utf8 text.toList := by
  have h : (String.ofList text.toList).toUTF8.data.toList = utf8 text.toList := List.toList_data_toByteArray
  rwa [String.ofList_toList] at h

/-! ## ASCII -/

theorem toNat_ascii (hd : d.toNat < 128) : (ascii d).toNat = d.toNat := by
  rw [ascii, UInt8.toNat_ofNat', Nat.mod_eq_of_lt (by omega)]

theorem eq_ascii_iff (hb : b ∈ String.utf8EncodeChar c) (hd : d.toNat < 128) : b = ascii d ↔ c = d := by
  rw [← UInt8.toNat_inj, toNat_ascii hd, ← Char.toNat_inj]
  rcases toNat_of_mem_utf8 hb with ⟨he, -⟩ | ⟨hb, hc⟩ <;> omega

theorem utf8EncodeChar_of_lt (hc : c.toNat < 128) : String.utf8EncodeChar c = [ascii c] := by
  have hv : c.val.toNat ≤ 127 := Nat.le_of_lt_succ hc
  unfold String.utf8EncodeChar
  rw [if_pos hv]
  rfl

theorem utf8_cons_of_lt (hc : c.toNat < 128) (text : List Char) : utf8 (c :: text) = ascii c :: utf8 text := by
  rw [utf8_cons, utf8EncodeChar_of_lt hc]
  rfl

theorem byteLength_of_lt {front : List Char} (h : ∀ c ∈ front, c.toNat < 128) :
    byteLength front = front.length := by
  induction front with
  | nil => rfl
  | cons c front ih =>
    rw [List.forall_mem_cons] at h
    have hc : c.utf8Size = 1 := by
      rw [← String.length_utf8EncodeChar, utf8EncodeChar_of_lt h.1, List.length_singleton]
    rw [byteLength_cons, ih h.2, hc, List.length_cons, Nat.add_comm]

theorem drop_utf8 {front : List Char} (h : ∀ c ∈ front, c.toNat < 128) (rest : List Char) :
    (utf8 (front ++ rest)).drop front.length = utf8 rest := by
  rw [utf8_append, ← byteLength_of_lt h, ← length_utf8, List.drop_left]

theorem charOf_of_lt (hc : c.toNat < 128) : charOf (ascii c) = c := by
  rw [charOf, toNat_ascii hc, Char.ofNat_toNat]

/-- Only the first byte of a character can be in ASCII. -/
theorem toNat_of_mem_tail (h : String.utf8EncodeChar c = b :: more) : ∀ d ∈ more, 128 ≤ d.toNat := by
  intro d hd
  by_cases hc : c.toNat < 128
  · rw [utf8EncodeChar_of_lt hc, List.cons.injEq] at h
    rw [← h.2] at hd
    cases hd
  · have hmem : d ∈ String.utf8EncodeChar c := by
      rw [h]
      exact List.mem_cons_of_mem _ hd
    rcases toNat_of_mem_utf8 hmem with ⟨-, hlt⟩ | ⟨hle, -⟩
    · exact absurd hlt hc
    · exact hle

theorem head?_utf8_eq_iff {text : List Char} (hd : d.toNat < 128) :
    (utf8 text).head? = some (ascii d) ↔ text.head? = some d := by
  cases text with
  | nil => simp [utf8_nil]
  | cons c text =>
    obtain ⟨b, more, hb, hbytes⟩ := exists_utf8_cons c text
    rw [hbytes, List.head?_cons, List.head?_cons, Option.some.injEq, Option.some.injEq]
    exact eq_ascii_iff hb hd

/-! ## Boundaries -/

theorem isFirst_utf8 (h : String.utf8EncodeChar c = b :: more) : b.toNat < 0x80 ∨ 0xC0 ≤ b.toNat := by
  unfold String.utf8EncodeChar at h
  dsimp only at h
  split at h
  · cases h
    rw [UInt8.toNat_ofNat']
    omega
  · right
    split at h
    · cases h
      rw [UInt8.toNat_ofNat']
      omega
    · split at h <;> cases h <;> rw [UInt8.toNat_ofNat'] <;> omega

theorem isBoundary_utf8 (a b : List Char) : isBoundary (utf8 (a ++ b)) (byteLength a) = true := by
  unfold isBoundary
  rw [utf8_append, ← length_utf8]
  cases b with
  | nil => simp [utf8_nil]
  | cons c b =>
    obtain ⟨first, more, hc⟩ := exists_utf8 c
    have hfirst : (utf8 a ++ utf8 (c :: b))[(utf8 a).length]? = some first := by
      rw [utf8_cons, hc, List.getElem?_append_right (Nat.le_refl _), Nat.sub_self]
      rfl
    rw [hfirst, Bool.or_eq_true]
    right
    simpa using isFirst_utf8 hc

/-! ## Texts -/

theorem textOf_utf8 (text : List Char) : textOf (utf8 text) = .ok (String.ofList text) := by
  have h : (utf8 text).toByteArray.IsValidUTF8 := ByteArray.isValidUTF8_utf8Encode
  unfold textOf String.fromUTF8?
  rw [dif_pos h]
  rfl

theorem slice_utf8 (a m b : List Char) :
    slice (utf8 (a ++ m ++ b)) (byteLength a) (byteLength (a ++ m)) = .ok (String.ofList m) := by
  have hle : byteLength (a ++ m) ≤ (utf8 (a ++ m ++ b)).length := by simp [length_utf8]
  have hstart : isBoundary (utf8 (a ++ m ++ b)) (byteLength a) = true := by
    rw [List.append_assoc]
    exact isBoundary_utf8 a (m ++ b)
  have hm : ((utf8 (a ++ m ++ b)).drop (byteLength a)).take (byteLength (a ++ m) - byteLength a) = utf8 m := by
    rw [byteLength_append, Nat.add_sub_cancel_left, utf8_append, utf8_append, List.append_assoc, ← length_utf8 a,
      List.drop_left, ← length_utf8 m, List.take_left]
  unfold slice
  rw [if_pos ⟨by simp, hle, hstart, isBoundary_utf8 (a ++ m) b⟩, hm, textOf_utf8]

end

end DotLang
