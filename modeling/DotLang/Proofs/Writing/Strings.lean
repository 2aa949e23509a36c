import DotLang.Proofs.Grammar.Completeness
import DotLang.Proofs.Grammar.Soundness
import DotLang.Proofs.Reporting
import DotLang.Proofs.Writing.Scanning

/-!
# Which strings there are

The texts that quoted strings stand for are the `Readable` ones: each of them is read back where it is written in
quotes, whatever follows, and no quoted string is read as any other. Readable texts that are put together are
readable, so what a document says in place of a name or a value can be written, unless it is markup or nothing.
-/

namespace DotLang
open Grammar Parse

/-! ## Writing and reading -/

/-- In quotes, a readable text is read up to its last quote. -/
theorem next_quote {text : String} (h : Readable text) (rest : List Char) :
    (Lexer.mk ((quote text).toList ++ rest) {}).next =
      (.ok (.quoted text, {}), ⟨rest, .behind (quote text).toList⟩) := by
  have hplaced := placed_start ((quote text).toList ++ rest)
  have hsettled : Settled ([] ++ (quote text).toList) rest := by
    intro hlast
    rw [List.nil_append, quote, String.toList_ofList, List.getLast?_concat] at hlast
    cases hlast
  obtain ⟨hbehind, hrest⟩ := hplaced.skip rfl hsettled
  have hquote : (quote text).toList = '"' :: (Quoted.encode text.toList ++ ['"']) := by
    rw [quote, String.toList_ofList, List.cons_append]
  have hnext : (Lexer.mk ((quote text).toList ++ rest) {}).next =
      (.ok (.quoted text, {}), (Lexer.mk ((quote text).toList ++ rest) {}).skip (quote text).toList.length) := by
    rw [hquote, List.cons_append, List.length_cons]
    exact next_of_lexeme rfl (ofText_quote h rest) {}
  rw [hnext, hbehind.eq, hrest, List.nil_append]

/-- A text is read back as it is exactly if it is quotable and has no carriage return. -/
theorem reads_back_iff (text : String) :
    (∃ loc, (Lexer.ofString (quote text)).next.1 = .ok (.quoted text, loc)) ↔
      isQuotable text = true ∧ '\r' ∉ text.toList := by
  constructor
  · rintro ⟨loc, h⟩
    have hclean : Readable text := Lexer.clean_next h
    exact ⟨hclean.quotable, hclean.noReturn⟩
  · rintro ⟨hq, hr⟩
    have h := next_quote ⟨hq, hr⟩ []
    rw [List.append_nil] at h
    exact ⟨{}, congrArg Prod.fst h⟩

/-- A carriage return is quotable, but is read back as a line feed. -/
theorem carriageReturn_reads_as_lineFeed : isQuotable "\r" = true ∧
    ¬ ∃ loc, (Lexer.ofString (quote "\r")).next.1 = .ok (.quoted "\r", loc) := by
  refine ⟨by decide, ?_⟩
  rw [reads_back_iff]
  decide

/-! ## What a document says -/

/-- Tokens other than markup are clean by the way in which they are spelled. -/
theorem Spells.clean {lexeme : List Char} {token : Token} (h : Spells lexeme token)
    (hm : ∀ markup, token ≠ .html markup) : token.Clean := by
  cases h with
  | identifier hc hw => exact readable_of_all isNameChar_backslash isNameChar_return (all_isNameChar_cons hc hw)
  | numeral hw => exact readable_of_all (by decide) (by decide) hw
  | quoted hb => exact readable_decode hb
  | html => exact absurd rfl (hm _)
  | sign hs => exact Token.clean_ofSign? hs
  | eof => trivial
  | keyword => trivial
  | arrow => trivial
  | line => trivial

section
variable {source : List Char} {p q : Parser} {text : String}

/-- An ID begins with the token in hand, and goes on with tokens that come from the lexer. -/
theorem readable_of_passes {id : Id} (h : Holding source p) (hp : Passes p id.tokens q) (he : id.ident = .plain text) :
    Readable text := by
  obtain ⟨first, more, ht, -, -⟩ := id.exists_token
  have hahead : p.ahead = .ok first :: (more.map .ok ++ q.ahead) := by
    rw [hp.ahead, ht]
    rfl
  obtain rfl := Parser.token_of_ahead hahead
  refine Id.readable_of_plain (fun token hm => ?_) he
  rw [ht, List.mem_cons] at hm
  rcases hm with rfl | hm
  · obtain ⟨-, lexeme, -, hs, -⟩ := h.standsAt
    refine hs.clean fun markup hmarkup => ?_
    rw [hmarkup] at ht
    cases id with
    | html => cases he
    | word => cases ht
    | numeral => cases ht
    | strings => cases ht
  · exact Parser.clean_of_ahead hahead (List.mem_append_left _ (List.mem_map_of_mem hm))

theorem readable_of_ident (h : Holding source p) (hi : ident p = .ok (.plain text) q) : Readable text := by
  obtain ⟨id, hp, he⟩ := ident_sound hi
  exact readable_of_passes h hp he

theorem isWritable_of_value {v : AttrValue} (h : Holding source p) (hv : value p = .ok v q) : v.isWritable = true := by
  obtain ⟨id, hp, rfl⟩ := value_sound hv
  cases hi : id.ident with
  | plain text => exact (readable_of_passes h hp hi).quotable
  | html markup => rfl

end

/-- Quoted strings stand for readable texts and are read as all of these. What a parser that has a token of a
document in hand puts together as an ID is readable, too; so no attribute is rejected for a value that was read,
nor for a name that was read, unless that is empty or markup. -/
theorem read_strings_exact :
    (∀ lexer text loc, (Lexer.next lexer).1 = .ok (.quoted text, loc) → Readable text) ∧
    (∀ source p text q, Holding source p → ident p = .ok (.plain text) q → Readable text) ∧
    (∀ text rest, Readable text → (Lexer.mk ((quote text).toList ++ rest) {}).next =
      (.ok (.quoted text, {}), ⟨rest, .behind (quote text).toList⟩)) ∧
    (∀ source p v q, Holding source p → value p = .ok v q →
      ∀ name, name ≠ "" → isQuotable name = true → Attribute.make name v = .ok ⟨name, v⟩) ∧
    ∀ source p text q, Holding source p → ident p = .ok (.plain text) q →
      ∀ v, text ≠ "" → v.isWritable = true → Attribute.make text v = .ok ⟨text, v⟩ := by
  refine ⟨fun lexer text loc h => Lexer.clean_next h, fun source p text q h hi => readable_of_ident h hi,
    fun text rest h => next_quote h rest, ?_, ?_⟩
  · intro source p v q h hv name hn hq
    exact Attributes.make_eq_ok.2 ⟨hn, hq, isWritable_of_value h hv, rfl⟩
  · intro source p text q h hi v hn hv
    exact Attributes.make_eq_ok.2 ⟨hn, (readable_of_ident h hi).quotable, hv, rfl⟩

/-- Two strings that are read as one. -/
def joinedText : String := "\"a\\\\\" + \"b\""

/-- A parser that has the first of the strings in hand. -/
def joinedStart : Parser := ((Parser.ofString joinedText).run advance).2

theorem holding_joinedStart : Holding joinedText.toList joinedStart :=
  (keeps_advance ⟨[], placed_ofString joinedText⟩ : Keeps joinedText.toList advance (.ofString joinedText))

theorem exists_of_result {α : Type} [DecidableEq α] {x : Parse α} {a : α} {p : Parser}
    (h : (match x p with | .ok b _ => decide (b = a) | .error _ _ => false) = true) : ∃ q, x p = .ok a q := by
  cases hx : x p with
  | ok b q =>
    rw [hx] at h
    obtain rfl := of_decide_eq_true h
    exact ⟨q, rfl⟩
  | error error q =>
    rw [hx] at h
    cases h

theorem read_strings_joinedText :
    ((Lexer.ofString joinedText).next.1 = .ok (.quoted "a\\\\", {}) ∧ Readable "a\\\\") ∧
    (Holding joinedText.toList joinedStart ∧ (∃ q, ident joinedStart = .ok (.plain "a\\\\b") q) ∧ Readable "a\\\\b") ∧
    (Lexer.mk ((quote "a\\\\b").toList ++ ['+']) {}).next =
      (.ok (.quoted "a\\\\b", {}), ⟨['+'], .behind (quote "a\\\\b").toList⟩) ∧
    ((∃ q, value joinedStart = .ok (.string "a\\\\b") q) ∧
      Attribute.make "x" (.string "a\\\\b") = .ok ⟨"x", .string "a\\\\b"⟩) ∧
    Attribute.make "a\\\\b" (.markup "") = .ok ⟨"a\\\\b", .markup ""⟩ := by
  obtain ⟨hlexer, hident, hquote, hvalue, hname⟩ := read_strings_exact
  have hfirst : (Lexer.ofString joinedText).next.1 = .ok (.quoted "a\\\\", {}) := rfl
  obtain ⟨q, hi⟩ : ∃ q, ident joinedStart = .ok (.plain "a\\\\b") q := exists_of_result (by decide +kernel)
  obtain ⟨r, hv⟩ : ∃ q, value joinedStart = .ok (.string "a\\\\b") q := exists_of_result (by decide +kernel)
  have hreadable := hident _ _ _ _ holding_joinedStart hi
  exact ⟨⟨hfirst, hlexer _ _ _ hfirst⟩, ⟨holding_joinedStart, ⟨q, hi⟩, hreadable⟩, hquote _ _ hreadable,
    ⟨⟨r, hv⟩, hvalue _ _ _ _ holding_joinedStart hv "x" (by decide) (by decide)⟩,
    hname _ _ _ _ holding_joinedStart hi (.markup "") (by decide) rfl⟩

end DotLang
