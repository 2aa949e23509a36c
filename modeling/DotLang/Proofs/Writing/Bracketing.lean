import DotLang.Proofs.Writing.Scanning

/-!
# Markup in angle brackets

Markup is written as it is, in angle brackets. Two readers look at it: that of markup, which knows quotes,
comments and text, and the lexer, which counts brackets and nothing else. What the first accepts, the second
reads back if and only if the brackets close one another, wherever they stand.
-/

namespace DotLang

theorem AttrValue.ofMarkup_eq_ok {text : String} {value : AttrValue} :
    AttrValue.ofMarkup text = .ok value ↔ Markup.validate text.toList = .ok () ∧ value = .markup text := by
  unfold ofMarkup
  cases h : Markup.validate text.toList with
  | ok _ => simp [eq_comm]
  | error fault => simp

theorem tokens_of_sound {markup : String} (h : Markup.Sound markup) :
    (Lexer.ofString (AttrValue.markup markup).written).tokens = [.ok (.html markup), .ok .eof] := by
  have hs : Scans (AttrValue.markup markup).written.toList [.html markup] [] := scans_markup h []
  exact tokens_of_scans hs

theorem sound_of_tokens {markup : String}
    (h : (Lexer.ofString (AttrValue.markup markup).written).tokens = [.ok (.html markup), .ok .eof]) :
    Markup.Sound markup := by
  have hm : .ok (.html markup) ∈ (Lexer.ofString (AttrValue.markup markup).written).tokens := by simp [h]
  exact Lexer.clean_of_mem_tokens hm

/-- Well formed markup is read back from its written form, and nothing behind it, exactly if its angle
brackets are balanced. -/
theorem markup_rereads_iff_balanced {markup : String} (h : AttrValue.ofMarkup markup = .ok (.markup markup)) :
    (Lexer.ofString (AttrValue.markup markup).written).tokens = [.ok (.html markup), .ok .eof] ↔
      isBalanced 0 markup.toList = true := by
  constructor
  · intro ht
    exact (sound_of_tokens ht).balanced
  · intro hb
    exact tokens_of_sound ⟨(AttrValue.ofMarkup_eq_ok.1 h).1, hb⟩

/-- A comment may hold brackets, if they are balanced. -/
def commentedMarkup : String := "<!-- <x> --><b>1</b>"

theorem commentedMarkup_rereads : AttrValue.ofMarkup commentedMarkup = .ok (.markup commentedMarkup) ∧
    (Lexer.ofString (AttrValue.markup commentedMarkup).written).tokens =
      [.ok (.html commentedMarkup), .ok .eof] := by
  have hs : Markup.Sound commentedMarkup := by decide +kernel
  have h : AttrValue.ofMarkup commentedMarkup = .ok (.markup commentedMarkup) :=
    AttrValue.ofMarkup_eq_ok.2 ⟨hs.valid, rfl⟩
  exact ⟨h, (markup_rereads_iff_balanced h).2 hs.balanced⟩

/-- An arrow in the text of an element is well formed, but it closes a bracket that it did not open. -/
def arrowMarkup : String := "<b>-></b>"

theorem arrowMarkup_unread : AttrValue.ofMarkup arrowMarkup = .ok (.markup arrowMarkup) ∧
    (Lexer.ofString (AttrValue.markup arrowMarkup).written).tokens ≠ [.ok (.html arrowMarkup), .ok .eof] := by
  have hv : (Markup.validate arrowMarkup.toList).toOption = some () := by decide +kernel
  refine ⟨AttrValue.ofMarkup_eq_ok.2 ⟨?_, rfl⟩, ?_⟩
  · cases h : Markup.validate arrowMarkup.toList with
    | ok _ => rfl
    | error fault =>
      rw [h] at hv
      cases hv
  · intro ht
    have hb := (sound_of_tokens ht).balanced
    revert hb
    decide

end DotLang
