import DotLang.Proofs.Grammar.Consumption
import DotLang.Proofs.Lexical.Gaps
import DotLang.Proofs.Writing.Rereading

/-!
# Endpoints that are read back

The written form of an endpoint is read as the endpoint, up to where it ends. A port stands in quotes, so it is
not taken for a side, and behind one that is spelled like a side stands the side that means none.
-/

namespace DotLang
open Parse Grammar

theorem isNameChar_of_isBlank {c : Char} (h : isBlank c = true) : isNameChar c = false := by
  unfold isBlank isBreak at h
  simp only [Bool.or_eq_true, decide_eq_true_eq] at h
  rcases h with (rfl | rfl) | rfl | rfl <;> decide

/-- A text that scans and is next is passed, up to the token behind it. -/
theorem Scans.advances {text rest : List Char} {ts : List Token} (h : Scans text ts rest) {p : Parser}
    (hc : 0 < p.lexer.loc.column) (hr : p.lexer.rest = text ++ rest) {t : Token} {loc : Location} {lexer : Lexer}
    (hn : (p.lexer.skip text.length).next = (.ok (t, loc), lexer)) :
    ∃ q, advance p = .ok () q ∧ q.Advances ts { p with lexer, token := t, loc } := by
  have hreads := h p.lexer.loc hc
  rw [← hr] at hreads
  exact advances_of_reads hreads hn

theorem reread_eq (endpoint : Endpoint) :
    endpoint.reread = { endpoint with
      compass := if endpoint.compass = none ∧ ∃ port ∈ endpoint.port, (Compass.ofName? port).isSome
        then some .any else endpoint.compass } := by
  obtain ⟨node, port, compass⟩ := endpoint
  unfold Endpoint.reread
  cases port with
  | none => simp
  | some port =>
    cases compass with
    | some compass => simp
    | none =>
      dsimp only
      split
      · rename_i hp
        simp [hp]
      · rename_i hp
        simp [hp]

/-- In front of a blank and a token that does not go on with it, an endpoint is read back from its text, and no
more than the text and that token is passed. -/
theorem endpoint_rereads {endpoint : Endpoint} (h : endpoint.Readable) {p : Parser} (hcolumn : 0 < p.lexer.loc.column)
    {blank : Char} (hblank : isBlank blank = true) {rest : List Char}
    (hr : p.lexer.rest = endpoint.written.toList ++ blank :: rest) {t : Token} {loc : Location} {lexer : Lexer}
    (hn : (p.lexer.skip endpoint.written.length).next = (.ok (t, loc), lexer)) (hcolon : t ≠ .colon)
    (hplus : t ≠ .plus) :
    (do advance; Parse.endpoint (← ident).text : Parse Endpoint) p =
      .ok { endpoint with
        compass := if endpoint.compass = none ∧ ∃ port ∈ endpoint.port, (Compass.ofName? port).isSome
          then some .any else endpoint.compass }
        { p with lexer, token := t, loc } := by
  have hscan := scans_endpoint h (blank :: rest) (delimits_of (isNameChar_of_isBlank hblank) rest)
  rw [← String.length_toList] at hn
  obtain ⟨q, hadvance, hq⟩ := hscan.advances hcolumn hr hn
  have hends : t.endsPort = true := by
    unfold Token.endsPort
    simp [hcolon, hplus]
  have hyields := nodeId_complete endpoint.nodeId hq.passes.ahead (follows_cons hends _)
  have hexact := ((Advancing.ident q).bind fun id r => Advancing.endpoint id.text r).exact hyields hq
  rw [bind_of_ok hadvance, hexact, reread_nodeId, reread_eq]

/-- An endpoint with a port that is spelled like a side. -/
def northPort : Endpoint := { node := "a b", port := some "n" }

theorem endpoint_rereads_northPort :
    northPort.Readable ∧ (do advance; Parse.endpoint (← ident).text : Parse Endpoint)
      (Parser.ofString "\"a b\":\"n\":_ -> c") =
        .ok { northPort with compass := some .any }
          { lexer := ⟨" c".toList, ⟨14, 1, 15⟩⟩, token := .arrow, loc := ⟨12, 1, 13⟩ } := by
  have h : northPort.Readable := by decide
  let p := Parser.ofString "\"a b\":\"n\":_ -> c"
  have hr : p.lexer.rest = northPort.written.toList ++ ' ' :: "-> c".toList := rfl
  have hn : (p.lexer.skip northPort.written.length).next =
      (.ok (.arrow, ⟨12, 1, 13⟩), ⟨" c".toList, ⟨14, 1, 15⟩⟩) := rfl
  exact ⟨h, endpoint_rereads h Nat.one_pos rfl hr hn nofun nofun⟩

end DotLang
