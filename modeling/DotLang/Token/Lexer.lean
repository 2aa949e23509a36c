import DotLang.Token.Lexeme

/-!
# The lexer

A lexer is the text still to be read and the position of its first character. It only ever moves by
passing characters, one at a time, so its position is that of the text in front of it by construction.
-/

namespace DotLang

structure Lexer where
  rest : List Char
  loc : Location
deriving Repr

namespace Lexer

def ofString (text : String) : Lexer := ⟨text.toList, {}⟩

/-- A literal is put in place of its characters by this, so that evaluation need not decode it. -/
theorem ofString_ofList (text : List Char) : ofString (String.ofList text) = ⟨text, {}⟩ := by
  rw [ofString, String.toList_ofList]

/-- Moves past `n` characters, or to the end if there are fewer. -/
def skip : Nat → Lexer → Lexer
  | 0, lexer => lexer
  | _ + 1, ⟨[], loc⟩ => ⟨[], loc⟩
  | n + 1, ⟨c :: rest, loc⟩ => skip n ⟨rest, loc.after c rest⟩

theorem rest_skip (n : Nat) (lexer : Lexer) : (lexer.skip n).rest = lexer.rest.drop n := by
  fun_induction skip n lexer <;> simp_all

/-- Reads the next token with its position, or fails, and moves on either way: past the token, past a
piece of text that never ends, or not at all if the character begins no token. -/
def next (lexer : Lexer) : Except Error (Token × Location) × Lexer :=
  match gapLength (.blank (lexer.loc.column = 1)) 0 lexer.rest with
  | .error n => (.error (.lexical .unterminatedComment (lexer.skip n).loc), lexer.skip lexer.rest.length)
  | .ok n =>
    let here := lexer.skip n
    let lexeme := Lexeme.ofText here.rest
    let result := match lexeme.outcome with
      | .ok token => .ok (token, here.loc)
      | .error fault => .error (.lexical fault here.loc)
    (result, here.skip lexeme.length)

/-- Every token but the last leaves less to read. -/
theorem length_rest_next {lexer : Lexer} {token : Token} {loc : Location}
    (h : lexer.next.1 = .ok (token, loc)) (hne : token ≠ .eof) :
    lexer.next.2.rest.length < lexer.rest.length := by
  unfold next at h ⊢
  split
  · simp_all
  · rename_i n hn
    simp only [hn] at h ⊢
    split at h
    · rename_i t ht
      simp only [Except.ok.injEq, Prod.mk.injEq] at h
      obtain ⟨rfl, rfl⟩ := h
      have hpos := Lexeme.length_pos ht hne
      have := List.length_pos_iff.2 hpos.1
      simp only [rest_skip, List.length_drop] at this ⊢
      have := hpos.2
      simp only [rest_skip] at this
      omega
    · simp at h

/-- All that is read from here: the tokens up to the end of the text, or up to the first failure. -/
def readAll (lexer : Lexer) : List (Except Error (Token × Location)) :=
  match _h : lexer.next.1 with
  | .error error => [.error error]
  | .ok (token, loc) => .ok (token, loc) :: if _hne : token = .eof then [] else readAll lexer.next.2
termination_by lexer.rest.length
decreasing_by exact length_rest_next _h _hne

end Lexer

end DotLang
