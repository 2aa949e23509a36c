import DotLang.Proofs.Lexical.Words

/-!
# A lexer that walks over bytes

It stands at a byte of a text, looks at that byte and the one behind it, and passes one byte after the other; line
breaks it passes as a whole. What it gives out of the text are slices, which must begin and end between characters,
and the bytes that it gathers in a quoted string must be a text. Where that is not so, it comes to a mishap.
-/

namespace DotLang

def ascii (c : Char) : UInt8 := UInt8.ofNat c.toNat

def charOf (b : UInt8) : Char := Char.ofNat b.toNat

instance : DecidablePred IsNameByte := fun _ => inferInstanceAs (Decidable (_ ∨ _))

instance : DecidablePred IsDigitByte := fun _ => inferInstanceAs (Decidable (_ ∧ _))

/-! ## Slices -/

def bytesOf (text : String) : List UInt8 := text.toUTF8.data.toList

inductive Mishap
  | slice (start stop : Nat)
  | text (bytes : List UInt8)
deriving DecidableEq

/-- Whether the text ends at an index, or a character begins there. -/
def isBoundary (bytes : List UInt8) (i : Nat) : Bool :=
  i = 0 || i = bytes.length || bytes[i]?.any fun b => b.toNat < 0x80 || 0xC0 ≤ b.toNat

def textOf (bytes : List UInt8) : Except Mishap String :=
  match String.fromUTF8? bytes.toByteArray with
  | some text => .ok text
  | none => .error (.text bytes)

def slice (bytes : List UInt8) (start stop : Nat) : Except Mishap String :=
  if start ≤ stop ∧ stop ≤ bytes.length ∧ isBoundary bytes start ∧ isBoundary bytes stop then
    textOf ((bytes.drop start).take (stop - start))
  else .error (.slice start stop)

/-- No slice begins inside of a character. -/
example : slice (bytesOf "éa") 1 3 = .error (.slice 1 3) ∧ slice (bytesOf "éa") 2 3 = .ok "a" := by
  decide

/-! ## Steps -/

def Location.right (loc : Location) (n : Nat) : Location :=
  { loc with offset := loc.offset + n, column := loc.column + n }

def Location.down (loc : Location) (n : Nat) : Location := ⟨loc.offset + n, loc.line + 1, 1⟩

/-- The bytes from a position on. -/
structure Cursor where
  rest : List UInt8
  loc : Location

namespace Cursor

/-- Behind a line break, if there is one. -/
def newline? : Cursor → Option Cursor
  | ⟨[], _⟩ => none
  | ⟨b :: rest, loc⟩ =>
    if b = ascii '\r' then
      if rest.head? = some (ascii '\n') then some ⟨rest.tail, loc.down 2⟩ else some ⟨rest, loc.down 1⟩
    else if b = ascii '\n' then some ⟨rest, loc.down 1⟩
    else none

/-- Behind a line break, or behind one byte. -/
def pass (cursor : Cursor) : Cursor :=
  cursor.newline?.getD ⟨cursor.rest.tail, cursor.loc.right 1⟩

theorem length_newline? {cursor next : Cursor} (h : cursor.newline? = some next) :
    next.rest.length < cursor.rest.length := by
  unfold newline? at h
  split at h
  · cases h
  · split at h
    · split at h
      · cases h
        exact Nat.lt_succ_of_le (List.tail_sublist _).length_le
      · cases h
        exact Nat.lt_succ_self _
    · split at h
      · cases h
        exact Nat.lt_succ_self _
      · cases h

theorem length_pass (b : UInt8) (rest : List UInt8) (loc : Location) :
    (pass ⟨b :: rest, loc⟩).rest.length < (b :: rest).length := by
  unfold pass
  cases h : newline? ⟨b :: rest, loc⟩ with
  | none => simp
  | some next => exact length_newline? h

def skipWhile (p : UInt8 → Bool) : Cursor → Cursor
  | ⟨[], loc⟩ => ⟨[], loc⟩
  | ⟨b :: rest, loc⟩ => if p b then skipWhile p ⟨rest, loc.right 1⟩ else ⟨b :: rest, loc⟩
termination_by cursor => cursor.rest.length

theorem length_skipWhile (p : UInt8 → Bool) (cursor : Cursor) :
    (cursor.skipWhile p).rest.length ≤ cursor.rest.length := by
  fun_induction skipWhile p cursor with
  | case1 => simp
  | case2 _ _ _ _ ih => exact Nat.le_succ_of_le ih
  | case3 => simp

/-! ## Gaps -/

/-- Passes blanks and line breaks, and tells whether there were any or `changed` says so already. -/
def skipBlanks : (changed : Bool) → Cursor → Bool × Cursor
  | changed, ⟨[], loc⟩ => (changed, ⟨[], loc⟩)
  | changed, ⟨b :: rest, loc⟩ =>
    if b = ascii ' ' ∨ b = ascii '\t' then skipBlanks true ⟨rest, loc.right 1⟩
    else match _h : newline? ⟨b :: rest, loc⟩ with
      | some next => skipBlanks true next
      | none => (changed, ⟨b :: rest, loc⟩)
termination_by _ cursor => cursor.rest.length
decreasing_by
  · simp
  · exact length_newline? _h

theorem length_skipBlanks (changed : Bool) (cursor : Cursor) :
    (skipBlanks changed cursor).2.rest.length ≤ cursor.rest.length ∧
      (changed = false → (skipBlanks changed cursor).1 = true →
        (skipBlanks changed cursor).2.rest.length < cursor.rest.length) := by
  fun_induction skipBlanks changed cursor with
  | case1 => simp_all
  | case2 changed b rest loc _ ih =>
    have hlt := Nat.lt_succ_of_le ih.1
    exact ⟨Nat.le_of_lt hlt, fun _ _ => hlt⟩
  | case3 changed b rest loc _ next h ih =>
    have hlt := Nat.lt_of_le_of_lt ih.1 (length_newline? h)
    exact ⟨Nat.le_of_lt hlt, fun _ _ => hlt⟩
  | case4 => simp_all

/-- Goes behind the end of a block comment, or to the end of the text if there is none. -/
def closeComment : Cursor → Bool × Cursor
  | ⟨[], loc⟩ => (false, ⟨[], loc⟩)
  | ⟨b :: rest, loc⟩ =>
    if b = ascii '*' ∧ rest.head? = some (ascii '/') then (true, ⟨rest.tail, loc.right 2⟩)
    else closeComment (pass ⟨b :: rest, loc⟩)
termination_by cursor => cursor.rest.length
decreasing_by exact length_pass ..

theorem length_closeComment (cursor : Cursor) :
    (closeComment cursor).2.rest.length ≤ cursor.rest.length := by
  fun_induction closeComment cursor with
  | case1 => simp
  | case2 => simp [Nat.le_succ_of_le]
  | case3 b rest loc _ ih => exact Nat.le_of_lt (Nat.lt_of_le_of_lt ih (length_pass b rest loc))

/-- Passes a comment and tells whether there was one. A block comment that does not end is a fault, and its start is
returned. -/
def skipComment : Cursor → Except Location Bool × Cursor
  | ⟨[], loc⟩ => (.ok false, ⟨[], loc⟩)
  | ⟨b :: rest, loc⟩ =>
    if (b = ascii '#' ∧ loc.column = 1) ∨ (b = ascii '/' ∧ rest.head? = some (ascii '/')) then
      (.ok true, skipWhile (fun b => b ≠ ascii '\n' ∧ b ≠ ascii '\r') ⟨b :: rest, loc⟩)
    else if b = ascii '/' ∧ rest.head? = some (ascii '*') then
      match closeComment ⟨rest.tail, loc.right 2⟩ with
      | (true, next) => (.ok true, next)
      | (false, next) => (.error loc, next)
    else (.ok false, ⟨b :: rest, loc⟩)

theorem length_skipComment {cursor next : Cursor} (h : skipComment cursor = (.ok true, next)) :
    next.rest.length < cursor.rest.length := by
  unfold skipComment at h
  split at h
  · cases h
  · split at h
    · rename_i b rest loc hb
      obtain ⟨-, rfl⟩ := Prod.mk.inj h
      have hp : (decide (b ≠ ascii '\n' ∧ b ≠ ascii '\r')) = true := by
        rcases hb with ⟨rfl, -⟩ | ⟨rfl, -⟩ <;> decide
      rw [skipWhile, hp]
      exact Nat.lt_succ_of_le (length_skipWhile ..)
    · split at h
      · rename_i b rest loc _ _
        have hl := length_closeComment ⟨rest.tail, loc.right 2⟩
        split at h <;> rename_i hc <;> cases h
        rw [hc] at hl
        simp at hl ⊢
        omega
      · cases h

/-- Passes comments and blanks as long as there are any. -/
def skipGap (cursor : Cursor) : Except Location Unit × Cursor :=
  match _hc : skipComment cursor with
  | (.error start, next) => (.error start, next)
  | (.ok true, next) => skipGap next
  | (.ok false, _) =>
    match _hb : skipBlanks false cursor with
    | (true, next) => skipGap next
    | (false, next) => (.ok (), next)
termination_by cursor.rest.length
decreasing_by
  · exact length_skipComment _hc
  · have hl := (length_skipBlanks false cursor).2 rfl (by rw [_hb])
    rwa [_hb] at hl

/-! ## Lexemes -/

def digitsLength : List UInt8 → Nat
  | [] => 0
  | b :: rest => if IsDigitByte b then digitsLength rest + 1 else 0

/-- The length of the longest numeral without a sign in front of some bytes. -/
def unsignedLength? (rest : List UInt8) : Option Nat :=
  if rest.head? = some (ascii '.') then
    let fraction := digitsLength rest.tail
    if fraction = 0 then none else some (1 + fraction)
  else
    let whole := digitsLength rest
    if whole = 0 then none
    else if (rest.drop whole).head? = some (ascii '.') then
      some (whole + 1 + digitsLength (rest.drop (whole + 1)))
    else some whole

def numeralLength? (rest : List UInt8) : Option Nat :=
  if rest.head? = some (ascii '-') then (unsignedLength? rest.tail).map (1 + ·) else unsignedLength? rest

/-- Gathers the bytes of a quoted string and goes behind its last quote, or to the end of the text if there is none. -/
def closeString : (gathered : List UInt8) → Cursor → Option (List UInt8) × Cursor
  | _, ⟨[], loc⟩ => (none, ⟨[], loc⟩)
  | gathered, ⟨b :: rest, loc⟩ =>
    if b = ascii '"' then (some gathered, ⟨rest, loc.right 1⟩)
    else match _h : newline? ⟨b :: rest, loc⟩ with
      | some next => closeString (gathered ++ [ascii '\n']) next
      | none =>
        if b = ascii '\\' then
          match rest with
          | [] => (none, ⟨[], loc.right 1⟩)
          | b' :: rest =>
            if b' = ascii '"' then closeString (gathered ++ [b']) ⟨rest, loc.right 2⟩
            else match _h : newline? ⟨b' :: rest, loc.right 1⟩ with
              | some next => closeString gathered next
              | none => closeString (gathered ++ [b, b']) ⟨rest, loc.right 2⟩
        else closeString (gathered ++ [b]) ⟨rest, loc.right 1⟩
termination_by _ cursor => cursor.rest.length
decreasing_by
  · exact length_newline? _h
  · exact Nat.lt_succ_of_lt (Nat.lt_succ_self _)
  · exact Nat.lt_succ_of_lt (length_newline? _h)
  · exact Nat.lt_succ_of_lt (Nat.lt_succ_self _)
  · exact Nat.lt_succ_self _

/-- Goes behind the bracket that closes one of `depth` brackets after the others, or to the end of the text. -/
def closeMarkup : (depth : Nat) → Cursor → Bool × Cursor
  | _, ⟨[], loc⟩ => (false, ⟨[], loc⟩)
  | depth, ⟨b :: rest, loc⟩ =>
    if b = ascii '<' then closeMarkup (depth + 1) ⟨rest, loc.right 1⟩
    else if b = ascii '>' then
      if depth - 1 = 0 then (true, ⟨rest, loc.right 1⟩) else closeMarkup (depth - 1) ⟨rest, loc.right 1⟩
    else closeMarkup depth (pass ⟨b :: rest, loc⟩)
termination_by _ cursor => cursor.rest.length
decreasing_by
  · simp
  · simp
  · exact length_pass ..

section
variable (bytes : List UInt8)

def readWord (cursor : Cursor) : Except Mishap (Except LexicalFault Token × Cursor) := do
  let next := cursor.skipWhile fun b => IsNameByte b ∨ IsDigitByte b
  let word ← slice bytes cursor.loc.offset next.loc.offset
  return (.ok (.ofWord word), next)

def readNumeral (b : UInt8) (cursor : Cursor) : Except Mishap (Except LexicalFault Token × Cursor) := do
  match numeralLength? cursor.rest with
  | some n =>
    let next := ⟨cursor.rest.drop n, cursor.loc.right n⟩
    let numeral ← slice bytes cursor.loc.offset next.loc.offset
    return (.ok (.numeral numeral), next)
  | none => return (.error (.strayCharacter (charOf b)), cursor)

/-- Reads a quoted string, from behind its first quote on. -/
def readString (cursor : Cursor) : Except Mishap (Except LexicalFault Token × Cursor) := do
  match closeString [] cursor with
  | (some gathered, next) => return (.ok (.quoted (← textOf gathered)), next)
  | (none, next) => return (.error .unterminatedString, next)

/-- Reads markup, from behind its first bracket on. -/
def readMarkup (cursor : Cursor) : Except Mishap (Except LexicalFault Token × Cursor) := do
  match closeMarkup 1 cursor with
  | (true, next) =>
    let content ← slice bytes cursor.loc.offset (next.loc.offset - 1)
    match Markup.validate content.toList with
    | .ok _ => return (.ok (.html content), next)
    | .error problem => return (.error (.malformedMarkup problem), next)
  | (false, next) => return (.error .unterminatedMarkup, next)

def readLexeme : Cursor → Except Mishap (Except LexicalFault Token × Cursor)
  | ⟨[], loc⟩ => return (.ok .eof, ⟨[], loc⟩)
  | ⟨b :: rest, loc⟩ =>
    if b = ascii '-' ∧ rest.head? = some (ascii '>') then return (.ok .arrow, ⟨rest.tail, loc.right 2⟩)
    else if b = ascii '-' ∧ rest.head? = some (ascii '-') then return (.ok .line, ⟨rest.tail, loc.right 2⟩)
    else if b = ascii '-' ∨ b = ascii '.' ∨ IsDigitByte b then readNumeral bytes b ⟨b :: rest, loc⟩
    else if b = ascii '"' then readString ⟨rest, loc.right 1⟩
    else if b = ascii '<' then readMarkup bytes ⟨rest, loc.right 1⟩
    else if IsNameByte b then readWord bytes ⟨b :: rest, loc⟩
    else match Token.ofSign? (charOf b) with
      | some token => return (.ok token, ⟨rest, loc.right 1⟩)
      | none => return (.error (.strayByte (charOf b)), ⟨b :: rest, loc⟩)

/-- Reads the next token with its position, or fails. -/
def next (cursor : Cursor) : Except Mishap (Except Error (Token × Location) × Cursor) := do
  match skipGap cursor with
  | (.error start, next) => return (.error (.lexical .unterminatedComment start), next)
  | (.ok _, here) =>
    match ← readLexeme bytes here with
    | (.ok token, next) => return (.ok (token, here.loc), next)
    | (.error fault, next) => return (.error (.lexical fault here.loc), next)

/-- Where some calls lead to, whatever they gave. -/
def after : (calls : Nat) → Except Mishap Cursor
  | 0 => return ⟨bytes, {}⟩
  | calls + 1 => do return (← next bytes (← after calls)).2

end

end Cursor

end DotLang
