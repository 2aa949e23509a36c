/-!
# Quoted strings

Between double quotes a text is written as it is, but for its quotes, each of which gets a backslash
in front. Reading keeps every other backslash and the character behind it, drops a backslash in front
of a line break together with the break, and turns every line break into a line feed. So a backslash
does not escape a backslash, and a text in which an odd run of them meets a quote, a line break or the
end has no quoted form; `isQuotable` tells the others.
-/

namespace DotLang

namespace Quoted

/-- What stands between the quotes in the written form of a text. -/
def encode : List Char → List Char
  | [] => []
  | c :: rest => if c = '"' then '\\' :: '"' :: encode rest else c :: encode rest

/-- What stands before the quote that ends a quoted string, given the text behind its first quote. A
backslash protects the character after it. There is none if the string never ends. -/
def body? : List Char → Option (List Char)
  | [] => none
  | '"' :: _ => some []
  | '\\' :: c :: rest => (body? rest).map fun body => '\\' :: c :: body
  | c :: rest => (body? rest).map (c :: ·)

/-- The text that the body of a quoted string stands for. -/
def decode : List Char → List Char
  | [] => []
  | '\\' :: '"' :: rest => '"' :: decode rest
  | '\\' :: '\r' :: '\n' :: rest => decode rest
  | '\\' :: '\r' :: rest => decode rest
  | '\\' :: '\n' :: rest => decode rest
  | '\\' :: c :: rest => '\\' :: c :: decode rest
  | '\r' :: '\n' :: rest => '\n' :: decode rest
  | '\r' :: rest => '\n' :: decode rest
  | c :: rest => c :: decode rest

/-- Whether the backslashes of a text leave it readable, when an odd run of them stands right before
it (`odd`) or does not. -/
def backslashesPair : (odd : Bool) → List Char → Bool
  | odd, [] => !odd
  | odd, '\\' :: rest => backslashesPair (!odd) rest
  | odd, c :: rest => !(odd && (c = '"' || c = '\n' || c = '\r')) && backslashesPair false rest

/-! ## Equations -/

section
variable (c : Char) (rest : List Char)

theorem encode_quote : encode ('"' :: rest) = '\\' :: '"' :: encode rest := rfl

theorem body?_protected : body? ('\\' :: c :: rest) = (body? rest).map fun body => '\\' :: c :: body := rfl

theorem decode_quote : decode ('\\' :: '"' :: rest) = '"' :: decode rest := rfl

theorem decode_joinedPair : decode ('\\' :: '\r' :: '\n' :: rest) = decode rest := rfl

theorem decode_joinedFeed : decode ('\\' :: '\n' :: rest) = decode rest := rfl

theorem decode_pair : decode ('\r' :: '\n' :: rest) = '\n' :: decode rest := rfl

end

-- Evaluated before the equations below are proved: otherwise they all wait for what is generated from `decode`.
example : decode ['\\', '"', 'a', '\r', '\\', '\r', '\n', '\\', 'b'] = ['"', 'a', '\n', '\\', 'b'] := by cbv

section
variable {c : Char}

theorem encode_cons_of_ne (h : c ≠ '"') (rest : List Char) : encode (c :: rest) = c :: encode rest :=
  if_neg h

theorem decode_cons_of_ne (hb : c ≠ '\\') (hr : c ≠ '\r') (rest : List Char) :
    decode (c :: rest) = c :: decode rest := by
  cases rest <;> simp [decode, hb, hr]

theorem decode_protected (hq : c ≠ '"') (hr : c ≠ '\r') (hn : c ≠ '\n') (rest : List Char) :
    decode ('\\' :: c :: rest) = '\\' :: c :: decode rest := by
  simp [decode, hr]

theorem decode_joinedReturn {rest : List Char} (h : rest.head? ≠ some '\n') :
    decode ('\\' :: '\r' :: rest) = decode rest := by
  cases rest with
  | nil => rfl
  | cons d rest => simp [decode, show d ≠ '\n' by simpa using h]

theorem decode_return {rest : List Char} (h : rest.head? ≠ some '\n') :
    decode ('\r' :: rest) = '\n' :: decode rest := by
  cases rest with
  | nil => rfl
  | cons d rest => simp [decode, show d ≠ '\n' by simpa using h]

theorem body?_cons_of_ne (hq : c ≠ '"') (hb : c ≠ '\\') (rest : List Char) :
    body? (c :: rest) = (body? rest).map (c :: ·) := by
  cases rest <;> simp [body?, hb]

theorem backslashesPair_cons_of_ne (hb : c ≠ '\\') (odd : Bool) (rest : List Char) :
    backslashesPair odd (c :: rest) =
      (!(odd && (c = '"' || c = '\n' || c = '\r')) && backslashesPair false rest) := by
  rw [backslashesPair]
  exact fun e => hb e

end

end Quoted

/-- Whether a text has a quoted form: no odd run of backslashes stands right before a quote, a line
break or the end. -/
def isQuotable (text : String) : Bool :=
  Quoted.backslashesPair false text.toList

def quote (text : String) : String :=
  String.ofList ('"' :: Quoted.encode text.toList ++ ['"'])

end DotLang
