import DotLang.Text.Location

/-!
# Reading markup as events

Markup is text between tags. A reader goes over it once and gives one event for each run of text and
for each construct in angle brackets, and stops at the first construct that it cannot read. It keeps
the names of the open elements, so it never lets a closing tag pass that does not match; names,
attributes and entities are free otherwise.
-/

namespace DotLang.Markup

/-- What the reader reports. Comments, declarations, processing instructions and document types carry
no structure and are all `aside`. -/
inductive Event
  | start (name : List Char)
  | close (name : List Char)
  | empty
  | text (content : List Char)
  | cdata
  | aside
deriving Repr, DecidableEq

/-- The three constructs that begin with `<!`. -/
inductive Bang
  | comment
  | cdata
  | doctype
deriving Repr, DecidableEq

inductive ReadFault
  | nothingAfterBang
  /-- `<!` and a byte that begins none of its constructs. -/
  | strayBang (byte : Nat)
  | unendedBang (construct : Bang)
  | emptyDoctype
  | unendedDeclaration
  | unendedElement
  /-- A closing tag that does not fit the innermost open element (the empty name, if none is open). -/
  | mismatch (expected found : List Char)
deriving Repr, DecidableEq

def Bang.name : Bang → String
  | .comment => "Comment"
  | .cdata => "CData"
  | .doctype => "DOCTYPE"

def ReadFault.message : ReadFault → String
  | .nothingAfterBang => "Unexpected EOF during reading Bang"
  | .strayBang byte =>
    "Only Comment (`--`), CDATA (`[CDATA[`) and DOCTYPE (`DOCTYPE`) nodes can start with a '!', but symbol `"
      ++ String.singleton (Char.ofNat byte) ++ "` found"
  | .unendedBang construct => "Unexpected EOF during reading " ++ construct.name
  | .emptyDoctype => "DOCTYPE declaration must not be empty"
  | .unendedDeclaration => "Unexpected EOF during reading XmlDecl"
  | .unendedElement => "Unexpected EOF during reading Element"
  | .mismatch expected found =>
    "Expecting </" ++ String.ofList expected ++ "> found </" ++ String.ofList found ++ ">"

/-- What reading one construct gives: its event, the elements open after it (innermost first), the
bytes it takes up behind its `<`, and the text that follows. -/
structure Step where
  event : Event
  opened : List (List Char)
  width : Nat
  rest : List Char

abbrev Stop := ReadFault × Nat

/-! ## Constructs -/

def Bang.ofChar? : Char → Option Bang
  | '[' => some .cdata
  | '-' => some .comment
  | 'D' | 'd' => some .doctype
  | _ => none

/-- Whether a `>` may end the construct, given all that stands before it from the `!` on. -/
def Bang.complete : Bang → List Char → Bool
  | .comment, content => 4 < content.length && ['-', '-'].isSuffixOf content
  | .cdata, content => [']', ']'].isSuffixOf content
  | .doctype, content => content.count '<' == content.count '>'

def Bang.opening : Bang → List Char
  | .comment => ['!', '-', '-']
  | .cdata => "![CDATA[".toList
  | .doctype => "!DOCTYPE".toList

def Bang.event : Bang → Event
  | .cdata => .cdata
  | _ => .aside

/-- Splits a text at the first `>` that may end the construct; `before` holds what was passed already,
last character first. -/
def Bang.split? (construct : Bang) (before : List Char) : List Char → Option (List Char × List Char)
  | [] => none
  | c :: rest =>
    if c = '>' && construct.complete before.reverse then some (before.reverse, rest)
    else construct.split? (c :: before) rest

theorem Bang.length_split? {construct : Bang} {before text content rest : List Char}
    (h : construct.split? before text = some (content, rest)) : rest.length < text.length := by
  induction text generalizing before with
  | nil => simp [split?] at h
  | cons c text ih =>
    simp only [split?] at h
    split at h
    · simp only [Option.some.injEq, Prod.mk.injEq] at h; simp [h.2]
    · have := ih h; simp only [List.length_cons]; omega

/-- Reads a construct that begins with `<!`; `text` is what follows the `!`. -/
def readBang (opened : List (List Char)) (text : List Char) : Except Stop Step :=
  match text with
  | [] => .error (.nothingAfterBang, 0)
  | c :: _ =>
    match Bang.ofChar? c with
    | none => .error (.strayBang ((String.utf8EncodeChar c).headD 0).toNat, 0)
    | some construct =>
      match construct.split? ['!'] text with
      | none => .error (.unendedBang construct, 0)
      | some (content, rest) =>
        let width := byteLength content + 1
        let head := content.take construct.opening.length
        if head.map Char.toLower ≠ construct.opening.map Char.toLower then
          .error (.unendedBang construct, width)
        else if construct = .doctype && (content.drop construct.opening.length).all Char.isWhitespace then
          .error (.emptyDoctype, width)
        else .ok ⟨construct.event, opened, width, rest⟩

theorem readBang_length {opened : List (List Char)} {text : List Char} {step : Step}
    (h : readBang opened text = .ok step) : step.rest.length < text.length := by
  cases text with
  | nil => simp [readBang] at h
  | cons c text =>
    simp only [readBang] at h
    split at h
    · simp at h
    split at h
    · simp at h
    rename_i hs
    split at h
    · simp at h
    split at h
    · simp at h
    simp only [Except.ok.injEq] at h
    subst h
    exact Bang.length_split? hs

/-- A name without the blanks behind it; a name of blanks alone stays as it is. -/
def trimName (name : List Char) : List Char :=
  if name.all Char.isWhitespace then name else (name.reverse.dropWhile Char.isWhitespace).reverse

/-- Reads a closing tag; `text` is what follows the `</`. Without a `>` the tag runs to the end. -/
def readClose (opened : List (List Char)) (text : List Char) : Except Stop Step :=
  let name := text.takeWhile (· ≠ '>')
  let tail := text.dropWhile (· ≠ '>')
  let ended := if tail.isEmpty then 0 else 1
  match opened with
  | [] => .error (.mismatch [] name, ended)
  | element :: outer =>
    if element = trimName name then .ok ⟨.close element, outer, 1 + byteLength name + ended, tail.tail⟩
    else .error (.mismatch element (trimName name), ended)

/-- Reads a declaration or a processing instruction; `text` is what follows the `<?`. -/
def readDeclaration (opened : List (List Char)) (text : List Char) : Except Stop Step :=
  let content := text.takeWhile (· ≠ '>')
  let tail := text.dropWhile (· ≠ '>')
  let ended := if tail.isEmpty then 0 else 1
  if 1 < content.length && content.getLast? == some '?' then
    .ok ⟨.aside, opened, 1 + byteLength content + ended, tail.tail⟩
  else .error (.unendedDeclaration, ended)

/-- Splits a text at the first `>` that no quotes enclose. -/
def splitElement? (quoted : Option Char) : List Char → Option (List Char × List Char)
  | [] => none
  | c :: rest =>
    match quoted with
    | none =>
      if c = '>' then some ([], rest)
      else (splitElement? (if c = '"' || c = '\'' then some c else none) rest).map fun (a, b) => (c :: a, b)
    | some q => (splitElement? (if c = q then none else some q) rest).map fun (a, b) => (c :: a, b)

theorem length_splitElement? {quoted : Option Char} {text content rest : List Char}
    (h : splitElement? quoted text = some (content, rest)) : rest.length < text.length := by
  induction text generalizing quoted content with
  | nil => simp [splitElement?] at h
  | cons c text ih =>
    simp only [splitElement?] at h
    split at h
    · split at h
      · simp only [Option.some.injEq, Prod.mk.injEq] at h; simp [h.2]
      · obtain ⟨p, hp, e⟩ := Option.map_eq_some_iff.1 h
        obtain ⟨rfl, rfl⟩ := Prod.mk.inj e
        have := ih hp; simp only [List.length_cons]; omega
    · obtain ⟨p, hp, e⟩ := Option.map_eq_some_iff.1 h
      obtain ⟨rfl, rfl⟩ := Prod.mk.inj e
      have := ih hp; simp only [List.length_cons]; omega

/-- Reads an element's opening or empty tag; `text` is what follows the `<`. -/
def readElement (opened : List (List Char)) (text : List Char) : Except Stop Step :=
  match splitElement? none text with
  | none => .error (.unendedElement, 0)
  | some (content, rest) =>
    let width := byteLength content + 1
    if content.getLast? == some '/' then .ok ⟨.empty, opened, width, rest⟩
    else
      let name := content.takeWhile (!·.isWhitespace)
      .ok ⟨.start name, name :: opened, width, rest⟩

def readConstruct (opened : List (List Char)) (text : List Char) : Except Stop Step :=
  match text with
  | '!' :: rest => readBang opened rest
  | '/' :: rest => readClose opened rest
  | '?' :: rest => readDeclaration opened rest
  | _ => readElement opened text

theorem length_tail_dropWhile (p : Char → Bool) (text : List Char) :
    (text.dropWhile p).tail.length ≤ text.length := by
  have := (List.dropWhile_suffix (l := text) p).length_le
  simp only [List.length_tail]; omega

theorem readConstruct_length {opened : List (List Char)} {text : List Char} {step : Step}
    (h : readConstruct opened text = .ok step) : step.rest.length ≤ text.length := by
  unfold readConstruct at h
  split at h
  · exact Nat.le_trans (Nat.le_of_lt (readBang_length h)) (by simp)
  · unfold readClose at h
    simp only at h
    split at h
    · simp at h
    · split at h <;> try simp at h
      subst h
      exact Nat.le_trans (length_tail_dropWhile _ _) (by simp)
  · unfold readDeclaration at h
    simp only at h
    split at h <;> try simp at h
    subst h
    exact Nat.le_trans (length_tail_dropWhile _ _) (by simp)
  · unfold readElement at h
    split at h
    · simp at h
    · rename_i hs
      have := length_splitElement? hs
      simp only at h
      split at h <;> (simp only [Except.ok.injEq] at h; subst h; simp only; omega)

/-! ## The event sequence -/

/-- The events of a text, and the fault with its offset if the reader could not finish. -/
structure Reading where
  events : List Event
  fault : Option (ReadFault × Nat)
deriving Repr, DecidableEq

def Reading.after (events : List Event) (reading : Reading) : Reading :=
  { reading with events := events ++ reading.events }

/-- Reads a text that begins `offset` bytes into the markup, inside the elements `opened`. A `<` with
nothing behind it ends the markup. -/
def read (opened : List (List Char)) (offset : Nat) (text : List Char) : Reading :=
  let content := text.takeWhile (· ≠ '<')
  let texts := if content.isEmpty then [] else [Event.text content]
  match _h : text.dropWhile (· ≠ '<') with
  | [] | [_] => ⟨texts, none⟩
  | _ :: c :: rest =>
    let offset := offset + byteLength content + 1
    match _hs : readConstruct opened (c :: rest) with
    | .error (fault, n) => ⟨texts, some (fault, offset + n)⟩
    | .ok step => (read step.opened (offset + step.width) step.rest).after (texts ++ [step.event])
termination_by text.length
decreasing_by
  have h₁ := readConstruct_length _hs
  have h₂ := (List.dropWhile_suffix (l := text) (· ≠ '<')).length_le
  rw [_h] at h₂
  simp only [List.length_cons] at h₁ h₂
  omega

end DotLang.Markup
