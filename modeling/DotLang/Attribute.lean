import DotLang.Error
import DotLang.Text.Quoted

/-!
# Attributes

An attribute is a name with a value. A collection keeps one value for each name, in the order in which
the names came in first; setting a name again changes the value where it stands.
-/

namespace DotLang

/-- Plain text, or markup that goes to a renderer as it is. -/
inductive AttrValue
  | string (text : String)
  | markup (text : String)
deriving Repr, DecidableEq

namespace AttrValue

def ofMarkup (text : String) : Except Error AttrValue :=
  match Markup.validate text.toList with
  | .ok _ => .ok (markup text)
  | .error fault => .error (.attribute (.malformedMarkup fault) none)

def text : AttrValue → String
  | string text | markup text => text

def isMarkup : AttrValue → Bool
  | string _ => false
  | markup _ => true

instance : ToString AttrValue where
  toString
    | string text => text
    | markup text => "<" ++ text ++ ">"

/-- Whether the value has a written form that is read back as the same value. -/
def isWritable : AttrValue → Bool
  | string text => isQuotable text
  | markup _ => true

end AttrValue

structure Attribute where
  name : String
  value : AttrValue
deriving Repr, DecidableEq

/-- An attribute, if it can be written: its name is not empty, and name and value have quoted forms. -/
def Attribute.make (name : String) (value : AttrValue) : Except Error Attribute :=
  if name.isEmpty then .error (.attribute .emptyName none)
  else if isQuotable name && value.isWritable then .ok ⟨name, value⟩
  else .error (.attribute .unquotable none)

/-! ## Collections -/

structure Attributes where
  entries : List Attribute
deriving Repr, DecidableEq

namespace Attributes

def empty : Attributes := ⟨[]⟩

instance : EmptyCollection Attributes := ⟨empty⟩

instance : Inhabited Attributes := ⟨empty⟩

def size (attrs : Attributes) : Nat := attrs.entries.length

def isEmpty (attrs : Attributes) : Bool := attrs.entries.isEmpty

def names (attrs : Attributes) : List String := attrs.entries.map Attribute.name

def get? (attrs : Attributes) (name : String) : Option AttrValue :=
  (attrs.entries.find? fun attr => attr.name == name).map Attribute.value

def contains (attrs : Attributes) (name : String) : Bool :=
  (attrs.get? name).isSome

/-- The entries with `attr` among them: in the place of the one with its name, or behind all. -/
def insertEntry (attr : Attribute) : List Attribute → List Attribute
  | [] => [attr]
  | entry :: rest => if entry.name = attr.name then attr :: rest else entry :: insertEntry attr rest

/-- Adds an attribute, or replaces the value of the one with its name. -/
def insert (attrs : Attributes) (attr : Attribute) : Attributes :=
  ⟨insertEntry attr attrs.entries⟩

/-- Gives a value to a name, if name and value can be written. -/
def set (attrs : Attributes) (name : String) (value : AttrValue) : Except Error Attributes :=
  (Attribute.make name value).map attrs.insert

/-- The collection that setting the given pairs in turn leads to. -/
def ofPairs (pairs : List (String × AttrValue)) : Except Error Attributes :=
  pairs.foldlM (fun attrs (name, value) => attrs.set name value) ∅

def erase (attrs : Attributes) (name : String) : Attributes :=
  ⟨attrs.entries.eraseP fun attr => attr.name == name⟩

/-- Inserts all attributes of `other` in their order: its values win, and its new names come last. -/
def merge (attrs other : Attributes) : Attributes :=
  other.entries.foldl insert attrs

end Attributes

end DotLang
