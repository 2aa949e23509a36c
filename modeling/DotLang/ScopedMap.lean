/-!
# Scoped maps

A stack of scopes, each a list of keys with values in the order of their first insertion. Inner scopes
hide the outer ones, and vanish when they are popped.
-/

namespace DotLang

/-- The pairs with the value of `key` replaced where it stands, or `key` behind all of them. -/
def upsert {κ ν : Type} [DecidableEq κ] (key : κ) (value : ν) : List (κ × ν) → List (κ × ν)
  | [] => [(key, value)]
  | pair :: rest => if pair.1 = key then (key, value) :: rest else pair :: upsert key value rest

structure ScopedMap (κ ν : Type) where
  /-- The open scopes, innermost first. -/
  scopes : List (List (κ × ν))
deriving Repr, DecidableEq

namespace ScopedMap

variable {κ ν : Type}

def empty : ScopedMap κ ν := ⟨[]⟩

instance : EmptyCollection (ScopedMap κ ν) := ⟨empty⟩

instance : Inhabited (ScopedMap κ ν) := ⟨empty⟩

def depth (map : ScopedMap κ ν) : Nat := map.scopes.length

def isEmpty (map : ScopedMap κ ν) : Bool := map.scopes.isEmpty

def push (map : ScopedMap κ ν) : ScopedMap κ ν := ⟨[] :: map.scopes⟩

def pop (map : ScopedMap κ ν) : ScopedMap κ ν := ⟨map.scopes.tail⟩

variable [DecidableEq κ]

/-- Inserts into the innermost scope. Without an open scope nothing happens. -/
def insert (map : ScopedMap κ ν) (key : κ) (value : ν) : ScopedMap κ ν :=
  match map.scopes with
  | [] => map
  | scope :: outer => ⟨upsert key value scope :: outer⟩

/-- The value of a key in the innermost scope that has it. -/
def get? (map : ScopedMap κ ν) (key : κ) : Option ν :=
  map.scopes.findSome? fun scope => (scope.find? fun pair => pair.1 = key).map Prod.snd

def contains (map : ScopedMap κ ν) (key : κ) : Bool :=
  (map.get? key).isSome

/-- All scopes in one, from the outermost inwards: inner values win, and a key stands where it came in
first. -/
def flatten (map : ScopedMap κ ν) : List (κ × ν) :=
  map.scopes.reverse.flatten.foldl (fun pairs (key, value) => upsert key value pairs) []

end ScopedMap

end DotLang
