import LinterClient.Toml.Value

/-!
The parts of a TOML document with the way they are written: spelling, blanks, comments, and the form
of each table.

What was read keeps its text. What was made has none and is printed in the usual way.
-/

namespace LinterClient.Toml

/-- What stands before and after something; the usual blanks if nothing is said. -/
structure Trivia where
  before : Option String
  after : Option String
deriving DecidableEq

namespace Trivia

/-- Nothing is said. -/
def usual : Trivia := ⟨none, none⟩

def wrap (t : Trivia) (before after text : String) : String :=
  t.before.getD before ++ text ++ t.after.getD after

end Trivia

structure Key where
  name : String
  /-- How the key is written. -/
  spelling : Option String
  around : Trivia
  /-- Around this key within a dotted path. -/
  inside : Trivia
  /-- How much of the text came after the key when it was read. -/
  remaining : Option Nat
deriving DecidableEq

def Key.new (name : String) : Key :=
  ⟨name, none, .usual, .usual, none⟩

def Key.text (k : Key) : String :=
  k.spelling.getD (Quoted.key k.name)

/-- How a table comes about: by a header of its own, by headers of tables in it, or by dotted keys. -/
inductive Form where
  | header
  | implied
  | dotted
deriving DecidableEq

structure Heading where
  form : Form
  /-- The number of the header in the text. -/
  position : Option Nat
  around : Trivia
deriving DecidableEq

/-- The heading of a table that was not read: it shows only as far as something is in it. -/
def Heading.new : Heading := ⟨.implied, none, .usual⟩

structure Braces where
  /-- Whether the table comes about by dotted keys and has no braces. -/
  dotted : Bool
  comma : Bool
  /-- What stands after the last entry and its comma. -/
  trailing : String
deriving DecidableEq

def Braces.new : Braces := ⟨false, false, ""⟩

inductive Item where
  | value (data : Value) (spelling : Option String) (around : Trivia)
  | inline (entries : List (Key × Item)) (braces : Braces) (around : Trivia)
  | table (entries : List (Key × Item)) (heading : Heading)
  /-- An array of tables that have headers. -/
  | tables (elements : List Item)

instance : Inhabited Item := ⟨.tables []⟩

abbrev Entries := List (Key × Item)

namespace Entries

def get? (entries : Entries) (name : String) : Option Item :=
  (entries.find? (·.1.name = name)).map (·.2)

/-- Puts another item under a key that is there; how the key is written stays. -/
def replace (name : String) (item : Item) (entries : Entries) : Entries :=
  entries.map fun e => if e.1.name = name then (e.1, item) else e

/-- Sets an item: an old one is replaced together with the way its key is written, a new one comes
last. -/
def insert (name : String) (item : Item) (entries : Entries) : Entries :=
  if (entries.get? name).isSome then
    entries.map fun e =>
      if e.1.name = name then (⟨name, none, .usual, .usual, e.1.remaining⟩, item) else e
  else entries ++ [(.new name, item)]

def erase (entries : Entries) (name : String) : Entries :=
  entries.filter (·.1.name ≠ name)

end Entries

namespace Item

mutual

/-- The value, without the way it is written. -/
def data : Item → Value
  | .value v _ _ => v
  | .inline entries _ _ => .table (entriesData entries)
  | .table entries _ => .table (entriesData entries)
  | .tables elements => .array (elementsData elements)

def entriesData : List (Key × Item) → List (String × Value)
  | [] => []
  | (k, i) :: rest => (k.name, data i) :: entriesData rest

def elementsData : List Item → List Value
  | [] => []
  | i :: rest => data i :: elementsData rest

end

mutual

/-- The same value in a form that can stand between braces. -/
def inlined : Item → Item
  | .value v _ _ => .value v none .usual
  | .inline entries _ _ => .inline (entriesInlined entries) .new .usual
  | .table entries _ => .inline (entriesInlined entries) .new .usual
  | .tables elements => .value (data (.tables elements)) none .usual

def entriesInlined : List (Key × Item) → List (Key × Item)
  | [] => []
  | (k, i) :: rest => (.new k.name, inlined i) :: entriesInlined rest

end

mutual

/-- The item that an object or another value is stored as. Objects become tables with headers, those
in arrays tables between braces; members that are `null` are left out. -/
def ofJson? : Json → Option Item
  | .obj members => (ofMembers? members).map fun entries => .table entries .new
  | v => (Value.ofJson? v).map fun data => .value data none .usual

def ofMembers? : List (String × Json) → Option (List (Key × Item))
  | [] => some []
  | (_, .null) :: rest => ofMembers? rest
  | (k, v) :: rest => do
    let i ← ofJson? v
    let rest ← ofMembers? rest
    some ((.new k, i) :: rest)

end

end Item

end LinterClient.Toml
