import LinterClient.Toml.Item

/-!
TOML documents: a root table, and what follows the last entry.

A document is put together from its sections in the order of the text. A table has at most one header,
and dotted keys add only to tables that dotted keys made.
-/

namespace LinterClient.Toml

/-- A line that sets a key: the tables it goes through, the key, and the item. -/
structure Line where
  path : List Key
  key : Key
  item : Item

/-- A header, and the lines below it. -/
structure Section where
  path : List Key
  key : Key
  /-- Whether the header adds an element to an array. -/
  isElement : Bool
  around : Trivia
  lines : List Line

structure Document where
  entries : Entries
  /-- Blanks and comments at the end. -/
  trailing : String

namespace Document

def empty : Document := ⟨[], ""⟩

def data (d : Document) : List (String × Value) :=
  d.entries.map fun (k, i) => (k.name, i.data)

/-- The settings in a document, unless one of them has no JSON form. -/
def toJson? (d : Document) : Option Json.Members :=
  (Value.membersToJson? d.data).map Json.Members.sorted

end Document

namespace Entries

/-- Adds a line. `dotted` says whether dotted keys made the table that the entries are of, `inside`
whether the line has gone through a dotted key. -/
def addLine (key : Key) (item : Item) (dotted inside : Bool) (entries : Entries) :
    List Key → Option Entries
  | [] =>
    if dotted = inside ∧ entries.get? key.name = none then some (entries ++ [(key, item)]) else none
  | k :: path =>
    match entries.get? k.name with
    | none =>
      (addLine key item true true [] path).map fun new =>
        entries ++ [(k, .table new ⟨.dotted, none, .usual⟩)]
    | some (.table old heading) =>
      if heading.form = .header then none
      else (addLine key item (heading.form = .dotted) true old path).map fun new =>
        entries.replace k.name (.table new heading)
    | some _ => none

def addPair (key : Key) (item : Item) (dotted inside : Bool) (entries : Entries) :
    List Key → Option Entries
  | [] =>
    if dotted = inside ∧ entries.get? key.name = none then some (entries ++ [(key, item)]) else none
  | k :: path =>
    match entries.get? k.name with
    | none =>
      (addPair key item true true [] path).map fun new =>
        entries ++ [(k, .inline new ⟨true, false, ""⟩ .usual)]
    | some (.inline old braces around) =>
      if braces.dotted then (addPair key item true true old path).map fun new =>
        entries.replace k.name (.inline new braces around)
      else none
    | some _ => none

def addLines (entries : Entries) (lines : List Line) : Option Entries :=
  lines.foldlM (fun acc l => acc.addLine l.key l.item false false l.path) entries

def addTable (s : Section) (position : Nat) (entries : Entries) : Option Entries :=
  let heading : Heading := ⟨.header, some position, s.around⟩
  match entries.get? s.key.name with
  | none => do
    let new ← addLines [] s.lines
    some (entries ++ [(s.key, .table new heading)])
  | some (.table old ⟨.implied, _, _⟩) => do
    let new ← addLines old s.lines
    some (entries.erase s.key.name ++ [(s.key, .table new heading)])
  | some _ => none

def addElement (s : Section) (position : Nat) (entries : Entries) : Option Entries := do
  let new ← addLines [] s.lines
  let element : Item := .table new ⟨.header, some position, s.around⟩
  match entries.get? s.key.name with
  | none => some (entries ++ [(s.key, .tables [element])])
  | some (.tables elements) => some (entries.replace s.key.name (.tables (elements ++ [element])))
  | some _ => none

/-- Adds a section below the tables on its path. Of an array the last element is meant. -/
def addSection (s : Section) (position : Nat) (entries : Entries) : List Key → Option Entries
  | [] => if s.isElement then addElement s position entries else addTable s position entries
  | k :: path =>
    match entries.get? k.name with
    | none =>
      (addSection s position [] path).map fun new => entries ++ [(k, .table new .new)]
    | some (.table old heading) =>
      (addSection s position old path).map fun new =>
        entries.replace k.name (.table new heading)
    | some (.tables elements) =>
      match elements.reverse with
      | .table old heading :: before =>
        (addSection s position old path).map fun new =>
          entries.replace k.name (.tables ((.table new heading :: before).reverse))
      | _ => none
    | some _ => none

end Entries

/-- The document of its first lines, its sections and its end, unless they contradict each other. -/
def Document.ofSections? (lines : List Line) (sections : List Section) (trailing : String) :
    Option Document := do
  let root ← Entries.addLines [] lines
  let entries ← sections.zipIdx.foldlM (fun acc (s, i) => acc.addSection s (i + 1) s.path) root
  some ⟨entries, trailing⟩

end LinterClient.Toml
