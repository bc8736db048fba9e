import LinterClient.Toml.Document

/-!
Setting and removing one value of a TOML document, while all else keeps its text.
-/

namespace LinterClient.Toml

namespace Entries

/-- A table of new entries, between braces if it stands in such a table. -/
def newTable (braced : Bool) (entries : Entries) : Item :=
  if braced then .inline entries .new .usual else .table entries .new

/-- Sets an item at a path. What is on the way and no table is replaced by one. -/
def assign (item : Item) (braced : Bool) (entries : Entries) : List String → Entries
  | [] => entries
  | [last] => entries.insert last (if braced then item.inlined else item)
  | name :: path =>
    match entries.get? name with
    | some (.inline old braces around) =>
      entries.replace name (.inline (assign item true old path) braces around)
    | some (.table old heading) =>
      entries.replace name (.table (assign item braced old path) heading)
    | some _ => entries.replace name (newTable braced (assign item braced [] path))
    | none => entries ++ [(.new name, newTable braced (assign item braced [] path))]

/-- Removes the item at a path. Without it, or a table on the way to it, nothing changes. -/
def remove (entries : Entries) : List String → Entries
  | [] => entries
  | [last] => entries.erase last
  | name :: path =>
    match entries.get? name with
    | some (.inline old braces around) =>
      entries.replace name (.inline (remove old path) braces around)
    | some (.table old heading) => entries.replace name (.table (remove old path) heading)
    | _ => entries

end Entries

/-- Sets the item at a path, or removes it. -/
def Document.update (d : Document) (item : Option Item) (path : List String) : Document :=
  { d with entries := match item with
    | some i => d.entries.assign i false path
    | none => d.entries.remove path }

end LinterClient.Toml
