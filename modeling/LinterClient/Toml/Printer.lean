import LinterClient.Toml.Document

/-!
Printing TOML documents.

The root's own lines come first. Tables follow in the order of their headers; one without a place in
the text comes after the table that precedes it in the document.
-/

namespace LinterClient.Toml

/-- An entry to be printed, given the usual blanks around its value. -/
structure Piece where
  path : List Key
  write : (before after : String) → String

/-- A table to be printed below a header. -/
structure Block where
  path : List Key
  isElement : Bool
  heading : Heading
  pieces : List Piece

namespace Piece

def remaining (p : Piece) : Option Nat :=
  p.path.getLast?.bind (·.remaining)

/-- Whether a piece was read before another one. -/
def precedes (p q : Piece) : Bool :=
  match p.remaining, q.remaining with
  | some a, some b => b < a
  | _, _ => false

def place (p : Piece) : List Piece → List Piece
  | [] => [p]
  | q :: before => if p.precedes q then q :: place p before else p :: q :: before

/-- The pieces in the order of the text. A piece that was not read stays behind its neighbour. -/
def inOrder (pieces : List Piece) : List Piece :=
  (pieces.foldl (fun seen p => place p seen) []).reverse

end Piece

def pathInside : List Key → String
  | [] => ""
  | [k] => k.inside.wrap "" "" k.text
  | k :: rest => k.inside.wrap "" "" k.text ++ "." ++ pathInside rest

def pathText (path : List Key) (around : Trivia) (before after : String) : String :=
  around.wrap before after (pathInside path)

def pathAround (path : List Key) : Trivia :=
  (path.getLast?.map (·.around)).getD .usual

def pairText (p : Piece) (keyBefore keyAfter valueAfter : String) : String :=
  pathText p.path (pathAround p.path) keyBefore keyAfter ++ "=" ++ p.write " " valueAfter

def pairsText : List Piece → String
  | [] => ""
  | [p] => pairText p " " " " " "
  | p :: rest => pairText p " " " " "" ++ "," ++ pairsText rest

def bracesText (braces : Braces) (pieces : List Piece) : String :=
  "\x7b" ++ pairsText pieces ++ (if braces.comma && !pieces.isEmpty then "," else "")
    ++ braces.trailing ++ "\x7d"

mutual

/-- The pieces of an item at a path: itself, or what dotted keys put into it. -/
def Item.pieces (path : List Key) : Item → List Piece
  | .value v spelling around =>
    [⟨path, fun before after => around.wrap before after (spelling.getD v.text)⟩]
  | .inline entries braces around =>
    if braces.dotted then Entries.pieces path entries
    else
      let inner := (Entries.pieces [] entries)
      [⟨path, fun before after => around.wrap before after (bracesText braces (Piece.inOrder inner))⟩]
  | .table entries heading => if heading.form = .dotted then Entries.pieces path entries else []
  | .tables _ => []

def Entries.pieces (above : List Key) : List (Key × Item) → List Piece
  | [] => []
  | (k, i) :: rest => Item.pieces (above ++ [k]) i ++ Entries.pieces above rest

end

mutual

def Item.blocks (path : List Key) (isElement : Bool) : Item → List Block
  | .table entries heading =>
    (if heading.form = .dotted then []
      else [⟨path, isElement, heading, Piece.inOrder (Entries.pieces [] entries)⟩])
      ++ Entries.blocks path entries
  | .tables elements => Item.blocksOfElements path elements
  | .value _ _ _ | .inline _ _ _ => []

def Entries.blocks (above : List Key) : List (Key × Item) → List Block
  | [] => []
  | (k, i) :: rest => Item.blocks (above ++ [k]) false i ++ Entries.blocks above rest

def Item.blocksOfElements (path : List Key) : List Item → List Block
  | [] => []
  | i :: rest => Item.blocks path true i ++ Item.blocksOfElements path rest

end

namespace Block

def inOrder (blocks : List Block) : List Block :=
  let numbered := blocks.foldl (fun (acc : List (Nat × Block) × Nat) b =>
    let n := b.heading.position.getD acc.2
    (acc.1 ++ [(n, b)], n)) ([], 0)
  (numbered.1.mergeSort fun a b => a.1 ≤ b.1).map (·.2)

/-- Whether a block has a line of its own for its header. A table that is only implied has one if
something stands directly in it. -/
def hasHeader (b : Block) : Bool :=
  !b.path.isEmpty && (b.isElement || b.heading.form = .header || !b.pieces.isEmpty)

/-- A header. What is left of a key that stood on lines of its own comes before it. -/
def headerText (b : Block) (first : Bool) : String :=
  let around := pathAround b.path
  let own := (around.before.getD "").contains '\n'
  let path := pathText b.path (if own then .usual else around) "" ""
  let bracketed := if b.isElement then "[[" ++ path ++ "]]" else "[" ++ path ++ "]"
  (if own then around.before.getD "" else "")
    ++ b.heading.around.wrap (if first then "" else "\n") "" bracketed ++ "\n"

def text (b : Block) (first : Bool) : String :=
  (if b.hasHeader then headerText b first else "")
    ++ String.join (b.pieces.map fun p => pairText p "" " " "" ++ "\n")

def isEmpty (b : Block) : Bool :=
  !b.hasHeader && b.pieces.isEmpty

end Block

def Document.text (d : Document) : String :=
  let blocks := Block.inOrder (Item.blocks [] false (.table d.entries .new))
  let body := blocks.foldl (fun (acc : String × Bool) b =>
    (acc.1 ++ b.text acc.2, acc.2 && b.isEmpty)) ("", true)
  body.1 ++ d.trailing

end LinterClient.Toml
