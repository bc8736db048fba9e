import LinterClient.Binary64

/-!
JSON values.

The members of an object are a list of pairs. `insert` keeps a sorted list sorted, and the laws of
`get?` hold for every list, sorted or not.
-/

namespace LinterClient

/-- The whole numbers that are kept exactly: those of 64 bits, signed or unsigned. -/
def Json.InRange (n : Int) : Prop :=
  -0x8000000000000000 ≤ n ∧ n ≤ 0xFFFFFFFFFFFFFFFF

instance (n : Int) : Decidable (Json.InRange n) :=
  inferInstanceAs (Decidable (_ ∧ _))

/-- A JSON number: a whole number of 64 bits or a finite binary64 value. -/
inductive Json.Number where
  | int (val : Int) (inRange : Json.InRange val)
  | float (val : Binary64) (finite : val.isFinite = true)
deriving DecidableEq

inductive Json where
  | null
  | bool (val : Bool)
  | num (val : Json.Number)
  | str (val : String)
  | arr (items : List Json)
  | obj (members : List (String × Json))

namespace Json

instance : Inhabited Json := ⟨.null⟩

mutual

def decEq : (a b : Json) → Decidable (a = b)
  | .null, .null => isTrue rfl
  | .bool a, .bool b =>
    if h : a = b then isTrue (by rw [h]) else isFalse fun e => h (by injection e)
  | .num a, .num b =>
    if h : a = b then isTrue (by rw [h]) else isFalse fun e => h (by injection e)
  | .str a, .str b =>
    if h : a = b then isTrue (by rw [h]) else isFalse fun e => h (by injection e)
  | .arr a, .arr b =>
    match decEqItems a b with
    | isTrue h => isTrue (by rw [h])
    | isFalse h => isFalse fun e => h (by injection e)
  | .obj a, .obj b =>
    match decEqMembers a b with
    | isTrue h => isTrue (by rw [h])
    | isFalse h => isFalse fun e => h (by injection e)
  | .null, .bool _ | .null, .num _ | .null, .str _ | .null, .arr _ | .null, .obj _
  | .bool _, .null | .bool _, .num _ | .bool _, .str _ | .bool _, .arr _ | .bool _, .obj _
  | .num _, .null | .num _, .bool _ | .num _, .str _ | .num _, .arr _ | .num _, .obj _
  | .str _, .null | .str _, .bool _ | .str _, .num _ | .str _, .arr _ | .str _, .obj _
  | .arr _, .null | .arr _, .bool _ | .arr _, .num _ | .arr _, .str _ | .arr _, .obj _
  | .obj _, .null | .obj _, .bool _ | .obj _, .num _ | .obj _, .str _ | .obj _, .arr _ =>
    isFalse nofun

def decEqItems : (a b : List Json) → Decidable (a = b)
  | [], [] => isTrue rfl
  | [], _ :: _ | _ :: _, [] => isFalse nofun
  | a :: as, b :: bs =>
    match decEq a b with
    | isFalse h => isFalse fun e => h (by injection e)
    | isTrue h =>
      match decEqItems as bs with
      | isFalse hs => isFalse fun e => hs (by injection e)
      | isTrue hs => isTrue (by rw [h, hs])

def decEqMembers : (a b : List (String × Json)) → Decidable (a = b)
  | [], [] => isTrue rfl
  | [], _ :: _ | _ :: _, [] => isFalse nofun
  | (k, a) :: as, (l, b) :: bs =>
    if hk : k = l then
      match decEq a b with
      | isFalse h => isFalse fun e => h (by injection e with p; injection p)
      | isTrue h =>
        match decEqMembers as bs with
        | isFalse hs => isFalse fun e => hs (by injection e)
        | isTrue hs => isTrue (by rw [hk, h, hs])
    else isFalse fun e => hk (by injection e with p; injection p)

end

instance : DecidableEq Json := decEq

/-- The members of an object, in order. -/
abbrev Members := List (String × Json)

namespace Members

/-- The value of the first member with the given name. -/
def get? (m : Members) (key : String) : Option Json :=
  m.lookup key

def contains (m : Members) (key : String) : Bool :=
  (m.get? key).isSome

/-- Sets a member: an old one in its place, a new one before the first larger name. -/
def insert (key : String) (value : Json) : Members → Members
  | [] => [(key, value)]
  | (k, v) :: rest =>
    if key = k then (key, value) :: rest
    else if key < k then (key, value) :: (k, v) :: rest
    else (k, v) :: insert key value rest

def erase (m : Members) (key : String) : Members :=
  m.filter fun p => p.1 ≠ key

/-- Sets all members of a second list. -/
def extend (m new : Members) : Members :=
  new.foldr (fun p acc => acc.insert p.1 p.2) m

/-- The members sorted by name; of equal names the last counts. -/
def sorted (m : Members) : Members :=
  m.foldl (fun acc p => acc.insert p.1 p.2) []

end Members

mutual

/-- The value with the members of every object in it sorted by name. -/
def sorted : Json → Json
  | .arr items => .arr (sortedItems items)
  | .obj members => .obj (sortedMembers members).sorted
  | .null => .null
  | .bool b => .bool b
  | .num n => .num n
  | .str s => .str s

def sortedItems : List Json → List Json
  | [] => []
  | v :: rest => sorted v :: sortedItems rest

def sortedMembers : List (String × Json) → Members
  | [] => []
  | (k, v) :: rest => (k, sorted v) :: sortedMembers rest

end

def ofMembers (m : Members) : Json :=
  .obj m.sorted

/-- A whole number of 64 bits. -/
def ofInt? (n : Int) : Option Json :=
  if h : InRange n then some (.num (.int n h)) else none

def ofInt (n : Int) : Json :=
  (ofInt? n).getD .null

def ofNat (n : Nat) : Json :=
  ofInt n

/-- A finite number; an infinite one or NaN has no JSON form and is written as `null`. -/
def ofBinary64 (x : Binary64) : Json :=
  if h : x.isFinite = true then .num (.float x h) else .null

def ofStrings (l : List String) : Json :=
  .arr (l.map .str)

/-- A missing value is written as `null`. -/
def ofOption (v : Option Json) : Json :=
  v.getD .null

def get? : Json → String → Option Json
  | .obj m, key => Members.get? m key
  | _, _ => none

def asString? : Json → Option String
  | .str s => some s
  | _ => none

def asBool? : Json → Option Bool
  | .bool b => some b
  | _ => none

def asInt? : Json → Option Int
  | .num (.int n _) => some n
  | _ => none

def asArray? : Json → Option (List Json)
  | .arr a => some a
  | _ => none

def asObject? : Json → Option Members
  | .obj m => some m
  | _ => none

end Json

end LinterClient
