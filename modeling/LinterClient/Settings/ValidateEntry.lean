import LinterClient.Json.Decode

/-!
Entries of the list of languages to validate.
-/

namespace LinterClient.Settings

open LinterClient.Json

/-- A language, a record for one, or something that is neither and is kept as it is. -/
inductive ValidateEntry where
  | language (name : String)
  | item (language : String) (autoFix : Option Bool)
  | unrecognized (value : Json)
deriving DecidableEq

namespace ValidateEntry

def itemFields : Fields ValidateEntry :=
  item <$> .required "language" .string <*> .optional "autoFix" .bool

/-- Any value is an entry: the first kind that fits. -/
def ofJson (v : Json) : ValidateEntry :=
  match Decoder.string v with
  | .ok name => language name
  | .error _ =>
    match itemFields.decodeObject "ValidateEntry" v with
    | .ok e => e
    | .error _ => unrecognized v

def decode : Decoder ValidateEntry := fun v => .ok (ofJson v)

def toJson : ValidateEntry → Json
  | .language name => .str name
  | .item name none => .ofMembers [("language", .str name)]
  | .item name (some b) => .ofMembers [("language", .str name), ("autoFix", .bool b)]
  | .unrecognized v => v

def language? : ValidateEntry → Option String
  | .language name => some name
  | .item name _ => some name
  | .unrecognized _ => none

/-- Whether the entry is a record that turns fixing on save off. -/
def disablesAutoFix : ValidateEntry → Bool
  | .item _ (some false) => true
  | _ => false

def kind : ValidateEntry → String
  | .language _ => "language"
  | .item _ _ => "item"
  | .unrecognized _ => "unrecognized"

end ValidateEntry

end LinterClient.Settings
