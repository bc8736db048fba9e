import LinterClient.FilePath
import LinterClient.Url.Parser

/-!
Between `file` URLs and file paths.
-/

namespace LinterClient.Url

private def isLetter (b : UInt8) : Bool :=
  (65 ≤ b && b ≤ 90) || (97 ≤ b && b ≤ 122)

/-- A path that ends in a letter and a colon or bar gets a slash. -/
def closeDrive (bytes : List UInt8) : List UInt8 :=
  match bytes.reverse with
  | last :: letter :: _ :: _ =>
    if isLetter letter ∧ (last = 0x3A ∨ last = 0x7C) then bytes ++ [FilePath.slash] else bytes
  | _ => bytes

/-- The path that a URL of this machine names, whatever its scheme. -/
def localPath? (u : Url) : Option FilePath :=
  if u.host? = none ∨ u.host? = some (.domain "localhost") then
    match Utf8.encode u.path with
    | 0x2F :: rest =>
      let segments := (FilePath.splitBytes FilePath.slash rest).map decodeBytes
      some ⟨closeDrive (segments.flatMap (FilePath.slash :: ·))⟩
    | _ => none
  else none

/-- The path that a `file` URL names. -/
def filePath? (u : Url) : Option FilePath :=
  if u.scheme = "file" then u.localPath? else none

def encodeSegment (bytes : List UInt8) : String :=
  String.ofList (bytes.flatMap fun b =>
    if b < 0x80 then encodeChar segmentSet (Char.ofNat b.toNat) else encodeByte b)

def ofPathText (path : String) : Url :=
  ⟨"file", some ⟨"", .empty, none⟩, path, none, none⟩

/-- The `file` URL of an absolute path. -/
def ofFilePath? (p : FilePath) : Option Url :=
  if p.isAbsolute then
    let segments := p.components.map fun c => "/" ++ encodeSegment c.bytes
    some (ofPathText (if segments = [] then "/" else String.join segments))
  else none

/-- The `file` URL of an absolute directory, ending in a slash. -/
def ofDirectoryPath? (p : FilePath) : Option Url :=
  (ofFilePath? p).map fun u =>
    if u.path.endsWith "/" then u else { u with path := u.path ++ "/" }

end LinterClient.Url
