import LinterClient.Session.Migrating

/-!
Answers to the requests of the linter server.
-/

namespace LinterClient

open Json (Decoder Fields Members)

/-- Where the user was told that the linter's library is missing: outside every folder, and in folders
by their URLs. -/
structure MissingLibrary where
  outside : Bool
  folders : List (String × Bool)
deriving DecidableEq

namespace MissingLibrary

def key : String := "noLibraryMessageShown"

private def flags : Decoder (List (String × Bool)) := fun v => do
  (← Decoder.members v).mapM fun (k, b) => do .ok (k, ← Decoder.bool b)

private def fields : Fields MissingLibrary :=
  mk <$> .withDefault "global" .bool false <*> .withDefault "workspaces" flags []

def decode : Decoder MissingLibrary := fields.decode "MissingLibrary"

def toJson (m : MissingLibrary) : Json :=
  .ofMembers [("global", .bool m.outside),
    ("workspaces", .ofMembers (m.folders.map fun (k, b) => (k, .bool b)))]

/-- What a memento says; what cannot be read says nothing. -/
def ofMemento (m : Memento) : MissingLibrary :=
  match (m.get? key).map decode with
  | some (.ok shown) => shown
  | _ => ⟨false, []⟩

/-- Notes that the user was told. Answers whether that is new. -/
def tell (m : MissingLibrary) : Option WorkspaceFolder → Bool × MissingLibrary
  | some f =>
    let uri := f.uri.text
    ((m.folders.lookup uri).isNone,
      { m with folders := (uri, true) :: m.folders.filter (·.1 ≠ uri) })
  | none => (!m.outside, { m with outside := true })

end MissingLibrary

namespace Session

variable {σ : Type} [Host σ]

/-- How a document is named in texts: by its path if it has one. -/
def displayName (uri : Url) : String :=
  match uri.localPath? with
  | some p => p.text
  | none => uri.text

def post (c : ClientCommand) : Task σ Unit :=
  .modify (enqueue c)

def missingConfiguration (p : Protocol.NoConfigParams) : Task σ Unit := do
  let uri := p.document.uri
  let folder := (Store.workspace (← .get).store).folderFor? uri
  writeLog .warn ("No ESLint configuration (e.g .eslintrc) found for file: " ++ displayName uri ++
    ". File will not be validated. Consider running 'eslint --init'" ++
    match folder with
    | some f => " in the workspace folder " ++ f.name
    | none => "")
  post (.status .warn)

private def missingLibraryText (uri : Url) : String :=
  "Failed to load the ESLint library for the document " ++ displayName uri ++ "."

/-- Changes the memento in memory and on the machine. -/
def remember (key : String) (value : Json) (s : Session σ) :
    Except StoreError Unit × Session σ :=
  let memento := s.memento.set key value
  let (result, store) := Host.saveMemento s.store memento
  (result, { s with memento, store })

/-- Logs how the library is installed, and tells the user once for each folder. -/
def missingLibrary (p : Protocol.NoLibraryParams) : Task σ Unit := do
  let uri := p.source.uri
  let s ← .get
  let manager := Store.readOr Settings.PackageManager.decode .npm s.store "packageManager" (some uri)
  let folder := (Store.workspace s.store).folderFor? uri
  let scope := match folder with
    | some f => "in the workspace folder " ++ f.name
    | none => "in the workspace"
  writeLog .info (missingLibraryText uri ++
    " To use ESLint please install eslint by running " ++ manager.localInstall ++ " " ++ scope ++
    " or globally using '" ++ manager.globalInstall ++ "'. " ++
    "You need to reopen the workspace after installing eslint. " ++
    "If you are using yarn or pnpm instead of npm set the setting " ++
    "`eslint.packageManager` to either `yarn` or `pnpm`.")
  let (isNew, shown) := (MissingLibrary.ofMemento s.memento).tell folder
  if isNew then
    let _ ← .modifyGet (remember MissingLibrary.key shown.toJson)
    announceLater .info (missingLibraryText uri ++ " See the output for more information.")
      "Go to output"

def parsed (d : Decoder α) (method : String) (params : Json)
    (f : α → Task σ Json) : Task σ (Except Protocol.Error Json) :=
  match Protocol.parseParams d method params with
  | .ok a => do pure (.ok (← f a))
  | .error e => pure (.error e)

/-- Answers a request of the server. -/
def handle (method : String) (params : Json) : Task σ (Except Protocol.Error Json) :=
  match method with
  | "workspace/configuration" =>
    parsed Protocol.ConfigurationParams.decode method params fun p => do
      pure (.arr (← configuration p.items))
  | "eslint/noConfig" =>
    parsed Protocol.NoConfigParams.decode method params fun p => do
      missingConfiguration p
      pure (.obj [])
  | "eslint/noLibrary" =>
    parsed Protocol.NoLibraryParams.decode method params fun p => do
      missingLibrary p
      pure (.obj [])
  | "eslint/openDoc" =>
    parsed Protocol.OpenDocParams.decode method params fun p => do
      let _ ← openExternal p.url
      pure (.obj [])
  | "eslint/probeFailed" =>
    parsed Protocol.ProbeFailedParams.decode method params fun p => do
      post (.probeFailed p.textDocument.uri)
      pure .null
  | other => pure (.error (.methodNotFound other))

end Session

end LinterClient
