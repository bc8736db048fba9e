import LinterClient.Settings.CodeActions
import LinterClient.Store.Basic

/-!
Whether everything is fixed when a document is saved.
-/

namespace LinterClient.FixOnSave

open Settings

/-- Whether a stored value turns fixing on or off, if it decides it. A list can only turn it on; in a
mapping the linter's own action counts before the generic one. -/
def enabled? : Json → Option Bool
  | .arr ids =>
    if ids.any fun id => id = .str Keys.linterFixAll ∨ id = .str Keys.fixAll then some true else none
  | .obj m =>
    ((Json.Members.get? m Keys.linterFixAll).bind actionFlag) <|>
      ((Json.Members.get? m Keys.fixAll).bind actionFlag)
  | _ => none

/-- Whether a document is fixed on save: its language's own section decides before the editor's. -/
def isEnabled {σ : Type} [Store σ] (s : σ) (d : TextDocument) : Bool :=
  let decided := fun key => (Store.get s key (some d.uri)).bind enabled?
  (decided (Keys.languageCodeActions d.language) <|> decided Keys.codeActionsOnSave).getD false

end LinterClient.FixOnSave
