import HeaderOrder.Plan
import HeaderOrder.Settings

/-!
# Workspaces

What stands behind a workspace is up to the monad.
-/

namespace HeaderOrder

inductive AccessError where
  | cannotOpen (path : Text)
  | tooLarge (path : Text)
  | cannotWrite (path : Text)
  | cannotReplace (path reason : Text)
  | outside (e : OutsideDocument)
  | readOnly
  deriving DecidableEq, Repr

def AccessError.message : AccessError → Text
  | cannotOpen path => List.flatten ["unable to open ", path]
  | tooLarge path => List.flatten ["source file too large: ", path, " (limit: 256 MB)"]
  | cannotWrite path => List.flatten ["could not write ", path]
  | cannotReplace path reason => List.flatten ["could not replace ", path, ": ", reason]
  | outside e => e.message
  | readOnly => "document is read-only"

structure Workspace (m : Type → Type) where
  /-- The one spelling of a path that the workspace uses. -/
  canonical : Text → Text
  read : Text → m (Except AccessError Text)
  candidates : Query → m (List Text)
  apply : Plan → m (Except AccessError Unit)

end HeaderOrder
