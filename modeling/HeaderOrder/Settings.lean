import HeaderOrder.Path

/-! # Settings -/

namespace HeaderOrder

/-- The files to search: those that the first pattern matches and the second does not, up to a
number of them. -/
structure Query where
  included : Text := "**/*.\x7bcpp,cc,cxx,c,hpp,ccpp\x7d"
  excluded : Text := "**/node_modules/**"
  limit : Nat := 200
  deriving DecidableEq, Repr

/-- The settings of a project, with the directory and the manifest they are for. -/
structure Settings where
  root : Text := []
  manifest : Text := []
  query : Query := {}
  headerExtensions : List Text := [".h", ".hh", ".hpp", ".hxx"]
  deriving DecidableEq, Repr

/-- A header is told by its extension. -/
def Settings.isHeader (s : Settings) (path : Text) : Bool :=
  Path.extension path ≠ [] && s.headerExtensions.contains (Path.extension path)

end HeaderOrder
