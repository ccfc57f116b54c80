import HeaderOrder.Glob
import HeaderOrder.Table
import HeaderOrder.Workspace

/-! # A workspace in memory -/

namespace HeaderOrder

/-- Documents by normal path, and what was asked of them. -/
structure Memory where
  texts : Table Text Text := {}
  /-- The paths in the order they were added. A path that has no text may be in it twice. -/
  order : List Text := []
  locked : List Text := []
  readOnly : Bool := false
  reads : List Text := []
  listings : Nat := 0
  applied : List Plan := []

namespace Memory

def enroll (mem : Memory) (path : Text) : Memory :=
  if mem.texts.contains path then mem else { mem with order := mem.order ++ [path] }

def put (mem : Memory) (path text : Text) : Memory :=
  let path := Path.normalize path
  { mem.enroll path with texts := mem.texts.insert path text }

/-- Makes all reads of a path fail, also when it gets a text later. -/
def lock (mem : Memory) (path : Text) : Memory :=
  let path := Path.normalize path
  { mem.enroll path with locked := path :: mem.locked }

def read (mem : Memory) (path : Text) : Except AccessError Text :=
  let path := Path.normalize path
  if mem.locked.contains path then .error (.cannotOpen path)
  else match mem.texts.get? path with
    | none => .error (.cannotOpen path)
    | some text => .ok text

/-- The paths that a query asks for, in the order they were added. -/
def candidates (mem : Memory) (query : Query) : List Text :=
  let included := Glob.ofText query.included
  let excluded := Glob.ofText query.excluded
  (mem.order.filter fun path => included.accepts path && !excluded.accepts path).take query.limit

/-- The workspace over the documents of a state. -/
def workspace : Workspace (StateM Memory) where
  canonical := Path.normalize
  read path := fun mem =>
    (mem.read path, { mem with reads := mem.reads ++ [Path.normalize path] })
  candidates query := fun mem =>
    (mem.candidates query, { mem with listings := mem.listings + 1 })
  apply plan := fun mem =>
    if mem.readOnly then (.error .readOnly, mem)
    else (.ok (), { mem with applied := mem.applied ++ [plan] })

end Memory

end HeaderOrder
