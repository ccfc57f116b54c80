import HeaderOrder.Proofs.Run

/-! # A sync and the script that does the same -/

namespace HeaderOrder

open Byte Text

/-! ## Lines of a script -/

namespace Text

variable {w : Text} {ws lines : List Text}

end Text

namespace Command

variable {header : Text} {target : Option Text} {dryRun : Bool}

end Command

namespace Arguments

variable {options : List (Except Argument.Error Argument)} {texts : List Text} {header : Text}
  {target : Option Text} {dryRun : Bool}

end Arguments

namespace Session

variable {s : Session} {t : FileTree} {dir : List Text} {root here header : Text}
  {quiet dryRun : Bool} {target : Option Text}

end Session

namespace FileTree

end FileTree

end HeaderOrder
