import HeaderOrder.Text

/-! # Version and usage -/

namespace HeaderOrder

def versionText : Text := "horder v0.1.0\nHeader prototype order synchronizer\n"

def usageText : Text := List.flatten [
  "horder v0.1.0 - Header prototype order synchronizer\n",
  "\n",
  "Usage:\n",
  "  horder scan <header>                         List prototypes declared in a header\n",
  "  horder find <header>                         List implementations across the workspace\n",
  "  horder sync <header> [<file>] [--dry-run]    Reorder <file> to header order\n",
  "  horder session [<script>]                    Run commands from a script or stdin\n",
  "\n",
  "Options:\n",
  "  --root DIR                     Workspace root (default: current directory)\n",
  "  --config FILE                  Manifest (default: <root>/horder.project)\n",
  "  --include GLOB                 Candidate files (default: **/*.\x7bcpp,cc,cxx,c,hpp,ccpp\x7d)\n",
  "  --exclude GLOB                 Skipped files (default: **/node_modules/**)\n",
  "  --limit N                      Maximum candidate files (default: 200)\n",
  "  -v, --verbose                  Print signatures and notes\n",
  "  -q, --quiet                    Suppress informational output\n",
  "  -h, --help                     Show this help message\n",
  "  --version                      Show version information\n",
  "\n",
  "Session commands:\n",
  "  scan H | find H | sync H [F] [--dry-run] | invalidate H | quit\n",
  "\n",
  "Examples:\n",
  "  horder scan include/math.h\n",
  "  horder sync include/math.h src/math.cpp --dry-run\n",
  "\n"]

end HeaderOrder
