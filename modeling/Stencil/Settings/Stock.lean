/-!
# The stock settings file

A settings file that says nothing but the stock settings and explains them, for a user
to start from.
-/

namespace Stencil.Settings

/-- The lines of the stock settings file. -/
def stockLines : List String :=
  ["# hypertemplate configuration",
   "# ===========================",
   "# All settings are optional. Remove or comment out any you don't need.",
   "# Values shown below are the defaults.",
   "#",
   "# Directories passed on the command line (-d, -t, OUTPUT) take precedence",
   "# over the values in this file. Unknown keys will cause an error.",
   "",
   "# Source documents. .html/.htm files are expanded, everything else is copied.",
   "docs = \"docs\"",
   "",
   "# Template definitions. A template is used by its path relative to this",
   "# directory with the extension removed: templates/blog/card.html -> \"blog/card\".",
   "templates = \"templates\"",
   "",
   "# Built site. Files here are compared against their sources to decide what",
   "# needs rebuilding.",
   "output = \"site\"",
   "",
   "# ---------------------------------------------------------------------------",
   "# Expansion",
   "# ---------------------------------------------------------------------------",
   "[expansion]",
   "# Maximum number of template usages resolved in a single document.",
   "max_expansions = 10000",
   "",
   "# ---------------------------------------------------------------------------",
   "# Processing",
   "# ---------------------------------------------------------------------------",
   "[processing]",
   "# Maximum parallel expansion workers.",
   "# Omit or comment out to auto-detect (= number of CPU cores).",
   "# max_processes = 4"]

/-- The text of the stock settings file. -/
def stockText : String := String.join (stockLines.map (· ++ "\n"))

end Stencil.Settings
