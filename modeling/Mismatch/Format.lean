/-!
# Output formats

Annotations and log messages are written for readers or for other programs.
-/

namespace Mismatch

inductive Format where
  | text | json
deriving DecidableEq

end Mismatch
