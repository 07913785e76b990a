import Mismatch.Log.Level

/-!
# Log events

What a computation has to say about its own progress: a level, the part of the program that speaks
and a message. When it is said, and whether anybody hears it, is decided elsewhere; a message that
nobody hears is never written out.
-/

namespace Mismatch.Log

structure Event where
  level : Level
  module : Text
  message : Thunk Text

end Mismatch.Log
