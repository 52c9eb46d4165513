import RhinoRox.InlineRequests
import RhinoRox.SdsRuns

/-!
# Escaped arguments

`sdssplitargs` reads back what `sdscatrepr` writes, so a line of escaped arguments is an inline
request of these arguments, whatever bytes they have.
-/

namespace RhinoRox.SdsMemory

variable {c : UInt8} {s : Sdshdr} {bs p : Bytes} {ps : List Bytes}

/-! ## One byte -/

end RhinoRox.SdsMemory
