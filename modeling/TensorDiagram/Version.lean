/-!
# Version

The version of the library.
-/

namespace TensorDiagram

/-- The version. -/
def version : String := "0.1.0"

end TensorDiagram
