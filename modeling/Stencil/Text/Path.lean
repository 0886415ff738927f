/-!
# The text of a path
-/

namespace Stencil.Text

/-- What stands between the slashes of a path. -/
def pieces (path : String) : List String := (path.toList.splitOn '/').map String.ofList

end Stencil.Text
