/-!
This module contains the paths of files. A path is text; two paths are the same if they name the same
steps, however many slashes are written.
-/

namespace GradedModal
namespace Path

-- The first step is empty if the path starts at the root. Behind it, an empty name and a dot are no steps.
def steps (path : String) : List String :=
  if path.isEmpty then
    []
  else
    match path.splitOn "/" with
    | [] => []
    | first :: rest => first :: rest.filter fun name => name != "" && name != "."

def same (a b : String) : Bool :=
  steps a = steps b

end Path
end GradedModal
