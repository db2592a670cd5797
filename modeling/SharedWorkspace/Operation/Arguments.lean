import SharedWorkspace.Remote.Request
import SharedWorkspace.Resource

/-!
How the resources of a batch are put into a command.
-/

namespace SharedWorkspace
namespace Operation

def localOptions (recurse : Bool) : List LocalOption :=
  if recurse then [] else [.doNotRecurse]

/--
The paths of resources within their project. The project itself is written as a dot.
-/
def pathArguments (rs : List Resource) : List String :=
  rs.map fun r => if r.path = "" then "." else r.path

end Operation
end SharedWorkspace
