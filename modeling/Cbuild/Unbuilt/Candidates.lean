import Cbuild.Unbuilt.Buildable

/-! # Candidates and the packages of an origin

`_collect_vers` keeps one version for each origin, that of the package listed first. The main
package of a template is one of several of its origin, and the others may be of another version.
-/

namespace Cbuild.Unbuilt

open Lib

/-! ## First come, first kept -/

/-- What a row is counted for. -/
def Row.key (r : Row) : Str := r.origin.getD r.name

def World.listing (w : World) (staged regular : List (List Row)) : World :=
  { w with indexes := staged ++ regular }

end Cbuild.Unbuilt
