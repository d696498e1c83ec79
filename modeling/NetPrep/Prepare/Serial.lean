import NetPrep.Json.Basic
import NetPrep.Prepare.Monad

/-!
# The JSON form of counts
-/

namespace NetPrep.Prepare

def Stats.toJson (s : Stats) : Json :=
  .obj [("temporaries", .ofNat s.temporaries), ("duplicated", .ofNat s.duplicated),
    ("hoisted", .ofNat s.hoisted), ("balanced", .ofNat s.balanced), ("reused", .ofNat s.reused),
    ("forward_refs", .ofNat s.forwardRefs),
    ("side_effects_extracted", .ofNat s.sideEffectsExtracted), ("pruned", .ofNat s.pruned)]

end NetPrep.Prepare
