import CallCommunities.Partition.Assignment

/-!
# Partition/Connected — splitting communities into their connected parts

Local moving goes by weight alone and may leave a community whose members no path inside it joins.
`refine` splits every community into its connected parts, direction ignored, and labels each part by its
lowest-named vertex; it never merges.

The labels are found by rounds of exchange: every vertex starts with itself and takes over the
lowest-named label among its neighbours in the same community, until a round changes nothing.
-/

namespace CallCommunities

namespace Assignment

/-- Whether `u` and `v` share calls and a community. -/
def Touching (view : LinkView) (a : Assignment) (u v : Nat) : Prop :=
  (∃ w, (v, w) ∈ view.linksOf u) ∧ a.labelOf u = a.labelOf v

/-- Whether a path inside one community leads from `u` to `v`. -/
inductive Joined (view : LinkView) (a : Assignment) : Nat → Nat → Prop
  | refl (v : Nat) : Joined view a v v
  | step {u v w : Nat} : Joined view a u v → Touching view a v w → Joined view a u w

/-- One round: every vertex takes over the lowest-named label of its neighbours in the same community,
if that comes before its own. -/
def exchange (view : LinkView) (a : Assignment) (parts : Assignment) : Assignment :=
  tabulate view.size fun v =>
    ((view.linksOf v).filter fun (u, _) => a.labelOf u = a.labelOf v).foldl
      (fun label (u, _) => view.lowest label (parts.labelOf u)) (parts.labelOf v)

/-- Rounds of exchange until one changes nothing, but at most `rounds` of them. -/
def settle (view : LinkView) (a : Assignment) : (rounds : Nat) → Assignment → Assignment
  | 0, parts => parts
  | rounds + 1, parts =>
    let next := exchange view a parts
    if next = parts then parts else settle view a rounds next

/-- The connected parts of the communities.  A round that changes anything brings some label closer to
the front of the names, so `n²` rounds are enough for `n` vertices. -/
def refine (view : LinkView) (a : Assignment) : Assignment :=
  settle view a (view.size * view.size) (singletons view.size)

/-- Whether every community is connected. -/
def isConnected (view : LinkView) (a : Assignment) : Bool :=
  (a.refine view).communityCount = a.communityCount

end Assignment

end CallCommunities
