import CallCommunities.Proofs.Graph.WellFormed

/-!
# Proofs/Graph/Filling — tables that are filled together

A graph can be kept as tables with a cell for every vertex: what it calls, its neighbours, its loops and
its degree.  One pass takes the arcs in order and **enters each into all of them** (`Filling.enter`): into
the calls of its source, into the degrees of both ends, and either into the loops or into the neighbours
of both ends.

What the tables hold after some arcs is a function of these arcs (`Filling.after`), and entering one more
arc makes them the tables of one more arc (`enter_after`, `foldl_enter`).  With all arcs in, the links of a
vertex are its neighbours (`entries_linksOf`).
-/

namespace CallCommunities

open CallGraph

/-! ## Calls and links -/

namespace Arc

/-- What the arc adds to the calls of `v`. -/
def callFrom? (v : ℕ) (e : Arc) : Option (ℕ × ℕ) :=
  if e.source = v then some (e.target, e.weight) else none

/-- What the arc adds to the neighbours of `v`, a loop nothing. -/
def linkAt? (v : ℕ) (e : Arc) : Option (ℕ × ℕ) :=
  if e.source = e.target then none
  else if e.source = v then some (e.target, e.weight)
  else if e.target = v then some (e.source, e.weight)
  else none

end Arc

/-! ## The pass over the arcs -/

/-- The tables that arcs are entered into. -/
@[ext] structure Filling where
  /-- What each vertex calls and how often. -/
  outgoing : Array (List (ℕ × ℕ))
  /-- The calls that each vertex shares with other vertices. -/
  links : Array (SortedMap ℕ ℕ)
  loops : Array ℕ
  degrees : Array ℕ
  total : ℕ

namespace Filling

/-- The tables of `n` vertices without arcs. -/
def blank (n : ℕ) : Filling :=
  ⟨.replicate n [], .replicate n .empty, .replicate n 0, .replicate n 0, 0⟩

/-- Enters an arc into the tables. -/
def enter (f : Filling) (e : Arc) : Filling where
  outgoing := f.outgoing.modify e.source (· ++ [(e.target, e.weight)])
  links :=
    if e.source = e.target then f.links
    else (f.links.modify e.source (·.add e.target e.weight)).modify e.target
      (·.add e.source e.weight)
  loops := if e.source = e.target then f.loops.modify e.source (· + e.weight) else f.loops
  degrees := (f.degrees.modify e.source (· + e.weight)).modify e.target (· + e.weight)
  total := f.total + e.weight

/-- The calls that `v` shares with other vertices. -/
def linksOf (v : ℕ) (arcs : List Arc) : SortedMap ℕ ℕ :=
  arcs.foldl (fun links e => (e.linkAt? v).elim links fun p => links.add p.1 p.2) .empty

/-- What the tables hold after some arcs. -/
def after (n : ℕ) (arcs : List Arc) : Filling where
  outgoing := tabulated n fun v => arcs.filterMap (Arc.callFrom? v)
  links := tabulated n fun v => linksOf v arcs
  loops := tabulated n fun v =>
    sumOver (fun e => if (e.source, e.target) = (v, v) then e.weight else 0) arcs
  degrees := tabulated n fun v => sumOver (fun e => if e.source = v then e.weight else 0) arcs
    + sumOver (fun e => if e.target = v then e.weight else 0) arcs
  total := sumOver Arc.weight arcs

variable {n : ℕ} {arcs : List Arc} {e : Arc} {u v : ℕ}

theorem blank_eq_after (n : ℕ) : blank n = after n [] := by
  simp only [blank, replicate_eq_tabulated]
  rfl

theorem linksOf_append (v : ℕ) (arcs : List Arc) (e : Arc) : linksOf v (arcs ++ [e])
    = (e.linkAt? v).elim (linksOf v arcs) fun p => (linksOf v arcs).add p.1 p.2 :=
  List.foldl_append

/-- **Entering an arc makes the tables those of one more arc.** -/
theorem enter_after (n : ℕ) (arcs : List Arc) (e : Arc) :
    (after n arcs).enter e = after n (arcs ++ [e]) := by
  simp only [enter, after, modify_tabulated, linksOf_append, List.filterMap_append, sumOver_append,
    sumOver_cons, sumOver_nil, Nat.add_zero, Filling.mk.injEq, and_true]
  refine ⟨tabulated_congr fun v _ => ?outgoing, ?links, ?loops, tabulated_congr fun v _ => ?degrees⟩
  case outgoing =>
    by_cases hv : e.source = v <;> simp [Arc.callFrom?, hv]
  case links =>
    split
    · rename_i hloop
      refine tabulated_congr fun v _ => ?_
      rw [Arc.linkAt?, if_pos hloop, Option.elim_none]
    · rename_i hloop
      refine tabulated_congr fun v _ => ?_
      rw [Arc.linkAt?, if_neg hloop]
      by_cases hsource : e.source = v
      · have htarget : e.target ≠ v := fun htarget => hloop (hsource.trans htarget.symm)
        rw [if_pos hsource, if_pos hsource, if_neg htarget, Option.elim_some]
      · rw [if_neg hsource, if_neg hsource]
        split <;> rfl
  case loops =>
    split
    · rename_i hloop
      refine tabulated_congr fun v _ => ?_
      by_cases hv : e.source = v <;> simp [← hloop, hv]
    · rename_i hloop
      refine tabulated_congr fun v _ => ?_
      have hpair : (e.source, e.target) ≠ (v, v) := fun heq =>
        hloop ((congrArg Prod.fst heq).trans (congrArg Prod.snd heq).symm)
      rw [if_neg hpair, Nat.add_zero]
  case degrees =>
    split <;> split <;> omega

theorem foldl_enter (n : ℕ) (rest arcs : List Arc) :
    rest.foldl enter (after n arcs) = after n (arcs ++ rest) := by
  induction rest generalizing arcs with
  | nil => rw [List.append_nil, List.foldl_nil]
  | cons e rest ih => rw [List.foldl_cons, enter_after, ih, List.append_assoc, List.singleton_append]

/-! ## Links -/

/-- The calls that arcs add to what `v` shares with `u`. -/
def linked (v u : ℕ) (arcs : List Arc) : ℕ :=
  sumOver (fun e => (e.linkAt? v).elim 0 fun p => if p.1 = u then p.2 else 0) arcs

theorem linkAt?_pos {p : ℕ × ℕ} (hp : e.linkAt? v = some p) (he : 0 < e.weight) : 0 < p.2 := by
  unfold Arc.linkAt? at hp
  split at hp
  · cases hp
  · split at hp
    · cases hp
      exact he
    · split at hp <;> cases hp
      exact he

theorem linked_append (v u : ℕ) (arcs : List Arc) (e : Arc) : linked v u (arcs ++ [e])
    = linked v u arcs + (e.linkAt? v).elim 0 fun p => if p.1 = u then p.2 else 0 :=
  sumOver_append _ _ _

/-- **A link holds the calls of its arcs, if there are any.** -/
theorem get?_linksOf (v u : ℕ) (harcs : ∀ e ∈ arcs, 0 < e.weight) :
    (linksOf v arcs).get? u = if linked v u arcs = 0 then none else some (linked v u arcs) := by
  induction arcs using List.reverseRecOn with
  | nil => rfl
  | append_singleton arcs e ih =>
    have hbefore := ih fun d hd => harcs d (List.mem_append_left _ hd)
    have hsum := linked_append v u arcs e
    cases hp : e.linkAt? v with
    | none =>
      rw [hp, Option.elim_none, Nat.add_zero] at hsum
      rw [linksOf_append, hp, hsum]
      exact hbefore
    | some p =>
      rw [hp, Option.elim_some] at hsum
      rw [linksOf_append, hp, Option.elim_some, SortedMap.add]
      by_cases hu : p.1 = u
      · have hpos := linkAt?_pos hp (harcs e (by simp))
        rw [if_pos hu] at hsum
        rw [hsum, if_neg (by omega), ← hu, SortedMap.get?_upsert_self, hu, hbefore]
        split <;> simp_all
      · rw [if_neg hu, Nat.add_zero] at hsum
        rw [hsum, SortedMap.get?_upsert_of_ne _ _ (Ne.symm hu), hbefore]

theorem linked_self (v : ℕ) (arcs : List Arc) : linked v v arcs = 0 := by
  refine sumOver_eq_zero fun e _ => ?_
  simp only [Arc.linkAt?]
  grind

theorem linked_arcs (g : CallGraph) (huv : u ≠ v) : linked v u g.arcs = g.linkWeight v u := by
  rw [linkWeight, ← sumOver_between, ← sumOver_between, ← sumOver_add]
  refine sumOver_congr fun e _ => ?_
  simp only [Arc.linkAt?, Prod.mk.injEq]
  grind

/-- **The links of a vertex are its neighbours.** -/
theorem entries_linksOf (g : CallGraph) (v : ℕ) : (linksOf v g.arcs).entries = g.incident v := by
  have harcs : ∀ e ∈ g.arcs, 0 < e.weight := fun e he => (fits_of_get? (mem_arcs.mp he)).2.2
  refine SortedMap.entries_eq_of_mem_iff (linksOf v g.arcs).sorted
    ((g.pairwise_incident v).imp fun hlt => decide_eq_true hlt) fun ⟨u, w⟩ => ?_
  rw [← SortedMap.get?_eq_some_iff, get?_linksOf v u harcs, mem_incident]
  by_cases huv : u = v
  · subst huv
    simp [linked_self]
  · rw [linked_arcs g huv, and_iff_right huv]
    split <;> grind

end Filling

end CallCommunities
