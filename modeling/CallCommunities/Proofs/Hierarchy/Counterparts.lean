import CallCommunities.Proofs.Hierarchy.Embedding

/-!
# Proofs/Hierarchy/Counterparts — graphs with the same calls by name

A graph `h` **holds** `g` when it has the names of `g` and between any two names the calls of `g`: so it
is a copy of `g`, with every vertex at its counterpart, the vertex of its name (`Holds.embeds`), and
the names that are only in `h` have no calls.  A partition spread over `h` reads by name as before
(`get?_spread`), and the new vertices are alone (`get?_spread_new`).

Where the vertices of `g` also keep their order, `h` is `g` with vertices inserted that have no calls.
Detection gives these to themselves and is the same otherwise: **vertices without calls are inert**
(`detection_padded`).
-/

namespace CallCommunities

open Assignment

namespace CallGraph

variable {g h : CallGraph} {a : Assignment} {s t : String} {u v x : ℕ}

/-! ## Counterparts -/

/-- Whether `h` has the names of `g`, the calls of `g` between them, and no other calls. -/
structure Holds (g h : CallGraph) : Prop where
  mem : ∀ s ∈ g.vertices.items, s ∈ h.vertices.items
  callsNamed_eq : ∀ s ∈ h.vertices.items, ∀ t ∈ h.vertices.items,
    h.callsNamed s t = g.callsNamed s t

/-- The vertex of `h` with the name of a vertex of `g`. -/
def counterpart (g h : CallGraph) (v : ℕ) : ℕ := (h.vertexOf? (g.name v)).getD v

/-- A vertex of the same name is the counterpart. -/
theorem counterpart_eq (hx : x < h.vertexCount) (hname : h.name x = g.name v) :
    g.counterpart h v = x := by
  rw [counterpart, vertexOf?_eq_some_iff.mpr ⟨hx, hname⟩]
  rfl

namespace Holds

variable (hH : Holds g h)
include hH

/-- Between any two names there are the same calls. -/
theorem callsNamed_congr (s t : String) : h.callsNamed s t = g.callsNamed s t := by
  have hout : ∀ {r}, r ∉ h.vertices.items → r ∉ g.vertices.items := fun hr hr' =>
    hr (hH.mem _ hr')
  by_cases hs : s ∈ h.vertices.items
  · by_cases ht : t ∈ h.vertices.items
    · exact hH.callsNamed_eq s hs t ht
    · rw [(callsNamed_eq_zero ht s).2, (callsNamed_eq_zero (hout ht) s).2]
  · rw [(callsNamed_eq_zero hs t).1, (callsNamed_eq_zero (hout hs) t).1]

theorem counterpart_spec (hv : v < g.vertexCount) :
    g.counterpart h v < h.vertexCount ∧ h.name (g.counterpart h v) = g.name v := by
  obtain ⟨x, hx, hname⟩ := exists_name_eq (hH.mem _ (name_mem hv))
  rw [counterpart_eq hx hname]
  exact ⟨hx, hname⟩

/-- **The vertices that are counterparts are those with a name of `g`.** -/
theorem mem_placed_iff (hx : x < h.vertexCount) :
    x ∈ g.placed (g.counterpart h) ↔ h.name x ∈ g.vertices.items := by
  rw [mem_placed]
  constructor
  · rintro ⟨v, hv, rfl⟩
    rw [(hH.counterpart_spec hv).2]
    exact name_mem hv
  · intro hmem
    obtain ⟨v, hv, hname⟩ := exists_name_eq hmem
    exact ⟨v, hv, counterpart_eq hx hname.symm⟩

/-- **A graph that holds `g` is a copy of it**, with every vertex at its counterpart. -/
theorem embeds : Embeds 1 (g.counterpart h) g h where
  lt v hv := (hH.counterpart_spec hv).1
  rank_le_iff u hu v hv := by
    obtain ⟨hu', hname⟩ := hH.counterpart_spec hu
    obtain ⟨hv', hname'⟩ := hH.counterpart_spec hv
    exact rank_le_iff_rank_le hu hv hu' hv' (by rw [hname, hname'])
  linkWeight_eq u hu v hv := by
    obtain ⟨hu', hname⟩ := hH.counterpart_spec hu
    obtain ⟨hv', hname'⟩ := hH.counterpart_spec hv
    rw [linkWeight_eq_callsNamed hu' hv', hname, hname', hH.callsNamed_congr, hH.callsNamed_congr,
      linkWeight_eq_callsNamed hu hv, Nat.one_mul]
  idle x hx y := by
    rcases Nat.lt_or_ge x h.vertexCount with hlt | hge
    · rcases Nat.lt_or_ge y h.vertexCount with hlt' | hge'
      · obtain ⟨hout, hin⟩ := callsNamed_eq_zero ((hH.mem_placed_iff hlt).not.mp hx) (h.name y)
        rw [linkWeight_eq_callsNamed hlt hlt', hH.callsNamed_congr, hH.callsNamed_congr, hout, hin]
      · exact linkWeight_eq_zero hge'
    · rw [linkWeight_comm, linkWeight_eq_zero hge]

/-- **Spread labels read by name as before.** -/
theorem get?_spread (ha : a.Valid g.vertexCount) (hs : s ∈ g.vertices.items) :
    (toNames h (a.spread (g.counterpart h) g h)).get? s = (toNames g a).get? s := by
  obtain ⟨v, hv, rfl⟩ := exists_name_eq hs
  obtain ⟨hlt, hname⟩ := hH.counterpart_spec hv
  have hwritten := get?_toNames (a.spread (g.counterpart h) g h) hlt
  rw [hH.embeds.labelOf_spread a hv, hname, (hH.counterpart_spec (ha.labelOf_lt hv)).2] at hwritten
  rw [hwritten, get?_toNames a hv]

/-- New vertices are communities of their own. -/
theorem get?_spread_new (a : Assignment) (hs : s ∈ h.vertices.items)
    (hnew : s ∉ g.vertices.items) :
    (toNames h (a.spread (g.counterpart h) g h)).get? s = some s := by
  obtain ⟨x, hx, rfl⟩ := exists_name_eq hs
  rw [get?_toNames _ hx, Embeds.labelOf_spread_idle a ((hH.mem_placed_iff hx).not.mpr hnew)]

end Holds

/-! ## Vertices without calls -/

/-- Whether `h` is `g` with vertices inserted that have no calls, anywhere in the order and under any
new names. -/
structure Pads (g h : CallGraph) : Prop where
  sublist : g.vertices.items.Sublist h.vertices.items
  callsNamed_eq : ∀ s ∈ h.vertices.items, ∀ t ∈ h.vertices.items,
    h.callsNamed s t = g.callsNamed s t

theorem Pads.holds (hp : Pads g h) : Holds g h := ⟨fun _ hs => hp.sublist.subset hs, hp.callsNamed_eq⟩

/-- Counterparts come in the order of the vertices. -/
theorem Pads.strictMonoOn (hp : Pads g h) :
    StrictMonoOn (g.counterpart h) (Set.Iio g.vertexCount) := by
  obtain ⟨ψ, hψ⟩ := List.sublist_iff_exists_orderEmbedding_getElem?_eq.mp hp.sublist
  have hplace : ∀ v < g.vertexCount, g.counterpart h v = ψ v := fun v hv => by
    have hfound := getElem?_items.mpr ⟨hv, rfl⟩
    rw [hψ] at hfound
    obtain ⟨hlt, hname⟩ := getElem?_items.mp hfound
    exact counterpart_eq hlt hname
  intro u hu v hv huv
  rw [hplace u hu, hplace v hv]
  exact ψ.strictMono huv

end CallGraph

open CallGraph Hierarchy

/-- **Vertices without calls are inert.**  Insert vertices without calls into a graph, as many as you
like, anywhere in the order and under any new names.  Detection gives each of them to itself, and gives
all other vertices, in as many rounds, the communities it gave them before, with the same modularity,
bit by bit, and the same warnings. -/
theorem detection_padded (settings : Settings) {g h : CallGraph} (hp : Pads g h) :
    (∀ s ∈ h.vertices.items, s ∉ g.vertices.items →
      (detect settings h).assignment.get? s = some s)
    ∧ (∀ s ∈ g.vertices.items,
      (detect settings h).assignment.get? s = (detect settings g).assignment.get? s)
    ∧ (detect settings h).levels = (detect settings g).levels
    ∧ (detect settings h).modularity = (detect settings g).modularity
    ∧ (detect settings h).warnings = (detect settings g).warnings := by
  have hH := hp.holds
  have hvalid := valid_reached settings settings.maxLevels g
  rw [hH.embeds.detect_eq hp.strictMonoOn]
  refine ⟨fun s hs hnew => hH.get?_spread_new _ hs hnew, fun s hs => ?_, rfl, rfl, rfl⟩
  rw [assignment_detect]
  exact hH.get?_spread hvalid hs

/-- The square with two more vertices, one in front that comes between the others by name, and one
between the others that comes first by name. -/
def CallGraph.paddedSquare : CallGraph :=
  .ofArcs ⟨["bb", "a", "b", "A", "c", "d"], by decide⟩
    [⟨1, 2, 2⟩, ⟨4, 5, 2⟩, ⟨1, 4, 2⟩, ⟨2, 5, 2⟩, ⟨1, 5, 1⟩, ⟨2, 4, 1⟩]

theorem detection_padded_square : Pads square paddedSquare
    ∧ (detect .default paddedSquare).assignment.get? "A" = some "A"
    ∧ (detect .default paddedSquare).assignment.get? "d"
      = (detect .default square).assignment.get? "d"
    ∧ (detect .default paddedSquare).modularity = (detect .default square).modularity := by
  have hp : Pads square paddedSquare := ⟨by decide, by decide +kernel⟩
  obtain ⟨hnew, hold, -, hmodularity, -⟩ := detection_padded .default hp
  exact ⟨hp, hnew "A" (by decide) (by decide), hold "d" (by decide), hmodularity⟩

end CallCommunities
