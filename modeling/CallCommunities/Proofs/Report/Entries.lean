import CallCommunities.Listing
import CallCommunities.Proofs.Graph.Names
import CallCommunities.Proofs.Report.ClassNames

/-!
# Proofs/Report/Entries — what the listing of a graph tells of its callers

The listing is read back line by line (`entriesBelow`): each caller with the heading above it and the calls
right below it.  **Read so, it holds every caller once, under its own class, with all its calls in the order
of the callees** (`mem_entriesBelow_listing`, `count_caller_listing`).

The text is the rendered lines, each with a line break at its end, so **it can be cut into these lines
again** when no name holds a line break (`splitOn_renderListing`).
-/

namespace CallCommunities

open KeyOrder

/-! ## Reading a listing -/

/-- A caller in a listing. -/
@[ext] structure Entry where
  /-- The last heading above the caller. -/
  heading? : Option String
  caller : String
  /-- The calls right below it. -/
  calls : List (String × ℕ)

/-- The calls at the beginning of some lines. -/
def leadingCalls : List ListingLine → List (String × ℕ)
  | .call callee weight :: rest => (callee, weight) :: leadingCalls rest
  | _ => []

/-- The callers in some lines; `heading?` is the last heading above these. -/
def entriesBelow (heading? : Option String) : List ListingLine → List Entry
  | [] => []
  | .heading k :: rest => entriesBelow (some k) rest
  | .caller s :: rest => ⟨heading?, s, leadingCalls rest⟩ :: entriesBelow heading? rest
  | _ :: rest => entriesBelow heading? rest

theorem count_caller (s : String) : ∀ (heading? : Option String) (lines : List ListingLine),
    ((entriesBelow heading? lines).map (·.caller)).count s = lines.count (.caller s)
  | _, [] => rfl
  | heading?, l :: lines => by
    have ih := fun heading? => count_caller s heading? lines
    cases l with
    | caller r => simp only [entriesBelow, List.map_cons, List.count_cons, ih, beq_eq_decide,
        ListingLine.caller.injEq]
    | heading k => exact (ih _).trans (List.count_cons_of_ne (by simp)).symm
    | _ => exact (ih _).trans (List.count_cons_of_ne (by simp)).symm

section Calls

variable (calls : List (String × ℕ)) (rest : List ListingLine) (heading? : Option String)

theorem leadingCalls_calls : leadingCalls (calls.map (fun c => .call c.1 c.2) ++ rest)
    = calls ++ leadingCalls rest := by
  induction calls with
  | nil => rfl
  | cons c calls ih => exact congrArg (c :: ·) ih

theorem entriesBelow_calls : entriesBelow heading? (calls.map (fun c => .call c.1 c.2) ++ rest)
    = entriesBelow heading? rest := by
  induction calls with
  | nil => rfl
  | cons c calls ih => exact ih

end Calls

namespace CallGraph

variable {g : CallGraph} {v : ℕ} {s t : String}

/-! ## Callers and their calls -/

/-- Whether a name is that of a vertex that calls anything. -/
def IsCaller (g : CallGraph) (s : String) : Prop := ∃ t, 0 < g.callsNamed s t

/-- What a vertex calls and how often, by name. -/
def namedCalls (g : CallGraph) (v : ℕ) : List (String × ℕ) :=
  (SortedMap.ofList ((g.outgoing v).map fun c => (g.name c.1, c.2))).entries

theorem callLines_eq (g : CallGraph) (v : ℕ) : g.callLines v
    = .caller (g.name v) :: (g.namedCalls v).map fun c => .call c.1 c.2 := rfl

theorem pairwise_namedCalls (g : CallGraph) (v : ℕ) :
    (g.namedCalls v).Pairwise fun c d => before c.1 d.1 = true := SortedMap.sorted _

/-- **The calls of a vertex are the calls that are counted from its name.** -/
theorem mem_namedCalls (hv : v < g.vertexCount) {w : ℕ} :
    (t, w) ∈ g.namedCalls v ↔ 0 < w ∧ g.callsNamed (g.name v) t = w := by
  have hnodup : (((g.outgoing v).map fun c => (g.name c.1, c.2)).map (·.1)).Nodup := by
    rw [List.map_map]
    refine List.pairwise_map.mpr ((List.pairwise_map.mp (g.nodup_outgoing v)).imp_of_mem ?_)
    intro c d hc hd hne heq
    exact hne (name_injOn (fits_of_get? (mem_outgoing.mp hc)).2.1
      (fits_of_get? (mem_outgoing.mp hd)).2.1 heq)
  rw [namedCalls, SortedMap.mem_entries_ofList hnodup, List.mem_map]
  constructor
  · rintro ⟨⟨u, w⟩, hc, heq⟩
    cases heq
    have harc : ⟨v, u, w⟩ ∈ g.arcs := mem_arcs.mpr (mem_outgoing.mp hc)
    exact ⟨(fits_of_get? (mem_outgoing.mp hc)).2.2, callsNamed_arc harc⟩
  · rintro ⟨hpos, rfl⟩
    obtain ⟨e, he, hsource, rfl⟩ := callsNamed_pos_iff.mp hpos
    obtain rfl := name_injOn (fits_of_get? (mem_arcs.mp he)).1 hv hsource
    exact ⟨(e.target, e.weight), mem_outgoing.mpr (mem_arcs.mp he), by rw [callsNamed_arc he]⟩

/-- The vertices that call anything, in index order and with their names. -/
def namedCallers (g : CallGraph) : List (String × ℕ) :=
  (g.vertexList.filter fun v => !(g.outgoing v).isEmpty).map fun v => (g.name v, v)

theorem mem_namedCallers {e : String × ℕ} : e ∈ g.namedCallers
    ↔ e.1 = g.name e.2 ∧ e.2 < g.vertexCount ∧ g.outgoing e.2 ≠ [] := by
  simp only [namedCallers, vertexList, List.mem_map, List.mem_filter, List.mem_range,
    Bool.not_eq_true', List.isEmpty_eq_false_iff]
  constructor
  · rintro ⟨v, hv, rfl⟩
    exact ⟨rfl, hv⟩
  · rintro ⟨h, hv⟩
    exact ⟨e.2, hv, Prod.ext h.symm rfl⟩

theorem mem_entries_callers {e : String × ℕ} :
    e ∈ (SortedMap.ofList g.namedCallers).entries ↔ e ∈ g.namedCallers := by
  refine SortedMap.mem_entries_ofList ?_
  rw [namedCallers, List.map_map]
  refine List.Nodup.map_on ?_ (List.nodup_range.filter _)
  intro u hu v hv h
  exact name_injOn (List.mem_range.mp (List.mem_of_mem_filter hu))
    (List.mem_range.mp (List.mem_of_mem_filter hv)) h

theorem mem_callers : v ∈ g.callers ↔ v < g.vertexCount ∧ g.outgoing v ≠ [] := by
  refine List.mem_map.trans ⟨?_, fun h => ?_⟩
  · rintro ⟨e, he, rfl⟩
    exact (mem_namedCallers.mp (mem_entries_callers.mp he)).2
  · exact ⟨(g.name v, v), mem_entries_callers.mpr (mem_namedCallers.mpr ⟨rfl, h⟩), rfl⟩

/-- The names of the callers are the keys that these are sorted by. -/
theorem map_name_callers (g : CallGraph) :
    g.callers.map g.name = (SortedMap.ofList g.namedCallers).keys := by
  refine (List.map_map).trans (List.map_congr_left fun e he => ?_)
  exact (mem_namedCallers.mp (mem_entries_callers.mp he)).1.symm

theorem pairwise_callers (g : CallGraph) :
    (g.callers.map g.name).Pairwise fun s t => before s t = true :=
  map_name_callers g ▸ SortedMap.pairwise_keys _

theorem mem_map_name_callers : s ∈ g.callers.map g.name ↔ g.IsCaller s := by
  rw [List.mem_map]
  constructor
  · rintro ⟨v, hv, rfl⟩
    obtain ⟨⟨u, w⟩, hu⟩ := List.exists_mem_of_ne_nil _ (mem_callers.mp hv).2
    exact ⟨g.name u, callsNamed_pos_iff.mpr ⟨⟨v, u, w⟩, mem_arcs.mpr (mem_outgoing.mp hu), rfl, rfl⟩⟩
  · rintro ⟨t, hpos⟩
    obtain ⟨e, he, rfl, rfl⟩ := callsNamed_pos_iff.mp hpos
    refine ⟨e.source, mem_callers.mpr ⟨(fits_of_get? (mem_arcs.mp he)).1, ?_⟩, rfl⟩
    exact List.ne_nil_of_mem (mem_outgoing.mpr (mem_arcs.mp he))

/-! ## The entries of a listing -/

/-- What the listing holds for a vertex. -/
def entry (g : CallGraph) (v : ℕ) : Entry := ⟨some (classOf (g.name v)), g.name v, g.namedCalls v⟩

/-- The lines for some callers, the first of them set apart. -/
theorem groupLines_cons (g : CallGraph) (current : Option String) (v : ℕ) (rest : List ℕ) :
    g.groupLines current (v :: rest)
      = (if current = some (classOf (g.name v)) then [] else [.heading (classOf (g.name v))])
        ++ .caller (g.name v) :: ((g.namedCalls v).map (fun c => .call c.1 c.2)
          ++ g.groupLines (some (classOf (g.name v))) rest) := by
  rw [groupLines, callLines_eq, List.append_assoc, List.cons_append]

theorem leadingCalls_groupLines (g : CallGraph) (current : Option String) (vs : List ℕ) :
    leadingCalls (g.groupLines current vs) = [] := by
  cases vs with
  | nil => rfl
  | cons v rest =>
    rw [groupLines_cons]
    split <;> rfl

theorem entriesBelow_groupLines (g : CallGraph) : ∀ (current : Option String) (vs : List ℕ),
    entriesBelow current (g.groupLines current vs) = vs.map g.entry
  | _, [] => rfl
  | current, v :: rest => by
    -- with or without a new heading, the caller stands below that of its class
    have hheading (lines : List ListingLine) : entriesBelow current
        ((if current = some (classOf (g.name v)) then [] else [.heading (classOf (g.name v))]) ++ lines)
          = entriesBelow (some (classOf (g.name v))) lines := by
      split
      · rename_i hcurrent
        rw [hcurrent, List.nil_append]
      · rfl
    rw [groupLines_cons, hheading, entriesBelow, leadingCalls_calls, leadingCalls_groupLines,
      List.append_nil, entriesBelow_calls, entriesBelow_groupLines g _ rest, List.map_cons, entry]

/-- **The entries of the listing are the callers, in the order of their names.** -/
theorem entriesBelow_listing (g : CallGraph) :
    entriesBelow none g.listing = g.callers.map g.entry := entriesBelow_groupLines g none g.callers

end CallGraph

namespace Entry

/-- Whether an entry tells of a caller what it ought to. -/
structure Describes (e : Entry) (g : CallGraph) : Prop where
  /-- The caller stands below its own class. -/
  heading?_eq : e.heading? = some (classOf e.caller)
  isCaller : g.IsCaller e.caller
  /-- The calls are all the calls of the caller, ... -/
  mem_calls : ∀ t w, (t, w) ∈ e.calls ↔ 0 < w ∧ g.callsNamed e.caller t = w
  /-- ... by the callee's name. -/
  pairwise_calls : e.calls.Pairwise fun c d => before c.1 d.1 = true

/-- Two such entries of one caller are the same. -/
theorem Describes.unique {g : CallGraph} {e f : Entry} (he : e.Describes g) (hf : f.Describes g)
    (hcaller : e.caller = f.caller) : e = f := by
  have hheading : e.heading? = f.heading? := by rw [he.heading?_eq, hf.heading?_eq, hcaller]
  have hcalls : e.calls = f.calls := SortedMap.entries_eq_of_mem_iff he.pairwise_calls
    hf.pairwise_calls fun ⟨t, w⟩ => by rw [he.mem_calls, hf.mem_calls, hcaller]
  exact Entry.ext hheading hcaller hcalls

end Entry

namespace CallGraph

variable {g : CallGraph} {v : ℕ}

theorem describes_entry (hv : v ∈ g.callers) : (g.entry v).Describes g where
  heading?_eq := rfl
  isCaller := mem_map_name_callers.mp (List.mem_map_of_mem hv)
  mem_calls _ _ := mem_namedCalls (mem_callers.mp hv).1
  pairwise_calls := g.pairwise_namedCalls v

/-- **The entries of the listing are those that tell of a caller what they ought to.** -/
theorem mem_entriesBelow_listing {e : Entry} : e ∈ entriesBelow none g.listing ↔ e.Describes g := by
  rw [entriesBelow_listing, List.mem_map]
  constructor
  · rintro ⟨v, hv, rfl⟩
    exact describes_entry hv
  · intro he
    obtain ⟨v, hv, hname⟩ := List.mem_map.mp (mem_map_name_callers.mpr he.isCaller)
    exact ⟨v, hv, (describes_entry hv).unique he hname⟩

theorem count_caller_listing (g : CallGraph) (s : String) :
    g.listing.count (.caller s) = (g.callers.map g.name).count s := by
  rw [← count_caller s none, entriesBelow_listing, List.map_map]
  rfl

end CallGraph

/-! ## The lines of the text -/

/-- The names in a line. -/
def ListingLine.names : ListingLine → List String
  | .summary .. => []
  | .heading k => [k]
  | .caller s => [s]
  | .call t _ => [t]

theorem newline_notMem_toString (n : ℕ) : '\n' ∉ (toString n).toList := by
  rw [Nat.toString_eq_repr, Nat.toList_repr]
  exact fun h => absurd (Nat.isDigit_of_mem_toDigits (by omega) (by omega) h) (by decide)

theorem newline_notMem_append {s t : String} (hs : '\n' ∉ s.toList) (ht : '\n' ∉ t.toList) :
    '\n' ∉ (s ++ t).toList := by
  rw [String.toList_append, List.mem_append, not_or]
  exact ⟨hs, ht⟩

/-- A line holds no line break when the names in it hold none. -/
theorem ListingLine.newline_notMem_render {l : ListingLine}
    (h : ∀ s ∈ l.names, '\n' ∉ s.toList) : '\n' ∉ l.render.toList := by
  cases l with
  | summary vertices arcs weight =>
    have hvertices := newline_notMem_append (s := "Call graph: ") (by decide)
      (newline_notMem_toString vertices)
    have harcs := newline_notMem_append (newline_notMem_append hvertices (t := " vertices, ") (by decide))
      (newline_notMem_toString arcs)
    exact newline_notMem_append (newline_notMem_append harcs (t := " edges, total weight ") (by decide))
      (newline_notMem_toString weight)
  | heading k => exact h k List.mem_cons_self
  | caller s => exact newline_notMem_append (s := "  ") (by decide) (h s List.mem_cons_self)
  | call t weight =>
    have hcallee := newline_notMem_append (s := "    -> ") (by decide) (h t List.mem_cons_self)
    exact newline_notMem_append (newline_notMem_append hcallee (t := " x") (by decide))
      (newline_notMem_toString weight)

theorem splitOn_join_line : ∀ {texts : List String}, (∀ text ∈ texts, '\n' ∉ text.toList) →
    (String.join (texts.map line)).toList.splitOn '\n' = texts.map String.toList ++ [[]]
  | [], _ => by rfl
  | text :: texts, h => by
    have ih := splitOn_join_line fun text' h' => h text' (List.mem_cons_of_mem _ h')
    rw [String.toList_join] at ih
    rw [String.toList_join, List.map_cons, List.flatMap_cons, line, String.toList_append,
      List.append_assoc]
    change (text.toList ++ '\n' :: (texts.map line).flatMap String.toList).splitOn '\n' = _
    rw [List.splitOn_append_cons_self_of_not_mem (h text List.mem_cons_self), ih]
    rfl

namespace CallGraph

variable {g : CallGraph} {l : ListingLine} {s : String}

theorem mem_groupLines : ∀ {current : Option String} {vs : List ℕ}, l ∈ g.groupLines current vs →
    ∃ v ∈ vs, l = .heading (classOf (g.name v)) ∨ l ∈ g.callLines v
  | _, v :: rest, h => by
    rw [groupLines, List.append_assoc, List.mem_append, List.mem_append] at h
    rcases h with h | h | h
    · split at h
      · cases h
      · exact ⟨v, List.mem_cons_self, .inl (List.mem_singleton.mp h)⟩
    · exact ⟨v, List.mem_cons_self, .inr h⟩
    · obtain ⟨u, hu, h⟩ := mem_groupLines h
      exact ⟨u, List.mem_cons_of_mem _ hu, h⟩

/-- The listing mentions nothing but vertices and their classes. -/
theorem exists_vertex_of_mem_names (hl : l ∈ g.listing) (hs : s ∈ l.names) :
    ∃ r ∈ g.vertices.items, s = r ∨ s = classOf r := by
  rcases List.mem_cons.mp hl with rfl | hl
  · cases hs
  obtain ⟨v, hv, hl⟩ := mem_groupLines hl
  have hlt := (mem_callers.mp hv).1
  rcases hl with rfl | hl
  · exact ⟨g.name v, name_mem hlt, .inr (List.mem_singleton.mp hs)⟩
  rcases List.mem_cons.mp hl with rfl | hl
  · exact ⟨g.name v, name_mem hlt, .inl (List.mem_singleton.mp hs)⟩
  obtain ⟨⟨t, w⟩, hc, rfl⟩ := List.mem_map.mp hl
  obtain ⟨hpos, rfl⟩ := (mem_namedCalls hlt).mp hc
  refine ⟨t, ?_, .inl (List.mem_singleton.mp hs)⟩
  by_contra ht
  rw [(callsNamed_eq_zero ht _).2] at hpos
  exact absurd hpos (lt_irrefl 0)

/-- **The text can be cut into the lines again**, when no name holds a line break. -/
theorem splitOn_renderListing (h : ∀ r ∈ g.vertices.items, '\n' ∉ r.toList) :
    g.renderListing.toList.splitOn '\n' = g.listing.map (·.render.toList) ++ [[]] := by
  have hlines : ∀ text ∈ g.listing.map ListingLine.render, '\n' ∉ text.toList := by
    intro text htext
    obtain ⟨l, hl, rfl⟩ := List.mem_map.mp htext
    refine ListingLine.newline_notMem_render fun s hs hbreak => ?_
    obtain ⟨r, hr, rfl | rfl⟩ := exists_vertex_of_mem_names hl hs
    · exact h _ hr hbreak
    · exact h r hr (mem_of_mem_classOf hbreak)
  have hsplit := splitOn_join_line hlines
  rwa [List.map_map, List.map_map] at hsplit

end CallGraph

end CallCommunities
