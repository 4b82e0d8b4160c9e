/-!
# Roster — distinct entries in order of first mention

A `Roster` numbers what is mentioned from zero, in the order of the first mentions.  **Nothing stands
twice in it**, so an entry has at most one index.  Vertices are numbered this way, and so are
communities when a graph is coarsened.
-/

namespace CallCommunities

/-- Distinct entries; the index of an entry is its position. -/
structure Roster (α : Type) where
  items : List α
  nodup : items.Nodup
deriving DecidableEq

namespace Roster

variable {α : Type}

/-- The roster without entries. -/
def empty : Roster α := ⟨[], .nil⟩

/-- The number of entries. -/
def size (t : Roster α) : Nat := t.items.length

@[ext] theorem ext_items {t u : Roster α} (h : t.items = u.items) : t = u := by
  cases t; cases u; cases h; rfl

@[simp] theorem items_empty : (empty : Roster α).items = [] := rfl

variable [DecidableEq α]

/-- The index of an entry. -/
def indexOf? (t : Roster α) (x : α) : Option Nat := t.items.idxOf? x

/-- Whether `x` has been mentioned. -/
def contains (t : Roster α) (x : α) : Bool := t.items.contains x

/-- Mentions `x`: a new entry goes to the end, a known one changes nothing. -/
def mention (t : Roster α) (x : α) : Roster α :=
  if h : x ∈ t.items then t
  else ⟨t.items ++ [x], by
    refine List.nodup_append.mpr ⟨t.nodup, by simp, fun a ha b hb => ?_⟩
    rintro rfl
    exact h (List.mem_singleton.mp hb ▸ ha)⟩

/-- The entries of a list in order of first mention. -/
def ofList (mentions : List α) : Roster α := mentions.foldl mention empty

theorem items_mention (t : Roster α) (x : α) :
    (t.mention x).items = if x ∈ t.items then t.items else t.items ++ [x] := by
  unfold mention
  split <;> simp_all

/-- **A mention adds its entry and nothing else.** -/
theorem mem_mention {t : Roster α} {x y : α} :
    y ∈ (t.mention x).items ↔ y ∈ t.items ∨ y = x := by
  rw [items_mention]
  split
  · exact ⟨.inl, fun h => h.elim id fun e => e ▸ ‹_›⟩
  · simp

end Roster

end CallCommunities
