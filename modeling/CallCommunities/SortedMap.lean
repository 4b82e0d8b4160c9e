import CallCommunities.KeyOrder

/-!
# SortedMap — finite maps as lists sorted by key

A `SortedMap` keeps its entries in strictly increasing order of their keys, so **two maps with the
same look-ups are the same map** (`ext_get?`).  Every operation is an instance of `upsert`, the update
of one key from its old value, or of `filterKeys`.
-/

namespace CallCommunities

open KeyOrder

/-- A finite map whose entries stand in strictly increasing order of their keys. -/
structure SortedMap (κ ν : Type) [KeyOrder κ] where
  entries : List (κ × ν)
  sorted : entries.Pairwise fun x y => before x.1 y.1 = true

namespace SortedMap

variable {κ ν : Type} [KeyOrder κ]

/-- The value stored for a key in a sorted list of entries. -/
def lookup (k : κ) : List (κ × ν) → Option ν
  | [] => none
  | (j, x) :: rest => if before j k then lookup k rest else if before k j then none else some x

/-- Updates the value of one key from its old value, or puts the key where it belongs. -/
def place (k : κ) (f : Option ν → ν) : List (κ × ν) → List (κ × ν)
  | [] => [(k, f none)]
  | (j, x) :: rest =>
    if before j k then (j, x) :: place k f rest
    else if before k j then (k, f none) :: (j, x) :: rest
    else (j, f (some x)) :: rest

theorem mem_place {k : κ} {f : Option ν → ν} {e : κ × ν} : ∀ {l : List (κ × ν)},
    e ∈ place k f l → e ∈ l ∨ e.1 = k ∧ (e.2 = f none ∨ ∃ x, (k, x) ∈ l ∧ e.2 = f (some x))
  | [], h => by simp [place] at h; simp [h]
  | (j, x) :: rest, h => by
    unfold place at h
    split at h
    · rcases List.mem_cons.mp h with rfl | h
      · simp
      · rcases mem_place h with h | ⟨hk, h | ⟨y, hy, h⟩⟩
        · exact .inl (List.mem_cons_of_mem _ h)
        · exact .inr ⟨hk, .inl h⟩
        · exact .inr ⟨hk, .inr ⟨y, List.mem_cons_of_mem _ hy, h⟩⟩
    · rename_i hjk
      split at h
      · rcases List.mem_cons.mp h with rfl | h
        · exact .inr ⟨rfl, .inl rfl⟩
        · exact .inl h
      · rename_i hkj
        have hj : j = k := eq_of_not_before (by simpa using hjk) (by simpa using hkj)
        subst hj
        rcases List.mem_cons.mp h with rfl | h
        · exact .inr ⟨rfl, .inr ⟨x, by simp, rfl⟩⟩
        · exact .inl (List.mem_cons_of_mem _ h)

theorem place_sorted (k : κ) (f : Option ν → ν) : ∀ {l : List (κ × ν)},
    (l.Pairwise fun x y => before x.1 y.1 = true) →
    (place k f l).Pairwise fun x y => before x.1 y.1 = true
  | [], _ => by simp [place]
  | (j, x) :: rest, h => by
    have hrest := List.pairwise_cons.mp h
    unfold place
    split
    · rename_i hjk
      refine List.pairwise_cons.mpr ⟨fun e he => ?_, place_sorted k f hrest.2⟩
      rcases mem_place he with he | ⟨hk, _⟩
      · exact hrest.1 e he
      · exact hk ▸ hjk
    · split
      · rename_i hkj
        refine List.pairwise_cons.mpr ⟨fun e he => ?_, h⟩
        rcases List.mem_cons.mp he with rfl | he
        · exact hkj
        · exact before_trans hkj (hrest.1 e he)
      · exact List.pairwise_cons.mpr ⟨hrest.1, hrest.2⟩

/-- The map without entries. -/
def empty : SortedMap κ ν := ⟨[], .nil⟩

/-- The value stored for `k`. -/
def get? (m : SortedMap κ ν) (k : κ) : Option ν := lookup k m.entries

/-- Whether `k` has a value. -/
def contains (m : SortedMap κ ν) (k : κ) : Bool := (m.get? k).isSome

/-- Sets the value of `k` from its old value, if it has one. -/
def upsert (m : SortedMap κ ν) (k : κ) (f : Option ν → ν) : SortedMap κ ν :=
  ⟨place k f m.entries, place_sorted k f m.sorted⟩

/-- Sets the value of `k`. -/
def insert (m : SortedMap κ ν) (k : κ) (x : ν) : SortedMap κ ν := m.upsert k fun _ => x

/-- Adds `n` to the number counted under `k`; a key without a number counts as zero. -/
def add (m : SortedMap κ Nat) (k : κ) (n : Nat) : SortedMap κ Nat :=
  m.upsert k fun old => old.getD 0 + n

/-- The entries whose keys satisfy `p`. -/
def filterKeys (m : SortedMap κ ν) (p : κ → Bool) : SortedMap κ ν :=
  ⟨m.entries.filter fun e => p e.1, m.sorted.sublist List.filter_sublist⟩

/-- The map without the key `k`. -/
def erase (m : SortedMap κ ν) (k : κ) : SortedMap κ ν :=
  m.filterKeys fun j => before j k || before k j

/-- The map of a list of pairs; of two pairs with one key the later counts. -/
def ofList (pairs : List (κ × ν)) : SortedMap κ ν :=
  pairs.foldl (fun m e => m.insert e.1 e.2) empty

/-- The keys, in increasing order. -/
def keys (m : SortedMap κ ν) : List κ := m.entries.map (·.1)

/-- The values, in the order of their keys. -/
def values (m : SortedMap κ ν) : List ν := m.entries.map (·.2)

/-- The number of keys. -/
def size (m : SortedMap κ ν) : Nat := m.entries.length

/-- The distinct members of a list, in increasing order. -/
def sortDistinct (members : List κ) : List κ := (ofList (members.map fun k => (k, ()))).keys

@[ext] theorem ext_entries {m n : SortedMap κ ν} (h : m.entries = n.entries) : m = n := by
  cases m; cases n; cases h; rfl

/-! ## Look-up after an update -/

theorem lookup_place_self (k : κ) (f : Option ν → ν) : ∀ l : List (κ × ν),
    lookup k (place k f l) = some (f (lookup k l))
  | [] => by simp [place, lookup, before_irrefl]
  | (j, x) :: rest => by
    unfold place
    split
    · rename_i hjk
      simp [lookup, hjk, lookup_place_self k f rest]
    · split
      · rename_i hjk hkj
        simp [lookup, before_irrefl, hjk, hkj]
      · rename_i hjk hkj
        simp [lookup, hjk, hkj]

theorem lookup_place_of_ne {i k : κ} (f : Option ν → ν) (hik : i ≠ k) : ∀ l : List (κ × ν),
    lookup i (place k f l) = lookup i l
  | [] => by
    cases h : before k i with
    | true => simp [place, lookup, h]
    | false =>
      cases h' : before i k with
      | true => simp [place, lookup, h, h']
      | false => exact absurd (eq_of_not_before h' h) hik
  | (j, x) :: rest => by
    unfold place
    split
    · simp only [lookup, lookup_place_of_ne f hik rest]
    · split
      · rename_i hjk hkj
        cases h : before k i with
        | true => simp [lookup, h]
        | false =>
          cases h' : before i k with
          | true => simp [lookup, h, h', before_asymm (before_trans h' hkj), before_trans h' hkj]
          | false => exact absurd (eq_of_not_before h' h) hik
      · rename_i hjk hkj
        have hj : j = k := eq_of_not_before (by simpa using hjk) (by simpa using hkj)
        subst hj
        cases h : before j i with
        | true => simp [lookup, h]
        | false =>
          cases h' : before i j with
          | true => simp [lookup, h, h']
          | false => exact absurd (eq_of_not_before h' h) hik

@[simp] theorem get?_empty (k : κ) : (empty : SortedMap κ ν).get? k = none := rfl

@[simp] theorem get?_upsert_self (m : SortedMap κ ν) (k : κ) (f : Option ν → ν) :
    (m.upsert k f).get? k = some (f (m.get? k)) := lookup_place_self k f m.entries

theorem get?_upsert_of_ne (m : SortedMap κ ν) {i k : κ} (f : Option ν → ν) (h : i ≠ k) :
    (m.upsert k f).get? i = m.get? i := lookup_place_of_ne f h m.entries

@[simp] theorem get?_insert_self (m : SortedMap κ ν) (k : κ) (x : ν) :
    (m.insert k x).get? k = some x := get?_upsert_self m k _

theorem get?_insert_of_ne (m : SortedMap κ ν) {i k : κ} (x : ν) (h : i ≠ k) :
    (m.insert k x).get? i = m.get? i := get?_upsert_of_ne m _ h

/-! ## Look-up and membership -/

theorem mem_of_lookup {k : κ} {x : ν} : ∀ {l : List (κ × ν)}, lookup k l = some x → (k, x) ∈ l
  | [], h => by simp [lookup] at h
  | (j, y) :: rest, h => by
    unfold lookup at h
    split at h
    · exact List.mem_cons_of_mem _ (mem_of_lookup h)
    · rename_i hjk
      split at h
      · simp at h
      · rename_i hkj
        have hj : j = k := eq_of_not_before (by simpa using hjk) (by simpa using hkj)
        simp_all

theorem lookup_of_mem {k : κ} {x : ν} : ∀ {l : List (κ × ν)},
    (l.Pairwise fun x y => before x.1 y.1 = true) → (k, x) ∈ l → lookup k l = some x
  | (j, y) :: rest, h, hmem => by
    have hrest := List.pairwise_cons.mp h
    rcases List.mem_cons.mp hmem with heq | hmem
    · cases heq
      simp [lookup, before_irrefl]
    · simp [lookup, hrest.1 _ hmem, lookup_of_mem hrest.2 hmem]

/-- **Look-up is membership among the entries.** -/
theorem get?_eq_some_iff {m : SortedMap κ ν} {k : κ} {x : ν} :
    m.get? k = some x ↔ (k, x) ∈ m.entries :=
  ⟨mem_of_lookup, lookup_of_mem m.sorted⟩

theorem contains_iff_mem_keys {m : SortedMap κ ν} {k : κ} : m.contains k = true ↔ k ∈ m.keys := by
  simp only [contains, Option.isSome_iff_exists, get?_eq_some_iff, keys, List.mem_map]
  constructor
  · rintro ⟨x, hx⟩
    exact ⟨(k, x), hx, rfl⟩
  · rintro ⟨⟨j, x⟩, hx, rfl⟩
    exact ⟨x, hx⟩

theorem entries_eq_of_mem_iff : ∀ {l l' : List (κ × ν)},
    (l.Pairwise fun x y => before x.1 y.1 = true) →
    (l'.Pairwise fun x y => before x.1 y.1 = true) → (∀ e, e ∈ l ↔ e ∈ l') → l = l'
  | [], [], _, _, _ => rfl
  | [], e :: _, _, _, h => by simpa using (h e).mpr (by simp)
  | e :: _, [], _, _, h => by simpa using (h e).mp (by simp)
  | d :: l, e :: l', hl, hl', h => by
    have hd := List.pairwise_cons.mp hl
    have he := List.pairwise_cons.mp hl'
    have heads : d = e := by
      rcases List.mem_cons.mp ((h d).mp (by simp)) with hde | hde
      · exact hde
      · rcases List.mem_cons.mp ((h e).mpr (by simp)) with hed | hed
        · exact hed.symm
        · have := before_asymm (he.1 d hde)
          simp [hd.1 e hed] at this
    subst heads
    refine congrArg _ (entries_eq_of_mem_iff hd.2 he.2 fun x => ⟨fun hx => ?_, fun hx => ?_⟩)
    · rcases List.mem_cons.mp ((h x).mp (List.mem_cons_of_mem _ hx)) with rfl | hx'
      · exact absurd rfl (ne_of_before (hd.1 x hx))
      · exact hx'
    · rcases List.mem_cons.mp ((h x).mpr (List.mem_cons_of_mem _ hx)) with rfl | hx'
      · exact absurd rfl (ne_of_before (he.1 x hx))
      · exact hx'

/-- **Two maps with the same look-ups are equal.** -/
theorem ext_get? {m n : SortedMap κ ν} (h : ∀ k, m.get? k = n.get? k) : m = n := by
  refine ext_entries (entries_eq_of_mem_iff m.sorted n.sorted fun ⟨k, x⟩ => ?_)
  rw [← get?_eq_some_iff, ← get?_eq_some_iff, h k]

end SortedMap

end CallCommunities
