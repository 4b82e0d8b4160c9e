import CallCommunities.Files.Tree

/-!
# Proofs/Files/Writing — what writing a file changes

A file is written at a place where no directory stands.  So no path is led astray: places that could be
reached still can (`follow_put`), and what is reached at any other place was there before
(`follow_of_put`).  **A file that was written is found again with its text** (`readText_put_self`), and
whatever other file a path names, **no other text has changed** (`readText_put_of_ne`).
-/

namespace CallCommunities.Files.Tree

variable {t : Tree} {place q : Place} {content : ByteArray} {workingDirectory : Place}
  {path text : String}

/-! ## Nodes -/

theorem nodeAt?_put_self (hne : place ≠ []) (node : Node) :
    (t.put place node).nodeAt? place = some node := by
  rw [nodeAt?, if_neg (by simpa using hne), put, SortedMap.get?_insert_self]

theorem nodeAt?_put_of_ne (h : q ≠ place) (node : Node) :
    (t.put place node).nodeAt? q = t.nodeAt? q := by
  rw [nodeAt?, nodeAt?, put, SortedMap.get?_insert_of_ne _ _ h]

theorem isSome_nodeAt?_put {node : Node} (h : (t.nodeAt? q).isSome = true) :
    ((t.put place node).nodeAt? q).isSome = true := by
  by_cases hq : q = place
  · subst hq
    by_cases hroot : q = []
    · subst hroot
      rfl
    · rw [nodeAt?_put_self hroot]
      rfl
  · rwa [nodeAt?_put_of_ne hq]

theorem ne_root (h : t.isDirectory place = false) : place ≠ [] := by
  rintro rfl
  cases h

/-- A file in place of no directory leaves all directories. -/
theorem isDirectory_put (h : t.isDirectory place = false) (q : Place) :
    (t.put place (.file content)).isDirectory q = t.isDirectory q := by
  by_cases hq : q = place
  · rw [hq, h, isDirectory, nodeAt?_put_self (ne_root h)]
  · rw [isDirectory, isDirectory, nodeAt?_put_of_ne hq]

/-! ## Paths -/

theorem follow_append (t : Tree) : ∀ (here : Place) (l l' : List String),
    t.follow here (l ++ l') = (t.follow here l).bind fun there => t.follow there l'
  | _, [], _ => rfl
  | here, part :: l, l' => by
    rw [List.cons_append, follow, follow]
    split
    · split
      · exact follow_append t here l l'
      · split
        · exact follow_append t here.dropLast l l'
        · split
          · exact follow_append t (here ++ [part]) l l'
          · rfl
    · rfl

/-- What is no directory leads nowhere. -/
theorem eq_of_follow (h : t.isDirectory place = false) : ∀ {parts : List String},
    t.follow place parts = some q → q = place
  | [], hq => (Option.some.inj hq).symm
  | part :: parts, hq => by
    rw [follow, if_neg (by simp [h])] at hq
    cases hq

/-- **What could be reached still can.** -/
theorem follow_put (h : t.isDirectory place = false) : ∀ {parts : List String} {here : Place},
    t.follow here parts = some q → (t.put place (.file content)).follow here parts = some q
  | [], _, hq => hq
  | part :: parts, here, hq => by
    rw [follow] at hq ⊢
    rw [isDirectory_put h]
    split at hq
    · rw [if_pos ‹_›]
      split at hq
      · rw [if_pos ‹_›]
        exact follow_put h hq
      · rw [if_neg ‹_›]
        split at hq
        · rw [if_pos ‹_›]
          exact follow_put h hq
        · rw [if_neg ‹_›]
          split at hq
          · rw [if_pos (isSome_nodeAt?_put ‹_›)]
            exact follow_put h hq
          · cases hq
    · cases hq

/-- **What is reached at another place was there before.** -/
theorem follow_of_put (h : t.isDirectory place = false) (hne : q ≠ place) :
    ∀ {parts : List String} {here : Place},
      (t.put place (.file content)).follow here parts = some q → t.follow here parts = some q
  | [], _, hq => hq
  | part :: parts, here, hq => by
    rw [follow] at hq ⊢
    rw [isDirectory_put h] at hq
    split at hq
    · rw [if_pos ‹_›]
      split at hq
      · rw [if_pos ‹_›]
        exact follow_of_put h hne hq
      · rw [if_neg ‹_›]
        split at hq
        · rw [if_pos ‹_›]
          exact follow_of_put h hne hq
        · rw [if_neg ‹_›]
          split at hq
          · -- The way cannot lead over the file written.
            have hway : here ++ [part] ≠ place := by
              rintro heq
              rw [heq] at hq
              exact hne (eq_of_follow ((isDirectory_put h place).trans h) hq)
            rename_i hsome
            rw [nodeAt?_put_of_ne hway] at hsome
            rw [if_pos hsome]
            exact follow_of_put h hne hq
          · cases hq
    · cases hq

/-! ## Writing -/

/-- The place of a file that can be written. -/
theorem target?_spec (h : t.target? workingDirectory path = some place) :
    isUsable path = true ∧ t.isDirectory place = false
      ∧ ∃ directory name, partsOf path = (partsOf path).dropLast ++ [name] ∧ isFileName name = true
        ∧ t.follow (origin workingDirectory path) (partsOf path).dropLast = some directory
        ∧ t.isDirectory directory = true ∧ place = directory ++ [name] := by
  rw [target?] at h
  simp only at h
  split at h
  · cases h
  · rename_i hgood
    rw [Bool.or_eq_true, not_or, Bool.not_eq_true', Bool.not_eq_true', Bool.not_eq_false,
      Bool.not_eq_false] at hgood
    obtain ⟨directory, hdirectory, h⟩ := Option.bind_eq_some_iff.mp h
    split at h
    · rename_i hkinds
      obtain rfl := Option.some.inj h
      rw [Bool.and_eq_true, Bool.not_eq_true'] at hkinds
      refine ⟨hgood.1, hkinds.2, directory, _, ?_, hgood.2, hdirectory, hkinds.1, rfl⟩
      cases hlast : (partsOf path).getLast? with
      | none =>
        rw [hlast] at hgood
        exact absurd hgood.2 (by decide)
      | some name =>
        obtain ⟨before, hparts⟩ := List.getLast?_eq_some_iff.mp hlast
        rw [hparts, List.dropLast_concat]
        rfl
    · cases h

theorem locate_put (h : t.target? workingDirectory path = some place) :
    (t.put place (.file content)).locate workingDirectory path = some place := by
  obtain ⟨husable, hkind, directory, name, hparts, hname, hfollow, hdirectory, rfl⟩ := target?_spec h
  simp only [isFileName, Bool.and_eq_true, bne_iff_ne] at hname
  obtain ⟨⟨⟨hempty, hdot⟩, hdots⟩, -⟩ := hname
  rw [locate, if_pos husable, hparts, follow_append, follow_put hkind hfollow, Option.bind_some, follow,
    isDirectory_put hkind, if_pos hdirectory, if_neg (by simp [hempty, hdot]), if_neg hdots,
    nodeAt?_put_self (ne_root hkind)]
  rfl

theorem fromUTF8?_toUTF8 (text : String) : String.fromUTF8? text.toUTF8 = some text := by
  unfold String.fromUTF8?
  rw [String.toUTF8_eq_toByteArray, dif_pos text.isValidUTF8]
  rfl

/-- **A text that was written is read again.** -/
theorem readText_put_self (h : t.target? workingDirectory path = some place) :
    (t.put place (.file text.toUTF8)).readText workingDirectory path = some text := by
  have hkind := (target?_spec h).2.1
  rw [readText, locate_put h, Option.bind_some, nodeAt?_put_self (ne_root hkind)]
  exact fromUTF8?_toUTF8 text

/-- **Whatever other file a path names, its text has not changed.** -/
theorem readText_put_of_ne (h : t.isDirectory place = false)
    (hne : (t.put place (.file content)).locate workingDirectory path ≠ some place) :
    (t.put place (.file content)).readText workingDirectory path
      = t.readText workingDirectory path := by
  have hlocate : (t.put place (.file content)).locate workingDirectory path
      = t.locate workingDirectory path := by
    rw [locate, locate] at *
    split
    · rename_i husable
      rw [if_pos husable] at hne
      refine Option.ext fun q => ⟨fun hq => ?_, follow_put h⟩
      exact follow_of_put h (fun heq => hne (hq.trans (congrArg some heq))) hq
    · rfl
  rw [readText, readText, hlocate]
  cases hq : t.locate workingDirectory path with
  | none => rfl
  | some q =>
    rw [Option.bind_some, Option.bind_some, nodeAt?_put_of_ne]
    rintro rfl
    exact hne (hlocate.trans hq)

end CallCommunities.Files.Tree
