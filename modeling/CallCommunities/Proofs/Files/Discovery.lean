import CallCommunities.Files.Tree
import CallCommunities.SettingsSearch
import Mathlib.Data.Nat.Notation
import Mathlib.Logic.ExistsUnique

/-!
# Proofs/Files/Discovery — which settings apply in a directory

A search for settings goes upwards from a directory.  In each directory it finds exactly one of six things
(`Finds`): settings that are valid, or one of five reasons to go on.  **The settings that apply are those of
the nearest of ten directories that has any**, and the defaults when none of them has
(`discover_nearest`).  Either way they leave room for one sweep and one round, for no other settings are
read (`parse_eq_ok_iff`).
-/

namespace CallCommunities

/-! ## Directories upwards -/

namespace Files

/-- The directory so many steps above a path. -/
def up? : ℕ → String → Option String
  | 0, path => some path
  | i + 1, path => (parent? path).bind (up? i)

/-- **The ancestors are the directories above**, as many as asked for. -/
theorem getElem?_ancestors : ∀ (count i : ℕ) (path : String),
    (ancestors count path)[i]? = if i < count then up? i path else none
  | 0, _, _ => rfl
  | count + 1, 0, _ => by rw [if_pos (Nat.succ_pos count)]; rfl
  | count + 1, i + 1, path => by
    rw [ancestors, List.getElem?_cons_succ, up?]
    simp only [Nat.add_lt_add_iff_right]
    cases parent? path with
    | none => rw [List.getElem?_nil, Option.bind_none, ite_self]
    | some parent => exact getElem?_ancestors count i parent

end Files

/-! ## Valid settings -/

namespace Settings

variable {s : Settings}

/-- Whether the ceilings leave room for one sweep and one round. -/
def Valid (s : Settings) : Prop := 1 ≤ s.maxIterations ∧ 1 ≤ s.maxLevels

instance (s : Settings) : Decidable s.Valid :=
  inferInstanceAs (Decidable (1 ≤ s.maxIterations ∧ 1 ≤ s.maxLevels))

theorem validate_eq_ok_iff : s.validate = .ok () ↔ s.Valid := by
  rw [validate, Valid, Nat.one_le_iff_ne_zero, Nat.one_le_iff_ne_zero]
  split
  · simp_all
  · split <;> simp_all

theorem valid_default : default.Valid := by decide

end Settings

namespace SettingsFile

open Files (Tree Place Node join up?)

/-- The settings that a text describes, be they valid or not. -/
def describe? (text : String) : Option Settings := (Toml.parse? text).bind ofDocument?

/-- **A text gives the settings it describes if these are valid.** -/
theorem parse_eq_ok_iff {text : String} {s : Settings} :
    parse text = .ok s ↔ describe? text = some s ∧ s.Valid := by
  rw [parse, describe?]
  cases (Toml.parse? text).bind ofDocument? with
  | none => exact iff_of_false nofun nofun
  | some r =>
    rw [Option.some_inj]
    change (r.validate >>= fun _ => Except.ok r) = .ok s ↔ r = s ∧ s.Valid
    cases hr : r.validate with
    | ok =>
      constructor
      · rintro ⟨⟩
        exact ⟨rfl, Settings.validate_eq_ok_iff.mp hr⟩
      · rintro ⟨rfl, -⟩
        rfl
    | error cause =>
      refine iff_of_false nofun fun h => ?_
      rw [h.1, Settings.validate_eq_ok_iff.mpr h.2] at hr
      cases hr

/-- The valid settings that a text describes. -/
def settingsIn? (text : String) : Option Settings := (parse text).toOption

theorem settingsIn?_eq_some_iff {text : String} {s : Settings} :
    settingsIn? text = some s ↔ describe? text = some s ∧ s.Valid := by
  rw [← parse_eq_ok_iff, settingsIn?]
  cases parse text with
  | ok r => exact ⟨fun h => congrArg Except.ok (Option.some.inj h), fun h => by cases h; rfl⟩
  | error cause => exact iff_of_false nofun nofun

theorem settingsIn?_eq_none {text : String} (h : ∀ s, describe? text = some s → ¬ s.Valid) :
    settingsIn? text = none :=
  Option.eq_none_iff_forall_ne_some.mpr fun s hs =>
    h s (settingsIn?_eq_some_iff.mp hs).1 (settingsIn?_eq_some_iff.mp hs).2

theorem load_eq (read : String → Option String) (path : String) :
    (load (m := Id) read path).run = match read path with
      | none => .error (.unreadableConfig path)
      | some text => parse text := by
  rw [load]
  cases read path <;> rfl

/-- **A load gives valid settings of a text that can be read**, or an error. -/
theorem load_eq_ok_iff {read : String → Option String} {path : String} {s : Settings} :
    (load (m := Id) read path).run = .ok s
      ↔ ∃ text, read path = some text ∧ describe? text = some s ∧ s.Valid := by
  rw [load_eq]
  cases read path with
  | none => exact iff_of_false nofun nofun
  | some text => exact parse_eq_ok_iff.trans (by simp)

/-! ## The nearest usable file -/

/-- The settings in a directory, if a file of the usual name gives any. -/
def usable? (read : String → Option String) (directory : String) : Option Settings :=
  (read (join directory fileName)).bind settingsIn?

theorem toOption_load (read : String → Option String) (directory : String) :
    (load (m := Id) read (join directory fileName)).run.toOption = usable? read directory := by
  rw [load_eq, usable?]
  cases read (join directory fileName) <;> rfl

/-- **A search gives the first usable settings**, or the defaults. -/
theorem firstUsable_eq (read : String → Option String) : ∀ directories : List String,
    (firstUsable (m := Id) read directories).run
      = (directories.findSome? (usable? read)).getD .default
  | [] => rfl
  | directory :: rest => by
    rw [firstUsable, List.findSome?_cons, ← toOption_load]
    generalize load (m := Id) read (join directory fileName) = loaded
    cases loaded with
    | ok s => rfl
    | error cause => exact firstUsable_eq read rest

/-- **No search gives invalid settings.** -/
theorem valid_discover (read : String → Option String) (start : String) :
    (discover (m := Id) read start).run.Valid := by
  rw [discover, firstUsable_eq]
  cases hfound : (Files.ancestors searchDepth start).findSome? (usable? read) with
  | none => exact Settings.valid_default
  | some s =>
    obtain ⟨directory, -, hs⟩ := List.exists_of_findSome?_eq_some hfound
    obtain ⟨text, -, hs⟩ := Option.bind_eq_some_iff.mp hs
    exact (settingsIn?_eq_some_iff.mp hs).2

/-- What a list gives first, by its place. -/
theorem findSome?_by_place {α β : Type} (f : α → Option β) (l : List α) (d : β) :
    (∃ (i : ℕ) (x : α), l[i]? = some x ∧ f x = some ((l.findSome? f).getD d)
        ∧ ∀ j < i, ∃ y, l[j]? = some y ∧ f y = none)
      ∨ (l.findSome? f).getD d = d ∧ ∀ (j : ℕ) (y : α), l[j]? = some y → f y = none := by
  cases hfound : l.findSome? f with
  | none =>
    exact .inr ⟨rfl, fun j y hy => List.findSome?_eq_none_iff.mp hfound y (List.mem_of_getElem? hy)⟩
  | some b =>
    obtain ⟨before, x, after, rfl, hx, hbefore⟩ := List.findSome?_eq_some_iff.mp hfound
    refine .inl ⟨before.length, x, by simp, hx, fun j hj => ⟨before[j], ?_, hbefore _ ?_⟩⟩
    · rw [List.getElem?_append_left hj, List.getElem?_eq_getElem hj]
    · exact List.getElem_mem hj

/-- **The settings that apply are those of the nearest directory that has any**, the defaults if none of
those that are looked into has. -/
theorem discover_by_place (read : String → Option String) (start : String) :
    (∃ i directory, i < searchDepth ∧ up? i start = some directory
        ∧ usable? read directory = some (discover (m := Id) read start).run
        ∧ ∀ j < i, ∃ passed, up? j start = some passed ∧ usable? read passed = none)
      ∨ (discover (m := Id) read start).run = .default
        ∧ ∀ j < searchDepth, ∀ passed, up? j start = some passed → usable? read passed = none := by
  have hplace {i : ℕ} {x : String} : (Files.ancestors searchDepth start)[i]? = some x
      ↔ i < searchDepth ∧ up? i start = some x := by
    rw [Files.getElem?_ancestors, Option.ite_none_right_eq_some]
  rw [discover, firstUsable_eq]
  rcases findSome?_by_place (usable? read) (Files.ancestors searchDepth start) .default with
    ⟨i, directory, hi, hs, hpassed⟩ | ⟨hs, hpassed⟩
  · obtain ⟨hlt, hup⟩ := hplace.mp hi
    refine .inl ⟨i, directory, hlt, hup, hs, fun j hj => ?_⟩
    obtain ⟨passed, hj', hnone⟩ := hpassed j hj
    exact ⟨passed, (hplace.mp hj').2, hnone⟩
  · exact .inr ⟨hs, fun j hj passed hup => hpassed j passed (hplace.mpr ⟨hj, hup⟩)⟩

/-! ## What a search finds in a directory -/

/-- Reads the files of a tree, but for those that may not be read. -/
def readAllowed (t : Tree) (workingDirectory : Place) (denied : String → Bool) (path : String) :
    Option String :=
  if denied path then none else t.readText workingDirectory path

/-- What stands where the file with settings of a directory would be. -/
def nodeIn? (t : Tree) (workingDirectory : Place) (directory : String) : Option Node :=
  (t.locate workingDirectory (join directory fileName)).bind t.nodeAt?

/-- What the content of a file gives: valid settings, or one of the reasons for which it gives none. -/
inductive Gives (content : ByteArray) : Option Settings → Prop
  | notText (h : String.fromUTF8? content = none) : Gives content none
  | malformed {text : String} (h : String.fromUTF8? content = some text)
    (hnone : describe? text = none) : Gives content none
  | invalid {text : String} {s : Settings} (h : String.fromUTF8? content = some text)
    (hs : describe? text = some s) (hinvalid : ¬ s.Valid) : Gives content none
  | valid {text : String} {s : Settings} (h : String.fromUTF8? content = some text)
    (hs : describe? text = some s) (hvalid : s.Valid) : Gives content (some s)

/-- What a search finds in a directory. -/
inductive Finds (t : Tree) (workingDirectory : Place) (denied : String → Bool) (directory : String) :
    Option Settings → Prop
  | missing (h : nodeIn? t workingDirectory directory = none) :
    Finds t workingDirectory denied directory none
  | directory (h : nodeIn? t workingDirectory directory = some .directory) :
    Finds t workingDirectory denied directory none
  | denied (h : denied (join directory fileName) = true) :
    Finds t workingDirectory denied directory none
  | file {content : ByteArray} {found : Option Settings}
    (h : nodeIn? t workingDirectory directory = some (.file content))
    (hallowed : denied (join directory fileName) = false) (hgives : Gives content found) :
    Finds t workingDirectory denied directory found

variable {t : Tree} {workingDirectory : Place} {denied : String → Bool} {directory : String}
  {found : Option Settings}

theorem gives_iff {content : ByteArray} :
    Gives content found ↔ found = (String.fromUTF8? content).bind settingsIn? := by
  constructor
  · rintro (h | ⟨h, hnone⟩ | ⟨h, hs, hinvalid⟩ | ⟨h, hs, hvalid⟩) <;> rw [h]
    · rfl
    · exact (settingsIn?_eq_none fun s hs => by rw [hnone] at hs; cases hs).symm
    · exact (settingsIn?_eq_none fun r hr => Option.some.inj (hs.symm.trans hr) ▸ hinvalid).symm
    · exact (settingsIn?_eq_some_iff.mpr ⟨hs, hvalid⟩).symm
  · rintro rfl
    cases h : String.fromUTF8? content with
    | none => exact .notText h
    | some text =>
      cases hs : describe? text with
      | none =>
        rw [Option.bind_some, settingsIn?_eq_none fun s hs' => by rw [hs] at hs'; cases hs']
        exact .malformed h hs
      | some s =>
        by_cases hvalid : s.Valid
        · rw [Option.bind_some, settingsIn?_eq_some_iff.mpr ⟨hs, hvalid⟩]
          exact .valid h hs hvalid
        · rw [Option.bind_some,
            settingsIn?_eq_none fun r hr => Option.some.inj (hs.symm.trans hr) ▸ hvalid]
          exact .invalid h hs hvalid

/-- **A search finds exactly one thing in a directory.** -/
theorem finds_iff : Finds t workingDirectory denied directory found
    ↔ found = usable? (readAllowed t workingDirectory denied) directory := by
  rw [usable?, readAllowed, Tree.readText, ← nodeIn?]
  constructor
  · rintro (h | h | h | ⟨h, hallowed, hgives⟩) <;> rw [h]
    · rw [ite_self]
      rfl
    · rw [ite_self]
      rfl
    · rfl
    · rw [hallowed]
      exact gives_iff.mp hgives
  · rintro rfl
    cases hdenied : denied (join directory fileName) with
    | true => exact .denied hdenied
    | false =>
      cases h : nodeIn? t workingDirectory directory with
      | none => exact .missing h
      | some node =>
        cases node with
        | directory => exact .directory h
        | file content => exact .file h hdenied (gives_iff.mpr rfl)

end SettingsFile

open SettingsFile

/-- **Which settings apply.**  For every tree of files, some of which perhaps may not be read, and every
directory to start from, a search finds exactly one thing in each directory: a usable file, whose settings
are valid, or one that is missing, a directory, denied, no text, malformed or invalid.  The settings that
apply are those of the nearest usable file among ten directories upwards, the start included, and the
defaults if there is none.  These settings, as those that a text or a named file gives, have both ceilings
at one or more. -/
theorem discover_nearest (t : Files.Tree) (workingDirectory : Files.Place) (denied : String → Bool)
    (start : String) :
    let read := readAllowed t workingDirectory denied
    let s := (discover (m := Id) read start).run
    (∀ directory, ∃! found, Finds t workingDirectory denied directory found)
    ∧ ((∃ i directory, i < 10 ∧ Files.up? i start = some directory
          ∧ Finds t workingDirectory denied directory (some s)
          ∧ ∀ j < i, ∃ passed, Files.up? j start = some passed
            ∧ Finds t workingDirectory denied passed none)
        ∨ s = .default ∧ ∀ j < 10, ∀ passed, Files.up? j start = some passed →
          Finds t workingDirectory denied passed none)
    ∧ (1 ≤ s.maxIterations ∧ 1 ≤ s.maxLevels)
    ∧ (∀ text r, parse text = .ok r
      ↔ describe? text = some r ∧ 1 ≤ r.maxIterations ∧ 1 ≤ r.maxLevels)
    ∧ ∀ path r, (load (m := Id) read path).run = .ok r
      ↔ ∃ text, read path = some text
        ∧ describe? text = some r ∧ 1 ≤ r.maxIterations ∧ 1 ≤ r.maxLevels := by
  intro read s
  refine ⟨fun directory => ⟨_, finds_iff.mpr rfl, fun _ h => finds_iff.mp h⟩, ?_,
    valid_discover read start, fun text r => parse_eq_ok_iff, fun path r => load_eq_ok_iff⟩
  rcases discover_by_place read start with ⟨i, directory, hi, hup, hs, hpassed⟩ | ⟨hs, hpassed⟩
  · refine .inl ⟨i, directory, hi, hup, finds_iff.mpr hs.symm, fun j hj => ?_⟩
    obtain ⟨passed, hj', hnone⟩ := hpassed j hj
    exact ⟨passed, hj', finds_iff.mpr hnone.symm⟩
  · exact .inr ⟨hs, fun j hj passed hup => finds_iff.mpr (hpassed j hj passed hup).symm⟩

/-- Directories one in the other below the working directory, of which each but the last has something of
the usual name: a directory, a file that is no text, one that is no document, one with no room for a
round, and, in the working directory, one that can be used. -/
def trials : Files.Tree := ⟨.ofList [
  (["w"], .directory),
  (["w", ".servicemap.toml"], .file "[detection]\nmax_levels = 5\n".toUTF8),
  (["w", "a"], .directory),
  (["w", "a", ".servicemap.toml"], .file "[detection]\nmax_levels = 0\n".toUTF8),
  (["w", "a", "b"], .directory),
  (["w", "a", "b", ".servicemap.toml"], .file "[detection\n".toUTF8),
  (["w", "a", "b", "c"], .directory),
  (["w", "a", "b", "c", ".servicemap.toml"], .file ⟨#[0xff]⟩),
  (["w", "a", "b", "c", "d"], .directory),
  (["w", "a", "b", "c", "d", ".servicemap.toml"], .directory),
  (["w", "a", "b", "c", "d", "e"], .directory)]⟩

/-- The search passes over all of these and ends at the empty path, which is the working directory. -/
theorem discover_nearest_trials :
    let s := (discover (m := Id) (readAllowed trials ["w"] fun _ => false) "a/b/c/d/e").run
    s = ⟨100, 5, true, .perMethod⟩ ∧ Files.up? 5 "a/b/c/d/e" = some ""
      ∧ Files.up? 6 "a/b/c/d/e" = none
      ∧ ∃ i directory, i < 10 ∧ Files.up? i "a/b/c/d/e" = some directory
        ∧ Finds trials ["w"] (fun _ => false) directory (some s)
        ∧ ∀ j < i, ∃ passed, Files.up? j "a/b/c/d/e" = some passed
          ∧ Finds trials ["w"] (fun _ => false) passed none := by
  intro s
  have hs : s = ⟨100, 5, true, .perMethod⟩ := by decide +kernel
  obtain ⟨-, hnearest, -⟩ := discover_nearest trials ["w"] (fun _ => false) "a/b/c/d/e"
  refine ⟨hs, by decide +kernel, by decide +kernel, hnearest.resolve_right fun h => ?_⟩
  exact absurd (hs.symm.trans h.1) (by decide)

end CallCommunities
