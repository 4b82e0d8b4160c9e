import CallCommunities.Json.Parser
import CallCommunities.Json.Printer

/-!
# Proofs/Json/Strings — strings are read back

A printed string spells out what a string may not hold as it is: quotes, backslashes and controls.  Each
escape is read as the character it stands for (`readUnits_escapedChar`), and no printed string has halves of
surrogate pairs, so **every text is read back from its printed string** (`readString_printed`).
-/

namespace CallCommunities.Json

/-- The four digits of an escaped control. -/
theorem controlDigits_eq : ∀ n < 32,
    List.replicate (4 - (Text.hexDigits n).length) '0' ++ Text.hexDigits n
      = ['0', '0', Nat.digitChar (n / 16), Nat.digitChar (n % 16)] := by decide

theorem hexUnit?_control : ∀ n < 32,
    hexUnit? '0' '0' (Nat.digitChar (n / 16)) (Nat.digitChar (n % 16)) = some n := by decide

/-- A character is written with a short escape, with its number or as it is. -/
theorem escapedChar_cases (c : Char) :
    (∃ e, e ≠ 'u' ∧ shortEscape? e = some c ∧ escapedChar c = ['\\', e])
    ∨ (c.toNat < 32 ∧ escapedChar c
        = ['\\', 'u', '0', '0', Nat.digitChar (c.toNat / 16), Nat.digitChar (c.toNat % 16)])
    ∨ (c ≠ '"' ∧ c ≠ '\\' ∧ ¬ c.toNat < 32 ∧ escapedChar c = [c]) := by
  have hcode : ∀ n, c.toNat = n → c = Char.ofNat n := fun n hn => hn ▸ (Char.ofNat_toNat c).symm
  unfold escapedChar
  split
  · rename_i hc
    exact .inl ⟨'"', by decide, by rw [hc]; rfl, rfl⟩
  split
  · rename_i hc
    exact .inl ⟨'\\', by decide, by rw [hc]; rfl, rfl⟩
  split
  · rename_i hc
    exact .inl ⟨'b', by decide, hcode 8 hc ▸ rfl, rfl⟩
  split
  · rename_i hc
    exact .inl ⟨'f', by decide, hcode 12 hc ▸ rfl, rfl⟩
  split
  · rename_i hc
    exact .inl ⟨'n', by decide, hc ▸ rfl, rfl⟩
  split
  · rename_i hc
    exact .inl ⟨'r', by decide, hc ▸ rfl, rfl⟩
  split
  · rename_i hc
    exact .inl ⟨'t', by decide, hc ▸ rfl, rfl⟩
  split
  · rename_i hcontrol
    refine .inr (.inl ⟨hcontrol, ?_⟩)
    simp only [List.append_assoc]
    rw [controlDigits_eq _ hcontrol]
    rfl
  · exact .inr (.inr ⟨‹_›, ‹_›, ‹_›, rfl⟩)

/-- **The written form of a character is read as that character.** -/
theorem readUnits_escapedChar (c : Char) (rest : List Char) : readUnits (escapedChar c ++ rest)
    = (readUnits rest).map fun (units, rest) => (.inl c :: units, rest) := by
  rcases escapedChar_cases c with ⟨e, hne, hshort, h⟩ | ⟨hcontrol, h⟩ | ⟨hquote, hslash, hcontrol, h⟩
  · rw [h]
    simp only [List.cons_append, List.nil_append]
    rw [readUnits, hshort]
    · simp only [Option.bind_eq_bind, Option.bind_some]
      cases readUnits rest <;> rfl
    · exact fun _ _ _ _ _ heq => absurd heq hne
  · have hunit : unitOf c.toNat = .inl c := by
      rw [unitOf, if_neg (by omega), Char.ofNat_toNat]
    rw [h]
    simp only [List.cons_append, List.nil_append]
    rw [readUnits, hexUnit?_control _ hcontrol]
    simp only [Option.bind_eq_bind, Option.bind_some, hunit]
    cases readUnits rest <;> rfl
  · rw [h, List.singleton_append, readUnits, if_neg hcontrol]
    · exact hquote
    all_goals
      intros
      contradiction

/-- The written form of characters, up to a closing quote, is read as these characters. -/
theorem readUnits_escaped (rest : List Char) : ∀ cs : List Char,
    readUnits (cs.flatMap escapedChar ++ '"' :: rest) = some (cs.map .inl, rest)
  | [] => rfl
  | c :: cs => by
    rw [List.flatMap_cons, List.append_assoc, readUnits_escapedChar, readUnits_escaped rest cs]
    rfl

theorem joinUnits_map_inl : ∀ cs : List Char, joinUnits (cs.map .inl) = some cs
  | [] => rfl
  | c :: cs => by
    rw [List.map_cons, joinUnits, joinUnits_map_inl cs]
    rfl

/-- **A text is read back from its printed string.** -/
theorem readString_printed (text : String) (rest : List Char) :
    readString (text.toList.flatMap escapedChar ++ '"' :: rest) = some (some text, rest) := by
  rw [readString, readUnits_escaped, Option.map_some]
  simp only [joinUnits_map_inl, Option.map_some, String.ofList_toList]

end CallCommunities.Json
