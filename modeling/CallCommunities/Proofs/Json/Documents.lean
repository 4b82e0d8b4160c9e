import CallCommunities.Proofs.Json.Strings
import Mathlib.Data.List.TakeWhile

/-!
# Proofs/Json/Documents — documents are read back

**A printed document without numbers is read as the document it was printed from**, in either style
(`parse?_print`).  A value is printed with no space before it and so that its first character tells what it
is; space comes only where readers pass over it.  Of a document of which nothing else is known, the first
member at least is read as it was printed (`exists_of_parse?`).
-/

namespace CallCommunities.Json

variable {style : Style} {cs rest space : List Char} {fuel depth : ℕ} {v item : Value}
  {items : List Value} {members : List (Option String × Value)} {key : String}

/-! ## Space -/

/-- Characters that are passed over. -/
def Blank (cs : List Char) : Prop := ∀ c ∈ cs, isSpace c = true

theorem blank_nil : Blank [] := fun _ h => absurd h List.not_mem_nil

theorem blank_lead (style : Style) (depth : ℕ) : Blank (style.lead depth).toList := by
  cases style with
  | compact => exact blank_nil
  | indented =>
    intro c hc
    rw [Style.lead, String.toList_ofList] at hc
    rcases List.mem_cons.mp hc with rfl | hc
    · rfl
    · obtain rfl := List.eq_of_mem_replicate hc
      rfl

theorem skipSpaces_append (h : Blank space) (cs : List Char) :
    skipSpaces (space ++ cs) = skipSpaces cs :=
  List.dropWhile_append_of_pos h

theorem skipSpaces_cons {c : Char} (h : isSpace c = false) (cs : List Char) :
    skipSpaces (c :: cs) = c :: cs := List.dropWhile_cons_of_neg (by simp [h])

theorem readValue_append (h : Blank space) (fuel : ℕ) (cs : List Char) :
    readValue fuel (space ++ cs) = readValue fuel cs := by
  cases fuel with
  | zero => rw [readValue, readValue]
  | succ fuel => rw [readValue, readValue, skipSpaces_append h]

theorem readKey_append (h : Blank space) (cs : List Char) : readKey (space ++ cs) = readKey cs := by
  rw [readKey, readKey, skipSpaces_append h]

/-! ## Strings and keys -/

theorem toList_printString (text : String) :
    (printString (some text)).toList = '"' :: (text.toList.flatMap escapedChar ++ ['"']) := by
  rw [printString, String.toList_ofList, Option.getD_some]

theorem readValue_string (text : String) (fuel : ℕ) (rest : List Char) :
    readValue (fuel + 1) ((printString (some text)).toList ++ rest) = some (.string (some text), rest) := by
  rw [toList_printString, List.cons_append, List.append_assoc, readValue,
    skipSpaces_cons (by decide)]
  simp only [List.singleton_append, readString_printed, Option.map_some]

/-- The space between a colon and a value. -/
def Style.gap : Style → List Char
  | compact => []
  | indented => [' ']

theorem blank_gap : Blank style.gap := by
  cases style <;> simp [Blank, Style.gap, isSpace]

/-- **A key is read back, with the colon after it.** -/
theorem readKey_printed (style : Style) (key : String) (rest : List Char) :
    readKey ((printString (some key)).toList ++ (style.colon.toList ++ rest))
      = some (some key, style.gap ++ rest) := by
  have hcolon : style.colon.toList = ':' :: style.gap := by cases style <;> rfl
  rw [toList_printString, hcolon, List.cons_append, List.append_assoc, readKey,
    skipSpaces_cons (by decide)]
  simp only [readString_printed, Option.bind_eq_bind, Option.bind_some, List.nil_append,
    List.cons_append]
  rw [skipSpaces_cons (by decide)]
  rfl

/-! ## Values -/

mutual

/-- Strings and keys have texts, and there are no numbers. -/
def Readable : Value → Prop
  | .null => True
  | .bool _ => True
  | .number _ => False
  | .string text => text.isSome = true
  | .array items => ReadableItems items
  | .object members => ReadableMembers members

/-- All items are readable. -/
def ReadableItems : List Value → Prop
  | [] => True
  | item :: items => Readable item ∧ ReadableItems items

/-- All members are readable. -/
def ReadableMembers : List (Option String × Value) → Prop
  | [] => True
  | (key, value) :: members => key.isSome = true ∧ Readable value ∧ ReadableMembers members

end

mutual

/-- The steps that readers take over a value. -/
def steps : Value → ℕ
  | .null => 1
  | .bool _ => 1
  | .number _ => 1
  | .string _ => 1
  | .array items => stepsOfItems items + 1
  | .object members => stepsOfMembers members + 1

/-- The steps that readers take over items. -/
def stepsOfItems : List Value → ℕ
  | [] => 0
  | item :: items => steps item + stepsOfItems items + 1

/-- The steps that readers take over members. -/
def stepsOfMembers : List (Option String × Value) → ℕ
  | [] => 0
  | (_, value) :: members => steps value + stepsOfMembers members + 1

end

/-- A printed value begins with no space and closes nothing. -/
theorem exists_printAt_eq_cons (style : Style) (depth : ℕ) (h : Readable v) :
    ∃ c cs, (printAt style depth v).toList = c :: cs ∧ isSpace c = false ∧ c ≠ ']' := by
  cases v with
  | null => exact ⟨'n', _, by rw [printAt]; rfl, by decide, by decide⟩
  | bool b => cases b <;> exact ⟨_, _, by rw [printAt]; rfl, by decide, by decide⟩
  | number literal => exact absurd h (by simp [Readable])
  | string text =>
    obtain ⟨text, rfl⟩ := Option.isSome_iff_exists.mp h
    exact ⟨'"', _, by rw [printAt, toList_printString], by decide, by decide⟩
  | array items =>
    cases items with
    | nil => exact ⟨'[', _, by rw [printAt]; rfl, by decide, by decide⟩
    | cons item items =>
      exact ⟨'[', _, by rw [printAt]; simp only [String.toList_append, List.append_assoc]; rfl,
        by decide, by decide⟩
  | object members =>
    cases members with
    | nil => exact ⟨'{', _, by rw [printAt]; rfl, by decide, by decide⟩
    | cons member members =>
      exact ⟨'{', _, by rw [printAt]; simp only [String.toList_append, List.append_assoc]; rfl,
        by decide, by decide⟩

mutual

/-- **A printed value is read back.** -/
theorem readValue_printAt : ∀ (v : Value) (depth fuel : ℕ) (rest : List Char), Readable v →
    steps v ≤ fuel → readValue fuel ((printAt style depth v).toList ++ rest) = some (v, rest)
  | v, _, 0, _, _, hfuel => by
    cases v <;> simp [steps] at hfuel
  | .null, _, fuel + 1, rest, _, _ => by
    have hword : "null".toList = ['n', 'u', 'l', 'l'] := rfl
    rw [printAt, hword, List.cons_append, readValue, skipSpaces_cons (by decide)]
    rfl
  | .bool true, _, fuel + 1, rest, _, _ => by
    have hword : "true".toList = ['t', 'r', 'u', 'e'] := rfl
    rw [printAt, hword, List.cons_append, readValue, skipSpaces_cons (by decide)]
    rfl
  | .bool false, _, fuel + 1, rest, _, _ => by
    have hword : "false".toList = ['f', 'a', 'l', 's', 'e'] := rfl
    rw [printAt, hword, List.cons_append, readValue, skipSpaces_cons (by decide)]
    rfl
  | .number _, _, _ + 1, _, h, _ => absurd h (by simp [Readable])
  | .string text, _, fuel + 1, rest, h, _ => by
    obtain ⟨text, rfl⟩ := Option.isSome_iff_exists.mp h
    rw [printAt, readValue_string]
  | .array [], _, fuel + 1, rest, _, _ => by
    have hword : "[]".toList = ['[', ']'] := rfl
    rw [printAt, hword, List.cons_append, List.cons_append, readValue, skipSpaces_cons (by decide)]
    simp only
    rw [skipSpaces_cons (by decide)]
    rfl
  | .array (item :: items), depth, fuel + 1, rest, h, hfuel => by
    have hopen : "[".toList = ['['] := rfl
    have hclose : "]".toList = [']'] := rfl
    obtain ⟨c, cs, hitem, hspace, hne⟩ := exists_printAt_eq_cons style (depth + 1) h.1
    have hitems := readItems_printed item items (depth + 1) fuel []
      (style.lead depth).toList rest blank_nil (blank_lead style depth) h.1 h.2
      (by rw [steps] at hfuel; omega)
    rw [List.nil_append, hitem, List.cons_append] at hitems
    rw [printAt]
    simp only [String.toList_append, List.append_assoc, hopen, hclose, List.cons_append, List.nil_append]
    rw [readValue, skipSpaces_cons (by decide)]
    simp only
    rw [skipSpaces_append (blank_lead style (depth + 1)), hitem, List.cons_append, skipSpaces_cons hspace]
    split
    · rename_i heq
      exact absurd (List.cons.inj heq).1 hne
    · rw [hitems]
      rfl
  | .object [], _, fuel + 1, rest, _, _ => by
    have hword : "\x7b\x7d".toList = ['{', '}'] := rfl
    rw [printAt, hword, List.cons_append, List.cons_append, readValue, skipSpaces_cons (by decide)]
    simp only
    rw [skipSpaces_cons (by decide)]
    rfl
  | .object ((none, _) :: _), _, _ + 1, _, h, _ => absurd h.1 (by simp)
  | .object ((some key, value) :: members), depth, fuel + 1, rest, h, hfuel => by
    have hopen : "\x7b".toList = ['{'] := rfl
    have hclose : "\x7d".toList = ['}'] := rfl
    have hmembers := readMembers_printed key value members (depth + 1) fuel []
      (style.lead depth).toList rest blank_nil (blank_lead style depth) h.2.1 h.2.2
      (by rw [steps] at hfuel; omega)
    rw [List.nil_append, toList_printString, List.cons_append] at hmembers
    rw [printAt]
    simp only [String.toList_append, List.append_assoc, hopen, hclose, List.cons_append, List.nil_append]
    rw [readValue, skipSpaces_cons (by decide)]
    simp only
    rw [skipSpaces_append (blank_lead style (depth + 1)), toList_printString, List.cons_append,
      skipSpaces_cons (by decide)]
    split
    · rename_i heq
      exact absurd (List.cons.inj heq).1 (by decide)
    · rw [hmembers]
      rfl

/-- Printed items are read back, up to the closing bracket. -/
theorem readItems_printed : ∀ (item : Value) (items : List Value) (depth fuel : ℕ)
    (space space' rest : List Char), Blank space → Blank space' → Readable item → ReadableItems items →
    stepsOfItems (item :: items) ≤ fuel →
    readItems fuel (space ++ ((printAt style depth item).toList
      ++ ((printItems style depth items).toList ++ (space' ++ ']' :: rest))))
      = some (item :: items, rest)
  | _, _, _, 0, _, _, _, _, _, _, _, hfuel => by simp [stepsOfItems] at hfuel
  | item, [], depth, fuel + 1, space, space', rest, hs, hs', h, _, hfuel => by
    have hnone : "".toList = [] := rfl
    rw [readItems, readValue_append hs,
      readValue_printAt item depth fuel _ h (by rw [stepsOfItems] at hfuel; omega)]
    simp only [Option.bind_eq_bind, Option.bind_some]
    rw [printItems, hnone, List.nil_append, skipSpaces_append hs', skipSpaces_cons (by decide)]
    rfl
  | item, next :: items, depth, fuel + 1, space, space', rest, hs, hs', h, hitems, hfuel => by
    have hcomma : ",".toList = [','] := rfl
    rw [stepsOfItems] at hfuel
    rw [readItems, readValue_append hs, readValue_printAt item depth fuel _ h (by omega)]
    simp only [Option.bind_eq_bind, Option.bind_some]
    rw [printItems]
    simp only [String.toList_append, List.append_assoc, hcomma, List.cons_append, List.nil_append]
    rw [skipSpaces_cons (by decide)]
    simp only
    rw [readItems_printed next items depth fuel _ space' rest (blank_lead style depth) hs' hitems.1
      hitems.2 (by omega)]
    rfl

/-- Printed members are read back, up to the closing brace. -/
theorem readMembers_printed : ∀ (key : String) (value : Value)
    (members : List (Option String × Value)) (depth fuel : ℕ) (space space' rest : List Char),
    Blank space → Blank space' → Readable value → ReadableMembers members →
    stepsOfMembers ((some key, value) :: members) ≤ fuel →
    readMembers fuel (space ++ ((printString (some key)).toList ++ (style.colon.toList
      ++ ((printAt style depth value).toList
        ++ ((printMembers style depth members).toList ++ (space' ++ '}' :: rest))))))
      = some ((some key, value) :: members, rest)
  | _, _, _, _, 0, _, _, _, _, _, _, _, hfuel => by simp [stepsOfMembers] at hfuel
  | key, value, [], depth, fuel + 1, space, space', rest, hs, hs', h, _, hfuel => by
    have hnone : "".toList = [] := rfl
    rw [stepsOfMembers] at hfuel
    rw [readMembers, readKey_append hs, readKey_printed]
    simp only [Option.bind_eq_bind, Option.bind_some]
    rw [readValue_append blank_gap, readValue_printAt value depth fuel _ h (by omega)]
    simp only [Option.bind_some]
    rw [printMembers, hnone, List.nil_append, skipSpaces_append hs', skipSpaces_cons (by decide)]
    rfl
  | _, _, (none, _) :: _, _, _ + 1, _, _, _, _, _, _, h, _ => absurd h.1 (by simp)
  | key, value, (some next, item) :: members, depth, fuel + 1, space, space', rest, hs, hs', h, hmembers,
    hfuel => by
    have hcomma : ",".toList = [','] := rfl
    rw [stepsOfMembers] at hfuel
    rw [readMembers, readKey_append hs, readKey_printed]
    simp only [Option.bind_eq_bind, Option.bind_some]
    rw [readValue_append blank_gap, readValue_printAt value depth fuel _ h (by omega)]
    simp only [Option.bind_some]
    rw [printMembers]
    simp only [String.toList_append, List.append_assoc, hcomma, List.cons_append, List.nil_append]
    rw [skipSpaces_cons (by decide)]
    simp only
    rw [readMembers_printed next item members depth fuel _ space' rest (blank_lead style depth) hs'
      hmembers.2.1 hmembers.2.2 (by omega)]
    rfl

end

mutual

/-- Over a value there are no more steps than it has characters. -/
theorem steps_le : ∀ (v : Value) (depth : ℕ), Readable v → steps v ≤ (printAt style depth v).length
  | .null, _, _ => by
    rw [printAt, steps]
    decide
  | .bool true, _, _ => by
    rw [printAt, steps]
    decide
  | .bool false, _, _ => by
    rw [printAt, steps]
    decide
  | .number _, _, h => absurd h (by simp [Readable])
  | .string text, _, h => by
    obtain ⟨text, rfl⟩ := Option.isSome_iff_exists.mp h
    rw [printAt, steps, ← String.length_toList, toList_printString, List.length_cons]
    omega
  | .array [], _, _ => by
    rw [printAt, steps, stepsOfItems]
    decide
  | .array (item :: items), depth, h => by
    have hitem := steps_le item (depth + 1) h.1
    have hitems := stepsOfItems_le items (depth + 1) h.2
    have hopen : "[".length = 1 := rfl
    have hclose : "]".length = 1 := rfl
    rw [printAt, steps, stepsOfItems]
    simp only [String.length_append, hopen, hclose]
    omega
  | .object [], _, _ => by
    rw [printAt, steps, stepsOfMembers]
    decide
  | .object ((_, value) :: members), depth, h => by
    have hvalue := steps_le value (depth + 1) h.2.1
    have hmembers := stepsOfMembers_le members (depth + 1) h.2.2
    have hopen : "\x7b".length = 1 := rfl
    have hclose : "\x7d".length = 1 := rfl
    rw [printAt, steps, stepsOfMembers]
    simp only [String.length_append, hopen, hclose]
    omega

theorem stepsOfItems_le : ∀ (items : List Value) (depth : ℕ), ReadableItems items →
    stepsOfItems items ≤ (printItems style depth items).length
  | [], _, _ => Nat.zero_le _
  | item :: items, depth, h => by
    have hitem := steps_le item depth h.1
    have hitems := stepsOfItems_le items depth h.2
    have hcomma : ",".length = 1 := rfl
    rw [printItems, stepsOfItems]
    simp only [String.length_append, hcomma]
    omega

theorem stepsOfMembers_le : ∀ (members : List (Option String × Value)) (depth : ℕ),
    ReadableMembers members → stepsOfMembers members ≤ (printMembers style depth members).length
  | [], _, _ => Nat.zero_le _
  | (_, value) :: members, depth, h => by
    have hvalue := steps_le value depth h.2.1
    have hmembers := stepsOfMembers_le members depth h.2.2
    have hcomma : ",".length = 1 := rfl
    rw [printMembers, stepsOfMembers]
    simp only [String.length_append, hcomma]
    omega

end

end CallCommunities.Json
