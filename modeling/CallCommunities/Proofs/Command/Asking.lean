import CallCommunities.Command.Arguments
import CallCommunities.Proofs.Partition.Named
import Mathlib.Data.List.TakeWhile

/-!
# Proofs/Command/Asking — what can be asked of detection

Every word keeps what has been read within bounds (`sane_word`): paths are not empty, and verbosity stops at
255.  The other way round, options within these bounds are asked for by words that say each of them in full
(`requestOf_wordsOf`).  So **the options that some command line asks for are known exactly**
(`exists_words_iff`).
-/

namespace CallCommunities.Command

/-- Options that can be asked for, where the environment may name a settings file. -/
structure Askable (environmentConfig : Option String) (o : Options) : Prop where
  input_ne : o.input ≠ ""
  config_ne : o.config ≠ some ""
  prior_ne : o.prior ≠ some ""
  output_ne : o.output ≠ some ""
  verbosity_le : o.verbosity ≤ 255
  /-- Without a settings file the environment names none. -/
  environment : o.config = none → environmentConfig = none

namespace Scan

/-! ## What reading keeps -/

/-- What has been read is within bounds. -/
structure Sane (s : Scan) : Prop where
  input_ne : s.input ≠ some ""
  config_ne : s.config ≠ some ""
  prior_ne : s.prior ≠ some ""
  output_ne : s.output ≠ some ""
  verbosity_le : s.verbosity ≤ 255

variable {s s' : Scan} {c : Option String} {o : Options}

theorem sane_start : start.Sane := by
  constructor <;> simp [start]

theorem once_eq_ok_iff {α : Type} {old value new : Option α} :
    once old value = .ok new ↔ old = none ∧ value.isSome = true ∧ new = value := by
  cases old <;> cases value <;> simp [once, eq_comm]

theorem ne_of_once {old new : Option String} {text : String}
    (h : once old (pathOf? text) = .ok new) : new ≠ some "" := by
  obtain ⟨-, -, rfl⟩ := once_eq_ok_iff.mp h
  unfold pathOf?
  split
  · simp
  · rintro heq
    obtain rfl := Option.some.inj heq
    exact absurd rfl ‹_›

theorem sane_assign (h : s.Sane) {slot : Slot} {text : String} (hs : s.assign slot text = .ok s') :
    s'.Sane := by
  obtain ⟨hinput, hconfig, hprior, houtput, hverbosity⟩ := h
  cases slot <;> obtain ⟨value, hvalue, hs⟩ := bind_eq_ok_iff.mp hs <;> obtain rfl := Except.ok.inj hs
  case input => exact ⟨ne_of_once hvalue, hconfig, hprior, houtput, hverbosity⟩
  case config => exact ⟨hinput, ne_of_once hvalue, hprior, houtput, hverbosity⟩
  case prior => exact ⟨hinput, hconfig, ne_of_once hvalue, houtput, hverbosity⟩
  case output => exact ⟨hinput, hconfig, hprior, ne_of_once hvalue, hverbosity⟩
  all_goals exact ⟨hinput, hconfig, hprior, houtput, hverbosity⟩

theorem sane_settle (h : s.Sane) (hs : s.settle = .ok s') : s'.Sane := by
  unfold settle at hs
  split at hs
  · exact Except.ok.inj hs ▸ h
  · cases hs
  · have hcleared : Sane { s with pending := none } :=
      ⟨h.input_ne, h.config_ne, h.prior_ne, h.output_ne, h.verbosity_le⟩
    exact sane_assign hcleared hs

theorem sane_raise (h : s.Sane) {flag : Flag} (hs : s.raise flag = .ok s') : s'.Sane := by
  obtain ⟨hinput, hconfig, hprior, houtput, hverbosity⟩ := h
  cases flag <;> simp only [raise] at hs
  case help => cases hs
  case verbose =>
    obtain rfl := Except.ok.inj hs
    refine ⟨hinput, hconfig, hprior, houtput, ?_⟩
    simp only
    split <;> omega
  all_goals
    split at hs
    · cases hs
    · obtain rfl := Except.ok.inj hs
      exact ⟨hinput, hconfig, hprior, houtput, hverbosity⟩

theorem sane_postpone (h : s.Sane) {slot : Slot} {text : Option String}
    (hs : s.postpone slot text = .ok s') : s'.Sane := by
  obtain ⟨settled, hsettled, hs⟩ := bind_eq_ok_iff.mp hs
  obtain rfl := Except.ok.inj hs
  obtain ⟨hinput, hconfig, hprior, houtput, hverbosity⟩ := sane_settle h hsettled
  exact ⟨hinput, hconfig, hprior, houtput, hverbosity⟩

theorem sane_attach (h : s.Sane) {slot : Slot} {text : List Char}
    (hs : s.attach slot text = .ok s') : s'.Sane := by
  obtain ⟨settled, hsettled, hs⟩ := bind_eq_ok_iff.mp hs
  exact sane_assign (sane_settle h hsettled) hs

theorem sane_settle_raise (h : s.Sane) {flag : Flag}
    (hs : (s.settle >>= fun s => s.raise flag) = .ok s') : s'.Sane := by
  obtain ⟨settled, hsettled, hs⟩ := bind_eq_ok_iff.mp hs
  exact sane_raise (sane_settle h hsettled) hs

theorem sane_long (h : s.Sane) {word : List Char} (hs : s.long word = .ok s') : s'.Sane := by
  unfold long at hs
  simp only at hs
  split at hs
  · cases hs
  · exact sane_postpone h hs
  · exact sane_attach h hs
  · exact sane_settle_raise h hs
  · cases hs

theorem sane_short : ∀ {letters : List Char} {s : Scan}, s.Sane → s.short letters = .ok s' → s'.Sane
  | [], s, h, hs => Except.ok.inj hs ▸ h
  | c :: rest, s, h, hs => by
    unfold short at hs
    split at hs
    · cases hs
    · split at hs
      · exact sane_postpone h hs
      · exact sane_attach h hs
    · obtain ⟨settled, hsettled, hs⟩ := bind_eq_ok_iff.mp hs
      obtain ⟨raised, hraised, hs⟩ := bind_eq_ok_iff.mp hs
      exact sane_short (sane_raise (sane_settle h hsettled) hraised) hs

theorem sane_positional (h : s.Sane) {word : String} (hs : s.positional word = .ok s') : s'.Sane := by
  unfold positional at hs
  split at hs
  · cases hs
  · exact sane_postpone h hs

/-- **Every word keeps what has been read within bounds.** -/
theorem sane_word (h : s.Sane) {text : String} (hs : s.word text = .ok s') : s'.Sane := by
  unfold word at hs
  split at hs
  · exact sane_positional h hs
  · split at hs
    · obtain rfl := Except.ok.inj hs
      exact ⟨h.input_ne, h.config_ne, h.prior_ne, h.output_ne, h.verbosity_le⟩
    · exact sane_long h hs
    · exact sane_short h hs
    · unfold plainWord at hs
      split at hs
      · obtain rfl := Except.ok.inj hs
        exact ⟨h.input_ne, h.config_ne, h.prior_ne, h.output_ne, h.verbosity_le⟩
      · exact sane_positional h hs

theorem sane_words : ∀ {words : List String} {s : Scan}, s.Sane → words.foldlM Scan.word s = .ok s' →
    s'.Sane
  | [], s, h, hs => Except.ok.inj hs ▸ h
  | w :: words, s, h, hs => by
    rw [List.foldlM_cons] at hs
    obtain ⟨next, hnext, hs⟩ := bind_eq_ok_iff.mp hs
    exact sane_words (sane_word h hnext) hs

/-- What has been read makes a request, with the settings file that is found. -/
theorem askable_of_input {config : Option String} (h : s.Sane) (hconfig : config ≠ some "")
    (henvironment : config = none → c = none)
    (hs : (match s.input with
      | none => .error .missingInput
      | some input => .ok ⟨input, config, s.granularity, s.prior, s.format.getD .text, s.output,
          s.showGraph, s.plain, s.verbosity⟩ : Except Stop Options) = .ok o) : Askable c o := by
  split at hs
  · cases hs
  · rename_i input heq
    obtain rfl := Except.ok.inj hs
    exact ⟨fun hempty => h.input_ne (hempty ▸ heq), hconfig, h.prior_ne, h.output_ne, h.verbosity_le,
      henvironment⟩

theorem askable_finish (h : s.Sane) (hs : s.finish c = .ok o) : Askable c o := by
  obtain ⟨settled, hsettled, hs⟩ := bind_eq_ok_iff.mp hs
  have hsane := sane_settle h hsettled
  simp only at hs
  split at hs
  · obtain ⟨config, hfound, hs⟩ := bind_eq_ok_iff.mp hs
    obtain ⟨-, hsome, heq⟩ := once_eq_ok_iff.mp hfound
    refine askable_of_input hsane (ne_of_once hfound) (fun hnone => ?_) hs
    rw [← heq, hnone] at hsome
    cases hsome
  · rename_i hother _
    refine askable_of_input hsane hsane.config_ne (fun hnone => ?_) hs
    exact Option.eq_none_iff_forall_ne_some.mpr fun path => hother path hnone

/-! ## Saying an option in full -/

theorem span_name {name : List Char} (h : '=' ∉ name) (value : List Char) :
    (name ++ '=' :: value).span (· != '=') = (name, '=' :: value) := by
  rw [List.span_eq_takeWhile_dropWhile, List.takeWhile_append_of_pos, List.dropWhile_append_of_pos]
  · simp
  all_goals
    intro c hc
    exact bne_iff_ne.mpr fun heq => h (heq ▸ hc)

/-- Nothing waits, and options may come. -/
structure Ready (s : Scan) : Prop where
  pending_eq : s.pending = none
  onlyInputs_eq : s.onlyInputs = false

theorem settle_eq (h : s.pending = none) : s.settle = .ok s := by
  rw [settle, h]

/-- A word that says an option in full gives it its value. -/
theorem word_full (h : s.Ready) (name : List Char) {slot : Slot}
    (hname : longName? name = some (.slot slot)) (hsign : '=' ∉ name) (value : String) :
    s.word (String.ofList ('-' :: '-' :: name ++ ['=']) ++ value) = s.assign slot value := by
  have hlist : (String.ofList ('-' :: '-' :: name ++ ['=']) ++ value).toList
      = '-' :: '-' :: (name ++ '=' :: value.toList) := by
    simp [String.toList_append]
  have hlong : s.long (name ++ '=' :: value.toList) = s.assign slot value := by
    simp only [long, span_name hsign, hname, attach, settle_eq h.pending_eq]
    rw [String.ofList_toList]
    rfl
  obtain ⟨letter, rest, hcons⟩ := List.exists_cons_of_ne_nil (l := name ++ '=' :: value.toList) (by simp)
  rw [hcons] at hlist hlong
  rw [word, if_neg (by simp [h.onlyInputs_eq]), hlist]
  exact hlong

end Scan

/-! ## Words for options -/

/-- The word for a format. -/
def Format.word : Format → String
  | .text => "text"
  | .json => "json"

/-- Words that ask for options. -/
def wordsOf (o : Options) : List String :=
  "detect" :: (o.config.toList.map ("--config=" ++ ·)
    ++ (o.granularity.toList.map fun g => "--granularity=" ++ g.word)
    ++ o.prior.toList.map ("--prior=" ++ ·)
    ++ ["--format=" ++ o.format.word]
    ++ o.output.toList.map ("--output=" ++ ·)
    ++ (if o.showGraph then ["--show-graph"] else [])
    ++ (if o.plain then ["--plain"] else [])
    ++ List.replicate o.verbosity "-v"
    ++ ["--", o.input])

namespace Scan

variable {s s' s'' : Scan} {c : Option String} {o : Options} {l l' : List String}

theorem foldlM_append_of_ok (h : l.foldlM word s = .ok s') (h' : l'.foldlM word s' = .ok s'') :
    (l ++ l').foldlM word s = .ok s'' := by
  rw [List.foldlM_append, h]
  exact h'

/-- A value that may be missing, said in full where it is there. -/
theorem foldlM_toList {α : Type} {value : Option α} {say : α → String} (f : Option α → Scan)
    (h : ∀ x, value = some x → (f none).word (say x) = .ok (f (some x))) :
    (value.toList.map say).foldlM word (f none) = .ok (f value) := by
  cases value with
  | none => rfl
  | some x =>
    rw [Option.toList_some, List.map_singleton, List.foldlM_cons, h x rfl]
    rfl

/-- A word that stands where a flag is raised. -/
theorem foldlM_ite {b : Bool} {text : String} (f : Bool → Scan)
    (h : (f false).word text = .ok (f true)) :
    (if b then [text] else []).foldlM word (f false) = .ok (f b) := by
  cases b with
  | false => rfl
  | true =>
    rw [if_pos rfl, List.foldlM_cons, h]
    rfl

theorem once_pathOf {text : String} (h : text ≠ "") : once none (pathOf? text) = .ok (some text) := by
  rw [pathOf?, if_neg (by simpa using h)]
  rfl

/-- A flag raised by a word of its own. -/
theorem word_flag (h : s.Ready) (name : List Char) {flag : Flag}
    (hname : longName? name = some (.flag flag)) (hsign : '=' ∉ name) (hne : name ≠ []) :
    s.word (String.ofList ('-' :: '-' :: name)) = s.raise flag := by
  have hspan : name.span (· != '=') = (name, []) := by
    have hall : ∀ c ∈ name, (c != '=') = true := fun c hc => bne_iff_ne.mpr fun heq => hsign (heq ▸ hc)
    rw [List.span_eq_takeWhile_dropWhile, List.takeWhile_eq_self_iff.mpr hall,
      List.dropWhile_eq_nil_iff.mpr hall]
  have hlong : s.long name = s.raise flag := by
    simp only [long, hspan, hname, settle_eq h.pending_eq]
    rfl
  obtain ⟨letter, rest, rfl⟩ := List.exists_cons_of_ne_nil hne
  rw [word, if_neg (by simp [h.onlyInputs_eq]), String.toList_ofList]
  exact hlong

/-- Every request for more logging counts. -/
theorem foldlM_verbose : ∀ (n : ℕ) {s : Scan}, s.Ready → s.verbosity + n ≤ 255 →
    (List.replicate n "-v").foldlM word s = .ok { s with verbosity := s.verbosity + n }
  | 0, _, _, _ => rfl
  | n + 1, s, h, hle => by
    have hraise : s.raise .verbose = .ok { s with verbosity := s.verbosity + 1 } := by
      rw [raise, if_pos (by omega)]
    have hword : s.word "-v" = .ok { s with verbosity := s.verbosity + 1 } := by
      have hlist : "-v".toList = ['-', 'v'] := rfl
      have hletter : shortName? 'v' = some (.flag .verbose) := rfl
      have hshort : s.short ['v'] = .ok { s with verbosity := s.verbosity + 1 } := by
        simp only [short, hletter, settle_eq h.pending_eq]
        rw [← hraise]
        rfl
      rw [word, if_neg (by simp [h.onlyInputs_eq]), hlist]
      exact hshort
    rw [List.replicate_succ, List.foldlM_cons, hword]
    have hrest := foldlM_verbose n (s := { s with verbosity := s.verbosity + 1 })
      ⟨h.pending_eq, h.onlyInputs_eq⟩ (by simp only; omega)
    rw [Nat.add_assoc, Nat.add_comm 1 n] at hrest
    exact hrest

/-- The end of the words, when the input is the last of them. -/
theorem finish_eq {input : String} (hpending : s.pending = some (.input, some input))
    (hinput : s.input = none) (hne : input ≠ "") (henvironment : s.config = none → c = none) :
    s.finish c = .ok ⟨input, s.config, s.granularity, s.prior, s.format.getD .text, s.output,
      s.showGraph, s.plain, s.verbosity⟩ := by
  obtain ⟨earlier, config, granularity, prior, format, output, showGraph, plain, verbosity, pending,
    onlyInputs⟩ := s
  obtain rfl : pending = _ := hpending
  obtain rfl : earlier = none := hinput
  have hsettle : settle ⟨none, config, granularity, prior, format, output, showGraph, plain, verbosity,
        some (.input, some input), onlyInputs⟩
      = .ok ⟨some input, config, granularity, prior, format, output, showGraph, plain, verbosity, none,
        onlyInputs⟩ := by
    simp only [settle, assign, once_pathOf hne]
    rfl
  rw [finish, hsettle]
  cases config with
  | none =>
    rw [henvironment rfl]
    rfl
  | some path => rfl

end Scan

open Scan in
/-- **Options within bounds are asked for by their words.** -/
theorem requestOf_wordsOf {c : Option String} {o : Options} (h : Askable c o) :
    requestOf c (wordsOf o) = .ok (.detect o) := by
  obtain ⟨hinput, hconfig, hprior, houtput, hverbosity, henvironment⟩ := h
  let s₁ : Scan := { start with config := o.config }
  let s₂ : Scan := { s₁ with granularity := o.granularity }
  let s₃ : Scan := { s₂ with prior := o.prior }
  let s₄ : Scan := { s₃ with format := some o.format }
  let s₅ : Scan := { s₄ with output := o.output }
  let s₆ : Scan := { s₅ with showGraph := o.showGraph }
  let s₇ : Scan := { s₆ with plain := o.plain }
  let s₈ : Scan := { s₇ with verbosity := o.verbosity }
  have h₁ : (o.config.toList.map ("--config=" ++ ·)).foldlM word start = .ok s₁ :=
    foldlM_toList (fun v => { start with config := v }) fun x hx => by
      refine (word_full ⟨rfl, rfl⟩ "config".toList rfl (by decide) x).trans ?_
      simp only [assign, start, once_pathOf fun hempty => hconfig (hempty ▸ hx)]
      rfl
  have h₂ : (o.granularity.toList.map fun g => "--granularity=" ++ g.word).foldlM word s₁ = .ok s₂ :=
    foldlM_toList (fun v => { s₁ with granularity := v }) fun x _ => by
      refine (word_full ⟨rfl, rfl⟩ "granularity".toList rfl (by decide) x.word).trans ?_
      cases x <;> rfl
  have h₃ : (o.prior.toList.map ("--prior=" ++ ·)).foldlM word s₂ = .ok s₃ :=
    foldlM_toList (fun v => { s₂ with prior := v }) fun x hx => by
      refine (word_full ⟨rfl, rfl⟩ "prior".toList rfl (by decide) x).trans ?_
      simp only [assign, s₂, s₁, start, once_pathOf fun hempty => hprior (hempty ▸ hx)]
      rfl
  have h₄ : ["--format=" ++ o.format.word].foldlM word s₃ = .ok s₄ := by
    rw [List.foldlM_cons]
    have hword : s₃.word ("--format=" ++ o.format.word) = .ok s₄ := by
      refine (word_full ⟨rfl, rfl⟩ "format".toList rfl (by decide) o.format.word).trans ?_
      cases hf : o.format <;> simp only [s₄, hf] <;> rfl
    rw [hword]
    rfl
  have h₅ : (o.output.toList.map ("--output=" ++ ·)).foldlM word s₄ = .ok s₅ :=
    foldlM_toList (fun v => { s₄ with output := v }) fun x hx => by
      refine (word_full ⟨rfl, rfl⟩ "output".toList rfl (by decide) x).trans ?_
      simp only [assign, s₄, s₃, s₂, s₁, start, once_pathOf fun hempty => houtput (hempty ▸ hx)]
      rfl
  have h₆ : (if o.showGraph then ["--show-graph"] else []).foldlM word s₅ = .ok s₆ :=
    foldlM_ite (fun b => { s₅ with showGraph := b })
      (word_flag ⟨rfl, rfl⟩ "show-graph".toList rfl (by decide) (by decide))
  have h₇ : (if o.plain then ["--plain"] else []).foldlM word s₆ = .ok s₇ :=
    foldlM_ite (fun b => { s₆ with plain := b })
      (word_flag ⟨rfl, rfl⟩ "plain".toList rfl (by decide) (by decide))
  have h₈ : (List.replicate o.verbosity "-v").foldlM word s₇ = .ok s₈ := by
    have hzero : s₇.verbosity = 0 := rfl
    have hcount := foldlM_verbose o.verbosity (s := s₇) ⟨rfl, rfl⟩ (by omega)
    rwa [hzero, Nat.zero_add] at hcount
  have h₉ : ["--", o.input].foldlM word s₈
      = .ok { s₈ with pending := some (.input, some o.input), onlyInputs := true } := rfl
  have hwords := foldlM_append_of_ok (foldlM_append_of_ok (foldlM_append_of_ok (foldlM_append_of_ok
    (foldlM_append_of_ok (foldlM_append_of_ok (foldlM_append_of_ok (foldlM_append_of_ok h₁ h₂) h₃) h₄)
      h₅) h₆) h₇) h₈) h₉
  have hfinish : ({ s₈ with pending := some (.input, some o.input), onlyInputs := true }).finish c
      = .ok o := finish_eq rfl rfl hinput henvironment
  have hdetect : requestOf c (wordsOf o) = (detectOptions c (wordsOf o).tail).map .detect := rfl
  have hoptions : detectOptions c (wordsOf o).tail = .ok o := by
    rw [detectOptions, wordsOf, List.tail_cons, hwords]
    exact hfinish
  rw [hdetect, hoptions]
  rfl

theorem configRequest_ne_detect {o : Options} (words : List String) :
    configRequest words ≠ .ok (.detect o) := by
  intro h
  unfold configRequest at h
  repeat' split at h
  all_goals cases h

/-- Only the command for it asks for detection. -/
theorem exists_detectOptions {c : Option String} {o : Options} {words : List String}
    (h : requestOf c words = .ok (.detect o)) : ∃ rest, detectOptions c rest = .ok o := by
  unfold requestOf at h
  split at h
  · cases h
  · rename_i word rest
    split at h
    case h_6 =>
      split at h
      · cases hoptions : detectOptions c rest with
        | error stop =>
          rw [hoptions] at h
          cases h
        | ok asked =>
          rw [hoptions] at h
          cases h
          exact ⟨rest, hoptions⟩
      · split at h
        · exact absurd h (configRequest_ne_detect rest)
        · split at h <;> cases h
    case h_1 =>
      cases rest with
      | nil => cases h
      | cons next _ =>
        simp only at h
        split at h <;> cases h
    all_goals cases h

/-- **The options that some command line asks for.** -/
theorem exists_words_iff {c : Option String} {o : Options} :
    (∃ words, requestOf c words = .ok (.detect o)) ↔ Askable c o := by
  constructor
  · rintro ⟨words, hwords⟩
    obtain ⟨rest, hrest⟩ := exists_detectOptions hwords
    obtain ⟨s, hs, hfinish⟩ := bind_eq_ok_iff.mp hrest
    exact Scan.askable_finish (Scan.sane_words Scan.sane_start hs) hfinish
  · exact fun h => ⟨wordsOf o, requestOf_wordsOf h⟩

end CallCommunities.Command
