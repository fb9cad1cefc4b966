import Mathlib.Data.List.TakeWhile
import SearchLab.Notation.Payload
import SearchLab.Notation.Statement
import SearchLab.Proofs.Bag
import SearchLab.Proofs.Json.Flat
import SearchLab.Proofs.Notation.Argument

/-!
# Statements are read back

A line that is put together from a command, arguments, options and data is read back as the statement of just these.
The parts stand behind one another with a blank before each, and each kind of part is read off the front of whatever
follows it: `partsFrom_blank`, `partsFrom_argument`, `partsFrom_option`, `partsFrom_data`. What is assumed of data is
that their written form reads back.

* `ofLine?_joinLine` — the statement on a line that was put together.
-/

namespace SearchLab

/-- The written form of a bag is read back as the bag. -/
def Bag.ReadsBack (bag : Bag) : Prop := Json.read bag.toText = .ok (.object bag)

namespace Notation

open Text

/-! ## Where a word ends -/

/-- No word goes on at the front of a text. -/
def EndsWord (behind : List Char) : Prop := behind.head?.any inWord = false

theorem endsWord_nil : EndsWord [] := rfl

theorem endsWord_blank (behind : List Char) : EndsWord (' ' :: behind) := rfl

/-- A word is all that is taken off the front of a text that starts with it. -/
theorem takeWhile_inWord {word behind : List Char} (hword : ∀ c ∈ word, inWord c = true) (hends : EndsWord behind) :
    (word ++ behind).takeWhile inWord = word := by
  rw [List.takeWhile_append_of_pos hword]
  cases behind with
  | nil => simp
  | cons c rest =>
      have hc : inWord c = false := hends
      rw [List.takeWhile_cons_of_neg (by simp [hc]), List.append_nil]

/-- What is left behind a word is the text behind it. -/
theorem dropWhile_inWord {word behind : List Char} (hword : ∀ c ∈ word, inWord c = true) (hends : EndsWord behind) :
    (word ++ behind).dropWhile inWord = behind := by
  rw [List.dropWhile_append_of_pos hword]
  cases behind with
  | nil => rfl
  | cons c rest =>
      have hc : inWord c = false := hends
      rw [List.dropWhile_cons_of_neg (by simp [hc])]

/-! ## One part after the other -/

theorem partsFrom_nil (line column : Nat) (parts : Parts) : partsFrom line parts column [] = .ok parts := by
  rw [partsFrom]

/-- A blank is passed over. -/
theorem partsFrom_blank (line column : Nat) (parts : Parts) (rest : List Char) :
    partsFrom line parts column (' ' :: rest) = partsFrom line parts (column + 1) rest := by
  rw [partsFrom, if_pos (by decide)]

/-- Data are the rest of the line. -/
theorem partsFrom_data (line column : Nat) (parts : Parts) (rest : List Char) :
    partsFrom line parts column ('\x7b' :: rest) = .ok { parts with data := some ('\x7b' :: rest, column) } := by
  rw [partsFrom, if_neg (by decide), if_pos rfl]

/-- What a bare argument is: a word that starts like none of the other parts. Behind a dash a number must start. -/
def ReadsBare (word : List Char) : Prop :=
  ∃ c rest, word = c :: rest ∧ c ≠ '"' ∧ (∀ d ∈ word, inWord d = true) ∧
    (c = '-' → ∀ behind, startsNumber (rest ++ behind) = true)

/-- A text that needs no quotes is a bare argument. -/
theorem readsBare_of_isPlain {value : List Char} (h : Argument.isPlain value = true) : ReadsBare value := by
  obtain ⟨hne, hdash, hall⟩ := Argument.of_isPlain h
  obtain ⟨c, rest, rfl⟩ := List.exists_cons_of_ne_nil hne
  refine ⟨c, rest, rfl, (hall c List.mem_cons_self).2.1, ?_, ?_⟩
  · intro d hd
    obtain ⟨hblank, _, hbrace⟩ := hall d hd
    simp [inWord, hblank, hbrace]
  · intro hc
    exact absurd (by rw [hc]; rfl) hdash

/-- A bare argument is read as one. -/
theorem partsFrom_bare {line column : Nat} {parts : Parts} {value behind : List Char}
    (hbare : ReadsBare value) (hoptions : parts.options = []) (hends : EndsWord behind) :
    partsFrom line parts column (value ++ behind) =
      partsFrom line { parts with args := parts.args ++ [⟨String.ofList value, column⟩] }
        (column + value.length) behind := by
  obtain ⟨c, rest, rfl, hquote, hword, hnumber⟩ := hbare
  have hc : isBlank c = false ∧ c ≠ '\x7b' := by
    have hfirst := hword c List.mem_cons_self
    simpa [inWord] using hfirst
  have hrest : ∀ d ∈ rest, inWord d = true := fun d hd => hword d (List.mem_cons_of_mem c hd)
  have hoption : (decide (c = '-') && !startsNumber (rest ++ behind)) = false := by
    by_cases hdash : c = '-'
    · simp [hnumber hdash behind]
    · simp [hdash]
  rw [List.cons_append, partsFrom, if_neg (by simp [hc.1]), if_neg hc.2, if_neg hquote]
  simp only [takeWhile_inWord hrest hends, dropWhile_inWord hrest hends, hoption]
  simp [Parts.addArg, hoptions]

/-- A quoted argument ends with its closing quote. -/
private theorem partsFrom_quoted {line column : Nat} {parts : Parts} (value : List Char) {behind : List Char}
    (hoptions : parts.options = []) (hends : EndsWord behind) :
    partsFrom line parts column ('"' :: value.flatMap Argument.escape ++ ['"'] ++ behind) =
      partsFrom line { parts with args := parts.args ++ [⟨String.ofList value, column⟩] }
        (column + (value.flatMap Argument.escape).length + 2) behind := by
  have hshape : '"' :: value.flatMap Argument.escape ++ ['"'] ++ behind =
      '"' :: (value.flatMap Argument.escape ++ '"' :: behind) := by simp
  have hlength : column + 1 + ((value.flatMap Argument.escape ++ '"' :: behind).length - behind.length) =
      column + (value.flatMap Argument.escape).length + 2 := by
    simp only [List.length_append, List.length_cons]
    omega
  rw [hshape, partsFrom, if_neg (by decide), if_neg (by decide), if_pos rfl]
  split
  · rename_i hread
    rw [Argument.readQuoted_escape] at hread
    exact absurd hread (by simp)
  · rename_i value' behind' hread
    rw [Argument.readQuoted_escape] at hread
    obtain ⟨rfl, rfl⟩ := Prod.mk.inj (Option.some.inj hread)
    have hfree : ¬ behind.head?.any inWord = true := by rw [hends]; exact Bool.false_ne_true
    rw [if_neg hfree, hlength]
    simp [Parts.addArg, hoptions]

/-- A written argument is read as one, in the column where it starts. -/
theorem partsFrom_argument {line column : Nat} {parts : Parts} (value : List Char) {behind : List Char}
    (hoptions : parts.options = []) (hends : EndsWord behind) :
    partsFrom line parts column (Argument.writeChars value ++ behind) =
      partsFrom line { parts with args := parts.args ++ [⟨String.ofList value, column⟩] }
        (column + (Argument.writeChars value).length) behind := by
  by_cases hplain : Argument.isPlain value = true
  · rw [Argument.writeChars, if_pos hplain]
    exact partsFrom_bare (readsBare_of_isPlain hplain) hoptions hends
  · have hwrite : Argument.writeChars value = '"' :: value.flatMap Argument.escape ++ ['"'] := by
      rw [Argument.writeChars, if_neg hplain]
    have hlength : column + (Argument.writeChars value).length =
        column + (value.flatMap Argument.escape).length + 2 := by
      rw [hwrite]
      simp only [List.length_append, List.length_cons, List.length_nil]
      omega
    rw [hlength, hwrite]
    exact partsFrom_quoted value hoptions hends

/-- What an option is: a dash, then no number, and nothing but letters, digits, dashes and underscores of which one
is no dash. -/
def ReadsAsOption (word : List Char) : Prop :=
  ∃ rest, word = '-' :: rest ∧ startsNumber rest = false ∧ isOption word = true

/-- Letters and digits are no blanks. -/
theorem not_isBlank_of_isAlphanum {c : Char} (h : c.isAlphanum = true) : isBlank c = false := by
  have hrange : 48 ≤ c.toNat ∧ c.toNat ≤ 122 := by
    change ((decide ('A'.val ≤ c.val ∧ c.val ≤ 'Z'.val) || ('a'.val ≤ c.val && c.val ≤ 'z'.val)) ||
      ('0'.val ≤ c.val && c.val ≤ '9'.val)) = true at h
    simp only [Bool.or_eq_true, Bool.and_eq_true, decide_eq_true_eq, UInt32.le_iff_toNat_le] at h
    change ((65 ≤ c.toNat ∧ c.toNat ≤ 90) ∨ (97 ≤ c.toNat ∧ c.toNat ≤ 122)) ∨
      (48 ≤ c.toNat ∧ c.toNat ≤ 57) at h
    omega
  obtain ⟨hlow, hhigh⟩ := hrange
  simp only [isBlank, Bool.or_eq_false_iff, Bool.and_eq_false_iff, decide_eq_false_iff_not, beq_eq_false_iff_ne]
  omega

/-- A character of an option is none that a word ends at. -/
private theorem inWord_of_optionChar {c : Char} (h : (c.isAlphanum || c == '-' || c == '_') = true) :
    inWord c = true := by
  simp only [Bool.or_eq_true, beq_iff_eq] at h
  rcases h with (halpha | rfl) | rfl
  · have hblank := not_isBlank_of_isAlphanum halpha
    have hbrace : c ≠ '\x7b' := by
      rintro rfl
      exact absurd halpha (by decide)
    simp [inWord, hblank, hbrace]
  · decide
  · decide

namespace ReadsAsOption

/-- An option is made of letters, digits, dashes and underscores. -/
theorem chars {word : List Char} (h : ReadsAsOption word) :
    ∀ c ∈ word, (c.isAlphanum || c == '-' || c == '_') = true := by
  obtain ⟨_, _, _, hoption⟩ := h
  simp only [isOption, Bool.and_eq_true, List.all_eq_true] at hoption
  intro c hc
  rw [← List.takeWhile_append_dropWhile (p := (· == '-')) (l := word), List.mem_append] at hc
  rcases hc with hdash | hname
  · have hdash : c = '-' := by simpa using List.mem_takeWhile_imp hdash
    subst hdash
    decide
  · exact hoption.2 c hname

/-- All of an option is one word. -/
theorem inWord {word : List Char} (h : ReadsAsOption word) : ∀ c ∈ word, inWord c = true :=
  fun c hc => inWord_of_optionChar (h.chars c hc)

/-- An option is a line in itself. -/
theorem trimmed {word : List Char} (h : ReadsAsOption word) : Trimmed word := by
  refine Trimmed.of_all ?_ fun c hc => ?_
  · obtain ⟨rest, rfl, _⟩ := h
    exact List.cons_ne_nil '-' rest
  · have hword := h.inWord c hc
    simp only [Notation.inWord, Bool.and_eq_true, Bool.not_eq_true'] at hword
    exact hword.1

end ReadsAsOption

/-- Whether a number starts with a character other than the point is a matter of this character. -/
theorem startsNumber_cons {c : Char} (hpoint : c ≠ '.') (behind : List Char) :
    startsNumber (c :: behind) = c.isDigit := by
  cases behind <;> simp [startsNumber, hpoint]

/-- An option is read as one. -/
theorem partsFrom_option {line column : Nat} {parts : Parts} {word behind : List Char} (h : ReadsAsOption word)
    (hends : EndsWord behind) :
    partsFrom line parts column (word ++ behind) =
      partsFrom line { parts with options := parts.options ++ [String.ofList word] } (column + word.length)
        behind := by
  have hword := h.inWord
  have hchars := h.chars
  obtain ⟨rest, rfl, hnumber, hoption⟩ := h
  have hrest : ∀ d ∈ rest, inWord d = true := fun d hd => hword d (List.mem_cons_of_mem '-' hd)
  -- An option is more than its dash and has no point, so what stands behind it does not make it a number.
  have hbehind : startsNumber (rest ++ behind) = false := by
    cases rest with
    | nil => exact absurd hoption (by decide)
    | cons c more =>
        have hpoint : c ≠ '.' := by
          rintro rfl
          exact absurd (hchars '.' (by simp)) (by decide)
        rw [List.cons_append, startsNumber_cons hpoint, ← startsNumber_cons hpoint more, hnumber]
  rw [List.cons_append, partsFrom, if_neg (by decide), if_neg (by decide), if_neg (by decide)]
  simp only [takeWhile_inWord hrest hends, dropWhile_inWord hrest hends]
  rw [if_pos (by simp [hbehind]), if_pos hoption]

/-! ## A whole line -/

/-- Parts of a line, each with a blank before it. -/
def spaced (pieces : List (List Char)) : List Char := pieces.flatMap fun piece => ' ' :: piece

theorem endsWord_spaced (pieces : List (List Char)) : EndsWord (spaced pieces) := by
  cases pieces with
  | nil => exact endsWord_nil
  | cons piece rest => exact endsWord_blank _

/-- The arguments that are read where the written forms of some texts stand one blank apart from a column on. -/
def placed (column : Nat) : List (List Char) → List Arg
  | [] => []
  | value :: rest => ⟨String.ofList value, column⟩ :: placed (column + (Argument.writeChars value).length + 1) rest

theorem map_value_placed (column : Nat) (values : List String) :
    (placed column (values.map String.toList)).map Arg.value = values := by
  induction values generalizing column with
  | nil => rfl
  | cons value rest ih => simp [placed, ih]

/-- Written arguments are read as these arguments, whatever follows them. -/
theorem partsFrom_arguments {line column : Nat} {parts : Parts} (values : List (List Char)) {behind : List Char}
    (hoptions : parts.options = []) (hends : EndsWord behind) :
    partsFrom line parts column (spaced (values.map Argument.writeChars) ++ behind) =
      partsFrom line { parts with args := parts.args ++ placed (column + 1) values }
        (column + (spaced (values.map Argument.writeChars)).length) behind := by
  induction values generalizing column parts with
  | nil => simp [spaced, placed]
  | cons value rest ih =>
      have hrest : EndsWord (spaced (rest.map Argument.writeChars) ++ behind) := by
        cases rest with
        | nil => exact hends
        | cons next more => exact endsWord_blank _
      have hshape : spaced ((value :: rest).map Argument.writeChars) ++ behind =
          ' ' :: (Argument.writeChars value ++ (spaced (rest.map Argument.writeChars) ++ behind)) := by
        simp [spaced]
      have hcolumn : column + 1 + (Argument.writeChars value).length +
          (spaced (rest.map Argument.writeChars)).length =
            column + (spaced ((value :: rest).map Argument.writeChars)).length := by
        simp only [spaced, List.map_cons, List.flatMap_cons, List.length_append, List.length_cons]
        omega
      rw [hshape, partsFrom_blank, partsFrom_argument value hoptions hrest, ih (by exact hoptions), hcolumn]
      simp [placed]

/-- Options are read as these options, whatever follows them. -/
theorem partsFrom_options {line column : Nat} {parts : Parts} {words : List (List Char)} {behind : List Char}
    (h : ∀ w ∈ words, ReadsAsOption w) (hends : EndsWord behind) :
    partsFrom line parts column (spaced words ++ behind) =
      partsFrom line { parts with options := parts.options ++ words.map String.ofList }
        (column + (spaced words).length) behind := by
  induction words generalizing column parts with
  | nil => simp [spaced]
  | cons word rest ih =>
      have hrest : EndsWord (spaced rest ++ behind) := by
        cases rest with
        | nil => exact hends
        | cons next more => exact endsWord_blank _
      have hshape : spaced (word :: rest) ++ behind = ' ' :: (word ++ (spaced rest ++ behind)) := by
        simp [spaced]
      have hcolumn : column + 1 + word.length + (spaced rest).length =
          column + (spaced (word :: rest)).length := by
        simp only [spaced, List.flatMap_cons, List.length_append, List.length_cons]
        omega
      have hword : ReadsAsOption word := h word List.mem_cons_self
      rw [hshape, partsFrom_blank, partsFrom_option hword hrest,
        ih fun w hw => h w (List.mem_cons_of_mem word hw), hcolumn]
      simp

theorem spaced_append (first second : List (List Char)) : spaced (first ++ second) = spaced first ++ spaced second :=
  List.flatMap_append

/-- The characters of a line that was put together. -/
theorem toList_joinLine (word : String) (words : List String) (payload : Option String) :
    (joinLine (word :: words) payload).toList =
      word.toList ++ spaced ((words ++ payload.toList).map String.toList) := by
  have hjoin : ∀ (first : String) (rest : List String),
      (" ".intercalate (first :: rest)).toList = first.toList ++ spaced (rest.map String.toList) := by
    intro first rest
    induction rest generalizing first with
    | nil => simp [spaced]
    | cons second more ih =>
        rw [String.intercalate_cons_cons, String.toList_append, String.toList_append, ih second]
        simp [spaced]
  exact hjoin word (words ++ payload.toList)

/-- What a command is: one or more capital letters. -/
def ReadsAsCommand (command : String) : Prop :=
  (!command.toList.isEmpty && command.toList.all Char.isUpper) = true

instance (command : String) : Decidable (ReadsAsCommand command) :=
  inferInstanceAs (Decidable (_ = true))

theorem ReadsAsCommand.ne_nil {command : String} (h : ReadsAsCommand command) : command.toList ≠ [] := by
  simpa using ((Bool.and_eq_true _ _).mp h).1

theorem ReadsAsCommand.isUpper {command : String} (h : ReadsAsCommand command) :
    ∀ c ∈ command.toList, c.isUpper = true :=
  List.all_eq_true.mp ((Bool.and_eq_true _ _).mp h).2

theorem ReadsAsCommand.trimmed {command : String} (h : ReadsAsCommand command) : Trimmed command.toList := by
  refine Trimmed.of_all h.ne_nil fun c hc => not_isBlank_of_isAlphanum ?_
  change (c.isUpper || c.isLower || c.isDigit) = true
  rw [h.isUpper c hc, Bool.true_or, Bool.true_or]

/-- A command with a bare argument stays as it is when it is trimmed. -/
theorem ReadsAsCommand.trimmed_word {command : String} (h : ReadsAsCommand command) {word : List Char}
    (hword : ReadsBare word) : Trimmed (command.toList ++ ' ' :: word) := by
  obtain ⟨c, rest, hshape, _, hchars, _⟩ := hword
  have htrimmed : Trimmed word := by
    refine Trimmed.of_all (by simp [hshape]) fun d hd => ?_
    have hd := hchars d hd
    simp only [inWord, Bool.and_eq_true, Bool.not_eq_true'] at hd
    exact hd.1
  have hblank : '\n' ∉ [' '] := by decide
  simpa using Trimmed.around h.trimmed htrimmed hblank

/-- A line that was put together stays as it is when it is trimmed. -/
theorem trimmed_joinLine {command : String} (values : List String) {options : List String} (payload : Option Bag)
    (hcommand : ReadsAsCommand command) (hoptions : ∀ o ∈ options, ReadsAsOption o.toList) :
    Trimmed (joinLine (command :: values.map Argument.write ++ options) (payload.map Bag.toText)).toList := by
  refine Trimmed.intercalate (by simp) fun w hw => ?_
  simp only [List.cons_append, List.mem_cons, List.mem_append] at hw
  rcases hw with rfl | (hw | hw) | hw
  · exact hcommand.trimmed
  · obtain ⟨value, _, rfl⟩ := List.mem_map.mp hw
    exact Argument.trimmed_write value
  · exact (hoptions w hw).trimmed
  · obtain ⟨bag, _, rfl⟩ := Option.map_eq_some_iff.mp (Option.mem_toList.mp hw)
    exact bag.trimmed_toText

/-- The parts of a line are found again behind its command. -/
theorem partsFrom_joined (line column : Nat) (values : List String) {options : List String} (payload : Option Bag)
    (hoptions : ∀ o ∈ options, ReadsAsOption o.toList) :
    ∃ place, partsFrom line {} column
        (spaced ((values.map Argument.write ++ options ++ (payload.map Bag.toText).toList).map String.toList)) =
      .ok
        { args := placed (column + 1) (values.map String.toList), options,
          data := payload.map fun bag => (bag.toText.toList, place) } := by
  have hwords : ∀ w ∈ options.map String.toList, ReadsAsOption w := by
    intro w hw
    obtain ⟨o, ho, rfl⟩ := List.mem_map.mp hw
    exact hoptions o ho
  have hvalues : (values.map Argument.write).map String.toList =
      (values.map String.toList).map Argument.writeChars := by
    simp [List.map_map, Argument.write, Function.comp_def]
  have hnames : (options.map String.toList).map String.ofList = options := by
    simp [List.map_map, Function.comp_def]
  rw [List.map_append, List.map_append, hvalues, List.append_assoc, spaced_append, spaced_append,
    partsFrom_arguments (values.map String.toList) rfl, partsFrom_options hwords (endsWord_spaced _), hnames]
  · cases payload with
    | none => exact ⟨0, by simp [spaced, partsFrom_nil]⟩
    | some bag =>
        have hpayload : spaced (((some bag).map Bag.toText).toList.map String.toList) = ' ' :: bag.toText.toList := by
          simp [spaced]
        rw [hpayload, partsFrom_blank, bag.toList_toText, List.cons_append, partsFrom_data]
        simp only [Option.map_some, Bag.toList_toText, List.cons_append]
        exact ⟨_, rfl⟩
  · rw [← spaced_append]
    exact endsWord_spaced _

/-! ## Data and style -/

/-- What is read of data and a style that were written together. -/
def reread (data style : Bag) : Bag × Bag := (withStyle data style).splitStyle

/-- A style that was folded into data without a style is taken out again. -/
theorem reread_of_plain {data : Bag} (style : Bag) (h : data.get? "style" = none) :
    reread data style = (data, style) := by
  cases hstyle : style with
  | nil => simp [reread, withStyle, Bag.splitStyle, h]
  | cons m rest =>
      have hwhole : withStyle data (m :: rest) = data ++ [("style", .object (m :: rest))] := by
        simp [withStyle, Bag.set_of_get?_eq_none _ h]
      have hget : (withStyle data (m :: rest)).get? "style" = some (.object (m :: rest)) := by
        simp [withStyle, Bag.get?_set]
      have hkeep : data.filter (fun m => m.1 != "style") = data := by
        rw [List.filter_eq_self]
        intro m' hm'
        simpa using Bag.ne_of_get?_eq_none h m' hm'
      rw [reread, Bag.splitStyle, hget]
      simp [hwhole, hkeep]

/-- The written data, when there are any. -/
theorem payload?_eq (data style : Bag) :
    payload? data style = (if (withStyle data style).isEmpty then none else some (withStyle data style)).map
      Bag.toText := by
  cases h : withStyle data style <;> simp [payload?, h]

/-- A line with data and style behind it stays as it is when it is trimmed. -/
theorem trimmed_written {command : String} (values : List String) {options : List String} {data style : Bag}
    (hcommand : ReadsAsCommand command) (hoptions : ∀ o ∈ options, ReadsAsOption o.toList) :
    Trimmed (joinLine (command :: values.map Argument.write ++ options) (payload? data style)).toList := by
  rw [payload?_eq]
  exact trimmed_joinLine values _ hcommand hoptions

/-- Data that read back are taken apart into data and style. -/
theorem readData_withStyle (line column : Nat) {data style : Bag} (hread : (withStyle data style).ReadsBack) :
    readData line column (withStyle data style).toText.toList = .ok (reread data style) := by
  have hjson : Json.read (String.ofList (withStyle data style).toText.toList) = .ok (.object (withStyle data style)) := by
    rw [String.ofList_toList]
    exact hread
  rw [readData, hjson]
  rfl

/-- The command of a line is its front of capital letters. -/
theorem takeWhile_isUpper {command : String} (h : ReadsAsCommand command) (behind : List Char) :
    (command.toList ++ ' ' :: behind).takeWhile Char.isUpper = command.toList ∧
      (command.toList ++ ' ' :: behind).dropWhile Char.isUpper = ' ' :: behind := by
  constructor
  · rw [List.takeWhile_append_of_pos h.isUpper, List.takeWhile_cons_of_neg (by decide), List.append_nil]
  · rw [List.dropWhile_append_of_pos h.isUpper, List.dropWhile_cons_of_neg (by decide)]

/-- A trimmed line whose command is followed by a blank says what the parts behind it say. -/
theorem ofLine?_of_parts (number : Nat) {command : String} {behind : List Char} (hcommand : ReadsAsCommand command)
    (htrimmed : Trimmed (command.toList ++ ' ' :: behind)) :
    Statement.ofLine? ⟨number, command.toList ++ ' ' :: behind⟩ =
      match partsFrom number {} (command.length + 1) (' ' :: behind) with
      | .error e => .error e
      | .ok parts =>
        if parts.args.isEmpty then notACommand number
        else
          match (match parts.data with
            | none => .ok ([], [])
            | some (data, column) => readData number column data : Except Error (Bag × Bag)) with
          | .error e => .error e
          | .ok (data, style) =>
            .ok (some { line := number, command, args := parts.args, options := parts.options, data, style }) := by
  obtain ⟨c, letters, hletters⟩ := List.exists_cons_of_ne_nil hcommand.ne_nil
  have hhash : c ≠ '#' := by
    rintro rfl
    exact absurd (hcommand.isUpper '#' (hletters ▸ List.mem_cons_self)) (by decide)
  have hstart : ((command.toList ++ ' ' :: behind).isEmpty ||
      decide ((command.toList ++ ' ' :: behind).head? = some '#')) = false := by
    simp [hletters, hhash]
  have hempty : (command.toList.isEmpty || !(' ' :: behind).head?.any isBlank) = false := by
    simp [hletters, isBlank]
  obtain ⟨htake, hdrop⟩ := takeWhile_isUpper hcommand behind
  rw [Statement.ofLine?]
  simp only [htrimmed.trim_eq, hstart, htake, hdrop, hempty, String.ofList_toList, String.length_toList]
  rfl

/-- A line with one bare argument is read back. -/
theorem ofLine?_word (number : Nat) {command : String} {word : List Char} (hcommand : ReadsAsCommand command)
    (hword : ReadsBare word) :
    Statement.ofLine? ⟨number, command.toList ++ ' ' :: word⟩ =
      .ok (some
        { line := number, command, args := [⟨String.ofList word, command.length + 2⟩], options := [], data := [],
          style := [] }) := by
  have hparts : partsFrom number {} (command.length + 2) (word ++ []) =
      partsFrom number { args := [⟨String.ofList word, command.length + 2⟩] } (command.length + 2 + word.length) [] :=
    partsFrom_bare hword rfl endsWord_nil
  rw [List.append_nil, partsFrom_nil] at hparts
  rw [ofLine?_of_parts number hcommand (hcommand.trimmed_word hword), partsFrom_blank, hparts]
  rfl

/-- A line with a command and an option but no argument is no statement. -/
theorem ofLine?_option (number : Nat) {command : String} {word : List Char} (hcommand : ReadsAsCommand command)
    (hword : ReadsAsOption word) :
    Statement.ofLine? ⟨number, command.toList ++ ' ' :: word⟩ = notACommand number := by
  have hblank : '\n' ∉ [' '] := by decide
  have htrimmed : Trimmed (command.toList ++ ' ' :: word) := by
    simpa using Trimmed.around hcommand.trimmed hword.trimmed hblank
  have hparts : partsFrom number {} (command.length + 2) (word ++ []) =
      partsFrom number { options := [String.ofList word] } (command.length + 2 + word.length) [] :=
    partsFrom_option hword endsWord_nil
  rw [List.append_nil, partsFrom_nil] at hparts
  rw [ofLine?_of_parts number hcommand htrimmed, partsFrom_blank, hparts]
  rfl

/-- **A line is read back.** A command, arguments, options and data that were put together to a line are the parts of
the statement on it, as long as the written form of the data reads back. -/
theorem ofLine?_joinLine (number : Nat) {command : String} {values options : List String} {data style : Bag}
    (hcommand : ReadsAsCommand command) (hvalues : values ≠ []) (hoptions : ∀ o ∈ options, ReadsAsOption o.toList)
    (hread : (withStyle data style).ReadsBack) :
    Statement.ofLine?
        ⟨number, (joinLine (command :: values.map Argument.write ++ options) (payload? data style)).toList⟩ =
      .ok (some
        { line := number, command, args := placed (command.length + 2) (values.map String.toList), options,
          data := (reread data style).1, style := (reread data style).2 }) := by
  obtain ⟨first, more, rfl⟩ := List.exists_cons_of_ne_nil hvalues
  rw [payload?_eq]
  generalize hbag : (if (withStyle data style).isEmpty then none else some (withStyle data style)) = bag
  have htrimmed := trimmed_joinLine (first :: more) bag hcommand hoptions
  obtain ⟨place, hparts⟩ := partsFrom_joined number (command.length + 1) (first :: more) bag hoptions
  rw [List.cons_append, toList_joinLine] at htrimmed ⊢
  obtain ⟨rest, hrest⟩ : ∃ rest, spaced (((first :: more).map Argument.write ++ options ++
      (bag.map Bag.toText).toList).map String.toList) = ' ' :: rest := ⟨_, rfl⟩
  rw [hrest] at htrimmed hparts ⊢
  rw [ofLine?_of_parts number hcommand htrimmed, hparts]
  cases bag with
  | none =>
      have hempty : withStyle data style = [] := by simpa using hbag
      have hnothing : reread data style = ([], []) := by
        rw [reread, hempty]
        rfl
      rw [hnothing]
      rfl
  | some whole =>
      have hwhole : withStyle data style = whole := by
        split at hbag
        · exact absurd hbag (by simp)
        · exact Option.some.inj hbag
      have hcontent := readData_withStyle number place hread
      rw [hwhole] at hcontent
      simp only [Option.map_some, hcontent]
      rfl

/-- The statement on a line that was written, its columns left out of account. -/
theorem ofLine?_written {line : Line} (command : String) (values options : List String) {data style : Bag}
    (hline : line.text =
      (joinLine (command :: values.map Argument.write ++ options) (payload? data style)).toList)
    (hcommand : ReadsAsCommand command) (hvalues : values ≠ []) (hoptions : ∀ o ∈ options, ReadsAsOption o.toList)
    (hread : (withStyle data style).ReadsBack) :
    ∃ s, Statement.ofLine? line = .ok (some s) ∧ s.command = command ∧ s.args.map Arg.value = values ∧
      s.options = options ∧ s.data = (reread data style).1 ∧ s.style = (reread data style).2 := by
  obtain ⟨number, text⟩ := line
  cases hline
  exact ⟨_, ofLine?_joinLine number hcommand hvalues hoptions hread, rfl, map_value_placed _ values, rfl, rfl, rfl⟩

/-! ## The flag of an edge -/

/-- The options of an edge. -/
def flagOptions (bidirectional : Bool) : List String := if bidirectional then ["-b"] else []

theorem readsAsOption_flag (bidirectional : Bool) : ∀ o ∈ flagOptions bidirectional, ReadsAsOption o.toList := by
  intro o ho
  have hflag : o = "-b" := by
    unfold flagOptions at ho
    split at ho
    · exact List.mem_singleton.mp ho
    · exact absurd ho List.not_mem_nil
  subst hflag
  exact ⟨['b'], rfl, rfl, rfl⟩

/-- The flag is read from the options. -/
theorem isBidirectional_of_options {s : Statement} {bidirectional : Bool} (h : s.options = flagOptions bidirectional) :
    s.isBidirectional = bidirectional := by
  cases bidirectional <;> simp [Statement.isBidirectional, Statement.hasFlag, h, flagOptions]

end Notation

end SearchLab
