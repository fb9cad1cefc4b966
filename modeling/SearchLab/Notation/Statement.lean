import SearchLab.Bag
import SearchLab.Notation.Argument

/-!
# Statements

Behind the first line, a line of notation is a comment or a statement:

    CMD arg "quoted arg" -flag --long-flag (data)

The command is a word of capital letters; arguments come before options; the data are an object, whose `style`
is kept apart. A word that starts with a dash and a digit is an argument, not an option. Columns count characters
from 1 in the trimmed line.

* `Statement.ofLine?` — the statement on a line, `none` for a comment.
-/

namespace SearchLab.Notation

/-- A line of a document, trimmed, with its number in the whole text. -/
structure Line where
  number : Nat
  text : List Char
deriving DecidableEq, Repr

/-- An argument and the column where its written form starts. -/
structure Arg where
  value : String
  column : Nat
deriving DecidableEq, Repr

/-- What a line says. -/
structure Statement where
  line : Nat
  command : String
  args : List Arg
  /-- The options with their dashes. -/
  options : List String
  data : Bag
  style : Bag

/-- A refusal of a text. -/
def refuse {α : Type} (line column : Nat) (detail : String) (sample : Option String := none) :
    Except Error α :=
  .error (.parsing { line, column, detail, sample })

/-- A line that shows every part of a statement. -/
def commandSample : String :=
  "CMD args -o --long-option \x7b\"x\": 1, \"style\": \x7b\"color\": \"red\"\x7d\x7d"

/-- A line with a quoted argument. -/
def quotedSample : String := "NODE \"node with spaces\""

/-- Data with a style. -/
def dataSample : String := "\x7b\"label\": \"A\", \"style\": \x7b\"color\": \"red\"\x7d\x7d"

namespace Statement

/-- Whether an option was given in either of its spellings. -/
def hasFlag (s : Statement) (short long : String) : Bool :=
  s.options.any fun o => o = short || o = long

/-- Whether the statement is said to hold both ways. -/
def isBidirectional (s : Statement) : Bool := s.hasFlag "-b" "--bidirectional"

/-- The refusal of a statement with another number of arguments; `phase` names what they are for. -/
def miscounted {α : Type} (s : Statement) (count : Nat) (phase : String) : Except Error α :=
  refuse s.line (s.command.length + 2)
    s!"Invalid argument count in {phase}, expected {count}, received {s.args.length}"

/-- That so many arguments were given. -/
def expectArgs (s : Statement) (count : Nat) (phase : String) : Except Error Unit :=
  if s.args.length = count then .ok () else s.miscounted count phase

/-- The only argument. -/
def one (s : Statement) (phase : String) : Except Error Arg :=
  match s.args with
  | [a] => .ok a
  | _ => s.miscounted 1 phase

/-- The two arguments. -/
def two (s : Statement) (phase : String) : Except Error (Arg × Arg) :=
  match s.args with
  | [a, b] => .ok (a, b)
  | _ => s.miscounted 2 phase

/-- The four arguments. -/
def four (s : Statement) (phase : String) : Except Error (Arg × Arg × Arg × Arg) :=
  match s.args with
  | [a, b, c, d] => .ok (a, b, c, d)
  | _ => s.miscounted 4 phase

end Statement

/-- The parts of a line behind its command: arguments, options, and the data with the column where they start. -/
structure Parts where
  args : List Arg := []
  options : List String := []
  data : Option (List Char × Nat) := none

/-- Whether a character belongs to a bare word: data may stand right behind it. -/
def inWord (c : Char) : Bool := !Text.isBlank c && c != '\x7b'

/-- Whether the text behind a dash makes it a number. -/
def startsNumber : List Char → Bool
  | '.' :: c :: _ => c.isDigit
  | c :: _ => c.isDigit
  | [] => false

/-- An option is made of letters, digits, dashes and underscores, and is more than dashes. -/
def isOption (word : List Char) : Bool :=
  let name := word.dropWhile (· == '-')
  !name.isEmpty && name.all fun c => c.isAlphanum || c == '-' || c == '_'

/-- The parts with one more argument, which may not stand behind an option. -/
def Parts.addArg (parts : Parts) (line column : Nat) (value : List Char) : Except Error Parts :=
  if parts.options.isEmpty then
    .ok { parts with args := parts.args ++ [⟨String.ofList value, column⟩] }
  else refuse line column "Arguments must come before options" commandSample

/-- The parts of the text `cs`, which starts in a column, behind those found before it. -/
def partsFrom (line : Nat) (parts : Parts) (column : Nat) (cs : List Char) : Except Error Parts :=
  match cs with
  | [] => .ok parts
  | c :: rest =>
    if Text.isBlank c then partsFrom line parts (column + 1) rest
    else if c = '\x7b' then .ok { parts with data := some (c :: rest, column) }
    else if c = '"' then
      match _h : Argument.readQuoted rest with
      | none => refuse line column "Unterminated quoted argument" quotedSample
      | some (value, behind) =>
        let next := column + 1 + (rest.length - behind.length)
        if (behind.head?.any inWord) then
          refuse line next "Quoted argument must be followed by whitespace" quotedSample
        else
          match parts.addArg line column value with
          | .error e => .error e
          | .ok parts => partsFrom line parts next behind
    else
      let word := c :: rest.takeWhile inWord
      let behind := rest.dropWhile inWord
      let next := column + word.length
      if c = '-' && !startsNumber rest then
        if isOption word then
          partsFrom line { parts with options := parts.options ++ [String.ofList word] } next behind
        else refuse line column s!"Invalid option \"{String.ofList word}\"" commandSample
      else
        match parts.addArg line column word with
        | .error e => .error e
        | .ok parts => partsFrom line parts next behind
termination_by cs.length
decreasing_by
  · simp
  · have := Argument.quotedFrom_length _h
    simp only [List.length_cons]
    omega
  · have := (List.dropWhile_suffix inWord (l := rest)).length_le
    simp only [List.length_cons]
    omega
  · have := (List.dropWhile_suffix inWord (l := rest)).length_le
    simp only [List.length_cons]
    omega

/-- The data that start in a column, and their style. -/
def readData (line column : Nat) (text : List Char) : Except Error (Bag × Bag) :=
  match Json.read (String.ofList text) with
  | .ok (.object members) => .ok (Bag.splitStyle members)
  | .ok _ => refuse line column "Data must be a JSON object"
  | .error e =>
    refuse line (column + (e.position.column - 1)) s!"Invalid data object: {e.message}" dataSample

/-- The refusal of a line that is no statement at all. -/
def notACommand {α : Type} (line : Nat) : Except Error α :=
  refuse line 0
    "Couldn't parse line contents into a valid command, commands must contain an uppercase command and at least one argument"
    commandSample

/-- The statement on a line; a comment holds none. -/
def Statement.ofLine? (line : Line) : Except Error (Option Statement) :=
  let text := Text.trim line.text
  if text.isEmpty || text.head? = some '#' then .ok none
  else
    let command := text.takeWhile Char.isUpper
    let behind := text.dropWhile Char.isUpper
    if command.isEmpty || !behind.head?.any Text.isBlank then notACommand line.number
    else
      match partsFrom line.number {} (command.length + 1) behind with
      | .error e => .error e
      | .ok parts =>
        if parts.args.isEmpty then notACommand line.number
        else
          let content : Except Error (Bag × Bag) :=
            match parts.data with
            | none => .ok ([], [])
            | some (data, column) => readData line.number column data
          match content with
          | .error e => .error e
          | .ok (data, style) =>
            .ok (some
              { line := line.number, command := String.ofList command, args := parts.args,
                options := parts.options, data, style })

end SearchLab.Notation
