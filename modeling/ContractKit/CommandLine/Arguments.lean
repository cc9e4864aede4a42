/-!
# `CommandLine/Arguments.lean`: options and arguments

A command takes options without values, and at most one argument. An option may be shortened to any
beginning that no other one shares. After `--` nothing is an option. Reading arguments does not refuse
what it does not know: that is left over, in order, for the command or for the next reader.

What ends the reading at once is a request for help, or an option used as it cannot be.
-/

set_option autoImplicit false

namespace ContractKit.CommandLine

/-- Why reading arguments ends at once. -/
inductive Ending
  | help
  | misuse
  deriving DecidableEq, Repr

/-- The exit code of a run that ends while its arguments are read. -/
def Ending.code : Ending → Int
  | help => 0
  | misuse => 2

/-- An option. -/
structure Switch where
  /-- The way in which it is written, dashes included. -/
  spelling : String
  /-- Whether it asks for help, and so ends the reading. -/
  asksHelp : Bool := false
  deriving DecidableEq, Repr

/-- The two ways of asking for help. -/
def helpSwitches : List Switch := [⟨"-h", true⟩, ⟨"--help", true⟩]

/-- What a command takes. -/
structure Grammar where
  switches : List Switch
  /-- Whether no two different options may be given. -/
  exclusive : Bool := false
  /-- Whether an argument is taken. -/
  takesArgument : Bool := false

/-- A word of the arguments as it is understood. -/
inductive Word
  | plain (text : String)
  /-- The mark after which nothing is an option. -/
  | dashes
  /-- An option, with what was written right behind it. -/
  | switch (switch : Switch) (value : Option String)
  | unknown (text : String)

/-- What has been read. -/
structure Arguments where
  /-- The options that were given, latest first. -/
  switches : List Switch := []
  argument : Option String := none
  /-- What was not understood, in order. -/
  rest : List String := []

namespace Grammar

/-- The text before the first equals sign, and the text behind it. -/
def splitValue (text : String) : String × Option String :=
  match text.splitOn "=" with
  | name :: value :: more => (name, some ("=".intercalate (value :: more)))
  | _ => (text, none)

/-- Whether a text starts with two dashes. -/
def isLong (text : String) : Bool := text.startsWith "--"

/-- The options that a shortened word may stand for, each with the value behind it. -/
def candidates (g : Grammar) (text : String) : List (Switch × Option String) :=
  if isLong text then
    let (name, value) := splitValue text
    (g.switches.filter fun s => s.spelling.startsWith name).map fun s => (s, value)
  else
    (g.switches.filter fun s => s.spelling.toList == text.toList.take 2).map fun s =>
      (s, some (String.ofList (text.toList.drop 2)))

/-- The option of a spelling. -/
def exactly (g : Grammar) (spelling : String) : Option Switch :=
  g.switches.find? fun s => s.spelling == spelling

/-- The word that a text is, before any `--`. -/
def word (g : Grammar) (text : String) : Except Ending Word :=
  if !text.startsWith "-" || text == "-" then .ok (.plain text)
  else
    match g.exactly text with
    | some s => .ok (.switch s none)
    | none =>
      let (name, value) := splitValue text
      match value.bind fun value => (g.exactly name).map fun s => (s, value) with
      | some (s, value) => .ok (.switch s (some value))
      | none =>
        match g.candidates text with
        | [] => .ok (.unknown text)
        | [(s, value)] => .ok (.switch s value)
        | _ => .error .misuse

def words (g : Grammar) : List String → Except Ending (List Word)
  | [] => .ok []
  | text :: rest =>
    if text == "--" then .ok (.dashes :: rest.map .plain)
    else do
      let w ← g.word text
      let ws ← g.words rest
      pure (w :: ws)

/-- Note an option. Options take no values; but a short one that asks for help may be written several
times behind one dash. -/
def note (g : Grammar) (read : Arguments) (s : Switch) (value : Option String) :
    Except Ending Arguments :=
  match value with
  | some value =>
    if s.asksHelp && !isLong s.spelling && !value.isEmpty
        && value.toList.all (fun c => s.spelling == "-" ++ c.toString) then .error .help
    else .error .misuse
  | none =>
    if s.asksHelp then .error .help
    else if g.exclusive && read.switches.any (fun given => given != s) then .error .misuse
    else .ok { read with switches := s :: read.switches }

/-- Leave a text for later. -/
def leave (read : Arguments) (text : String) : Arguments := { read with rest := read.rest ++ [text] }

/-- Whether an argument is still to be had. -/
def wantsArgument (g : Grammar) (read : Arguments) : Bool := g.takesArgument && read.argument.isNone

/-- Go on reading words. The mark `--` goes with the argument before or behind it. -/
def readOnto (g : Grammar) (read : Arguments) : List Word → Except Ending Arguments
  | [] => .ok read
  | .plain text :: .dashes :: rest =>
    if g.wantsArgument read then g.readOnto { read with argument := some text } rest
    else g.readOnto (leave (leave read text) "--") rest
  | .plain text :: rest =>
    if g.wantsArgument read then g.readOnto { read with argument := some text } rest
    else g.readOnto (leave read text) rest
  | .dashes :: .plain text :: rest =>
    if g.wantsArgument read then g.readOnto { read with argument := some text } rest
    else g.readOnto (leave (leave read "--") text) rest
  | .dashes :: rest => g.readOnto (leave read "--") rest
  | .switch s value :: rest => do
    let read ← g.note read s value
    g.readOnto read rest
  | .unknown text :: rest => g.readOnto (leave read text) rest

/-- Read arguments, as far as they are understood. -/
def readKnown (g : Grammar) (texts : List String) : Except Ending Arguments := do
  let ws ← g.words texts
  let read ← g.readOnto {} ws
  if g.wantsArgument read then throw .misuse
  pure read

/-- Read arguments, all of which have to be understood. -/
def readAll (g : Grammar) (texts : List String) : Except Ending Arguments := do
  let read ← g.readKnown texts
  if !read.rest.isEmpty then throw .misuse
  pure read

end Grammar

def Arguments.has (read : Arguments) (spelling : String) : Bool :=
  read.switches.any fun s => s.spelling == spelling

end ContractKit.CommandLine
