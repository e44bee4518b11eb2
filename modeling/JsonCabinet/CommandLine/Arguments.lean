import JsonCabinet.Text.Integer

/-!
# Arguments of the command line

Options that stand before the command apply to all commands; what follows the command belongs to
it. Arguments are taken from left to right, and the first that does not fit ends the reading, as
does a question for help or for the version.
-/

namespace JsonCabinet.CommandLine

inductive Command
  | get (collection key : String)
  | set (collection key value : String)
  | del (collection key : String)
  | list (collection : String) (limit page : Int)
  | drop (collection : String)
  | collections
  | dump
  deriving DecidableEq, Repr

structure Invocation where
  file : String
  compact : Bool
  command : Command
  deriving DecidableEq, Repr

/-- The kinds of commands. -/
inductive Verb
  | get
  | set
  | del
  | list
  | drop
  | collections
  | dump
  deriving DecidableEq, Repr

def Verb.all : List Verb := [.get, .set, .del, .list, .drop, .collections, .dump]

def Verb.name : Verb → String
  | .get => "get"
  | .set => "set"
  | .del => "del"
  | .list => "list"
  | .drop => "drop"
  | .collections => "collections"
  | .dump => "dump"

/-- The names of the arguments that a command takes in their order. -/
def Verb.positionals : Verb → List String
  | .get | .del => ["COLLECTION", "KEY"]
  | .set => ["COLLECTION", "KEY", "VALUE"]
  | .list | .drop => ["COLLECTION"]
  | .collections | .dump => []

def Verb.ofName? (name : String) : Option Verb := Verb.all.find? (·.name == name)

/-- What help is given on. -/
inductive Topic
  | program
  | command (verb : Verb)
  /-- Help on how to ask for help. -/
  | help
  deriving DecidableEq, Repr

/-- What the arguments ask for. -/
inductive Request
  | run (invocation : Invocation)
  | version
  | help (topic : Topic)
  deriving DecidableEq, Repr

/-! ## The form of one argument -/

inductive Argument
  /-- Two hyphens: only values follow. -/
  | escape
  | long (name : String) (value : Option String)
  | short (letter : Char) (rest : String)
  | value (text : String)
  deriving DecidableEq, Repr

/-- A single hyphen is a value. -/
def Argument.ofText (text : String) : Argument :=
  match text.toList with
  | ['-', '-'] => .escape
  | '-' :: '-' :: chars =>
    match chars.dropWhile (· ≠ '=') with
    | [] => .long (String.ofList chars) none
    | _ :: tail => .long (String.ofList (chars.takeWhile (· ≠ '='))) (some (String.ofList tail))
  | '-' :: c :: chars => .short c (String.ofList chars)
  | _ => .value text

/-- The value that an option takes: attached to it, or the next argument. -/
def takeValue (attached : Option String) (rest : List String) : Option (String × List String) :=
  match attached with
  | some value => some (value, rest)
  | none => match rest with
    | [] => none
    | next :: rest => match Argument.ofText next with
      | .value text => some (text, rest)
      | _ => none

/-- What follows the letter of an option; an equals sign between them is dropped. -/
def attachedTo (rest : String) : Option String :=
  match rest.toList with
  | [] => none
  | '=' :: value => some (String.ofList value)
  | _ => some rest

/-! ## Arguments of a command -/

/-- What has been read of a command's arguments; the values stand last one first. -/
structure Partial where
  values : List String
  limit : Option Int
  page : Option Int
  deriving DecidableEq, Repr

def integer? (text : String) : Option Int := (Text.readInteger (Bytes.ofString text)).toOption

/-- The command, once all its values are there. -/
def Partial.finish? (p : Partial) (verb : Verb) : Option Command :=
  match verb, p.values.reverse with
  | .get, [c, k] => some (.get c k)
  | .set, [c, k, v] => some (.set c k v)
  | .del, [c, k] => some (.del c k)
  | .list, [c] => some (.list c (p.limit.getD 0) (p.page.getD 1))
  | .drop, [c] => some (.drop c)
  | .collections, [] => some .collections
  | .dump, [] => some .dump
  | _, _ => none

def Partial.takesValue (p : Partial) (verb : Verb) : Bool :=
  p.values.length < verb.positionals.length

inductive PageOption
  | limit
  | page

/-- Each option may be given once. -/
def Partial.setOption (p : Partial) (o : PageOption) (text : String) : Option Partial :=
  match integer? text, o with
  | none, _ => none
  | some n, .limit => if p.limit.isSome then none else some { p with limit := some n }
  | some n, .page => if p.page.isSome then none else some { p with page := some n }

/-- An option by its name behind two hyphens. -/
def longOption? (verb : Verb) (name : String) : Option PageOption :=
  if verb = .list then
    if name = "limit" then some .limit else if name = "page" then some .page else none
  else none

/-- An option by its letter behind one hyphen. -/
def shortOption? (verb : Verb) (letter : Char) : Option PageOption :=
  if verb = .list then
    if letter = 'l' then some .limit else if letter = 'p' then some .page else none
  else none

/-- Values behind two hyphens. -/
def readValues (verb : Verb) (p : Partial) : List String → Option Command
  | [] => p.finish? verb
  | text :: rest =>
    if p.takesValue verb then readValues verb { p with values := text :: p.values } rest else none

theorem length_takeValue {attached : Option String} {rest rest' : List String} {value : String}
    (h : takeValue attached rest = some (value, rest')) : rest'.length ≤ rest.length := by
  unfold takeValue at h
  split at h
  · cases h
    exact Nat.le_refl _
  · split at h
    · cases h
    · split at h
      · cases h
        simp
      · cases h

/-- The arguments of a command, or a question for help. -/
def readCommand (verb : Verb) (p : Partial) : List String → Option (Option Command)
  | [] => (p.finish? verb).map some
  | text :: rest => match Argument.ofText text with
    | .escape => (readValues verb p rest).map some
    | .value text =>
      if p.takesValue verb then readCommand verb { p with values := text :: p.values } rest
      else none
    | .long "help" none | .short 'h' _ => some none
    | .long name attached => readOption (longOption? verb name) attached rest
    | .short letter attached => readOption (shortOption? verb letter) (attachedTo attached) rest
termination_by args => 2 * args.length
decreasing_by all_goals simp only [List.length_cons]; omega
where
  readOption (option : Option PageOption) (attached : Option String) (rest : List String) :
      Option (Option Command) :=
    match option with
    | none => none
    | some o => match h : takeValue attached rest with
      | none => none
      | some (value, rest') => match p.setOption o value with
        | none => none
        | some p =>
          have := length_takeValue h
          readCommand verb p rest'
  termination_by 2 * rest.length + 1
  decreasing_by omega

/-! ## All arguments -/

/-- What has been read of the options. A file whose name is an argument of its own is pending: it
counts once another option is read, or when the command is complete, so that a question for help
comes before a complaint about it. -/
structure Options where
  file : Option String
  pending : Option String
  compact : Bool
  deriving DecidableEq, Repr

def defaultFile : String := "./docstore.json"

namespace Options

def initial : Options := ⟨none, none, false⟩

/-- Makes a pending file count; there may be one file only. -/
def settle (o : Options) : Option Options :=
  match o.pending, o.file with
  | none, _ => some o
  | some name, none => some { o with file := some name, pending := none }
  | some _, some _ => none

/-- Takes one more file; a name that is attached to its option counts at once. -/
def takeFile (o : Options) (attached : Bool) (name : String) : Option Options :=
  o.settle.bind fun o =>
    let o := { o with pending := some name }
    if attached then o.settle else some o

def takeCompact (o : Options) : Option Options :=
  o.settle.bind fun o => if o.compact then none else some { o with compact := true }

def invocation? (o : Options) (command : Command) : Option Invocation :=
  o.settle.map fun o => ⟨o.file.getD defaultFile, o.compact, command⟩

end Options

def readVerb (options : Options) (verb : Verb) (rest : List String) : Option Request :=
  match readCommand verb ⟨[], none, none⟩ rest with
  | none => none
  | some none => some (.help (.command verb))
  | some (some command) => (options.invocation? command).map .run

/-- What a question for help by the command of this name is about. -/
def Topic.ofArguments : List String → Option Topic
  | [] => some .program
  | [name] => if name = "help" then some .help else (Verb.ofName? name).map .command
  | _ => none

/-- What the arguments ask for, or nothing if they do not fit. -/
def Request.ofArguments (options : Options) : List String → Option Request
  | [] => none
  | text :: rest =>
    match Verb.ofName? text with
    | some verb => readVerb options verb rest
    | none =>
      if text = "help" then (Topic.ofArguments rest).map .help
      else match Argument.ofText text with
        | .escape | .value _ => none
        | .long "compact" none => match options.takeCompact with
          | none => none
          | some options => Request.ofArguments options rest
        | .long "help" none | .short 'h' _ => options.settle.map fun _ => .help .program
        | .long "version" none | .short 'V' _ => options.settle.map fun _ => .version
        | .long "file" attached => readFile attached rest
        | .short 'f' attached => readFile (attachedTo attached) rest
        | .long _ _ | .short _ _ => none
termination_by args => 2 * args.length
decreasing_by all_goals simp only [List.length_cons]; omega
where
  readFile (attached : Option String) (rest : List String) : Option Request :=
    match h : takeValue attached rest with
    | none => none
    | some (name, rest') => match options.takeFile attached.isSome name with
      | none => none
      | some options =>
        have := length_takeValue h
        Request.ofArguments options rest'
  termination_by 2 * rest.length + 1
  decreasing_by omega

/-- What the arguments of a program ask for. -/
def Request.read (args : List String) : Option Request := Request.ofArguments .initial args

end JsonCabinet.CommandLine
