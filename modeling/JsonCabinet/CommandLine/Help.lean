import JsonCabinet.CommandLine.Arguments

/-!
# Help on the command line
-/

namespace JsonCabinet.CommandLine

def programName : String := "docstore-cli"

def versionText : String := programName ++ " 0.1.0\n"

def Verb.about : Verb → String
  | .get => "Get a document by key"
  | .set => "Store a JSON document under a key"
  | .del => "Delete a document"
  | .list => "List a page of a collection in key order"
  | .drop => "Delete a whole collection"
  | .collections => "List collection names"
  | .dump => "Print the whole store as it is written to disk"

/-- A name in a column as wide as the widest name, and what it is. -/
def helpLine (width : Nat) (name about : String) : String :=
  "  " ++ name ++ String.ofList (List.replicate (width - name.length) ' ') ++ "  " ++ about ++ "\n"

def helpLines (lines : List (String × String)) : String :=
  let width := (lines.map (·.1.length)).foldl max 0
  String.join (lines.map fun line => helpLine width line.1 line.2)

def helpAbout : String := "Print this message or the help of the given subcommand(s)"

def generalHelp : String :=
  "CLI for the docstore JSON document store\n\n" ++
  "Usage: " ++ programName ++ " [OPTIONS] <COMMAND>\n\nCommands:\n" ++
  helpLines (Verb.all.map (fun verb => (verb.name, verb.about)) ++
    [("help", helpAbout)]) ++
  "\nOptions:\n" ++
  helpLines [("-f, --file <FILE>", "Backing JSON file [default: " ++ defaultFile ++ "]"),
    ("    --compact", "Write compact JSON instead of indented"),
    ("-h, --help", "Print help"), ("-V, --version", "Print version")]

def Verb.options : Verb → List (String × String)
  | .list => [("-l, --limit <LIMIT>", "[default: 0]"), ("-p, --page <PAGE>", "[default: 1]")]
  | _ => []

def argumentAbout (name : String) : String :=
  if name = "VALUE" then "The document, as JSON text" else ""

def Verb.help (verb : Verb) : String :=
  let names := verb.positionals.map fun name => "<" ++ name ++ ">"
  let options := if verb.options.isEmpty then "" else " [OPTIONS]"
  verb.about ++ "\n\nUsage: " ++ programName ++ " " ++ verb.name ++ options ++
  String.join (names.map (" " ++ ·)) ++ "\n" ++
  (if names.isEmpty then ""
    else "\nArguments:\n" ++
      helpLines (verb.positionals.map fun name => ("<" ++ name ++ ">", argumentAbout name))) ++
  "\nOptions:\n" ++ helpLines (verb.options ++ [("-h, --help", "Print help")])

/-- The help on asking for help, which takes the name of a command. -/
def helpHelp : String :=
  helpAbout ++ "\n\nUsage: " ++ programName ++ " help [COMMAND]...\n\nArguments:\n" ++
  helpLines [("[COMMAND]...", "Print help for the subcommand(s)")]

def Topic.text : Topic → String
  | .program => generalHelp
  | .command verb => verb.help
  | .help => helpHelp

end JsonCabinet.CommandLine
