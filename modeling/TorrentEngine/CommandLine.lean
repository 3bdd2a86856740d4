import TorrentEngine.Path

/-!
The command line of the program: a subcommand with its arguments. An option's value is looked at
when the next argument settles that nothing more belongs to it, so of two mistakes the one settled
first is reported.
-/

namespace TorrentEngine

/-- What the program is asked to do: check data on disk against a torrent, or describe one. -/
inductive Task
  | check (torrent : String) (folder : Option String)
  | inspect (torrent : String)
  deriving DecidableEq, Repr

/-- The pages of help: for the program and for each subcommand. -/
inductive HelpPage
  | program
  | check
  | inspect
  | help
  deriving DecidableEq, Repr

/-- Why arguments name no task: help or the version is asked for, or there is a mistake in them. -/
inductive Refusal
  | help (page : HelpPage)
  | version
  | missingSubcommand
  | unknownSubcommand
  | unknownArgument
  | needlessValue
  | missingArgument
  | invalidValue
  | repeated
  deriving DecidableEq, Repr

namespace CommandLine

/-- An argument by its looks. -/
inductive Shape
  | escape
  | long (name : String) (value : Option String)
  | short (flag : Char)
  | plain
  deriving DecidableEq, Repr

/-- The name and the value, if there is one, of an option. -/
def splitOption : List Char → List Char × Option (List Char)
  | [] => ([], none)
  | '=' :: value => ([], some value)
  | c :: rest =>
    let (name, value) := splitOption rest
    (c :: name, value)

/-- How an argument looks. A single dash is a plain argument. -/
def shape (arg : String) : Shape :=
  match arg.toList with
  | ['-', '-'] => .escape
  | '-' :: '-' :: rest =>
    let (name, value) := splitOption rest
    .long (String.ofList name) (value.map String.ofList)
  | '-' :: flag :: _ => .short flag
  | _ => .plain

/-! ## Arguments of a subcommand -/

/-- An argument whose value may still be coming. -/
inductive Pending
  | torrent (value : String)
  | folder (value : Option String)
  deriving DecidableEq, Repr

/-- The arguments of a subcommand as far as they have come. `isEscaped` tells that all further
arguments are plain ones. -/
structure Draft where
  torrent : Option String := none
  folder : Option String := none
  pending : Option Pending := none
  hasTorrent : Bool := false
  isEscaped : Bool := false
  deriving Repr

namespace Draft

/-- Takes the folder, which may be given once and is not empty. -/
def takeFolder (d : Draft) (value : String) : Except Refusal Draft :=
  if d.folder.isSome then .error .repeated
  else if value.isEmpty then .error .invalidValue
  else .ok { d with folder := some value }

def settle (d : Draft) : Except Refusal Draft :=
  let settled := { d with pending := none }
  match d.pending with
  | none => .ok settled
  | some (.torrent value) =>
    if value.isEmpty then .error .invalidValue else .ok { settled with torrent := some value }
  | some (.folder none) => .error .invalidValue
  | some (.folder (some value)) => settled.takeFolder value

def takeTorrent (d : Draft) (arg : String) : Except Refusal Draft :=
  if d.hasTorrent then .error .unknownArgument
  else do
    return { ← d.settle with pending := some (.torrent arg), hasTorrent := true }

def takeOption (d : Draft) (page : HelpPage) (name : String) (value : Option String) :
    Except Refusal Draft :=
  if name = "help" then
    match value with
    | some _ => .error .needlessValue
    | none => d.settle.bind fun _ => .error (.help page)
  else if name = "dir" ∧ page = .check then do
    let d ← d.settle
    match value with
    | some value => d.takeFolder value
    | none => return { d with pending := some (.folder none) }
  else .error .unknownArgument

def take (page : HelpPage) (d : Draft) (arg : String) : Except Refusal Draft :=
  if d.isEscaped then d.takeTorrent arg
  else
    match shape arg with
    | .escape => .ok { d with isEscaped := true }
    | .long name value => d.takeOption page name value
    | .short flag =>
      if flag = 'h' then d.settle.bind fun _ => .error (.help page) else .error .unknownArgument
    | .plain =>
      match d.pending with
      | some (.folder none) => .ok { d with pending := some (.folder (some arg)) }
      | _ => d.takeTorrent arg

end Draft

/-- The torrent and the folder that the arguments of a subcommand name. -/
def readArguments (page : HelpPage) (args : List String) :
    Except Refusal (String × Option String) := do
  let d ← (← args.foldlM (Draft.take page) {}).settle
  match d.torrent with
  | some torrent => return (torrent, d.folder)
  | none => throw .missingArgument

/-! ## Subcommands -/

def page? (name : String) : Option HelpPage :=
  if name = "check" then some .check
  else if name = "inspect" then some .inspect
  else if name = "help" then some .help
  else none

/-- The page that the arguments of the help subcommand ask for. -/
def helpRefusal : List String → Refusal
  | [] => .help .program
  | [name] =>
    match page? name with
    | some page => .help page
    | none => .unknownSubcommand
  | _ => .unknownSubcommand

/-- What is wrong with an option before any subcommand. -/
def optionRefusal (name : String) (value : Option String) : Refusal :=
  let asked : Option Refusal :=
    if name = "help" then some (.help .program)
    else if name = "version" then some .version
    else none
  match asked, value with
  | none, _ => .unknownArgument
  | some _, some _ => .needlessValue
  | some refusal, none => refusal

/-- What is wrong with an argument after the escape, where no subcommand can stand any more. -/
def escapedRefusal : List String → Refusal
  | [] => .missingSubcommand
  | arg :: _ => if (page? arg).isSome then .unknownArgument else .unknownSubcommand

def parse : List String → Except Refusal Task
  | [] => .error .missingSubcommand
  | "check" :: args =>
    (readArguments .check args).map fun (torrent, folder) => .check torrent folder
  | "inspect" :: args => (readArguments .inspect args).map fun (torrent, _) => .inspect torrent
  | "help" :: args => .error (helpRefusal args)
  | arg :: args =>
    match shape arg with
    | .escape => .error (escapedRefusal args)
    | .long name value => .error (optionRefusal name value)
    | .short 'h' => .error (.help .program)
    | .short 'V' => .error .version
    | .short _ => .error .unknownArgument
    | .plain => .error .unknownSubcommand

end CommandLine

end TorrentEngine
