/-! # Commands

What the words of a command line ask for. Options may stand anywhere among the operands of a
command and end at `--`; in front of a command's name they belong to the group of commands. Help
and version win over everything else that is wrong, except an option that does not exist.
-/
namespace Lox.Console

inductive Flag
  | help
  | version
  | heapStats
  | stress
  | debug
deriving DecidableEq, Repr

def Flag.text : Flag → String
  | help => "--help"
  | version => "--version"
  | heapStats => "--gc-stats"
  | stress => "--stress-gc"
  | debug => "--debug"

/-- What help can be asked about. -/
inductive Topic
  | program
  | run | check | ast | tokens | repl | config
  | configShow | configSet | configReset
deriving DecidableEq, Repr

namespace Topic

def name : Topic → String
  | program => "tlox"
  | run => "run"
  | check => "check"
  | ast => "ast"
  | tokens => "tokens"
  | repl => "repl"
  | config => "config"
  | configShow => "show"
  | configSet => "set"
  | configReset => "reset"

/-- The commands of the program and of its group for settings. -/
def members : Topic → List Topic
  | program => [ast,check,config,repl,run,tokens]
  | config => [configReset,configSet,configShow]
  | _ => []

def flags : Topic → List Flag
  | program => [.version,.help]
  | run => [.heapStats,.stress,.debug,.help]
  | repl => [.stress,.help]
  | _ => [.help]

end Topic

inductive UsageError
  | noCommand
  | unknownCommand (name : String)
  | unknownOption (name : String)
  | optionWithValue (name : String)
  | missingOperand
  | extraOperand (text : String)
  | noSuchFile (path : String)
deriving DecidableEq, Repr

def UsageError.message : UsageError → String
  | noCommand => "Missing command."
  | unknownCommand name => s!"No such command '{name}'."
  | unknownOption name => s!"No such option: {name}"
  | optionWithValue name => s!"Option '{name}' does not take a value."
  | missingOperand => "Missing argument."
  | extraOperand text => s!"Got unexpected extra argument ({text})"
  | noSuchFile path => s!"File '{path}' does not exist."

structure RunOptions where
  heapStats : Bool := false
  stress : Bool := false
  debug : Bool := false
deriving DecidableEq, Repr

inductive Command
  | version
  | help (topic : Topic)
  | run (file : String) (options : RunOptions)
  | check (file : String)
  | ast (file : String)
  | tokens (file : String)
  | repl (stress : Bool)
  | configShow
  | configSet (key value : String)
  | configReset
deriving DecidableEq, Repr

/-- The file that a command reads. -/
def Command.file? : Command → Option String
  | run file _ | check file | ast file | tokens file => some file
  | _ => none

/-- An option has a dash and more. -/
def isOption (word : String) : Bool := word.startsWith "-" && word ≠ "-"

/-- The flag that a word names. No flag takes a value. -/
def readFlag (allowed : List Flag) (word : String) : Except UsageError Flag :=
  let name := String.ofList (word.toList.takeWhile (· ≠ '='))
  match allowed.find? (·.text = name) with
  | none => .error (.unknownOption name)
  | some flag => if name = word then .ok flag else .error (.optionWithValue name)

/-- The flags in front of the first operand, and all words from there on. -/
def leadingFlags (allowed : List Flag) : List String → Except UsageError (List Flag × List String)
  | [] => return ([],[])
  | word :: rest =>
    if word = "--" then return ([],rest)
    else if isOption word then do
      let flag ← readFlag allowed word
      let (flags,operands) ← leadingFlags allowed rest
      return (flag :: flags,operands)
    else return ([],word :: rest)

/-- The flags anywhere among the words, and the operands. -/
def allFlags (allowed : List Flag) : List String → Except UsageError (List Flag × List String)
  | [] => return ([],[])
  | word :: rest =>
    if word = "--" then return ([],rest)
    else do
      let flag ← if isOption word then some <$> readFlag allowed word else pure none
      let (flags,operands) ← allFlags allowed rest
      match flag with
      | some flag => return (flag :: flags,operands)
      | none => return (flags,word :: operands)

/-- The first flag that asks for information instead of the command. -/
def information? (topic : Topic) : List Flag → Option Command
  | [] => none
  | .help :: _ => some (.help topic)
  | .version :: _ => some .version
  | _ :: rest => information? topic rest

def noOperand : List String → Except UsageError Unit
  | [] => .ok ()
  | word :: _ => .error (.extraOperand word)

def oneOperand : List String → Except UsageError String
  | [] => .error .missingOperand
  | word :: rest => (noOperand rest).map fun _ => word

def twoOperands : List String → Except UsageError (String × String)
  | [] => .error .missingOperand
  | word :: rest => (oneOperand rest).map (word,·)

namespace Command

/-- The command with these flags and operands that a topic names. -/
def build (topic : Topic) (flags : List Flag) (operands : List String) :
    Except UsageError Command := do
  match topic with
  | .run =>
    let file ← oneOperand operands
    return run file ⟨flags.contains .heapStats,flags.contains .stress,flags.contains .debug⟩
  | .check => return check (← oneOperand operands)
  | .ast => return ast (← oneOperand operands)
  | .tokens => return tokens (← oneOperand operands)
  | .repl =>
    noOperand operands
    return repl (flags.contains .stress)
  | .configShow =>
    noOperand operands
    return configShow
  | .configSet =>
    let (key,value) ← twoOperands operands
    return configSet key value
  | .configReset =>
    noOperand operands
    return configReset
  | .program | .config => throw .noCommand

/-- Reads the words behind a command that is no group. -/
def ofOperands (topic : Topic) (words : List String) : Except UsageError Command := do
  let (flags,operands) ← allFlags topic.flags words
  match information? topic flags with
  | some command => return command
  | none => build topic flags operands

/-- Reads the words behind a group: its flags, the name of a member and the words for that member.
A word in the place of the name that is no name may still be a flag of the group. -/
def ofGroup (group : Topic) (member : Topic → List String → Except UsageError Command)
    (words : List String) : Except UsageError Command := do
  let (flags,rest) ← leadingFlags group.flags words
  match information? group flags, rest with
  | some command, _ => return command
  | none, [] => throw .noCommand
  | none, name :: operands =>
    match group.members.find? (·.name = name) with
    | some topic => member topic operands
    | none =>
      let (late,_) ← leadingFlags group.flags rest
      match information? group late with
      | some command => return command
      | none => throw (.unknownCommand name)

def ofWords : List String → Except UsageError Command :=
  ofGroup .program fun topic words =>
    match topic with
    | .config => ofGroup .config ofOperands words
    | _ => ofOperands topic words

end Command
end Lox.Console
