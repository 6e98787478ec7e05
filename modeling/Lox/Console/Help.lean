import Lox.Console.Command

/-! # Help

The help on a topic: how it is written, what it does, its options and its members.
-/
namespace Lox.Console

def Flag.purpose : Flag → String
  | help => "Show this message and exit."
  | version => "Show the version and exit."
  | heapStats => "Print heap statistics after the run."
  | stress => "Collect on every allocation."
  | debug => "Enable verbose debug logging."

namespace Topic

def purpose : Topic → String
  | program => "treelox - a tree-walking Lox interpreter with a tracing heap"
  | run => "Run a treelox program"
  | check => "Check syntax and scoping of a treelox file"
  | ast => "Show the resolved AST of a treelox file"
  | tokens => "Show tokens of a treelox file"
  | repl => "Start the treelox REPL"
  | config => "Show or change persistent settings"
  | configShow => "Show current settings"
  | configSet => "Set KEY to VALUE and save"
  | configReset => "Restore default settings"

/-- The words that lead to a topic. -/
def path : Topic → List String
  | program => [program.name]
  | configShow => [program.name,config.name,configShow.name]
  | configSet => [program.name,config.name,configSet.name]
  | configReset => [program.name,config.name,configReset.name]
  | topic => [program.name,topic.name]

def operands : Topic → List String
  | program | config => ["COMMAND","[ARGS]..."]
  | run | check | ast | tokens => ["FILE"]
  | configSet => ["KEY","VALUE"]
  | repl | configShow | configReset => []

/-- Pairs of texts in two columns under a title. -/
def columns (title : String) (rows : List (String × String)) : String :=
  let width := rows.foldl (fun n (left,_) => max n left.length) 0
  let line : String × String → String := fun (left,right) =>
    let gap := String.ofList (List.replicate (width + 2 - left.length) ' ')
    s!"  {left}{gap}{right}\n"
  if rows.isEmpty then "" else s!"\n{title}:\n" ++ String.join (rows.map line)

def help (topic : Topic) : String :=
  let usage := " ".intercalate (topic.path ++ ["[OPTIONS]"] ++ topic.operands)
  s!"Usage: {usage}\n\n  {topic.purpose}\n" ++
    columns "Options" (topic.flags.map fun f => (f.text,f.purpose)) ++
    columns "Commands" (topic.members.map fun t => (t.name,t.purpose))

end Topic
end Lox.Console
