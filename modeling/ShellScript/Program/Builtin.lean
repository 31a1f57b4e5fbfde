import ShellScript.Text.Byte

namespace ShellScript

-- The commands that the shell itself carries out.
inductive Builtin where
  | colon
  | true_
  | false_
  | echo
  | printf
  | cd
  | pwd
  | pushd
  | popd
  | dirs
  | export_
  | unset
  | local_
  | readonly
  | declare
  | typeset
  | read
  | test
  | bracket
  | exit
  | return_
  | break_
  | continue_
  | shift
  | set
  | source
  | dot
  | eval
  | exec
  | trap
  | wait
  | jobs
  | fg
  | bg
  | kill
  | let_
  | getopts
  | type
  | command
  | umask
  | times
  | alias
  | unalias
  | hash
  | help
deriving Repr, DecidableEq, Inhabited

namespace Builtin

def name : Builtin → String
  | .colon => ":"
  | .true_ => "true"
  | .false_ => "false"
  | .echo => "echo"
  | .printf => "printf"
  | .cd => "cd"
  | .pwd => "pwd"
  | .pushd => "pushd"
  | .popd => "popd"
  | .dirs => "dirs"
  | .export_ => "export"
  | .unset => "unset"
  | .local_ => "local"
  | .readonly => "readonly"
  | .declare => "declare"
  | .typeset => "typeset"
  | .read => "read"
  | .test => "test"
  | .bracket => "["
  | .exit => "exit"
  | .return_ => "return"
  | .break_ => "break"
  | .continue_ => "continue"
  | .shift => "shift"
  | .set => "set"
  | .source => "source"
  | .dot => "."
  | .eval => "eval"
  | .exec => "exec"
  | .trap => "trap"
  | .wait => "wait"
  | .jobs => "jobs"
  | .fg => "fg"
  | .bg => "bg"
  | .kill => "kill"
  | .let_ => "let"
  | .getopts => "getopts"
  | .type => "type"
  | .command => "command"
  | .umask => "umask"
  | .times => "times"
  | .alias => "alias"
  | .unalias => "unalias"
  | .hash => "hash"
  | .help => "help"

def all : List Builtin :=
  [.colon, .true_, .false_, .echo, .printf, .cd, .pwd, .pushd, .popd, .dirs, .export_, .unset, .local_,
    .readonly, .declare, .typeset, .read, .test, .bracket, .exit, .return_, .break_, .continue_, .shift, .set,
    .source, .dot, .eval, .exec, .trap, .wait, .jobs, .fg, .bg, .kill, .let_, .getopts, .type, .command,
    .umask, .times, .alias, .unalias, .hash, .help]

-- The builtin that a command name stands for.
def ofName? (s : String) : Option Builtin :=
  if s == "include" then some .source else all.find? (·.name == s)

-- Every name, the second one of `source` included, sorted.
def names : List String := Text.sort ("include" :: all.map name)

-- The names by number: 0 stands for no builtin.
def nameAt (n : Int) : String :=
  if n == 0 then ""
  else match (if n < 0 then none else all[n.toNat - 1]?) with
    | some b => b.name
    | none => "Builtin(" ++ toString n ++ ")"

-- Runs another file in the current shell.
def isSource : Builtin → Bool
  | .source | .dot => true
  | _ => false

-- Declares variables.
def isDecl : Builtin → Bool
  | .export_ | .local_ | .readonly | .declare | .typeset => true
  | _ => false

-- Assignments in front of a special builtin stay.
def isSpecial : Builtin → Bool
  | .colon | .break_ | .continue_ | .dot | .eval | .exec | .exit | .export_ | .readonly | .return_ | .set
  | .shift | .times | .trap | .unset => true
  | _ => false

end Builtin
end ShellScript
