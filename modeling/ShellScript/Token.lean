import ShellScript.Position

namespace ShellScript

namespace Token

inductive Kind where
  | illegal
  | eof
  | comment
  | word
  | ioNumber
  | newline
  -- the body of a here-document
  | hereDoc
  -- the inside of a `((...))` command
  | arith
  | semi
  | amp
  | and
  | or
  | pipe
  | pipeAll
  | dsemi
  | semiAmp
  | dsemiAmp
  | lparen
  | rparen
  | less
  | great
  | dgreat
  | lessAnd
  | greatAnd
  | lessGreat
  | clobber
  | dless
  | dlessDash
  | tless
  | andGreat
  | andDgreat
deriving Repr, DecidableEq, Inhabited

namespace Kind

def text : Kind → String
  | .illegal => "ILLEGAL"
  | .eof => "EOF"
  | .comment => "COMMENT"
  | .word => "WORD"
  | .ioNumber => "IONUMBER"
  | .newline => "newline"
  | .hereDoc => "HEREDOC"
  | .arith => "(("
  | .semi => ";"
  | .amp => "&"
  | .and => "&&"
  | .or => "||"
  | .pipe => "|"
  | .pipeAll => "|&"
  | .dsemi => ";;"
  | .semiAmp => ";&"
  | .dsemiAmp => ";;&"
  | .lparen => "("
  | .rparen => ")"
  | .less => "<"
  | .great => ">"
  | .dgreat => ">>"
  | .lessAnd => "<&"
  | .greatAnd => ">&"
  | .lessGreat => "<>"
  | .clobber => ">|"
  | .dless => "<<"
  | .dlessDash => "<<-"
  | .tless => "<<<"
  | .andGreat => "&>"
  | .andDgreat => "&>>"

-- Kinds are numbered in four groups with a free number between them.
def lexical : List Kind :=
  [.illegal, .eof, .comment, .word, .ioNumber, .newline, .hereDoc, .arith]

def operators : List Kind :=
  [.semi, .amp, .and, .or, .pipe, .pipeAll, .dsemi, .semiAmp, .dsemiAmp, .lparen, .rparen]

def redirections : List Kind :=
  [.less, .great, .dgreat, .lessAnd, .greatAnd, .lessGreat, .clobber, .dless, .dlessDash, .tless, .andGreat,
    .andDgreat]

def numbered : List (Option Kind) :=
  lexical.map some ++ [none] ++ operators.map some ++ [none, none] ++ redirections.map some

def ofNumber? (n : Int) : Option Kind := if n < 0 then none else (numbered[n.toNat]?).join

def nameAt (n : Int) : String :=
  match ofNumber? n with
  | some k => k.text
  | none => "Kind(" ++ toString n ++ ")"

def isOperator (k : Kind) : Bool := operators.contains k

def isRedirection (k : Kind) : Bool := redirections.contains k

end Kind
end Token

structure Token where
  kind : Token.Kind
  text : String
  pos : Position
  -- a reserved word where a command may begin
  keyword : Bool := false
  -- a word with some quoting, or a here-document whose delimiter had some
  quoted : Bool := false
deriving Repr, DecidableEq, Inhabited

namespace Token

def reserved : List String :=
  ["if", "then", "elif", "else", "fi", "for", "in", "do", "done", "while", "until", "case", "esac", "select",
    "function", "\x7b", "\x7d", "!", "[[", "]]"]

def isReserved (s : String) : Bool := reserved.contains s

-- The reserved words after which a command begins.
def opensCommand (s : String) : Bool :=
  ["if", "then", "elif", "else", "do", "while", "until", "\x7b", "!"].contains s

end Token
end ShellScript
