import ShellScript.Text.Byte

-- Slash-separated paths as text.
namespace ShellScript
namespace Path

def isAbs (p : String) : Bool := Text.hasPrefix p "/"

-- Drops empty and `.` components and lets `..` cancel the component before it. The result is in reverse.
def reduce (rooted : Bool) : List String → List String → List String
  | done, [] => done
  | done, c :: cs =>
    if c.isEmpty || c == "." then reduce rooted done cs
    else if c == ".." then
      match done with
      | d :: ds => if d == ".." then reduce rooted (".." :: d :: ds) cs else reduce rooted ds cs
      | [] => if rooted then reduce rooted [] cs else reduce rooted [".."] cs
    else reduce rooted (c :: done) cs

-- The shortest path that means the same; the empty path is `.`.
def clean (p : String) : String :=
  let rooted := isAbs p
  let parts := (reduce rooted [] (Text.splitAt '/' p)).reverse
  if rooted then "/" ++ Text.joinWith "/" parts
  else if parts.isEmpty then "." else Text.joinWith "/" parts

-- Joins what is not empty.
def join (parts : List String) : String :=
  match parts.filter (!·.isEmpty) with
  | [] => ""
  | ps => clean (Text.joinWith "/" ps)

-- The last component.
def base (p : String) : String :=
  if p.isEmpty then "."
  else match p.toList.reverse.dropWhile (· == '/') with
    | [] => "/"
    | cs => String.ofList (cs.takeWhile (· != '/')).reverse

-- All but the last component.
def dir (p : String) : String :=
  clean (String.ofList (p.toList.reverse.dropWhile (· != '/')).reverse)

-- The last component's text from its last dot on.
def ext (p : String) : String :=
  let back := p.toList.reverse.takeWhile (· != '/')
  let e := back.takeWhile (· != '.')
  if e.length == back.length then "" else String.ofList ('.' :: e.reverse)

-- A path as seen from a directory.
def resolve (from_ p : String) : String := if p.isEmpty || isAbs p then p else join [from_, p]

def dropCommon : List String → List String → List String × List String
  | a :: as, b :: bs => if a == b then dropCommon as bs else (a :: as, b :: bs)
  | as, bs => (as, bs)

def components (p : String) : List String := (Text.splitAt '/' p).filter (!·.isEmpty)

-- The components of the shortest path that means the same; `.` has none.
def cleanComponents (p : String) : List String := (components (clean p)).filter (· != ".")

-- The way from a directory to a path, both of them absolute or seen from the same place.
def relative (from_ to_ : String) : String :=
  let (up, down) := dropCommon (cleanComponents from_) (cleanComponents to_)
  let parts := up.map (fun _ => "..") ++ down
  if parts.isEmpty then "." else Text.joinWith "/" parts

end Path
end ShellScript
