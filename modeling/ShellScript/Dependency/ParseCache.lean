import ShellScript.Script.Read

-- Files read once and kept by name and content.
namespace ShellScript
namespace Dependency

-- A digest of the name and one of the content are combined by exclusive or, so the two are not told apart by
-- their order, and a name equal to its content leaves nothing of either. Two digests of different texts are taken to
-- differ.
inductive CacheKey where
  | same
  | pair (low high : String)
deriving Repr, DecidableEq

def CacheKey.of (name src : String) : CacheKey :=
  if name == src then .same
  else if Text.le name src then .pair name src
  else .pair src name

-- The files by their keys.
structure ParseCache (κ : Type := CacheKey) where
  files : List (κ × Script.File) := []

namespace ParseCache

variable {κ : Type}

def size (c : ParseCache κ) : Nat := c.files.length

-- The file, whether it was there before, and the cache afterwards.
def readBy [BEq κ] (key : String → String → κ) (c : ParseCache κ) (dialect : Option Dialect) (name src : String) :
    Script.File × Bool × ParseCache κ :=
  match c.files.lookup (key name src) with
  | some f => (f, true, c)
  | none =>
    let f := Script.read dialect name src
    (f, false, { files := (key name src, f) :: c.files })

def read (c : ParseCache) (dialect : Option Dialect) (name src : String) : Script.File × Bool × ParseCache :=
  c.readBy CacheKey.of dialect name src

end ParseCache
end Dependency
end ShellScript
