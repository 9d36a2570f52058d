import Tablo.Chunks

/-! Resolution of user paths inside a sandbox root, as `path_utils.c` does it on POSIX. A path is the
list of its characters. -/

namespace Tablo.Path

open Chunks

abbrev Path := List Char

def render (cs : List Path) : Path := if cs.isEmpty then ['/'] else spell '/' cs

def components (p : Path) : List Path := cut (· == '/') p

def IsReal (p : Path) : Prop :=
  ∃ cs, Proper '/' cs ∧ (∀ c ∈ cs, c ≠ ['.'] ∧ c ≠ ['.', '.']) ∧ p = render cs

/-- A file system: the real path of every path that exists. -/
structure FileSystem where
  realpath : Path → Option Path
  isReal : ∀ p q, realpath p = some q → IsReal q

section Text

def pathIsSep (c : Char) : Bool := c == '/' || c == '\\'

/-- The loop of `path_trim_trailing_seps`, from the end of the text. -/
def trimReversed : Path → Path
  | [] => []
  | [c] => [c]
  | c :: d :: rest => if pathIsSep c then trimReversed (d :: rest) else c :: d :: rest

variable (p : Path)

def pathTrimTrailingSeps : Path := (trimReversed p.reverse).reverse

/-- The comparison of `path_prefix_matches`: the root's text, then the end or a separator. -/
def startsWithRoot : Path → Path → Bool
  | path, [] => path.head?.all pathIsSep
  | [], _ :: _ => false
  | a :: path, b :: root => a == b && startsWithRoot path root

def pathPrefixMatches (path root : Path) : Bool := !root.isEmpty && startsWithRoot path root

def pathIsAbsolute : Bool := p.head? == some '/'

def splitLastSep : Option (Path × Char × Path) :=
  match p.reverse.dropWhile (fun c => !pathIsSep c) with
  | [] => none
  | sep :: dir => some (dir.reverse, sep, (p.reverse.takeWhile fun c => !pathIsSep c).reverse)

def pathDirname : Path :=
  match splitLastSep p with
  | none => ['.']
  | some (dir, sep, _) => if dir.isEmpty then [sep] else dir

def pathLeaf : Path :=
  match splitLastSep p with
  | none => p
  | some (_, _, leaf) => leaf

def hasSep : Bool := p.getLast?.any pathIsSep

end Text

/-- The loop of `path_sandbox_join_alloc` over the segments of the user path. -/
def walkSegments (stack : List Path) : List Path → Except String (List Path)
  | [] => .ok stack
  | seg :: rest =>
    if seg = ['.'] then walkSegments stack rest
    else if seg = ['.', '.'] then
      if stack.isEmpty then .error "Path escapes sandbox" else walkSegments stack.dropLast rest
    else walkSegments (stack ++ [seg]) rest

def joinSegments (root : Path) (segs : List Path) : Path :=
  let trimmed := pathTrimTrailingSeps root
  trimmed ++ (if hasSep trimmed then [] else ['/']) ++ ['/'].intercalate segs

def pathSandboxJoin (root user : Path) : Except String Path := do
  if root.isEmpty then throw "Sandbox root not set"
  if user.isEmpty then throw "Empty path"
  if pathIsAbsolute user then throw "Absolute paths are not allowed"
  let segs ← walkSegments [] (cut pathIsSep user)
  if segs.isEmpty then throw "Path resolves to empty"
  return joinSegments root segs

variable (fs : FileSystem)

def pathCanonicalExisting (p : Path) : Option Path := if p.isEmpty then none else fs.realpath p

def appendLeaf (parent leaf : Path) : Path :=
  parent ++ (if hasSep parent then [] else ['/']) ++ leaf

def pathSandboxResolve (root user : Path) (allowMissingLeaf : Bool) : Except String Path := do
  let joined ← pathSandboxJoin root user
  match pathCanonicalExisting fs root with
  | none => throw "Sandbox root does not exist"
  | some rootReal =>
    let rootReal := pathTrimTrailingSeps rootReal
    match pathCanonicalExisting fs joined with
    | some targetReal =>
      let targetReal := pathTrimTrailingSeps targetReal
      if pathPrefixMatches targetReal rootReal then return targetReal
      else throw "Path escapes sandbox"
    | none =>
      if !allowMissingLeaf then throw "Path does not exist"
      else if (pathLeaf joined).isEmpty then throw "Invalid file name"
      else
        match pathCanonicalExisting fs (pathDirname joined) with
        | none => throw "Parent path does not exist"
        | some parentReal =>
          let parentReal := pathTrimTrailingSeps parentReal
          if pathPrefixMatches parentReal rootReal then return appendLeaf parentReal (pathLeaf joined)
          else throw "Path escapes sandbox"

end Tablo.Path
