/-!
# Command/Path — paths, as text

Paths are cleaned without a look at the files: a step up cancels the step down before it.
-/

namespace StackEffect.Path

/-- Whether a path starts at the root. -/
def isAbsolute (path : String) : Bool := path.toList.head? == some '/'

/-- The steps of a path, split at slashes. -/
def steps (path : String) : List String := (path.toList.splitOn '/').map String.ofList

/-- Takes a step after those taken so far, the last of which comes first. -/
def step (rooted : Bool) (taken : List String) (next : String) : List String :=
  if next = "" ∨ next = "." then taken
  else if next = ".." then
    match taken with
    | [] => if rooted then [] else [".."]
    | last :: before => if last = ".." then ".." :: taken else before
  else next :: taken

/-- **The shortest path that leads to the same place.** -/
def clean (path : String) : String :=
  let rooted := isAbsolute path
  let joined := "/".intercalate ((steps path).foldl (step rooted) []).reverse
  if rooted then "/" ++ joined else if joined = "" then "." else joined

/-- The folder of a file. -/
def folder (path : String) : String :=
  clean ("/".intercalate (steps path).dropLast ++
    (if (steps path).dropLast.isEmpty then "" else "/"))

/-- A path that starts in a folder. -/
def join (folder path : String) : String :=
  match [folder, path].filter (· ≠ "") with
  | [] => ""
  | parts => clean ("/".intercalate parts)

end StackEffect.Path
