import BoolScript.Text.Utf8

/-!
# Folders

A folder of files, for running a command line without a file system. Paths are relative to the
folder, which has no folders inside: a single dot leads from the folder to itself, and every other
step that is not the last one leads nowhere.
-/

namespace BoolScript.CommandLine

/-- Files by their names. -/
structure Folder where
  files : List (String × List UInt8) := []
  deriving DecidableEq, Repr, Inhabited

namespace Folder

/-- The parts of a path between its slashes. -/
def pathParts (path : String) : List (List Char) :=
  path.toList.splitOnP (· == '/')

/-- The name of the file that a path leads to, if it can lead to a file. -/
def fileName? (path : String) : Option String :=
  if path.toList.head? == some '/' then none
  else match (pathParts path).reverse with
    | [] => none
    | last :: steps =>
      if last == [] || last == ['.'] || steps.any fun part => part != [] && part != ['.'] then none
      else some (String.ofList last)

/-- The bytes of the file at a path. -/
def read? (folder : Folder) (path : String) : Option (List UInt8) :=
  (fileName? path).bind fun name => folder.files.lookup name

end Folder

end BoolScript.CommandLine
