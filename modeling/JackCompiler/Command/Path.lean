/-!
# Paths

A path is a sequence of names between slashes. The extension of a file is what
follows the last dot of its name, unless that dot is the first character.
-/

namespace JackCompiler.Path

/-- The name up to its extension, the dot included in neither. -/
def stem (name : List Char) : List Char :=
  match (name.reverse.dropWhile (· ≠ '.')).tail.reverse with
  | [] => name
  | before => before

/-- Where the last name of a path begins: the path up to it, and the name. -/
def splitLast (path : List Char) : List Char × List Char :=
  ((path.reverse.dropWhile (· ≠ '/')).reverse, (path.reverse.takeWhile (· ≠ '/')).reverse)

def withExtension (path extension : String) : String :=
  let (parent, name) := splitLast path.toList
  String.ofList (parent ++ stem name) ++ "." ++ extension

end JackCompiler.Path
