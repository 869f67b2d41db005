import JackCompiler.Command.Run

/-!
# Directories as values

A directory holds files by the names on the way to them; a directory inside it
is there exactly when it holds a file. Paths are relative to the outer directory.
-/

namespace JackCompiler

def pathNames (path : String) : List String :=
  (path.toList.foldr (fun c names =>
    if c = '/' then [] :: names
    else (c :: names.headD []) :: names.tail) [[]]).map String.ofList

structure Directory where
  files : List (List String × List UInt8)
deriving DecidableEq, Repr

namespace Directory

def file? (d : Directory) (names : List String) : Option (List UInt8) :=
  d.files.lookup names

def isDirectory (d : Directory) (names : List String) : Bool :=
  names.isEmpty || d.files.any fun (file, _) => names.length < file.length && names.isPrefixOf file

/-- Follows a path from the directory `here`, its names last one first. The way up
ends at the outer directory: nothing is known of what lies beside it. -/
def follow? (d : Directory) (here : List String) : List String → Option (List String)
  | [] => some here.reverse
  | name :: names =>
    if !d.isDirectory here.reverse then none
    else if name = "" || name = "." then d.follow? here names
    else if name = ".." then
      match here with
      | [] => none
      | _ :: above => d.follow? above names
    else d.follow? (name :: here) names

/-- Where the path leads, unless it leaves the directory or ends with a slash. -/
def locate? (d : Directory) (path : String) : Option (List String) :=
  let names := pathNames path
  if names.head? = some "" || names.getLast? = some "" then none
  else d.follow? [] names

def read (d : Directory) (path : String) : Except String (List UInt8) :=
  match d.locate? path >>= d.file? with
  | some bytes => .ok bytes
  | none => .error (path ++ ": no such file")

def put (names : List String) (bytes : List UInt8) :
    List (List String × List UInt8) → List (List String × List UInt8)
  | [] => [(names, bytes)]
  | (name, old) :: files =>
    if name = names then (names, bytes) :: files else (name, old) :: put names bytes files

def write (d : Directory) (path text : String) : Except String Directory :=
  match d.locate? path with
  | none => .error (path ++ ": no such directory")
  | some names =>
    if d.isDirectory names then .error (path ++ ": is a directory")
    else .ok ⟨put names text.toUTF8.toList d.files⟩

/-- A directory as a file system: reading leaves it as it is, and so does writing
that fails. -/
def fileSystem : FileSystem (StateM Directory) where
  read path := fun d => (d.read path, d)
  write path text := fun d =>
    match d.write path text with
    | .ok d' => (.ok (), d')
    | .error why => (.error why, d)

def run (d : Directory) (reader : SettingsReader) (arguments : List String) :
    Outcome × Directory :=
  runCommand fileSystem reader arguments d

end Directory

end JackCompiler
