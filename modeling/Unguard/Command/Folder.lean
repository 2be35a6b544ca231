import Unguard.Command.Run

/-!
# Running in a folder

A run of the program on a folder of files, with no folders inside.  A path is followed from left to
right, and the first part that leads nowhere decides what is reported:

* a name of more than 255 bytes is too long, and so is a path of more than 4095;
* a file has nothing below it, so no part may follow it;
* a slash at the end asks for a folder, so nothing can be saved there, and no file is read by it.

Of what lies around the folder nothing is known but that it is there: no file is found in it, and what
is saved to it is not seen again.
-/

namespace Unguard.Command

/-! ### Paths -/

/-- The parts of a path between its slashes, with empty ones. -/
def splitPath : List Char → List (List Char)
  | [] => [[]]
  | c :: cs =>
    if c = '/' then [] :: splitPath cs
    else match splitPath cs with
      | [] => [[c]]
      | part :: parts => (c :: part) :: parts

/-- The names on a path.  Slashes next to each other count as one. -/
def pathNames (path : String) : List String :=
  ((splitPath path.toList).filter (· ≠ [])).map String.ofList

/-- Whether a path ends in a slash. -/
def endsInSlash (path : String) : Bool :=
  path.toList.getLast? = some '/'

/-- A folder itself, or the one around it. -/
def isDots (name : String) : Bool :=
  name = "." || name = ".."

/-! ### Folders -/

/-- The files of a folder by name. -/
structure Folder where
  files : List (String × ByteArray)
deriving Inhabited

/-- Where a path leads. -/
inductive Spot
  /-- To the folder. -/
  | inside
  /-- To a folder around it. -/
  | outside
  /-- To a file of the folder. -/
  | file (content : ByteArray)
deriving Inhabited

namespace Folder

def find? (f : Folder) (name : String) : Option ByteArray :=
  f.files.lookup name

def insert (f : Folder) (name : String) (content : ByteArray) : Folder :=
  ⟨(name, content) :: f.files.filter (·.1 ≠ name)⟩

/-- Where `name` leads from `spot`. -/
def step (f : Folder) (spot : Spot) (name : String) : Except FileError Spot :=
  match spot with
  | .file _ => .error .notDirectory
  | .inside =>
    if name = "." then .ok .inside
    else if name = ".." then .ok .outside
    else if 255 < name.utf8ByteSize then .error .nameTooLong
    else match f.find? name with
      | some content => .ok (.file content)
      | none => .error .notFound
  | .outside =>
    if isDots name then .ok .outside
    else if 255 < name.utf8ByteSize then .error .nameTooLong
    else .error .notFound

/-- Where names lead one after the other. -/
def follow (f : Folder) (spot : Spot) : List String → Except FileError Spot
  | [] => .ok spot
  | name :: names => do
    let spot ← f.step spot name
    f.follow spot names

/-- Where a path begins. -/
def start (path : String) : Except FileError Spot :=
  if path.isEmpty then .error .notFound
  else if 4095 < path.utf8ByteSize then .error .nameTooLong
  else if path.toList.head? = some '/' then .ok .outside
  else .ok .inside

/-- Reads the file at a path. -/
def read (f : Folder) (path : String) : Except FileError ByteArray := do
  match ← f.follow (← start path) (pathNames path) with
  | .file content => if endsInSlash path then .error .notDirectory else .ok content
  | .inside | .outside => .error .isDirectory

/-- Saves a text at a path. -/
def save (f : Folder) (path text : String) : Except FileError Folder := do
  let names := pathNames path
  let spot ← f.follow (← start path) names.dropLast
  match spot, names.getLast? with
  | .file _, _ => .error .notDirectory
  | _, none => .error .isDirectory
  | spot, some name =>
    if isDots name || endsInSlash path then .error .isDirectory
    else if 255 < name.utf8ByteSize then .error .nameTooLong
    else match spot with
      | .inside => .ok (f.insert name text.toUTF8)
      | _ => .ok f

/-- Carries out a request.  Answers how the program ends, and the folder after it. -/
def perform (f : Folder) (request : Request) : Ending × Folder :=
  match request.execute (f.read request.file) with
  | .error fault => (.abort fault, f)
  | .ok (.error error) => (.failure error, f)
  | .ok (.ok (.print text)) => (.success text, f)
  | .ok (.ok (.save path text)) =>
    match f.save path text with
    | .ok after => (.saved (.ok ()), after)
    | .error error => (.saved (.error error), f)

/-- Runs the program with some arguments.  Arguments that are no request end it without a word. -/
def run (f : Folder) (args : List String) : Option Ending × Folder :=
  match Request.parse? args with
  | none => (none, f)
  | some request =>
    let (ending, after) := f.perform request
    (some ending, after)

end Folder

end Unguard.Command
