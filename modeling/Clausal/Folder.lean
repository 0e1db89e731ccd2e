/-!
# Folders of texts

Paths lead to files in a working folder, in the folders above it, or in the topmost folder. A folder
holds text files; the only folder that one can go to from it is the one above. A path is followed
part by part, and whatever it goes through has to be a folder. A path that does not lead to a file
fails for one of the reasons here.
-/

namespace Clausal

/-- Why a file cannot be opened. -/
inductive AccessError where
  | notFound
  | notADirectory
  | isADirectory
  | nameTooLong
  | zeroCharacter
deriving DecidableEq

def AccessError.message : AccessError → String
  | notFound => "No such file or directory (os error 2)"
  | notADirectory => "Not a directory (os error 20)"
  | isADirectory => "Is a directory (os error 21)"
  | nameTooLong => "File name too long (os error 36)"
  | zeroCharacter => "file name contained an unexpected NUL byte"

/-- The number of bytes that the name of a file may have. -/
def maxNameSize : Nat := 255

/-- The number of bytes that a path may have. -/
def maxPathSize : Nat := 4095

/-! ## Places -/

/-- A folder that paths can lead to. -/
inductive Place where
  /-- So many levels above the working folder. -/
  | above (levels : Nat)
  /-- The topmost folder. -/
  | top
deriving DecidableEq

/-- The folder above. The topmost one is above itself. -/
def Place.parent : Place → Place
  | above levels => above (levels + 1)
  | top => top

/-- Where a path leads. -/
inductive Target where
  | folder
  | file (place : Place) (name : String)
deriving DecidableEq

/-! ## Paths -/

/-- Splits a path at its slashes. -/
def splitPath : List Char → List (List Char)
  | [] => [[]]
  | c :: rest =>
    if c = '/' then [] :: splitPath rest
    else
      match splitPath rest with
      | first :: others => (c :: first) :: others
      | [] => [[c]]

/-- Where a path starts: a slash stands for the topmost folder. -/
def startPlace (path : List Char) : Place :=
  if path.head? = some '/' then .top else .above 0

/-- Whether a path asks for a folder, by a slash at its end. -/
def asksFolder (path : List Char) : Bool :=
  path.getLast? = some '/'

/-- Text files by place and name. -/
structure Folder where
  files : List ((Place × String) × String)
deriving DecidableEq

namespace Folder

def empty : Folder := ⟨[]⟩

def content? (folder : Folder) (place : Place) (name : String) : Option String :=
  folder.files.lookup (place, name)

/-- Refuses a name that is too long for a file. -/
def checkName (name : String) : Except AccessError Unit :=
  if maxNameSize < name.utf8ByteSize then .error .nameTooLong else .ok ()

/-- How it fails to go through what has a given name. -/
def obstacle (folder : Folder) (place : Place) (name : String) : AccessError :=
  match checkName name with
  | .error e => e
  | .ok () => if (folder.content? place name).isSome then .notADirectory else .notFound

/-- Follows the parts of a path. One dot stays, two dots go up, and a name has to come last. -/
def walk (folder : Folder) (place : Place) : List (List Char) → Except AccessError Target
  | [] => .ok .folder
  | part :: rest =>
    if part = ['.'] then walk folder place rest
    else if part = ['.', '.'] then walk folder place.parent rest
    else if rest = [] then .ok (.file place (String.ofList part))
    else .error (folder.obstacle place (String.ofList part))

/-- Where a path leads. Parts of no characters do not count, but an empty path leads nowhere. -/
def locate (folder : Folder) (path : String) : Except AccessError Target :=
  if path.contains '\x00' then .error .zeroCharacter
  else if maxPathSize < path.utf8ByteSize then .error .nameTooLong
  else if path.isEmpty then .error .notFound
  else walk folder (startPlace path.toList) ((splitPath path.toList).filter (· ≠ []))

/-- Writes a file, replacing what it held. -/
def write (folder : Folder) (path text : String) : Except AccessError Folder :=
  match folder.locate path with
  | .error e => .error e
  | .ok .folder => .error .isADirectory
  | .ok (.file place name) =>
    if asksFolder path.toList then .error .isADirectory
    else
      (checkName name).map fun _ =>
        ⟨((place, name), text) :: folder.files.filter (·.1 ≠ (place, name))⟩

def read (folder : Folder) (path : String) : Except AccessError String :=
  match folder.locate path with
  | .error e => .error e
  | .ok .folder => .error .isADirectory
  | .ok (.file place name) =>
    match folder.content? place name with
    | none => .error (folder.obstacle place name)
    | some text => if asksFolder path.toList then .error .notADirectory else .ok text

end Folder

end Clausal
