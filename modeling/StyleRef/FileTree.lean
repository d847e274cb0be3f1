import StyleRef.Table
import StyleRef.Text.Blank

/-
# Files

A tree of files and folders, as a program sees it from the folder that it runs
in.  A file lies at a path, which is the list of names that lead to it; a folder
is there when a file lies in it or when it was made.  Names of files are given
as texts with slashes: empty parts and `.` stay where they are, and `..` goes up.
Names may lead out of the tree, to the folders above it and to the root of all;
these are there, and nothing else is known of them.

The operations on texts are collected in a `Host`, so that a program that is
written for every host runs on a tree as it runs on files of a machine.
-/

namespace StyleRef

inductive Content where
  | text (t : Text)
  /-- Bytes that are no text. -/
  | binary (bytes : List UInt8)
deriving DecidableEq

inductive FileFault where
  | notFound
  | alreadyThere
  | notFolder
  | isFolder
  | notText
  | other (reason : Text)
deriving DecidableEq

def FileFault.message : FileFault → Text
  | .notFound => "No such file or directory (os error 2)".toList
  | .alreadyThere => "File exists (os error 17)".toList
  | .notFolder => "Not a directory (os error 20)".toList
  | .isFolder => "Is a directory (os error 21)".toList
  | .notText => "stream did not contain valid UTF-8".toList
  | .other reason => reason

/-- What a program can do with files. -/
structure Host (m : Type → Type) where
  /-- The text of the file with the name. -/
  read : Text → m (Except FileFault Text)
  /-- Makes the file with the name hold the text. -/
  write : Text → Text → m (Except FileFault Unit)
  /-- Makes the folder with the name, and those that it lies in. -/
  makeFolder : Text → m (Except FileFault Unit)

abbrev Path := List Text

structure FileTree where
  files : Table Path Content
  /-- Folders that were made; those that files lie in need not be listed. -/
  folders : List Path
deriving DecidableEq

namespace FileTree

def empty : FileTree := ⟨.empty, []⟩

def isFile (t : FileTree) (p : Path) : Bool := t.files.contains p

/-! ## Names -/

def parts (name : Text) : List Text := name.splitOn '/'

def isIdle (part : Text) : Bool := part = [] || part = ['.']

def isUp (part : Text) : Bool := part = ['.', '.']

/-- The path to the root of all.  No part of a name has a slash in it. -/
def root : Path := [['/']]

def isOutside (p : Path) : Bool := p.head?.any fun part => isUp part || part = ['/']

def above (p : Path) : Path :=
  if p = root then p else if p.all isUp then p ++ [['.', '.']] else p.dropLast

def isFolder (t : FileTree) (p : Path) : Bool :=
  p.all isUp || p = root || t.folders.any p.isPrefixOf ||
    t.files.keys.any fun q => p.isPrefixOf q && p ≠ q

/-- Where the parts of a name lead to from the path `here`.  Each part but the first leads on from
a folder. -/
def follow (t : FileTree) : Path → List Text → Except FileFault Path
  | here, [] => .ok here
  | here, part :: rest =>
    if t.isFile here then .error .notFolder
    else if !t.isFolder here then .error .notFound
    else if isIdle part then t.follow here rest
    else if isUp part then t.follow (above here) rest
    else t.follow (here ++ [part]) rest

def origin (name : Text) : Path := if name.head? = some '/' then root else []

def locate (t : FileTree) (name : Text) : Except FileFault Path :=
  t.follow (origin name) (parts name)

/-- The files of the tree itself, in the order in which they came. -/
def listing (t : FileTree) : List (Path × Content) :=
  t.files.entries.filter fun (p, _) => !isOutside p

/-! ## Operations -/

def read (t : FileTree) (name : Text) : Except FileFault Text :=
  match t.locate name with
  | .error fault => .error fault
  | .ok p =>
    match t.files.get? p with
    | some (.text s) => .ok s
    | some (.binary _) => .error .notText
    | none => .error (if t.isFolder p then .isFolder else .notFound)

/-- Makes a file hold a text.  A name that ends with a slash is that of a folder. -/
def write (t : FileTree) (name content : Text) : Except FileFault FileTree :=
  match t.locate (name.reverse.dropWhile (· = '/')).reverse with
  | .error fault => .error fault
  | .ok p =>
    if t.isFolder p || name.getLast? = some '/' then .error .isFolder
    else .ok { t with files := t.files.set p (.text content) }

/-- Makes the folder that the parts of a name lead to, which must have its place in a folder and a
name of its own. -/
def makeOne (t : FileTree) (here : Path) (ps : List Text) : Except FileFault FileTree :=
  (t.follow here ps).bind fun p =>
    if t.isFile p || t.isFolder p || ps.getLast?.any fun part => isIdle part || isUp part then
      .error .alreadyThere
    else .ok { t with folders := t.folders ++ [p] }

def makeNew (t : FileTree) (here : Path) (ps : List Text) : Except FileFault FileTree :=
  match t.makeOne here ps with
  | .ok t' => .ok t'
  | .error fault =>
    match t.follow here ps with
    | .ok p => if t.isFolder p then .ok t else .error fault
    | .error _ => .error fault

/-- The parts of a name that name something: idle parts count at the front only. -/
def steps (ps : List Text) : List Text :=
  match ps with
  | [] => []
  | first :: rest =>
    (if first = [] then [] else [first]) ++ rest.filter fun part => !isIdle part

/-- Makes the folder that the parts of a name lead to.  If its place is not found, the folder
without the last step is made first; there are no more steps than the given number. -/
def makeAll : Nat → FileTree → Path → List Text → Except FileFault FileTree
  | 0, t, _, _ => .ok t
  | n + 1, t, here, ps =>
    match t.makeNew here ps with
    | .error .notFound =>
      (makeAll n t here (steps ps).dropLast).bind fun t' => t'.makeNew here ps
    | result => result

def makeFolder (t : FileTree) (name : Text) : Except FileFault FileTree :=
  let ps := parts (name.reverse.dropWhile (· = '/')).reverse
  makeAll (steps ps).length t (origin name) ps

/-- Runs an operation that may change the tree; a fault changes nothing. -/
def attempt (f : FileTree → Except FileFault FileTree) : StateM FileTree (Except FileFault Unit) :=
  fun t =>
    match f t with
    | .ok t' => (.ok (), t')
    | .error fault => (.error fault, t)

def host : Host (StateM FileTree) where
  read name := fun t => (t.read name, t)
  write name content := attempt (·.write name content)
  makeFolder name := attempt (·.makeFolder name)

end FileTree

end StyleRef
