import PatternAutomata.Text

/-!
# Places of files

Where a name of a file leads.  A name is a way through directories, with slashes between its parts;
a part `.` stays where it is, a part `..` goes out of the directory, and a name that starts with a
slash starts at the root, any other in the working directory.

* `isFileName` — which texts are names;
* `Place` — where a file is, with `Place.child`, `Place.parent` and `Place.enter`, the steps of a
  way, and `parent_child`, which takes a step back;
* `Place.start`, `nameParts` — where the way of a name starts, and its steps;
* `asksDirectory` — whether a name says that it leads to a directory.
-/

namespace PatternAutomata

/-- Whether a text is a name, of a file or of none.  The character U+0000 ends a name, so it is in
no name. -/
def isFileName (t : Text) : Bool := !t.contains '\x00'

/-- The number of bytes of a text in UTF-8. -/
def utf8Length (t : Text) : Nat := t.foldr (fun c n => c.utf8Size + n) 0

/-- The greatest length of a part of a name, in bytes. -/
def partLimit : Nat := 255

/-- The least length at which a name is too long, in bytes. -/
def nameLimit : Nat := 4096

/-- Where a file or a directory is. -/
structure Place where
  /-- Whether the way to it starts at the root rather than at the working directory. -/
  rooted : Bool
  /-- The directories that the way enters, and the name there, the innermost first. -/
  names : List Text
  deriving DecidableEq

namespace Place

/-- The working directory. -/
def here : Place := ⟨false, []⟩

/-- The root. -/
def root : Place := ⟨true, []⟩

/-- A place in a directory. -/
def child (p : Place) (name : Text) : Place := { p with names := name :: p.names }

/-- The directory of the files that are not kept.  The working directory is in it, under a name that
nobody knows. -/
def temporaries : Place := root.child "tmp".toList

/-- The directory in which a place is.  The root is in itself. -/
def parent (p : Place) : Place :=
  match p.names with
  | _ :: outer => { p with names := outer }
  | [] => if p.rooted then root else temporaries

theorem parent_child (p : Place) (name : Text) : (p.child name).parent = p := rfl

/-- The place to which a part of a name leads from a directory. -/
def enter (p : Place) (part : Text) : Place :=
  if part = ['.'] then p else if part = ['.', '.'] then p.parent else p.child part

/-- Whether the name at a place is too long. -/
def isTooLong (p : Place) : Bool := p.names.head?.any fun name => partLimit < utf8Length name

/-- The place at which the way of a name starts. -/
def start (name : Text) : Place := if name.head? = some '/' then root else here

end Place

/-- Whether a character can stand in a part of a name. -/
def inPart (c : Char) : Bool := c ≠ '/'

/-- The parts of a name. -/
def nameParts : Text → List Text
  | [] => []
  | c :: rest =>
    if inPart c then
      have := (List.dropWhile_sublist inPart (l := rest)).length_le
      (c :: rest.takeWhile inPart) :: nameParts (rest.dropWhile inPart)
    else nameParts rest
termination_by t => t.length

/-- Whether a name says that it leads to a directory. -/
def asksDirectory (name : Text) : Bool := name.getLast? = some '/'

end PatternAutomata
