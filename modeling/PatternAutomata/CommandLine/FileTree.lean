import PatternAutomata.CommandLine.Place
import PatternAutomata.OrderedMap

/-!
# File trees

The files and directories that names lead to.

* `Obstacle` — why a name leads to no file, and `Obstacle.reason`, how that is reported;
* `Entry`, `FileTree` — what is at each place;
* `FileTree.ofFiles` — some files in a working directory, and what is always there;
* `FileTree.locate` — where a name leads;
* `FileTree.read`, `FileTree.destination`, `FileTree.write` — the file of a name;
* `read_write` — what is written under a name is what the name then leads to.
-/

namespace PatternAutomata

/-- Why a name leads to no file that can be read or written. -/
inductive Obstacle where
  /-- Nothing is there. -/
  | absent
  /-- A file stands where the way goes on, or where the name says that there is a directory. -/
  | noDirectory
  /-- A directory is there. -/
  | aDirectory
  /-- The name or one of its parts is too long. -/
  | tooLong
  /-- Anything else that a system has words for, such as a lack of permission. -/
  | other (words : Text)
  deriving DecidableEq, Repr

/-- The words for an obstacle. -/
def Obstacle.reason : Obstacle → Text
  | .absent => "No such file or directory".toList
  | .noDirectory => "Not a directory".toList
  | .aDirectory => "Is a directory".toList
  | .tooLong => "File name too long".toList
  | .other words => words

/-- What can be at a place. -/
inductive Entry where
  | directory
  | file (content : Text)
  /-- A file that holds nothing, whatever is written to it. -/
  | sink
  deriving DecidableEq

/-- What is at each place where something is. -/
abbrev FileTree := OrderedMap Place Entry

namespace FileTree

/-- The directories that are in the root of a system by custom. -/
def rootDirectories : List Text :=
  ["bin".toList, "boot".toList, "dev".toList, "etc".toList, "home".toList, "lib".toList,
    "lib64".toList, "media".toList, "mnt".toList, "opt".toList, "proc".toList, "root".toList,
    "run".toList, "sbin".toList, "srv".toList, "sys".toList, "tmp".toList, "usr".toList,
    "var".toList]

/-- The device that swallows all text. -/
def nullDevice : Place := (Place.root.child "dev".toList).child "null".toList

/-- An empty working directory, and the directories and the device that are always there. -/
def standing : FileTree :=
  .ofList ((.here, .directory) :: (.root, .directory) :: (nullDevice, .sink)
    :: rootDirectories.map fun name => (Place.root.child name, .directory))

/-- Whether a directory is at a place. -/
def isDirectory (t : FileTree) (p : Place) : Bool := decide (t.get? p = some .directory)

/-- Puts a text into the file at a place, which is made if nothing is there.  A directory takes no
text, and a sink does not keep it. -/
def fill (t : FileTree) (p : Place) (content : Text) : FileTree :=
  match t.get? p with
  | some .directory => t
  | some .sink => t
  | _ => OrderedMap.insert t p (.file content)

/-- Makes a directory at a place where nothing is. -/
def withDirectory (t : FileTree) (p : Place) : FileTree :=
  if (t.get? p).isSome then t else OrderedMap.insert t p .directory

/-- Adds a file at the end of the way through the parts of a name, with the directories on it. -/
def addFrom (t : FileTree) : Place → List Text → Text → FileTree
  | p, [], content => t.fill p content
  | p, part :: rest, content => addFrom (t.withDirectory p) (p.enter part) rest content

/-- Adds a file under a name. -/
def add (t : FileTree) (name content : Text) : FileTree :=
  t.addFrom (.start name) (nameParts name) content

/-- The given files, added to what is always there. -/
def ofFiles (files : List (Text × Text)) : FileTree :=
  files.foldl (fun t f => t.add f.1 f.2) standing

/-! ### The file of a name -/

/-- What keeps a name from going on through a place, or a file from being read there, unless
something fit for it is there. -/
def hindrance (t : FileTree) (p : Place) : Obstacle :=
  if p.isTooLong then .tooLong else if (t.get? p).isSome then .noDirectory else .absent

/-- Goes on from a place through the parts of a name. -/
def walk (t : FileTree) : Place → List Text → Except Obstacle Place
  | p, [] => .ok p
  | p, part :: rest =>
    if t.isDirectory p then walk t (p.enter part) rest else .error (t.hindrance p)

/-- The place to which a name leads, which need not hold anything. -/
def locate (t : FileTree) (name : Text) : Except Obstacle Place :=
  if name.isEmpty then .error .absent
  else if nameLimit ≤ utf8Length name then .error .tooLong
  else t.walk (.start name) (nameParts name)

/-- The content of what is at a place, if the name that leads there may lead to a file. -/
def contentAt (t : FileTree) (name : Text) (p : Place) : Except Obstacle Text :=
  match t.get? p with
  | none => .error (t.hindrance p)
  | some .directory => .error .aDirectory
  | some (.file content) => if asksDirectory name then .error .noDirectory else .ok content
  | some .sink => if asksDirectory name then .error .noDirectory else .ok []

/-- The content of the file to which a name leads. -/
def read (t : FileTree) (name : Text) : Except Obstacle Text :=
  match t.locate name with
  | .error o => .error o
  | .ok p => t.contentAt name p

/-- The place of the file that is written under a name. -/
def destination (t : FileTree) (name : Text) : Except Obstacle Place :=
  match t.locate name with
  | .error o => .error o
  | .ok p =>
    if t.isDirectory p || asksDirectory name then .error .aDirectory
    else if p.isTooLong then .error .tooLong
    else .ok p

/-- Writes a file under a name, if the name leads to a place for it. -/
def write (t : FileTree) (name content : Text) : FileTree :=
  match t.destination name with
  | .error _ => t
  | .ok p => t.fill p content

/-! ### What is written can be read -/

/-- To put a text into a file neither makes nor removes a directory. -/
theorem isDirectory_fill (t : FileTree) (p : Place) (content : Text) (q : Place) :
    (t.fill p content).isDirectory q = t.isDirectory q := by
  unfold fill
  split
  · rfl
  · rfl
  · next noDirectory _ =>
    unfold isDirectory
    rw [OrderedMap.get?_insert]
    split
    · next same =>
      subst same
      simp only [reduceCtorEq, Option.some.injEq, decide_false, decide_eq_false noDirectory]
    · rfl

/-- A way through directories stays one when a text is put into a file. -/
theorem walk_fill {t : FileTree} {p : Place} (content : Text) {q : Place} {parts : List Text}
    {start : Place} (h : t.walk start parts = .ok q) :
    (t.fill p content).walk start parts = .ok q := by
  induction parts generalizing start with
  | nil => exact h
  | cons part rest ih =>
    rw [walk] at h ⊢
    rw [isDirectory_fill]
    split at h
    · next there =>
      rw [if_pos there]
      exact ih h
    · exact absurd h nofun

theorem locate_fill {t : FileTree} {p q : Place} {name : Text} (content : Text)
    (h : t.locate name = .ok q) : (t.fill p content).locate name = .ok q := by
  unfold locate at h ⊢
  split at h
  · exact absurd h nofun
  · next nonempty =>
    rw [if_neg nonempty]
    split at h
    · exact absurd h nofun
    · next short =>
      rw [if_neg short]
      exact walk_fill content h

theorem destination_eq_ok_iff {t : FileTree} {name : Text} {p : Place} :
    t.destination name = .ok p ↔ t.locate name = .ok p ∧ t.isDirectory p = false
      ∧ asksDirectory name = false ∧ p.isTooLong = false := by
  unfold destination
  split
  · next o located => simp [located]
  · next q located =>
    rw [located]
    constructor
    · intro h
      split at h
      · exact absurd h nofun
      · next free =>
        split at h
        · exact absurd h nofun
        · next short =>
          cases h
          simp only [Bool.or_eq_true, not_or, Bool.not_eq_true] at free short
          exact ⟨rfl, free.1, free.2, short⟩
    · rintro ⟨same, there, asks, short⟩
      cases same
      simp [there, asks, short]

/-- What is written under a name is what the name then leads to. -/
theorem read_write {t : FileTree} {name : Text} {p : Place} (content : Text)
    (h : t.destination name = .ok p) (kept : t.get? p ≠ some .sink) :
    (t.write name content).read name = .ok content := by
  obtain ⟨located, noDirectory, asks, _⟩ := destination_eq_ok_iff.1 h
  have filled : t.fill p content = OrderedMap.insert t p (.file content) := by
    unfold fill
    split
    · next there => simp [isDirectory, there] at noDirectory
    · next there => exact absurd there kept
    · rfl
  have found : (t.fill p content).get? p = some (.file content) := by
    rw [filled, OrderedMap.get?_insert, if_pos rfl]
  have written : t.write name content = t.fill p content := by
    rw [write, h]
  simp [written, read, locate_fill content located, contentAt, found, asks]

end FileTree

end PatternAutomata
