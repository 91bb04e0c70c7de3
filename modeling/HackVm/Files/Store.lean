import HackVm.Files.Access

set_option autoImplicit false

/-! # Stored files

A store is a tree of directories and files without links, kept as a list that gives each place
its content. A place is the row of names that leads to it from the topmost directory. Paths are
followed name by name from the working directory or from the top. Names and contents of written
files are texts of Unicode characters, so names that are not UTF-8 do not occur. The main statement
is `node?_put`: writing changes the content of one place and of no other. -/

namespace HackVm

/-- A place in a store. -/
abbrev Place := List String

inductive Node
  | directory
  | file (content : ByteArray)

instance : DecidableEq Node
  | .directory, .directory => .isTrue rfl
  | .file a, .file b =>
    match ByteArray.instDecidableEq a b with
    | .isTrue h => .isTrue (congrArg Node.file h)
    | .isFalse h => .isFalse fun h' => h (Node.file.inj h')
  | .directory, .file _ | .file _, .directory => .isFalse Node.noConfusion

structure Store where
  nodes : List (Place × Node)
  /-- The working directory. -/
  home : Place
  deriving DecidableEq

namespace Store

/-- The longest name, in bytes. -/
def maxName : Nat := 255

/-- The longest path, in bytes. -/
def maxPath : Nat := 4095

/-- What is at a place. The topmost directory is always there. -/
def node? (s : Store) (place : Place) : Option Node :=
  if place = [] then some .directory else s.nodes.lookup place

/-- Puts a node at a place. -/
def put (s : Store) (place : Place) (node : Node) : Store :=
  { s with nodes := (place, node) :: s.nodes.filter (·.1 ≠ place) }

/-- The names in the directory at a place. -/
def namesIn (s : Store) (place : Place) : List String :=
  s.nodes.filterMap fun (p, _) => if p.dropLast = place then p.getLast? else none

/-- Makes the directory at a place, and those above it, where there is nothing yet. -/
def makeDirectory (s : Store) (place : Place) : Store :=
  (List.range place.length).foldl
    (fun s n =>
      let above := place.take (n + 1)
      if (s.node? above).isNone then s.put above .directory else s) s

/-- An empty working directory. -/
def ofHome (home : Place) : Store :=
  makeDirectory ⟨[], home⟩ home

/-- All files below a place, with the names that lead to them from there. -/
def filesBelow (s : Store) (place : Place) : List (Place × ByteArray) :=
  s.nodes.filterMap fun (p, node) =>
    match node with
    | .file content =>
      if place.isPrefixOf p then some (p.drop place.length, content) else none
    | .directory => none

/-! ## Following paths -/

/-- Follows names from the directory at a place. -/
def walk (s : Store) : Place → List String → Except AccessError (Place × Node)
  | place, [] => .ok (place, .directory)
  | place, name :: rest =>
    if name = "." then s.walk place rest
    else if name = ".." then s.walk place.dropLast rest
    else if maxName < name.utf8ByteSize then .error .nameTooLong
    else
      let inner := place ++ [name]
      match s.node? inner with
      | none => .error .missing
      | some .directory => s.walk inner rest
      | some (.file content) =>
        if rest = [] then .ok (inner, .file content) else .error .notDirectory

/-- What no written path may be, wherever it leads. -/
def checkPath (path : String) : Except AccessError Unit :=
  if path.toList.contains '\x00' then .error .nullCharacter
  else if path = "" then .error .missing
  else if maxPath < path.utf8ByteSize then .error .nameTooLong
  else .ok ()

/-- Where a path begins. -/
def origin (s : Store) (root : Root) : Place :=
  if root = .relative then s.home else []

/-- The place that a path leads to, and what is there. -/
def locate (s : Store) (path : Path) : Except AccessError (Place × Node) := do
  checkPath path.text
  s.walk (s.origin path.root) path.parts

def kind (s : Store) (path : Path) : Except AccessError (Option FileKind) :=
  match s.locate path with
  | .ok (_, .directory) => .ok (some .directory)
  | .ok (_, .file _) => .ok (some .file)
  | .error .missing | .error .notDirectory | .error .nullCharacter => .ok none
  | .error e => .error e

def entries (s : Store) (path : Path) : List String :=
  match s.locate path with
  | .ok (place, .directory) => s.namesIn place
  | _ => []

def ownName (s : Store) (path : Path) : String :=
  match s.locate path with
  | .ok (place, _) => place.getLastD ""
  | .error _ => ""

def read (s : Store) (path : Path) : Except AccessError ByteArray :=
  match s.locate path with
  | .ok (_, .file content) => .ok content
  | .ok (_, .directory) => .error .isDirectory
  | .error e => .error e

/-- The directory and the name under which a file is written that a path leads to. The directory
must be there, and no other directory under the name; a slash at the end asks for a
directory. -/
def target (s : Store) (path : String) : Except AccessError (Place × String) := do
  checkPath path
  let names := Path.names path
  match names.getLast? with
  | none => throw .isDirectory
  | some name =>
    match ← s.walk (s.origin (Root.ofString path)) names.dropLast with
    | (_, .file _) => throw .notDirectory
    | (place, .directory) =>
      if name = "." || name = ".." || path.toList.getLast? = some '/' then throw .isDirectory
      else if maxName < name.utf8ByteSize then throw .nameTooLong
      else if s.node? (place ++ [name]) = some .directory then throw .isDirectory
      else return (place, name)

/-- Replaces or makes the file that a path leads to. Every text has bytes, since the names of files
and so those of units are texts here: a file whose name is not UTF-8, which would give its unit a
name with lone surrogates and the program a text that cannot be encoded once the file is open, is
outside of the model. -/
def write (s : Store) (path text : String) : Except AccessError Store := do
  let (place, name) ← s.target path
  return s.put (place ++ [name]) (.file text.toUTF8)

/-- A store answers for itself. -/
instance : FileSystem (StateM Store) where
  kind path := return (← get).kind path
  entries path := return (← get).entries path
  ownName path := return (← get).ownName path
  read path := return (← get).read path
  write path text := do
    match (← get).write path text with
    | .ok s => set s; return .ok ()
    | .error e => return .error e

/-! ## What writing changes -/

theorem lookup_filter_ne {nodes : List (Place × Node)} {place other : Place} (h : other ≠ place) :
    (nodes.filter (·.1 ≠ place)).lookup other = nodes.lookup other := by
  induction nodes with
  | nil => rfl
  | cons entry nodes ih =>
    obtain ⟨p, node⟩ := entry
    by_cases hp : p = place
    · have : (other == p) = false := by simp [hp, h]
      rw [List.filter_cons_of_neg (by simp [hp]), ih, List.lookup_cons, this]
    · simp only [List.filter_cons, hp, ne_eq, not_false_eq_true, decide_true, if_true,
        List.lookup_cons]
      split <;> simp_all

/-- Writing changes one place and no other. -/
theorem node?_put (s : Store) {place : Place} (h : place ≠ []) (node : Node) (other : Place) :
    (s.put place node).node? other = if other = place then some node else s.node? other := by
  by_cases ho : other = place
  · subst ho
    simp [node?, put, h]
  · by_cases hn : other = []
    · simp [node?, hn, Ne.symm h]
    · have : (other == place) = false := by simp [ho]
      simp only [node?, put, hn, ho, if_false, List.lookup_cons, this]
      exact lookup_filter_ne ho

end Store

end HackVm
