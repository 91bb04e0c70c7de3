set_option autoImplicit false

/-! # Paths

A path is kept in a normal form: the slashes it starts with and the names between the others.
Empty names and single dots are dropped, double dots stay. The suffix of a name begins at its
last dot, unless that dot is the first or the last character of the name; what stands before it
is the stem (`stem_append_suffix`). -/

namespace HackVm

/-- How a path begins. Exactly two slashes are kept apart from one; more than two are one. -/
inductive Root
  | relative
  | single
  | double
  deriving DecidableEq, Repr

def Root.text : Root → String
  | .relative => ""
  | .single => "/"
  | .double => "//"

/-- How a written path begins. -/
def Root.ofString (s : String) : Root :=
  match (s.toList.takeWhile (· = '/')).length with
  | 0 => .relative
  | 2 => .double
  | _ => .single

structure Path where
  root : Root
  parts : List String
  deriving DecidableEq, Repr

namespace Path

/-- The names between slashes that are not empty, the first of which begins with `name`. -/
def namesFrom (name : List Char) : List Char → List String
  | [] => if name.isEmpty then [] else [String.ofList name]
  | c :: cs =>
    if c = '/' then (if name.isEmpty then [] else [String.ofList name]) ++ namesFrom [] cs
    else namesFrom (name ++ [c]) cs

/-- The names between slashes that are not empty. -/
def names (s : String) : List String := namesFrom [] s.toList

/-- The normal form of a written path. -/
def ofString (s : String) : Path :=
  ⟨.ofString s, (names s).filter (· ≠ ".")⟩

/-- The path as it is written; the path without any part is a dot. -/
def text (p : Path) : String :=
  if p.root = .relative ∧ p.parts = [] then "." else p.root.text ++ "/".intercalate p.parts

/-- The last name of a path, empty if there is none. -/
def name (p : Path) : String := p.parts.getLastD ""

/-- A path within the directory `p`. -/
def child (p : Path) (name : String) : Path := { p with parts := p.parts ++ [name] }

/-- A name cut into stem and suffix. -/
def cutSuffix (name : List Char) : List Char × List Char :=
  let ending := name.reverse.takeWhile (· ≠ '.')
  match name.reverse.dropWhile (· ≠ '.') with
  | _ :: stem =>
    if stem = [] ∨ ending = [] then (name, []) else (stem.reverse, '.' :: ending.reverse)
  | [] => (name, [])

def stem (p : Path) : String := String.ofList (cutSuffix p.name.toList).1

def suffix (p : Path) : String := String.ofList (cutSuffix p.name.toList).2

/-- The path with another suffix in the place of its own, or behind a name without one. -/
def withSuffix (p : Path) (suffix : String) : Path :=
  { p with parts := p.parts.dropLast ++ [p.stem ++ suffix] }

/-- Nothing of a name is lost. -/
theorem cutSuffix_append (name : List Char) : (cutSuffix name).1 ++ (cutSuffix name).2 = name := by
  unfold cutSuffix
  dsimp only
  split
  · rename_i c rest h
    split
    · simp
    · have whole := List.takeWhile_append_dropWhile (p := (· ≠ '.')) (l := name.reverse)
      have nonempty : name.reverse.dropWhile (· ≠ '.') ≠ [] := by rw [h]; exact List.cons_ne_nil _ _
      have dot : c = '.' := by
        have := List.head_dropWhile_not (· ≠ '.') nonempty
        simpa only [h, List.head_cons, decide_eq_false_iff_not, ne_eq, Decidable.not_not] using this
      rw [h, dot] at whole
      have := congrArg List.reverse whole
      simpa using this
  · simp

theorem stem_append_suffix (p : Path) : p.stem ++ p.suffix = p.name := by
  rw [stem, suffix, ← String.ofList_append, cutSuffix_append, String.ofList_toList]

end Path

end HackVm
