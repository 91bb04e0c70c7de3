import HackVm.Files.Store
import Mathlib.Data.List.Basic
import Mathlib.Data.List.TakeWhile
import Mathlib.Data.String.Basic

set_option autoImplicit false

/-! # Reading what was written

A path that is written is taken as it stands, a path that is read in its normal form. Still both
lead to the same place: the normal form leaves out some characters of the path and adds none
(`Path.text_sublist`), and what it leaves out leads nowhere. So a file that was written is there
when the same path is read (`Store.read_put`), and all other places are as before
(`Store.node?_put`). -/

namespace HackVm

/-! ## Normal forms of paths -/

namespace Path

/-- Slashes before the first name do not matter. -/
theorem namesFrom_dropWhile (cs : List Char) :
    namesFrom [] (cs.dropWhile (· = '/')) = namesFrom [] cs := by
  induction cs with
  | nil => rfl
  | cons c cs ih =>
    by_cases hc : c = '/'
    · subst hc
      simpa [namesFrom] using ih
    · simp [hc]

theorem ne_empty_of_mem_namesFrom {name cs : List Char} {part : String}
    (h : part ∈ namesFrom name cs) : part ≠ "" := by
  have hname : ∀ {name : List Char},
      part ∈ (if name.isEmpty then [] else [String.ofList name]) → part ≠ "" := by
    intro name hpart
    split at hpart
    · cases hpart
    · rename_i hne
      rw [List.mem_singleton.mp hpart]
      simpa using hne
  induction cs generalizing name with
  | nil => exact hname h
  | cons c cs ih =>
    rw [namesFrom] at h
    split at h
    · rcases List.mem_append.mp h with h | h
      · exact hname h
      · exact ih h
    · exact ih h

/-- The characters of names, a slash between any two. -/
def joined (parts : List String) : List Char := ['/'].intercalate (parts.map String.toList)

theorem joined_cons_sublist (part : String) (parts : List String) :
    (joined (part :: parts)).Sublist (part.toList ++ '/' :: joined parts) := by
  cases parts with
  | nil => simp [joined]
  | cons next parts => simp [joined]

/-- Names that are left out take their slashes with them. -/
theorem joined_filter_sublist (p : String → Bool) (name cs : List Char) :
    (joined ((namesFrom name cs).filter p)).Sublist (name ++ cs) := by
  induction cs generalizing name with
  | nil =>
    by_cases hname : name = []
    · simp [namesFrom, hname, joined]
    · by_cases hp : p (String.ofList name) <;> simp [namesFrom, hname, hp, joined]
  | cons c cs ih =>
    by_cases hc : c = '/'
    · subst hc
      have hrest : (joined ((namesFrom [] cs).filter p)).Sublist cs := ih []
      by_cases hname : name = []
      · simpa [namesFrom, hname] using hrest.cons '/'
      · by_cases hp : p (String.ofList name)
        · have hjoin := joined_cons_sublist (String.ofList name) ((namesFrom [] cs).filter p)
          rw [String.toList_ofList] at hjoin
          simpa [namesFrom, hname, hp] using
            hjoin.trans ((hrest.cons_cons '/').append_left name)
        · simpa [namesFrom, hname, hp] using
            (hrest.cons '/').trans (List.sublist_append_right name _)
    · simpa [namesFrom, hc] using ih (name ++ [c])

theorem root_sublist (s : String) :
    (Root.ofString s).text.toList.Sublist (s.toList.takeWhile (· = '/')) := by
  have hslashes : s.toList.takeWhile (· = '/') =
      List.replicate (s.toList.takeWhile (· = '/')).length '/' :=
    List.eq_replicate_iff.mpr ⟨rfl, fun c hc => by simpa using List.mem_takeWhile_imp hc⟩
  generalize hn : (s.toList.takeWhile (· = '/')).length = n at hslashes
  rw [hslashes, Root.ofString, hn]
  split
  · exact List.nil_sublist _
  · exact .refl _
  · rename_i h0 h2
    exact (List.replicate_sublist_replicate '/').mpr (Nat.one_le_iff_ne_zero.mpr h0)

/-- A normal form has only characters of the path, and in their order. -/
theorem text_sublist (s : String) (h : (ofString s).parts ≠ []) :
    (ofString s).text.toList.Sublist s.toList := by
  have hnames : (joined (ofString s).parts).Sublist (s.toList.dropWhile (· = '/')) := by
    rw [ofString, names, ← namesFrom_dropWhile]
    exact joined_filter_sublist _ [] _
  have hwhole := (root_sublist s).append hnames
  rw [List.takeWhile_append_dropWhile] at hwhole
  rw [text, if_neg (fun hdot => h hdot.2), String.toList_append, String.toList_intercalate]
  exact hwhole

theorem text_ne_empty (s : String) : (ofString s).text ≠ "" := by
  rw [text]
  split_ifs with hdot
  · decide
  intro hempty
  obtain ⟨hroot, hparts⟩ := String.append_eq_empty_iff.mp hempty
  have hrelative : (ofString s).root = .relative := by
    cases hr : (ofString s).root <;> simp [hr, Root.text] at hroot ⊢
  cases hp : (ofString s).parts with
  | nil => exact hdot ⟨hrelative, hp⟩
  | cons part parts =>
    have hpart : part ∈ names s :=
      (List.mem_filter.mp (show part ∈ (ofString s).parts by simp [hp])).1
    refine ne_empty_of_mem_namesFrom hpart ?_
    rw [hp] at hparts
    cases parts with
    | nil => simpa using hparts
    | cons next parts =>
      rw [String.intercalate_cons_cons] at hparts
      simp at hparts

/-! ## Names of written paths -/

theorem namesFrom_append_slash (name cs ds : List Char) :
    namesFrom name (cs ++ '/' :: ds) = namesFrom name cs ++ namesFrom [] ds := by
  induction cs generalizing name with
  | nil => rfl
  | cons c cs ih =>
    rw [List.cons_append, namesFrom, namesFrom]
    split_ifs <;> simp [ih]

theorem namesFrom_of_not_mem {cs : List Char} (name : List Char) (hcs : cs ≠ []) (h : '/' ∉ cs) :
    namesFrom name cs = [String.ofList (name ++ cs)] := by
  induction cs generalizing name with
  | nil => exact absurd rfl hcs
  | cons c cs ih =>
    have hc : c ≠ '/' := fun heq => h (heq ▸ List.mem_cons_self)
    rw [namesFrom, if_neg hc]
    cases cs with
    | nil => simp [namesFrom]
    | cons d cs =>
      simpa using ih (name ++ [c]) (by simp) fun hmem => h (List.mem_cons_of_mem c hmem)

/-- What ends a text without a slash ends its last name. -/
theorem exists_namesFrom_append {ending : List Char} (hne : ending ≠ []) (hslash : '/' ∉ ending)
    (name cs : List Char) : ∃ above front, namesFrom name (cs ++ ending) =
      above ++ [String.ofList (front ++ ending)] ∧ front.Sublist (name ++ cs) := by
  induction cs generalizing name with
  | nil =>
    exact ⟨[], name, by simp [namesFrom_of_not_mem name hne hslash], by simp⟩
  | cons c cs ih =>
    rw [List.cons_append, namesFrom]
    by_cases hc : c = '/'
    · obtain ⟨above, front, hnames, hfront⟩ := ih []
      rw [if_pos hc, hnames, ← List.append_assoc]
      exact ⟨_, front, rfl, (hfront.cons c).trans (List.sublist_append_right name _)⟩
    · obtain ⟨above, front, hnames, hfront⟩ := ih (name ++ [c])
      rw [if_neg hc]
      exact ⟨above, front, hnames, by simpa using hfront⟩

theorem joined_concat (parts : List String) (name : String) :
    joined (parts ++ [name]) = (parts.flatMap fun part => part.toList ++ ['/']) ++ name.toList := by
  induction parts with
  | nil => simp [joined]
  | cons part parts ih =>
    cases parts <;> simp_all [joined]

theorem toList_text_child (p : Path) (name : String) :
    (p.child name).text.toList = p.root.text.toList ++
      (p.parts.flatMap fun part => part.toList ++ ['/']) ++ name.toList := by
  have hparts : (p.child name).parts ≠ [] := by simp [child]
  rw [text, if_neg fun h => hparts h.2, String.toList_append, String.toList_intercalate,
    List.append_assoc]
  exact congrArg _ (joined_concat p.parts name)

theorem names_text_child (p : Path) (name : String) :
    names (p.child name).text = p.parts.flatMap names ++ names name := by
  have hparts : ∀ parts : List String,
      namesFrom [] ((parts.flatMap fun part => part.toList ++ ['/']) ++ name.toList) =
        parts.flatMap names ++ names name := by
    intro parts
    induction parts with
    | nil => rfl
    | cons part parts ih => simp [namesFrom_append_slash, ih, names]
  rw [names, toList_text_child, List.append_assoc]
  cases p.root <;> simpa [Root.text, namesFrom] using hparts p.parts

end Path

namespace Store

variable {s : Store}

/-! ## Following names -/

/-- What the first of some names leads to. -/
theorem walk_cons_eq_ok_iff {start found : Place} {name : String} {rest : List String}
    {node : Node} : s.walk start (name :: rest) = .ok (found, node) ↔
      (name = "." ∧ s.walk start rest = .ok (found, node)) ∨
      (name = ".." ∧ s.walk start.dropLast rest = .ok (found, node)) ∨
      (name ≠ "." ∧ name ≠ ".." ∧ name.utf8ByteSize ≤ maxName) ∧
        ((s.node? (start ++ [name]) = some .directory ∧
            s.walk (start ++ [name]) rest = .ok (found, node)) ∨
          (s.node? (start ++ [name]) = some node ∧ node ≠ .directory ∧ rest = [] ∧
            found = start ++ [name])) := by
  rw [walk]
  by_cases hdot : name = "."
  · simp [hdot]
  by_cases hup : name = ".."
  · simp [hup]
  by_cases hsize : maxName < name.utf8ByteSize
  · simp [hdot, hup, hsize]
  simp only [hdot, hup, hsize, if_false, false_and, false_or, not_false_eq_true, ne_eq, true_and,
    Nat.not_lt.mp hsize]
  cases s.node? (start ++ [name]) with
  | none => simp
  | some inner =>
    cases inner with
    | directory => simp +contextual [eq_comm]
    | file content =>
      by_cases hrest : rest = []
      · simp only [if_pos hrest]
        constructor
        · intro h
          cases h
          exact .inr ⟨rfl, Node.noConfusion, hrest, rfl⟩
        · rintro (⟨h, -⟩ | ⟨h, -, -, rfl⟩) <;> cases h
          rfl
      · simp [hrest]

theorem locate_eq_ok_iff {path : Path} {found : Place × Node} : s.locate path = .ok found ↔
    checkPath path.text = .ok () ∧ s.walk (s.origin path.root) path.parts = .ok found := by
  rw [locate]
  cases checkPath path.text with
  | error e => simp [bind, Except.bind]
  | ok => simp [bind, Except.bind]

/-! ## Ways through directories -/

/-- Names that lead from a directory to a directory, step by step. -/
inductive Way (s : Store) : Place → List String → Place → Prop
  | nil (place : Place) : Way s place [] place
  | dot {start place : Place} {rest : List String} (way : Way s start rest place) :
      Way s start ("." :: rest) place
  | up {start place : Place} {rest : List String} (way : Way s start.dropLast rest place) :
      Way s start (".." :: rest) place
  | down {start place : Place} {name : String} {rest : List String} (hdot : name ≠ ".")
      (hup : name ≠ "..") (hsize : name.utf8ByteSize ≤ maxName)
      (hnode : s.node? (start ++ [name]) = some .directory)
      (way : Way s (start ++ [name]) rest place) : Way s start (name :: rest) place

theorem Way.of_walk {names : List String} {start place : Place}
    (h : s.walk start names = .ok (place, .directory)) : s.Way start names place := by
  induction names generalizing start with
  | nil =>
    cases h
    exact .nil _
  | cons name rest ih =>
    rcases walk_cons_eq_ok_iff.mp h with ⟨rfl, h⟩ | ⟨rfl, h⟩ |
      ⟨⟨hdot, hup, hsize⟩, ⟨hnode, h⟩ | ⟨-, hne, -⟩⟩
    · exact .dot (ih h)
    · exact .up (ih h)
    · exact .down hdot hup hsize hnode (ih h)
    · exact absurd rfl hne

theorem Way.walk_append {names : List String} {start place : Place}
    (way : s.Way start names place) (rest : List String) :
    s.walk start (names ++ rest) = s.walk place rest := by
  induction way with
  | nil => rfl
  | dot _ ih => simpa [walk] using ih
  | up _ ih => simpa [walk] using ih
  | down hdot hup hsize hnode _ ih =>
    simpa [walk, hdot, hup, Nat.not_lt.mpr hsize, hnode] using ih

theorem Way.walk_eq {names : List String} {start place : Place}
    (way : s.Way start names place) : s.walk start names = .ok (place, .directory) := by
  simpa [walk] using way.walk_append []

/-- Dots lead nowhere. -/
theorem Way.filter {names : List String} {start place : Place} (way : s.Way start names place) :
    s.Way start (names.filter (· ≠ ".")) place := by
  induction way with
  | nil place => exact .nil place
  | dot _ ih => simpa using ih
  | up _ ih => exact .up ih
  | down hdot hup hsize hnode _ ih => simpa [hdot] using Way.down hdot hup hsize hnode ih

/-- What is put in a place that is no directory stands in no way. -/
theorem Way.put {names : List String} {start place other : Place} (way : s.Way start names place)
    (hother : other ≠ []) (hnode : s.node? other ≠ some .directory) (node : Node) :
    (s.put other node).Way start names place := by
  induction way with
  | nil place => exact .nil place
  | dot _ ih => exact .dot ih
  | up _ ih => exact .up ih
  | down hdot hup hsize hdirectory _ ih =>
    refine .down hdot hup hsize ?_ ih
    rw [node?_put s hother, if_neg]
    · exact hdirectory
    · rintro rfl
      exact hnode hdirectory

/-! ## Where a file is written -/

/-- What is known of the place that a path leads to for writing. -/
structure Target (s : Store) (path : String) (place : Place) (name : String) : Prop where
  check : checkPath path = .ok ()
  names : ∃ above, Path.names path = above ++ [name] ∧
    s.Way (s.origin (Root.ofString path)) above place
  hdot : name ≠ "."
  hup : name ≠ ".."
  hsize : name.utf8ByteSize ≤ maxName
  hnode : s.node? (place ++ [name]) ≠ some .directory

theorem Target.of_target {path name : String} {place : Place}
    (h : s.target path = .ok (place, name)) : s.Target path place name := by
  rw [target] at h
  cases hcheck : checkPath path with
  | error e =>
    rw [hcheck] at h
    cases h
  | ok =>
    rw [hcheck] at h
    dsimp only [bind, Except.bind] at h
    split at h
    · cases h
    rename_i last hlast
    -- the names before the last one lead to a directory
    split at h
    · cases h
    rename_i found hfound
    split at h
    · cases h
    -- three reasons to refuse the last name
    split_ifs at h with hspecial hsize hnode
    cases h
    simp only [Bool.or_eq_true, not_or, decide_eq_true_eq] at hspecial
    obtain ⟨⟨hdot, hup⟩, -⟩ := hspecial
    have hnames := List.dropLast_append_getLast? _ hlast
    exact ⟨hcheck, ⟨_, hnames.symm, .of_walk hfound⟩, hdot, hup, Nat.not_lt.mp hsize, hnode⟩

theorem checkPath_eq_ok_iff {path : String} : checkPath path = .ok () ↔
    '\x00' ∉ path.toList ∧ path ≠ "" ∧ path.utf8ByteSize ≤ maxPath := by
  simp only [checkPath, List.contains_eq_mem, decide_eq_true_eq]
  split_ifs with hnull hempty hsize
  · simp [hnull]
  · simp [hempty]
  · simp [hsize]
  · simp [hnull, hempty, Nat.not_lt.mp hsize]

/-- A path that is part of one that may be written may be written too. -/
theorem checkPath_of_sublist {path path' : String} (h : path'.toList.Sublist path.toList)
    (hne : path' ≠ "") (hcheck : checkPath path = .ok ()) : checkPath path' = .ok () := by
  obtain ⟨hnull, -, hsize⟩ := checkPath_eq_ok_iff.mp hcheck
  refine checkPath_eq_ok_iff.mpr ⟨fun hmem => hnull (h.subset hmem), hne, ?_⟩
  rw [← String.utf8Len_toList] at hsize ⊢
  exact (String.utf8Len_le_of_sublist h).trans hsize

namespace Target

variable {path name : String} {place : Place}

theorem exists_parts (t : s.Target path place name) :
    ∃ above, (Path.ofString path).parts = above ++ [name] ∧
      s.Way (s.origin (Root.ofString path)) above place := by
  obtain ⟨above, hnames, way⟩ := t.names
  exact ⟨above.filter (· ≠ "."), by simp [Path.ofString, hnames, t.hdot], way.filter⟩

/-- What no written path may be, its normal form is not either. -/
theorem checkPath_text (t : s.Target path place name) :
    checkPath (Path.ofString path).text = .ok () := by
  obtain ⟨above, hparts, -⟩ := t.exists_parts
  exact checkPath_of_sublist (Path.text_sublist path (by simp [hparts])) (Path.text_ne_empty path)
    t.check

end Target

/-- A file that was written is there under its name. -/
theorem Target.walk_put {path name : String} {place : Place} (t : s.Target path place name)
    (content : ByteArray) : (s.put (place ++ [name]) (.file content)).walk place [name] =
      .ok (place ++ [name], .file content) := by
  have hne : place ++ [name] ≠ [] := by simp
  simp [walk, t.hdot, t.hup, Nat.not_lt.mpr t.hsize, node?_put s hne]

/-- A file that was written is there when the same path is read. -/
theorem read_put {path name : String} {place : Place} (t : s.Target path place name)
    (content : ByteArray) :
    (s.put (place ++ [name]) (.file content)).read (Path.ofString path) = .ok content := by
  obtain ⟨above, hparts, way⟩ := t.exists_parts
  have hne : place ++ [name] ≠ [] := by simp
  have hway := way.put hne t.hnode (.file content)
  have hwalk : (s.put (place ++ [name]) (.file content)).walk
      (s.origin (Path.ofString path).root) (Path.ofString path).parts =
      .ok (place ++ [name], .file content) := by
    rw [hparts]
    exact (hway.walk_append [name]).trans (t.walk_put content)
  have hlocate := locate_eq_ok_iff.mpr ⟨t.checkPath_text, hwalk⟩
  rw [read, hlocate]

end Store

end HackVm
