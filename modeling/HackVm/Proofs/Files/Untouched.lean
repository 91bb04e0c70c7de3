import HackVm.Proofs.Files.Writing

set_option autoImplicit false

/-! # What a write leaves alone

A write into a store changes one place, and all others are found as before: a path still leads to
the same directory or the same other file (`Store.locate_put`), and a directory holds the same
names, but for that of the file that was written (`Store.namesIn_put`). The path of that file still
leads to its place, so the same write made again changes nothing (`Store.target_put`,
`Store.put_put`). -/

namespace HackVm.Store

variable {s : Store} {path : Path} {start found place other : Place} {names : List String}
  {name : String} {content : ByteArray} {node : Node}

/-! ## Following paths -/

/-- No directory is made or lost by a write, so the same names lead to the same place. -/
theorem walk_put (hother : other ≠ []) (hnode : s.node? other ≠ some .directory)
    (h : s.walk start names = .ok (found, node)) (hfound : found = other → node = .directory)
    (written : Node) : (s.put other written).walk start names = .ok (found, node) := by
  induction names generalizing start with
  | nil => exact h
  | cons name rest ih =>
    rw [walk_cons_eq_ok_iff] at h ⊢
    simp only [node?_put s hother]
    rcases h with ⟨rfl, h⟩ | ⟨rfl, h⟩ | ⟨hname, ⟨hdirectory, h⟩ | ⟨hfile, hne, rfl, rfl⟩⟩
    · exact .inl ⟨rfl, ih h⟩
    · exact .inr (.inl ⟨rfl, ih h⟩)
    · have hinner : start ++ [name] ≠ other := by
        rintro rfl
        exact hnode hdirectory
      exact .inr (.inr ⟨hname, .inl ⟨by rw [if_neg hinner, hdirectory], ih h⟩⟩)
    · have hinner : start ++ [name] ≠ other := fun heq => hne (hfound heq)
      exact .inr (.inr ⟨hname, .inr ⟨by rw [if_neg hinner, hfile], hne, rfl, rfl⟩⟩)

theorem locate_put (hother : other ≠ []) (hnode : s.node? other ≠ some .directory)
    (h : s.locate path = .ok (found, node)) (hfound : found = other → node = .directory)
    (written : Node) : (s.put other written).locate path = .ok (found, node) := by
  obtain ⟨hcheck, hwalk⟩ := locate_eq_ok_iff.mp h
  exact locate_eq_ok_iff.mpr ⟨hcheck, walk_put hother hnode hwalk hfound written⟩

/-- A file stands under the last name of each path to it. -/
theorem getLast?_of_walk (h : s.walk start names = .ok (found, .file content)) :
    ∃ last, names.getLast? = some last ∧ found.getLast? = some last := by
  induction names generalizing start with
  | nil => cases h
  | cons name rest ih =>
    have hrest : ∀ {start}, s.walk start rest = .ok (found, .file content) →
        ∃ last, (name :: rest).getLast? = some last ∧ found.getLast? = some last := by
      intro start h
      obtain ⟨last, hlast, hfound⟩ := ih h
      exact ⟨last, by simp [List.getLast?_cons, hlast], hfound⟩
    rcases walk_cons_eq_ok_iff.mp h with ⟨-, h⟩ | ⟨-, h⟩ | ⟨-, ⟨-, h⟩ | ⟨-, -, rfl, rfl⟩⟩
    · exact hrest h
    · exact hrest h
    · exact hrest h
    · exact ⟨name, by simp, by simp⟩

theorem getLast?_of_locate (h : s.locate path = .ok (found, .file content)) :
    found.getLast? = some path.name := by
  obtain ⟨last, hlast, hfound⟩ := getLast?_of_walk (locate_eq_ok_iff.mp h).2
  rw [hfound, Path.name, List.getLastD_eq_getLast?, hlast]
  rfl

theorem locate_of_kind_directory (h : s.kind path = .ok (some .directory)) :
    ∃ place, s.locate path = .ok (place, .directory) := by
  unfold kind at h
  split at h
  · exact ⟨_, ‹_›⟩
  all_goals cases h

theorem locate_of_kind_file (h : s.kind path = .ok (some .file)) :
    ∃ place content, s.locate path = .ok (place, .file content) := by
  unfold kind at h
  split at h
  · cases h
  · exact ⟨_, _, ‹_›⟩
  all_goals cases h

/-! ## Names in directories -/

theorem locate_child (h : s.locate path = .ok (place, .directory)) (name : String) :
    s.locate (path.child name) = (do
      checkPath (path.child name).text
      s.walk place [name]) := by
  rw [← (Way.of_walk (locate_eq_ok_iff.mp h).2).walk_append]
  rfl

theorem locate_child_put (hother : other ≠ []) (hnode : s.node? other ≠ some .directory)
    (h : s.locate path = .ok (place, .directory)) (hne : place ++ [name] ≠ other)
    (written : Node) : (s.put other written).locate (path.child name) =
      s.locate (path.child name) := by
  rw [locate_child h, locate_child (locate_put hother hnode h (fun _ => rfl) written)]
  simp only [walk, node?_put s hother, if_neg hne]

theorem locate_child_written {out : String} (t : s.Target out place name)
    (h : s.locate path = .ok (place, .directory))
    (hcheck : checkPath (path.child name).text = .ok ()) (content : ByteArray) :
    (s.put (place ++ [name]) (.file content)).locate (path.child name) =
      .ok (place ++ [name], .file content) := by
  rw [locate_child (locate_put (by simp) t.hnode h (fun _ => rfl) _), hcheck]
  exact t.walk_put content

/-- A name that is in a directory twice is there once after a write. -/
theorem namesIn_put (s : Store) (place directory : Place) (name : String) (node : Node) :
    (s.put (place ++ [name]) node).namesIn directory =
      (if place = directory then [name] else []) ++
        (s.namesIn directory).filter fun n => decide (directory ++ [n] ≠ place ++ [name]) := by
  have hothers : (s.nodes.filter (·.1 ≠ place ++ [name])).filterMap
      (fun e => if e.1.dropLast = directory then e.1.getLast? else none) =
      (s.namesIn directory).filter fun n => decide (directory ++ [n] ≠ place ++ [name]) := by
    rw [namesIn, List.filterMap_filter, List.filter_filterMap]
    refine List.filterMap_congr fun e _ => ?_
    by_cases hdirectory : e.1.dropLast = directory
    · simp only [if_pos hdirectory]
      cases hlast : e.1.getLast? with
      | none => simp
      | some last =>
        have hplace := List.dropLast_append_getLast? _ hlast
        rw [hdirectory] at hplace
        simp [← hplace, Option.filter]
    · simp [hdirectory]
  rw [← hothers]
  by_cases hplace : place = directory <;> simp [namesIn, put, hplace]

/-! ## Writing again -/

theorem put_put (s : Store) (place : Place) (node : Node) :
    (s.put place node).put place node = s.put place node := by
  simp [put]

theorem target_put {path : String} (h : s.target path = .ok (place, name)) (content : ByteArray) :
    (s.put (place ++ [name]) (.file content)).target path = .ok (place, name) := by
  have t := Target.of_target h
  have hne : place ++ [name] ≠ [] := by simp
  obtain ⟨above, hnames, way⟩ := t.names
  have hwalk : (s.put (place ++ [name]) (.file content)).walk (s.origin (Root.ofString path))
      above = .ok (place, .directory) := (way.put hne t.hnode _).walk_eq
  have horigin : (s.put (place ++ [name]) (.file content)).origin = s.origin := rfl
  simp only [target, t.check, hnames, List.getLast?_concat, List.dropLast_concat, horigin, hwalk,
    way.walk_eq, bind, Except.bind] at h ⊢
  split_ifs at h with hspecial hsize hnode
  rw [if_neg hspecial, if_neg hsize, if_neg]
  · rfl
  · simp [node?_put s hne]

end HackVm.Store
