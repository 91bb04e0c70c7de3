import HackVm.Files.Store
import HackVm.Proofs.Files.Units
import HackVm.Proofs.Program.Declarations
import HackVm.Proofs.Program.Inventions
import Mathlib.Data.List.Forall2

set_option autoImplicit false

/-! # The units of a directory

A directory lists its names in any order. The units of a program in a directory depend on what is
listed, but not on the order (`collectUnits_of_lists`): there is one for each source file, in the
order of the names of the files. A source file is a regular file whose name has the suffix `.vm`,
where a name is cut at its last dot, unless that is its first or its last character
(`Path.IsCut`). A name is its stem and its suffix together, so the units have different names. -/

namespace HackVm

/-! ## Stems and suffixes -/

namespace Path

/-- The stem and the suffix of a name: it is cut at its last dot, unless nothing stands on one side
of that. -/
inductive IsCut (name : String) : String → String → Prop
  | dotted {stem ending : String} (hname : name = stem ++ "." ++ ending) (hstem : stem ≠ "")
      (hending : ending ≠ "") (hdot : '.' ∉ ending.toList) : IsCut name stem ("." ++ ending)
  | whole (h : ∀ stem ending : String, name = stem ++ "." ++ ending → '.' ∉ ending.toList →
      stem = "" ∨ ending = "") : IsCut name name ""

theorem IsCut.append_eq {name stem suffix : String} (h : IsCut name stem suffix) :
    stem ++ suffix = name := by
  cases h with
  | dotted hname => rw [hname, String.append_assoc]
  | whole => exact String.append_empty

theorem cutSuffix_of_not_mem {name : List Char} (h : '.' ∉ name) : cutSuffix name = (name, []) := by
  have hrest : name.reverse.dropWhile (· ≠ '.') = [] := by
    rw [List.dropWhile_eq_nil_iff]
    intro c hc
    exact decide_eq_true (by rintro rfl; exact h (List.mem_reverse.mp hc))
  rw [cutSuffix, hrest]

theorem cutSuffix_append_dot (stem : List Char) {ending : List Char} (h : '.' ∉ ending) :
    cutSuffix (stem ++ '.' :: ending) =
      if stem = [] ∨ ending = [] then (stem ++ '.' :: ending, []) else (stem, '.' :: ending) := by
  have hreverse : (stem ++ '.' :: ending).reverse = ending.reverse ++ '.' :: stem.reverse := by simp
  have hending : ∀ c ∈ ending.reverse, decide (c ≠ '.') = true := fun c hc =>
    decide_eq_true (by rintro rfl; exact h (List.mem_reverse.mp hc))
  have htake : (stem ++ '.' :: ending).reverse.takeWhile (· ≠ '.') = ending.reverse := by
    rw [hreverse, List.takeWhile_append_of_pos hending]
    simp
  have hdrop : (stem ++ '.' :: ending).reverse.dropWhile (· ≠ '.') = '.' :: stem.reverse := by
    rw [hreverse, List.dropWhile_append_of_pos hending]
    simp
  rw [cutSuffix, htake, hdrop]
  simp

theorem exists_last_dot {name : String} (h : '.' ∈ name.toList) :
    ∃ stem ending : String, name = stem ++ "." ++ ending ∧ '.' ∉ ending.toList := by
  obtain ⟨ending, stem, hname, hdot⟩ := List.eq_append_cons_of_mem (List.mem_reverse.mpr h)
  refine ⟨String.ofList stem.reverse, String.ofList ending.reverse, ?_, by simpa using hdot⟩
  rw [← String.toList_inj, ← List.reverse_inj, hname]
  simp

theorem last_dot_unique {stem stem' ending ending' : String}
    (h : stem ++ "." ++ ending = stem' ++ "." ++ ending') (hdot : '.' ∉ ending.toList)
    (hdot' : '.' ∉ ending'.toList) : stem = stem' ∧ ending = ending' := by
  have hlist : stem.toList ++ '.' :: ending.toList = stem'.toList ++ '.' :: ending'.toList := by
    simpa using congrArg String.toList h
  obtain ⟨hstem, hending⟩ := append_cons_inj_of_not_mem hlist hdot hdot'
  exact ⟨String.toList_inj.mp hstem, String.toList_inj.mp hending⟩

theorem isCut_stem_suffix (p : Path) : IsCut p.name p.stem p.suffix := by
  unfold stem suffix
  by_cases hmem : '.' ∈ p.name.toList
  · obtain ⟨stem, ending, hname, hdot⟩ := exists_last_dot hmem
    have hcut := cutSuffix_append_dot stem.toList hdot
    rw [show stem.toList ++ '.' :: ending.toList = p.name.toList by simp [hname]] at hcut
    rw [hcut]
    split_ifs with hends
    · rw [String.ofList_toList]
      refine .whole fun stem' ending' hname' hdot' => ?_
      obtain ⟨rfl, rfl⟩ := last_dot_unique (hname.symm.trans hname') hdot hdot'
      simpa using hends
    · rw [not_or] at hends
      have hcut := IsCut.dotted hname (by simpa using hends.1) (by simpa using hends.2) hdot
      simpa using hcut
  · rw [cutSuffix_of_not_mem hmem, String.ofList_toList]
    refine .whole fun stem ending hname _ => absurd ?_ hmem
    simp [hname]

/-- There is one way to cut a name. -/
theorem IsCut.unique {name stem suffix stem' suffix' : String} (h : IsCut name stem suffix)
    (h' : IsCut name stem' suffix') : stem = stem' ∧ suffix = suffix' := by
  cases h with
  | dotted hname hstem hending hdot =>
    cases h' with
    | dotted hname' _ _ hdot' =>
      obtain ⟨rfl, rfl⟩ := last_dot_unique (hname.symm.trans hname') hdot hdot'
      exact ⟨rfl, rfl⟩
    | whole hends => exact absurd (hends _ _ hname hdot) (not_or.mpr ⟨hstem, hending⟩)
  | whole hends =>
    cases h' with
    | dotted hname hstem hending hdot =>
      exact absurd (hends _ _ hname hdot) (not_or.mpr ⟨hstem, hending⟩)
    | whole => exact ⟨rfl, rfl⟩

theorem suffix_eq_iff (p : Path) (suffix : String) :
    p.suffix = suffix ↔ ∃ stem, IsCut p.name stem suffix := by
  constructor
  · rintro rfl
    exact ⟨p.stem, isCut_stem_suffix p⟩
  · rintro ⟨stem, hcut⟩
    exact ((isCut_stem_suffix p).unique hcut).2

end Path

/-! ## Listings -/

def Node.kind : Node → FileKind
  | .directory => .directory
  | .file _ => .file

/-- A path leads to a directory that lists names in some order, and the names lead to nodes. -/
structure FileSystem.Lists {S : Type} [FileSystem (StateM S)] (s : S) (directory : Path)
    (listing : List (String × Node)) : Prop where
  kind : (FileSystem.kind directory : StateM S _).run s = (.ok (some .directory), s)
  entries : (FileSystem.entries directory : StateM S _).run s = (listing.map Prod.fst, s)
  entry : ∀ e ∈ listing,
    (FileSystem.kind (directory.child e.1) : StateM S _).run s = (.ok (some e.2.kind), s)
  read : ∀ e ∈ listing, ∀ bytes, e.2 = .file bytes →
    (FileSystem.read (directory.child e.1) : StateM S _).run s = (.ok bytes, s)

/-- A store lists a directory if the names in it lead to nodes. -/
theorem Store.lists {s : Store} {directory : Path} (place : Place) {listing : List (String × Node)}
    (h : s.locate directory = .ok (place, .directory))
    (hnames : s.namesIn place = listing.map Prod.fst)
    (hnodes : ∀ e ∈ listing, s.locate (directory.child e.1) = .ok (place ++ [e.1], e.2)) :
    FileSystem.Lists s directory listing where
  kind := by
    show (s.kind directory, s) = _
    rw [Store.kind, h]
  entries := by
    show (s.entries directory, s) = _
    rw [Store.entries, h, ← hnames]
  entry e he := by
    show (s.kind (directory.child e.1), s) = _
    rw [Store.kind, hnodes e he]
    cases e.2 <;> rfl
  read e he bytes hbytes := by
    show (s.read (directory.child e.1), s) = _
    rw [Store.read, hnodes e he, hbytes]

/-- A regular file with the suffix of sources. -/
def IsSource (e : String × Node) : Prop := e.2.kind = .file ∧ ∃ stem, Path.IsCut e.1 stem ".vm"

/-- A unit has the name and the text of a source file. -/
def IsUnitOf (e : String × Node) (u : String × String) : Prop :=
  Path.IsCut e.1 u.1 ".vm" ∧ ∃ bytes, e.2 = .file bytes ∧ decodeText bytes = .ok u.2

/-- Whether something in a directory is a source file. -/
def isSourceIn (directory : Path) (e : String × Node) : Bool :=
  some e.2.kind = some FileKind.file && (directory.child e.1).suffix = sourceSuffix

def sourcesIn (directory : Path) (listing : List (String × Node)) : List (String × Node) :=
  (listing.filter (isSourceIn directory)).mergeSort fun e e' => decide (e.1 ≤ e'.1)

theorem isSourceIn_iff {directory : Path} {e : String × Node} :
    isSourceIn directory e = true ↔ IsSource e := by
  have hsuffix := (directory.child e.1).suffix_eq_iff sourceSuffix
  rw [Path.name_child] at hsuffix
  rw [isSourceIn, Bool.and_eq_true, decide_eq_true_eq, decide_eq_true_eq, Option.some_inj, hsuffix]
  rfl

theorem mem_sourcesIn {directory : Path} {listing : List (String × Node)} {e : String × Node} :
    e ∈ sourcesIn directory listing ↔ e ∈ listing ∧ IsSource e := by
  rw [sourcesIn, List.mem_mergeSort, List.mem_filter, isSourceIn_iff]

/-- Different names are in a strict order. -/
theorem pairwise_sourcesIn (directory : Path) {listing : List (String × Node)}
    (distinct : (listing.map Prod.fst).Nodup) :
    (sourcesIn directory listing).Pairwise fun e e' => e.1 < e'.1 := by
  have hnames : (sourcesIn directory listing).map Prod.fst =
      ((listing.filter (isSourceIn directory)).map Prod.fst).mergeSort fun a b => decide (a ≤ b) :=
    List.map_mergeSort fun _ _ _ _ => rfl
  have hsorted : ((sourcesIn directory listing).map Prod.fst).Pairwise (· ≤ ·) :=
    hnames ▸ sorted_by_name _
  have hnodup : ((sourcesIn directory listing).map Prod.fst).Nodup := by
    rw [hnames, List.mergeSort_perm _ _ |>.nodup_iff]
    exact distinct.sublist (List.filter_sublist.map Prod.fst)
  exact List.pairwise_map.mp ((hsorted.and hnodup).imp fun h => lt_of_le_of_ne h.1 h.2)

theorem sourcesIn_eq_of_perm (directory : Path) {listing content : List (String × Node)}
    (distinct : (content.map Prod.fst).Nodup) (h : listing.Perm content) :
    sourcesIn directory listing = sourcesIn directory content := by
  have hdistinct : (listing.map Prod.fst).Nodup := (h.map Prod.fst).nodup_iff.mpr distinct
  refine List.Perm.eq_of_pairwise (fun e e' _ _ hlt hgt => absurd hgt (lt_asymm hlt))
    (pairwise_sourcesIn directory hdistinct) (pairwise_sourcesIn directory distinct) ?_
  exact ((List.mergeSort_perm _ _).trans (h.filter _)).trans (List.mergeSort_perm _ _).symm

section

variable {S : Type} [FileSystem (StateM S)] {s : S} {directory : Path}
  {listing : List (String × Node)}

namespace FileSystem.Lists

theorem yields_sourceFiles (h : FileSystem.Lists s directory listing) :
    (sourceFiles directory : ReportT BuildError (StateM S) _).Yields s
      (.ok ((sourcesIn directory listing).map fun e => directory.child e.1)) s :=
  HackVm.yields_sourceFiles Prod.fst h.entries fun e he =>
    yields_isSourceFile (yields_kindOf (h.entry e he))

theorem yields_readSource (h : FileSystem.Lists s directory listing) {e : String × Node}
    {u : String × String} (he : e ∈ listing) (hu : IsUnitOf e u) :
    (readSource (directory.child e.1) : ReportT BuildError (StateM S) _).Yields s (.ok u) s := by
  obtain ⟨name, text⟩ := u
  obtain ⟨hcut, bytes, hbytes, htext⟩ := hu
  rw [← directory.name_child e.1] at hcut
  obtain ⟨rfl, -⟩ := hcut.unique (directory.child e.1).isCut_stem_suffix
  exact HackVm.yields_readSource (h.read e he bytes hbytes) htext

/-- What is collected where the sources have units. -/
theorem yields_collectUnits {input : String} {units : List (String × String)}
    (h : FileSystem.Lists s (Path.ofString input) listing)
    (hunits : List.Forall₂ IsUnitOf (sourcesIn (Path.ofString input) listing) units) :
    (collectUnits input : ReportT BuildError (StateM S) _).Yields s
      (if sourcesIn (Path.ofString input) listing = [] then .error (.noUnits input)
        else .ok units) s := by
  have hfiles := yields_unitFiles h.kind h.yields_sourceFiles
  rw [collectUnits_eq]
  simp only [List.map_eq_nil_iff] at hfiles
  split_ifs at hfiles ⊢ with hempty
  · exact hfiles.bind_error
  · refine hfiles.bind (.mapM (List.forall₂_map_left_iff.mpr ?_))
    have hlisted := (List.forall₂_and_left _ _).mpr ⟨fun e he => (mem_sourcesIn.mp he).1, hunits⟩
    exact hlisted.imp fun e u hu => h.yields_readSource hu.1 hu.2

end FileSystem.Lists

end

/-! ## Units -/

theorem exists_units {sources : List (String × Node)} (h : ∀ e ∈ sources, ∃ u, IsUnitOf e u) :
    ∃ units, List.Forall₂ IsUnitOf sources units := by
  induction sources with
  | nil => exact ⟨[], .nil⟩
  | cons e sources ih =>
    obtain ⟨u, hu⟩ := h e List.mem_cons_self
    obtain ⟨units, hunits⟩ := ih fun e' he' => h e' (List.mem_cons_of_mem e he')
    exact ⟨u :: units, .cons hu hunits⟩

theorem IsSource.exists_unit {e : String × Node} (h : IsSource e)
    (decodes : ∀ bytes, e.2 = .file bytes → ∃ text, decodeText bytes = .ok text) :
    ∃ u, IsUnitOf e u := by
  obtain ⟨hkind, stem, hcut⟩ := h
  cases hnode : e.2 with
  | directory =>
    rw [hnode] at hkind
    cases hkind
  | file bytes =>
    obtain ⟨text, htext⟩ := decodes bytes hnode
    exact ⟨(stem, text), hcut, bytes, hnode, htext⟩

/-- Files with different names are units with different names. -/
theorem nodup_unitNames {sources : List (String × Node)} {units : List (String × String)}
    (h : List.Forall₂ IsUnitOf sources units) (distinct : (sources.map Prod.fst).Nodup) :
    (units.map Prod.fst).Nodup := by
  have hnames : sources.map Prod.fst = (units.map Prod.fst).map (· ++ ".vm") := by
    induction h with
    | nil => rfl
    | cons hu _ ih =>
      rw [List.map_cons, List.nodup_cons] at distinct
      simp only [List.map_cons, ih distinct.2, hu.1.append_eq]
  exact .of_map _ (hnames ▸ distinct)

/-- Collecting the units of a directory gives one for each source file, by name, or fails if there
is none. The order in which the directory lists its names does not matter. -/
theorem collectUnits_of_lists {S : Type} [FileSystem (StateM S)] (input : String)
    (content : List (String × Node)) (distinct : (content.map Prod.fst).Nodup)
    (decodes : ∀ e ∈ content, IsSource e → ∀ bytes, e.2 = .file bytes →
      ∃ text, decodeText bytes = .ok text) :
    ∃ sources units,
      (∀ e, e ∈ sources ↔ e ∈ content ∧ IsSource e) ∧
      sources.Pairwise (fun e e' => e.1 < e'.1) ∧
      List.Forall₂ IsUnitOf sources units ∧ (units.map Prod.fst).Nodup ∧
      ∀ (s : S) (listing : List (String × Node)), listing.Perm content →
        FileSystem.Lists s (Path.ofString input) listing →
        (collectUnits input : ReportT BuildError (StateM S) _).Yields s
          (if sources = [] then .error (.noUnits input) else .ok units) s := by
  have hsorted := pairwise_sourcesIn (Path.ofString input) distinct
  obtain ⟨units, hunits⟩ := exists_units fun e he =>
    have hsource := mem_sourcesIn.mp he
    hsource.2.exists_unit (decodes e hsource.1 hsource.2)
  refine ⟨sourcesIn (Path.ofString input) content, units, fun e => mem_sourcesIn, hsorted, hunits,
    nodup_unitNames hunits (List.pairwise_map.mpr (hsorted.imp ne_of_lt)), ?_⟩
  intro s listing hperm hlists
  have hsame := sourcesIn_eq_of_perm (Path.ofString input) distinct hperm
  rw [← hsame] at hunits ⊢
  exact hlists.yields_collectUnits hunits

/-- Two sources, and what is none: a suffix only, a directory, and a file with another suffix. -/
def mixedListing : List (String × Node) :=
  [("b.vm", .file "add".toUTF8), (".vm", .file "sub".toUTF8), ("c.vm", .directory),
    ("a.b.vm", .file "neg".toUTF8), ("a.txt", .file "not".toUTF8)]

/-- A store with one directory. -/
def storeOf (listing : List (String × Node)) : Store :=
  ⟨(["Prog"], .directory) :: listing.map fun e => (["Prog", e.1], e.2), []⟩

/-- Two orders of a directory, with the same units. -/
theorem collectUnits_of_lists_mixedListing :
    (mixedListing.map Prod.fst).Nodup ∧
    (∀ e ∈ mixedListing, IsSource e → ∀ bytes, e.2 = .file bytes →
      ∃ text, decodeText bytes = .ok text) ∧
    ∃ units, ∀ listing ∈ [mixedListing, mixedListing.reverse],
      listing.Perm mixedListing ∧
      FileSystem.Lists (storeOf listing) (Path.ofString "Prog") listing ∧
      (collectUnits "Prog" : ReportT BuildError (StateM Store) _).Yields (storeOf listing)
        (.ok units) (storeOf listing) := by
  have hdistinct : (mixedListing.map Prod.fst).Nodup := by decide
  have hdecodes : ∀ e ∈ mixedListing, IsSource e → ∀ bytes, e.2 = .file bytes →
      ∃ text, decodeText bytes = .ok text := by
    simp only [mixedListing, List.mem_cons, List.not_mem_nil, or_false]
    rintro e (rfl | rfl | rfl | rfl | rfl) - bytes hbytes <;> cases hbytes
    exacts [⟨"add", by decide +kernel⟩, ⟨"sub", by decide +kernel⟩, ⟨"neg", by decide +kernel⟩,
      ⟨"not", by decide +kernel⟩]
  have hlists : ∀ listing ∈ [mixedListing, mixedListing.reverse],
      FileSystem.Lists (storeOf listing) (Path.ofString "Prog") listing := by
    simp only [List.mem_cons, List.not_mem_nil, or_false]
    rintro listing (rfl | rfl)
    · exact Store.lists ["Prog"] (by decide +kernel) (by decide) (by decide +kernel)
    · exact Store.lists ["Prog"] (by decide +kernel) (by decide) (by decide +kernel)
  have hperm : ∀ listing ∈ [mixedListing, mixedListing.reverse], listing.Perm mixedListing := by
    simp [List.reverse_perm]
  obtain ⟨sources, units, hmem, -, -, -, hyields⟩ :=
    collectUnits_of_lists (S := Store) "Prog" mixedListing hdistinct hdecodes
  have hsource : sources ≠ [] := by
    have hcut : Path.IsCut "b.vm" "b" ("." ++ "vm") :=
      .dotted rfl (by decide) (by decide) (by decide)
    exact List.ne_nil_of_mem ((hmem ("b.vm", .file "add".toUTF8)).mpr
      ⟨List.mem_cons_self, rfl, "b", hcut⟩)
  refine ⟨hdistinct, hdecodes, units, fun listing h => ⟨hperm listing h, hlists listing h, ?_⟩⟩
  simpa [hsource] using hyields _ listing (hperm listing h) (hlists listing h)

end HackVm
