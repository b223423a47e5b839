import JackStack.Proofs.Files.ByteOrder
import JackStack.Proofs.Files.Trees

/-!
# Units of a batch

The units of a path are found in the tree. Compiling one replaces the file beside its source that
has the stem of the source, or does nothing to the tree at all: that file is neither a directory nor
a source file, so every later path still leads where it led, to the same source.
-/

namespace JackStack

/-! ## The tree that a unit leaves -/

namespace FileSystem

/-- One tree is the other with a file put at a place, or with no file there. -/
structure Replaces (fs : FileSystem) (place : Location) (content? : Option ByteArray)
    (fs' : FileSystem) : Prop where
  tree : fs'.IsTree
  current : fs'.current = fs.current
  here : fs'.find? place = content?.map .file
  elsewhere : ∀ other, other ≠ place → fs'.find? other = fs.find? other

/-- Of two replacements of the same content the second one stays. -/
theorem Replaces.trans {fs fs' fs'' : FileSystem} {place : Location}
    {content? content?' : Option ByteArray} (h : Replaces fs place content? fs')
    (h' : Replaces fs' place content?' fs'') : Replaces fs place content?' fs'' :=
  ⟨h'.tree, h'.current.trans h.current, h'.here,
    fun other hne => (h'.elsewhere other hne).trans (h.elsewhere other hne)⟩

/-- Where no directory stood, the directories stay the same. -/
theorem Replaces.isDirectoryAt_eq {fs fs' : FileSystem} {place : Location}
    {content? : Option ByteArray} (h : Replaces fs place content? fs')
    (hfree : fs.isDirectoryAt place = false) (other : Location) :
    fs'.isDirectoryAt other = fs.isDirectoryAt other := by
  by_cases hother : other = place
  · rw [hother, hfree, isDirectoryAt, h.here]
    cases content? <;> rfl
  · rw [isDirectoryAt, h.elsewhere other hother]
    rfl

/-- Puts a file under a name into a directory. -/
theorem IsTree.replaces_insert {fs : FileSystem} (h : fs.IsTree) {parent : Location} {name : String}
    (hfree : fs.isDirectoryAt (parent ++ [name]) = false) (hparent : fs.isDirectoryAt parent = true)
    (hname : Path.IsEntryName name) (content : ByteArray) :
    Replaces fs (parent ++ [name]) (some content) (fs.insert (parent ++ [name]) (.file content)) :=
  ⟨h.insert hfree rfl hparent hname, rfl, find?_insert_self fs (List.concat_ne_nil _ _) _,
    fun _ hne => find?_insert_of_ne fs hne _⟩

/-- Removes a file. -/
theorem IsTree.replaces_erase {fs : FileSystem} (h : fs.IsTree) {parent : Location} {name : String}
    (hfree : fs.isDirectoryAt (parent ++ [name]) = false) :
    Replaces fs (parent ++ [name]) none (fs.erase (parent ++ [name])) :=
  ⟨h.erase hfree, rfl, find?_erase_self fs (List.concat_ne_nil _ _),
    fun _ hne => find?_erase_of_ne fs hne⟩

/-- Two trees have the same directories and the same source files. -/
structure Kept (fs fs' : FileSystem) : Prop where
  tree : fs'.IsTree
  current : fs'.current = fs.current
  directories : ∀ place, fs'.isDirectoryAt place = fs.isDirectoryAt place
  sources : ∀ place name, Sources.isSource name = true →
    fs'.find? (place ++ [name]) = fs.find? (place ++ [name])

theorem Kept.refl {fs : FileSystem} (h : fs.IsTree) : Kept fs fs :=
  ⟨h, rfl, fun _ => rfl, fun _ _ _ => rfl⟩

/-- Files that were kept keep the files before them. -/
theorem Kept.symm {fs fs' : FileSystem} (h : fs.IsTree) (hkept : Kept fs fs') : Kept fs' fs :=
  ⟨h, hkept.current.symm, fun place => (hkept.directories place).symm,
    fun place name hname => (hkept.sources place name hname).symm⟩

/-- What is kept twice is kept. -/
theorem Kept.trans {fs fs' fs'' : FileSystem} (h : Kept fs fs') (h' : Kept fs' fs'') :
    Kept fs fs'' :=
  ⟨h'.tree, h'.current.trans h.current,
    fun place => (h'.directories place).trans (h.directories place),
    fun place name hname => (h'.sources place name hname).trans (h.sources place name hname)⟩

/-- Replacing a file that is not a source file keeps directories and source files. -/
theorem Replaces.kept {fs fs' : FileSystem} {parent : Location} {name : String}
    {content? : Option ByteArray} (h : Replaces fs (parent ++ [name]) content? fs')
    (hfree : fs.isDirectoryAt (parent ++ [name]) = false)
    (hname : Sources.isSource name = false) : Kept fs fs' := by
  refine ⟨h.tree, h.current, h.isDirectoryAt_eq hfree,
    fun place source hsource => h.elsewhere _ fun heq => ?_⟩
  obtain rfl := List.singleton_inj.mp (List.append_inj_right' heq rfl)
  rw [hname] at hsource
  cases hsource

section Kept

variable {fs fs' : FileSystem} (h : Kept fs fs')
include h

/-- A path leads where it led. -/
theorem Kept.locate_iff {path : String} {place : Location} :
    fs'.locate path = .ok place ↔ fs.locate path = .ok place :=
  locate_iff_of_directories h.current h.directories

/-- The same paths lead to directories. -/
theorem Kept.isDirectory_eq (path : String) : fs'.isDirectory path = fs.isDirectory path := by
  rw [Bool.eq_iff_iff, isDirectory_iff, isDirectory_iff]
  simp only [h.locate_iff, h.directories]

end Kept

end FileSystem

namespace Sources

open FileSystem

/-! ## Source files and their output files -/

/-- The name of a file, and the place where its output goes, seen from the directory around it. An
idle segment behind the name would have led to a directory. -/
theorem exists_output_place {fs : FileSystem} {path name : String} {place : Location}
    {content : ByteArray} (hname : Path.name? path = some name)
    (hlocate : fs.locate path = .ok place) (hfile : fs.find? place = some (.file content)) :
    ∃ parent, fs.isDirectoryAt parent = true ∧ place = parent ++ [name] ∧ Path.IsEntryName name ∧
      fs.locate (outputPath path) = .ok (follow parent (outputName name)) := by
  obtain ⟨before, idle, hsegments, hidle, hentry⟩ := Path.exists_segments_of_name? hname
  rcases List.eq_nil_or_concat idle with rfl | ⟨front, last, rfl⟩
  · have hpath := ne_empty_of_segments hsegments hentry.ne_empty
    obtain ⟨parent, hparent, hdirectory, hplace⟩ := (locate_eq_ok_iff hpath hsegments).mp hlocate
    rw [follow_name parent hentry] at hplace
    have houtput := segments_outputPath hentry hsegments
    have hlast : outputName name ≠ "" := by
      rcases outputName_cases hentry with ⟨-, hout⟩ | ⟨-, -, hout⟩
      · rw [hout]
        decide
      · exact hout.ne_empty
    refine ⟨parent, hdirectory, hplace, hentry,
      (locate_eq_ok_iff (ne_empty_of_segments houtput hlast) houtput).mpr
        ⟨parent, ?_, hdirectory, rfl⟩⟩
    rwa [start_eq_of_segments fs hlast hentry.ne_empty houtput hsegments]
  · have hconcat : Path.segments path = (before ++ name :: front) ++ [last] := by simp [hsegments]
    have hdirectory := isDirectoryAt_of_idle hlocate hconcat (hidle last (by simp))
    rw [isDirectoryAt_eq_false_of_file hfile] at hdirectory
    cases hdirectory

/-- The source of a unit that is a file, and the place beside it where its output goes. -/
theorem exists_source_place {fs : FileSystem} {path : String} {place : Location}
    {content : ByteArray} (hsource : isSource path = true) (hlocate : fs.locate path = .ok place)
    (hfile : fs.find? place = some (.file content)) :
    ∃ parent stem, stem ≠ "" ∧ fs.isDirectoryAt parent = true ∧
      place = parent ++ [Path.named stem sourceExtension] ∧
      Path.IsEntryName (Path.named stem sourceExtension) ∧
      Path.IsEntryName (Path.named stem outputExtension) ∧
      fs.locate (outputPath path) =
        .ok (if stem = "." then parent.dropLast
          else parent ++ [Path.named stem outputExtension]) := by
  obtain ⟨name, hname, hextension⟩ := Option.bind_eq_some_iff.mp (of_decide_eq_true hsource)
  obtain ⟨stem, hstem, rfl⟩ := Path.exists_stem_of_splitExtension hextension
  obtain ⟨before, idle, hsegments, -⟩ := Path.exists_segments_of_name? hname
  obtain ⟨parent, hdirectory, hplace, hentry, hwrites⟩ := exists_output_place hname hlocate hfile
  obtain ⟨-, hout⟩ := isEntryName_of_segments hstem hsegments
  refine ⟨parent, stem, hstem, hdirectory, hplace, hentry, hout, ?_⟩
  rw [hwrites, outputName_source hstem]
  split
  · rfl
  · rw [follow_name parent hout]

/-- The path can be one of a unit: it has the extension of source files, and leads to no
directory. -/
structure IsUnit (fs : FileSystem) (path : String) : Prop where
  source : isSource path = true
  other : fs.isDirectory path = false

/-- A unit that cannot be compiled into a file: it is no file, or its output path leads to a
directory. -/
def Idle (fs : FileSystem) (path : String) : Prop :=
  (∀ content, fs.lookup path ≠ .ok (.file content)) ∨ fs.isDirectory (outputPath path) = true

/-- A unit that is compiled into a file: its path leads to a file that holds `content`, and its
output path to a place beside it where no directory stands. -/
structure Job (fs : FileSystem) (path : String) (parent : Location) (stem : String)
    (content : ByteArray) : Prop where
  reads : fs.locate path = .ok (parent ++ [Path.named stem sourceExtension])
  holds : fs.find? (parent ++ [Path.named stem sourceExtension]) = some (.file content)
  writes : fs.locate (outputPath path) = .ok (parent ++ [Path.named stem outputExtension])
  free : fs.isDirectoryAt (parent ++ [Path.named stem outputExtension]) = false
  inside : fs.isDirectoryAt parent = true
  source : isSource (Path.named stem sourceExtension) = true
  output : isSource (Path.named stem outputExtension) = false
  proper : Path.IsEntryName (Path.named stem outputExtension)

/-- A unit that is a file is compiled into a file unless its output path leads to a directory. A
single dot as the stem leads to the directory around the one of the source. -/
theorem exists_job {fs : FileSystem} (h : fs.IsTree) {path : String} {content : ByteArray}
    (hsource : isSource path = true) (hfile : fs.lookup path = .ok (.file content))
    (hfree : fs.isDirectory (outputPath path) = false) :
    ∃ parent stem, Job fs path parent stem content := by
  obtain ⟨place, hlocate, hfind⟩ := lookup_eq_ok_iff.mp hfile
  obtain ⟨parent, stem, hstem, hparent, rfl, hname, hout, hwrites⟩ :=
    exists_source_place hsource hlocate hfind
  rw [isDirectory_of_locate hwrites] at hfree
  have hdot : stem ≠ "." := by
    intro hdot
    rw [if_pos hdot, h.isDirectoryAt_dropLast (isDirectoryAt_iff.mp hparent)] at hfree
    cases hfree
  rw [if_neg hdot] at hwrites hfree
  exact ⟨parent, stem, hlocate, hfind, hwrites, hfree, hparent, isSource_named hstem hname.whole,
    not_isSource_output hstem hout.whole, hout⟩

section Job

variable {fs : FileSystem} {path stem : String} {parent : Location} {content : ByteArray}

/-- The path of a job leads to its source. -/
theorem Job.lookup_eq (job : Job fs path parent stem content) :
    fs.lookup path = .ok (.file content) :=
  lookup_eq_ok_iff.mpr ⟨_, job.reads, job.holds⟩

/-- The output path does not lead to a directory. -/
theorem Job.isDirectory_eq_false (job : Job fs path parent stem content) :
    fs.isDirectory (outputPath path) = false := by
  rw [isDirectory_of_locate job.writes, job.free]

/-- A unit stays one as long as directories and source files are kept. -/
theorem Job.kept {fs' : FileSystem} (job : Job fs path parent stem content) (h : Kept fs fs') :
    Job fs' path parent stem content where
  reads := h.locate_iff.mpr job.reads
  holds := by rw [h.sources parent _ job.source, job.holds]
  writes := h.locate_iff.mpr job.writes
  free := by rw [h.directories, job.free]
  inside := by rw [h.directories, job.inside]
  source := job.source
  output := job.output
  proper := job.proper

end Job

/-- A path of a source file that leads to a file leads to the same file as long as directories and
source files are kept. -/
theorem lookup_kept {fs fs' : FileSystem} (h : Kept fs fs') {path : String} {content : ByteArray}
    (hsource : isSource path = true) (hfile : fs.lookup path = .ok (.file content)) :
    fs'.lookup path = .ok (.file content) := by
  obtain ⟨place, hlocate, hfind⟩ := lookup_eq_ok_iff.mp hfile
  obtain ⟨parent, stem, hstem, -, rfl, hname, -⟩ := exists_source_place hsource hlocate hfind
  refine lookup_eq_ok_iff.mpr ⟨_, h.locate_iff.mpr hlocate, ?_⟩
  rw [h.sources parent _ (isSource_named hstem hname.whole), hfind]

section Kept

variable {fs fs' : FileSystem} (h : fs.IsTree) (hkept : Kept fs fs') {path : String}

include h in
/-- A unit is compiled into a file or is idle. -/
theorem job_or_idle (hsource : isSource path = true) :
    (∃ parent stem content, Job fs path parent stem content) ∨ Idle fs path := by
  by_cases hfile : ∃ content, fs.lookup path = .ok (.file content)
  · obtain ⟨content, hfile⟩ := hfile
    cases hfree : fs.isDirectory (outputPath path) with
    | true => exact .inr (.inr hfree)
    | false =>
      obtain ⟨parent, stem, job⟩ := exists_job h hsource hfile hfree
      exact .inl ⟨parent, stem, content, job⟩
  · exact .inr (.inl fun content hlookup => hfile ⟨content, hlookup⟩)

include hkept in
/-- A unit stays a unit. -/
theorem IsUnit.kept (hunit : IsUnit fs path) : IsUnit fs' path :=
  ⟨hunit.source, by rw [hkept.isDirectory_eq, hunit.other]⟩

include h hkept in
/-- An idle source stays idle. -/
theorem Idle.kept (hsource : isSource path = true) (hidle : Idle fs path) : Idle fs' path := by
  rcases hidle with hnone | hdirectory
  · exact .inl fun content hfile => hnone content (lookup_kept (hkept.symm h) hsource hfile)
  · exact .inr (by rw [hkept.isDirectory_eq, hdirectory])

end Kept

/-! ## Compiling a unit -/

/-- The code of the class that a content holds, if it compiles. -/
def code? (options : Options) (content : ByteArray) : Option ByteArray :=
  match (compileBytes content options).verdict with
  | .ok () => some (compileBytes content options).output
  | .error _ => none

/-- Reading a file is reading its content. -/
theorem compile_readings_file (content : ByteArray) (options : Options) :
    compile (readings (.file content)) {} options = compileBytes content options := rfl

/-- A file is created empty where no directory stands. -/
theorem create_eq_ok {fs : FileSystem} {path : String} {place : Location}
    (hlocate : fs.locate path = .ok place) (hfree : fs.isDirectoryAt place = false) :
    fs.create path = .ok (place, fs.insert place (.file .empty)) := by
  simp only [create, hlocate, bind, Except.bind]
  split
  · rename_i hfind
    rw [isDirectoryAt_iff.mpr hfind] at hfree
    cases hfree
  · rfl

/-- Compiling a file whose output goes under a name into a directory replaces what stands there. The
output file is emptied first, so a file that is its own output is read as an empty one. -/
theorem compileFile_replaces {fs : FileSystem} (h : fs.IsTree) {path name : String}
    {place parent : Location} {content : ByteArray} (hlocate : fs.locate path = .ok place)
    (hfile : fs.find? place = some (.file content))
    (hwrites : fs.locate (outputPath path) = .ok (parent ++ [name]))
    (hfree : fs.isDirectoryAt (parent ++ [name]) = false) (hparent : fs.isDirectoryAt parent = true)
    (hname : Path.IsEntryName name) (options : Options) :
    let read := if place = parent ++ [name] then .empty else content
    (compileFile fs path options).result =
        (compileBytes read options).verdict.map (fun _ => outputPath path) ∧
      Replaces fs (parent ++ [name]) (code? options read) (compileFile fs path options).files := by
  intro read
  have hempty := h.replaces_insert hfree hparent hname .empty
  have hdirectories := hempty.isDirectoryAt_eq hfree
  have hread : (fs.insert (parent ++ [name]) (.file .empty)).find? place = some (.file read) := by
    by_cases hself : place = parent ++ [name]
    · rw [hself, hempty.here]
      simp [read, hself]
    · rw [hempty.elsewhere place hself, hfile]
      simp [read, hself]
  have hlookup : fs.lookup path = .ok (.file content) := lookup_eq_ok_iff.mpr ⟨_, hlocate, hfile⟩
  simp only [compileFile, hlocate, hlookup, create_eq_ok hwrites hfree, bind, Except.bind, pure,
    Except.pure, hread, Option.map_some, Option.getD_some, compile_readings_file, code?]
  cases (compileBytes read options).verdict with
  | error e =>
    exact ⟨rfl, hempty.trans (hempty.tree.replaces_erase (by rw [hdirectories, hfree]))⟩
  | ok _ =>
    refine ⟨rfl, hempty.trans (hempty.tree.replaces_insert ?_ ?_ hname _)⟩
    · rw [hdirectories, hfree]
    · rw [hdirectories, hparent]

/-- Compiling a unit into a file replaces that file. -/
theorem compileFile_of_job {fs : FileSystem} (h : fs.IsTree) {path stem : String}
    {parent : Location} {content : ByteArray} (job : Job fs path parent stem content)
    (options : Options) :
    (compileFile fs path options).result.isOk = (code? options content).isSome ∧
      Replaces fs (parent ++ [Path.named stem outputExtension]) (code? options content)
        (compileFile fs path options).files := by
  have hother : parent ++ [Path.named stem sourceExtension] ≠
      parent ++ [Path.named stem outputExtension] := by
    intro heq
    have hsource := job.source
    rw [List.singleton_inj.mp (List.append_cancel_left heq), job.output] at hsource
    cases hsource
  obtain ⟨hresult, hreplaces⟩ := compileFile_replaces h job.reads job.holds job.writes job.free
    job.inside job.proper options
  rw [if_neg hother] at hresult hreplaces
  refine ⟨?_, hreplaces⟩
  rw [hresult, code?]
  cases (compileBytes content options).verdict <;> rfl

/-- Where the output path leads to a directory nothing is done. -/
theorem compileFile_of_directory {fs : FileSystem} {path : String} {entry : Entry}
    (options : Options) (hlookup : fs.lookup path = .ok entry)
    (hdirectory : fs.isDirectory (outputPath path) = true) :
    compileFile fs path options = ⟨[], .error (.io isADirectory), fs⟩ := by
  obtain ⟨place, hlocate, -⟩ := lookup_eq_ok_iff.mp hlookup
  obtain ⟨spot, hspot, hat⟩ := isDirectory_iff.mp hdirectory
  have hcreate : fs.create (outputPath path) = .error isADirectory := by
    simp [create, hspot, isDirectoryAt_iff.mp hat, bind, Except.bind, throw, throwThe,
      MonadExceptOf.throw]
  simp [compileFile, hlocate, hlookup, hcreate, bind, Except.bind]

/-- An idle unit fails and leaves the files alone. -/
theorem compileFile_unchanged {fs : FileSystem} {path : String} (options : Options)
    (hunit : IsUnit fs path) (h : Idle fs path) :
    (compileFile fs path options).result.isOk = false ∧
      (compileFile fs path options).files = fs := by
  cases hlocate : fs.locate path with
  | error e => simp [compileFile, hlocate, bind, Except.bind, Except.isOk, Except.toBool]
  | ok place =>
    cases hlookup : fs.lookup path with
    | error e => simp [compileFile, hlocate, hlookup, bind, Except.bind, Except.isOk, Except.toBool]
    | ok entry =>
      have hdirectory : fs.isDirectory (outputPath path) = true := by
        cases entry with
        | directory => exact absurd hunit.other (by simp [isDirectory, hlookup])
        | file content => exact h.resolve_left fun hnone => hnone content hlookup
      rw [compileFile_of_directory options hlookup hdirectory]
      exact ⟨rfl, rfl⟩

/-- An idle unit fails and leaves the files alone as long as directories and source files are
kept. -/
theorem Idle.compileFile {fs fs' : FileSystem} (h : fs.IsTree) (hkept : Kept fs fs') {path : String}
    (hidle : Idle fs path) (hunit : IsUnit fs path) (options : Options) :
    (compileFile fs' path options).result.isOk = false ∧
      (compileFile fs' path options).files = fs' :=
  compileFile_unchanged options (hunit.kept hkept) (hidle.kept h hkept hunit.source)

/-! ## The units of a path -/

/-- The units that a path names. -/
inductive Names (fs : FileSystem) (path : String) : List String → Prop
  /-- A directory names the source files directly inside it, in increasing byte order of name. -/
  | inside {place : Location} {names : List String} (directory : fs.isDirectoryAt place = true)
      (leads : fs.locate path = .ok place)
      (member : ∀ name, name ∈ names ↔
        isSource name = true ∧ ∃ content, fs.find? (place ++ [name]) = some (.file content))
      (ordered : names.Pairwise fun a b => utf8 a < utf8 b)
      (joined : ∀ name ∈ names, fs.locate (Path.join path name) = .ok (place ++ [name])) :
      Names fs path (names.map (Path.join path))
  /-- Any other path with the extension of source files names itself, whether it leads somewhere or
  not. -/
  | itself (other : fs.isDirectory path = false) (source : isSource path = true) :
      Names fs path [path]
  /-- What is left is refused, and names nothing. -/
  | refused (other : fs.isDirectory path = false) (source : isSource path = false) :
      Names fs path []

/-- The names of a directory by name in increasing order. -/
theorem pairwise_mergeSort_lt {names : List String} (h : names.Nodup) :
    (names.mergeSort fun a b => a ≤ b).Pairwise (· < ·) := by
  have hle : (names.mergeSort fun a b => a ≤ b).Pairwise fun a b => decide (a ≤ b) = true := by
    apply List.pairwise_mergeSort
    · intro a b c hab hbc
      simp only [decide_eq_true_eq] at hab hbc ⊢
      exact String.le_trans hab hbc
    · intro a b
      simpa using String.le_total a b
  have hne := ((List.mergeSort_perm names fun a b => a ≤ b).nodup_iff.mpr h)
  exact (hle.and hne).imp fun {a b} ⟨hab, hab'⟩ =>
    lt_of_le_of_ne (by simpa using hab) hab'

/-- A path that is no directory names itself if it is a source, and fails otherwise. -/
theorem single_names {fs : FileSystem} {path : String} (h : fs.isDirectory path = false) :
    Names fs path ((single path).toOption.getD []) ∧
      (single path).isOk = (fs.isDirectory path || isSource path) := by
  cases hsource : isSource path with
  | false => simpa [single, hsource, h, Except.toOption, Except.isOk, Except.toBool] using
      Names.refused h hsource
  | true => simpa [single, hsource, h, Except.toOption, Except.isOk, Except.toBool] using
      Names.itself h hsource

/-- The units that are found are those that the path names. -/
theorem find_names {fs : FileSystem} (h : fs.IsTree) (path : String) :
    Names fs path ((find fs path).2.toOption.getD []) ∧
      (find fs path).2.isOk = (fs.isDirectory path || isSource path) := by
  cases hlocate : fs.locate path with
  | error e =>
    have hother : fs.isDirectory path = false := by
      simp [isDirectory, lookup, hlocate, bind, Except.bind]
    simpa only [find, hlocate] using single_names hother
  | ok place =>
    have hdirectory := isDirectory_of_locate hlocate
    by_cases hat : fs.isDirectoryAt place = true
    · have hfound : (find fs path).2 = .ok ((((fs.fileNames place).filter isSource).mergeSort
          fun a b => a ≤ b).map (Path.join path)) := by
        unfold isDirectoryAt at hat
        simp only [find, hlocate, if_pos hat]
      rw [hfound, hdirectory, hat]
      refine ⟨.inside hat hlocate (fun name => ?_) ?_ fun name hname => ?_, rfl⟩
      · rw [List.mem_mergeSort, List.mem_filter, h.mem_fileNames_iff, and_comm]
      · exact (pairwise_mergeSort_lt ((h.nodup_fileNames place).filter _)).imp utf8_lt
      · rw [List.mem_mergeSort, List.mem_filter, h.mem_fileNames_iff] at hname
        obtain ⟨⟨content, hfile⟩, -⟩ := hname
        exact locate_join hlocate hat (h.names_of_find? hfile name (by simp))
    · have hother := single_names (hdirectory.trans (Bool.eq_false_iff.mpr hat))
      unfold isDirectoryAt at hat
      simpa only [find, hlocate, if_neg hat] using hother

/-- A path names the same units as long as directories and source files are kept. -/
theorem Names.of_kept {fs fs' : FileSystem} (h : Kept fs fs') {path : String} {units : List String}
    (hnames : Names fs' path units) : Names fs path units := by
  cases hnames with
  | @inside place names directory leads member ordered joined =>
    refine .inside (by rw [← h.directories, directory]) (h.locate_iff.mp leads) (fun name => ?_)
      ordered fun name hname => h.locate_iff.mp (joined name hname)
    rw [member]
    refine and_congr_right fun hname => ?_
    rw [h.sources place name hname]
  | itself other source => exact .itself (by rw [← h.isDirectory_eq, other]) source
  | refused other source => exact .refused (by rw [← h.isDirectory_eq, other]) source

/-- Whatever an argument names is a unit. -/
theorem Names.isUnit {fs : FileSystem} (h : fs.IsTree) {path : String} {units : List String}
    (hnames : Names fs path units) {u : String} (hu : u ∈ units) : IsUnit fs u := by
  cases hnames with
  | @inside place names directory leads member ordered joined =>
    obtain ⟨name, hname, rfl⟩ := List.mem_map.mp hu
    obtain ⟨hsource, content, hfile⟩ := (member name).mp hname
    have hproper := h.names_of_find? hfile name (by simp)
    refine ⟨isSource_join path hsource hproper.whole, ?_⟩
    rw [isDirectory_of_locate (joined name hname), isDirectoryAt_eq_false_of_file hfile]
  | itself other source =>
    rw [List.mem_singleton.mp hu]
    exact ⟨source, other⟩
  | refused other source => cases hu

end Sources

end JackStack
