import JackStack.Batch
import JackStack.Proofs.Files.Units

/-!
# Units of a batch do not get in each other's way

Compiling a unit replaces its own output file or does nothing, and keeps directories and source
files. So each path of a batch names the units that it named at first, each unit is compiled from
the content it had at first, and the output files at the end are those of the units alone, whatever
other units are compiled and however they fail.
-/

namespace JackStack.Batch

open FileSystem Sources

/-! ## Units that are compiled into files -/

/-- The files after units were compiled one after the other. -/
def filesAfter (options : Options) (fs : FileSystem) (units : List String) : FileSystem :=
  units.foldl (fun fs u => (compileFile fs u options).files) fs

/-- The last unit is compiled in the files that the others left. -/
theorem filesAfter_concat (options : Options) (fs : FileSystem) (units : List String) (u : String) :
    filesAfter options fs (units ++ [u]) =
      (compileFile (filesAfter options fs units) u options).files := by
  simp [filesAfter]

/-- What units that were compiled have done to a tree. -/
structure Settled (options : Options) (fs : FileSystem) (units : List String) (fs' : FileSystem) :
    Prop where
  kept : Kept fs fs'
  frame : ∀ place, (∀ u ∈ units, fs.locate (outputPath u) ≠ .ok place) →
    fs'.find? place = fs.find? place
  outputs : ∀ u ∈ units, ∀ parent stem content, Job fs u parent stem content →
    fs'.find? (parent ++ [Path.named stem outputExtension]) = (code? options content).map .file

/-- A unit that is compiled into a file settles its output. The same output has the same source,
with the content that was just compiled. -/
theorem Settled.job {options : Options} {fs fs' : FileSystem} {units : List String}
    (hs : Settled options fs units fs') {u stem : String} {parent : Location} {content : ByteArray}
    (job : Job fs u parent stem content) :
    Settled options fs (units ++ [u]) (compileFile fs' u options).files := by
  have job' := job.kept hs.kept
  obtain ⟨-, hreplaces⟩ := compileFile_of_job hs.kept.tree job' options
  refine ⟨hs.kept.trans (hreplaces.kept job'.free job'.output), fun place hplace => ?_,
    fun v hv parent' stem' content' jobv => ?_⟩
  · have hne : place ≠ parent ++ [Path.named stem outputExtension] := by
      rintro rfl
      exact hplace u (by simp) job.writes
    rw [hreplaces.elsewhere place hne]
    exact hs.frame place fun v hv => hplace v (by simp [hv])
  · by_cases htarget : parent' ++ [Path.named stem' outputExtension] =
        parent ++ [Path.named stem outputExtension]
    · obtain ⟨rfl, hname⟩ := List.append_inj' htarget rfl
      obtain rfl := Path.named_injective _ (List.singleton_inj.mp hname)
      obtain rfl : content' = content := by
        simpa [job.holds] using jobv.holds.symm
      exact hreplaces.here
    · have hv : v ∈ units := by
        rcases List.mem_append.mp hv with hv | hv
        · exact hv
        · rw [List.mem_singleton.mp hv] at jobv
          exact absurd (Except.ok.inj (jobv.writes.symm.trans job.writes)) htarget
      rw [hreplaces.elsewhere _ htarget]
      exact hs.outputs v hv parent' stem' content' jobv

/-- An idle unit has nothing to settle. -/
theorem Settled.idle {options : Options} {fs fs' : FileSystem} {units : List String}
    (hs : Settled options fs units fs') {u : String} (hidle : Idle fs u) :
    Settled options fs (units ++ [u]) fs' := by
  refine ⟨hs.kept, fun place hplace => hs.frame place fun v hv => hplace v (by simp [hv]),
    fun v hv parent stem content job => ?_⟩
  rcases List.mem_append.mp hv with hv | hv
  · exact hs.outputs v hv parent stem content job
  · rw [List.mem_singleton.mp hv] at job
    rcases hidle with hnone | hdirectory
    · exact absurd job.lookup_eq (hnone content)
    · rw [job.isDirectory_eq_false] at hdirectory
      cases hdirectory

section Units

variable {fs : FileSystem} (h : fs.IsTree)
include h

/-- One more unit. -/
theorem Settled.step {options : Options} {units : List String} {fs' : FileSystem}
    (hs : Settled options fs units fs') {u : String} (hunit : IsUnit fs u) :
    Settled options fs (units ++ [u]) (compileFile fs' u options).files := by
  rcases job_or_idle h hunit.source with ⟨parent, stem, content, job⟩ | hidle
  · exact hs.job job
  · obtain ⟨-, hfiles⟩ := hidle.compileFile h hs.kept hunit options
    rw [hfiles]
    exact hs.idle hidle

/-- Any number of units. -/
theorem settled_filesAfter (options : Options) {units : List String}
    (hunits : ∀ u ∈ units, IsUnit fs u) :
    Settled options fs units (filesAfter options fs units) := by
  induction units using List.reverseRecOn with
  | nil => exact ⟨.refl h, fun _ _ => rfl, fun _ hu => by cases hu⟩
  | append_singleton units u ih =>
    rw [filesAfter_concat]
    exact (ih fun v hv => hunits v (by simp [hv])).step h (hunits u (by simp))

end Units

/-! ## The run of a batch -/

/-- The code of a unit, if it is a file that compiles. -/
def unitCode? (options : Options) (fs : FileSystem) (u : String) : Option ByteArray :=
  match fs.lookup u with
  | .ok (.file content) => code? options content
  | _ => none

/-- A unit succeeds: it compiles, and its code can be written where it is asked for. -/
def succeeds (r : Request) (fs : FileSystem) (u : String) : Bool :=
  (unitCode? r.options fs u).isSome && (r.toOutput || !fs.isDirectory (outputPath u))

/-- The code in a piece of what is printed. -/
def Printed.code? : Printed → Option ByteArray
  | code bytes => some bytes
  | _ => none

/-- The pieces of code that have been printed, in order. -/
def Progress.codes (p : Progress) : List ByteArray := p.printed.reverse.filterMap Printed.code?

/-- The code printed is that printed before and then the new one. -/
@[simp] theorem Progress.codes_print (p : Progress) (pieces : List Printed) :
    (p.print pieces).codes = p.codes ++ pieces.filterMap Printed.code? := by
  simp [codes, print]

/-- Records of the log hold no code. -/
@[simp] theorem Progress.codes_records (p : Progress) (records : List Record) :
    (p.print (records.map .record)).codes = p.codes := by
  have hnone : (records.map Printed.record).filterMap Printed.code? = [] := by
    simp [List.filterMap_eq_nil_iff, Printed.code?]
  rw [codes_print, hnone, List.append_nil]

/-- The message of a failure holds no code. -/
@[simp] theorem Progress.codes_fail (p : Progress) (message : String) :
    (p.fail message).codes = p.codes := by
  simp [fail, codes, print, failure, Printed.code?]

/-- A unit that is compiled in memory gives its code. -/
theorem compileInMemory_toOption {fs : FileSystem} {u : String} (hunit : IsUnit fs u)
    (options : Options) :
    (compileInMemory fs u options).2.toOption = unitCode? options fs u := by
  cases hlookup : fs.lookup u with
  | error e => simp [compileInMemory, unitCode?, hlookup, Except.toOption]
  | ok entry =>
    cases entry with
    | directory => exact absurd hunit.other (by simp [isDirectory, hlookup])
    | file content =>
      simp only [compileInMemory, unitCode?, hlookup, compile_readings_file, Sources.code?]
      cases (compileBytes content options).verdict <;> rfl

/-- A unit that is compiled into a file succeeds if its code can be written. -/
theorem compileFile_isOk {fs fs' : FileSystem} (h : fs.IsTree) (hkept : Kept fs fs') {u : String}
    (hunit : IsUnit fs u) {r : Request} (hr : r.toOutput = false) :
    (compileFile fs' u r.options).result.isOk = succeeds r fs u := by
  rcases job_or_idle h hunit.source with ⟨parent, stem, content, job⟩ | hidle
  · obtain ⟨hok, -⟩ := compileFile_of_job hkept.tree (job.kept hkept) r.options
    simp [hok, succeeds, unitCode?, job.lookup_eq, job.isDirectory_eq_false]
  · obtain ⟨hok, -⟩ := hidle.compileFile h hkept hunit r.options
    rw [hok]
    rcases hidle with hnone | hdirectory
    · have hcode : unitCode? r.options fs u = none := by
        unfold unitCode?
        split
        · rename_i content hlookup
          exact absurd hlookup (hnone content)
        · rfl
      simp [succeeds, hcode]
    · simp [succeeds, hdirectory, hr]

/-- A unit whose code is printed. -/
theorem Progress.unit_of_toOutput (p : Progress) {r : Request} (hr : r.toOutput = true)
    (u : String) :
    (p.unit r u).files = p.files ∧
      (p.unit r u).codes = p.codes ++ (compileInMemory p.files u r.options).2.toOption.toList ∧
      ((p.unit r u).failed = 0 ↔
        p.failed = 0 ∧ (compileInMemory p.files u r.options).2.toOption.isSome = true) := by
  simp only [unit, if_pos hr]
  cases (compileInMemory p.files u r.options).2 with
  | ok code =>
    refine ⟨rfl, ?_, by simp [print, Except.toOption]⟩
    rw [codes_print, codes_records]
    rfl
  | error e =>
    refine ⟨rfl, ?_, by simp [failUnit, fail, Except.toOption]⟩
    exact (codes_fail _ _).trans ((codes_records _ _).trans (List.append_nil _).symm)

/-- A unit whose code is written into a file. -/
theorem Progress.unit_of_files (p : Progress) {r : Request} (hr : r.toOutput = false) (u : String) :
    (p.unit r u).files = (compileFile p.files u r.options).files ∧
      (p.unit r u).codes = p.codes ∧
      ((p.unit r u).failed = 0 ↔
        p.failed = 0 ∧ (compileFile p.files u r.options).result.isOk = true) := by
  have hout : ¬ r.toOutput = true := Bool.eq_false_iff.mp hr
  simp only [unit, if_neg hout]
  cases (compileFile p.files u r.options).result with
  | ok _ => exact ⟨rfl, codes_records _ _, by simp [print, Except.isOk, Except.toBool]⟩
  | error e =>
    exact ⟨rfl, (codes_fail _ _).trans (codes_records _ _),
      by simp [failUnit, fail, Except.isOk, Except.toBool]⟩

/-- A path is not refused. -/
def accepted (fs : FileSystem) (path : String) : Bool := fs.isDirectory path || isSource path

/-- How far a batch has come after some paths, which named some units. -/
structure Reached (r : Request) (fs : FileSystem) (paths units : List String) (p : Progress) :
    Prop where
  named : ∀ u ∈ units, IsUnit fs u
  files : p.files = if r.toOutput then fs else filesAfter r.options fs units
  codes : p.codes = if r.toOutput then units.filterMap (unitCode? r.options fs) else []
  failed : p.failed = 0 ↔
    (∀ path ∈ paths, accepted fs path = true) ∧ ∀ u ∈ units, succeeds r fs u = true

section Runs

variable {r : Request} {fs : FileSystem} {paths units : List String} {p : Progress} (h : fs.IsTree)
include h

/-- On the way the sources and the directories are kept. -/
theorem Reached.kept (hp : Reached r fs paths units p) : Kept fs p.files := by
  rw [hp.files]
  split
  · exact .refl h
  · exact (settled_filesAfter h r.options hp.named).kept

/-- One more unit. -/
theorem Reached.unit (hp : Reached r fs paths units p) {u : String} (hunit : IsUnit fs u) :
    Reached r fs paths (units ++ [u]) (p.unit r u) := by
  have hnamed : ∀ v ∈ units ++ [u], IsUnit fs v :=
    List.forall_mem_append.mpr ⟨hp.named, List.forall_mem_singleton.mpr hunit⟩
  have hfailed : (p.failed = 0 ∧ succeeds r fs u = true) ↔
      (∀ path ∈ paths, accepted fs path = true) ∧
        ∀ v ∈ units ++ [u], succeeds r fs v = true := by
    simp only [hp.failed, List.forall_mem_append, List.forall_mem_singleton, and_assoc]
  have hfiles := hp.files
  have hcodes := hp.codes
  cases hr : r.toOutput with
  | true =>
    simp only [hr, if_true] at hfiles hcodes
    obtain ⟨hf, hc, hz⟩ := p.unit_of_toOutput hr u
    rw [hfiles, compileInMemory_toOption hunit] at hc hz
    refine ⟨hnamed, by simp [hf, hfiles, hr], ?_, ?_⟩
    · rw [hc, hcodes, hr, if_pos rfl, List.filterMap_append]
      cases hcode : unitCode? r.options fs u <;> simp [hcode]
    · rw [hz, ← hfailed]
      simp [succeeds, hr]
  | false =>
    obtain ⟨hf, hc, hz⟩ := p.unit_of_files hr u
    rw [compileFile_isOk h (hp.kept h) hunit hr] at hz
    simp only [hr, Bool.false_eq_true, if_false] at hfiles hcodes
    refine ⟨hnamed, ?_, ?_, hz.trans hfailed⟩
    · rw [hf, hfiles, hr, if_neg Bool.false_ne_true, filesAfter_concat]
    · rw [hc, hcodes, hr, if_neg Bool.false_ne_true]

/-- More units. -/
theorem Reached.foldl_unit (hp : Reached r fs paths units p) {more : List String}
    (hmore : ∀ u ∈ more, IsUnit fs u) :
    Reached r fs paths (units ++ more) (more.foldl (Progress.unit r) p) := by
  induction more generalizing units p with
  | nil => rwa [List.append_nil]
  | cons u more ih =>
    obtain ⟨hunit, hmore⟩ := List.forall_mem_cons.mp hmore
    rw [List.append_cons]
    exact ih (hp.unit h hunit) hmore

/-- One more path. -/
theorem Reached.path (hp : Reached r fs paths units p) (path : String) :
    ∃ more, Names fs path more ∧
      Reached r fs (paths ++ [path]) (units ++ more) (p.path r path) := by
  have hkept := hp.kept h
  obtain ⟨hnames, hok⟩ := find_names hkept.tree path
  rw [hkept.isDirectory_eq] at hok
  have hnames := hnames.of_kept hkept
  have hprinted : Reached r fs paths units (p.print ((find p.files path).1.map .record)) :=
    ⟨hp.named, hp.files, (p.codes_records _).trans hp.codes, hp.failed⟩
  cases hfound : (find p.files path).2 with
  | ok more =>
    have hpath : p.path r path =
        more.foldl (Progress.unit r) (p.print ((find p.files path).1.map .record)) := by
      simp only [Progress.path, hfound]
    rw [hfound] at hnames hok
    have hnames : Names fs path more := hnames
    have haccepted : accepted fs path = true := hok.symm
    have hmore := hprinted.foldl_unit h fun u hu => hnames.isUnit h hu
    refine ⟨more, hnames, ?_⟩
    rw [hpath]
    refine ⟨hmore.named, hmore.files, hmore.codes, hmore.failed.trans ?_⟩
    simp only [List.forall_mem_append, List.forall_mem_singleton, haccepted, and_true]
  | error e =>
    have hpath : p.path r path =
        (p.print ((find p.files path).1.map .record)).fail (path ++ ": " ++ e.message) := by
      simp only [Progress.path, hfound]
    rw [hfound] at hnames hok
    have hrefused : accepted fs path = false := hok.symm
    refine ⟨[], hnames, ?_⟩
    rw [hpath, List.append_nil]
    refine ⟨hprinted.named, hprinted.files, (Progress.codes_fail _ _).trans hprinted.codes, ?_⟩
    simp [Progress.fail, hrefused]

/-- More paths. -/
theorem Reached.foldl_path (hp : Reached r fs paths units p) (more : List String) :
    ∃ named, List.Forall₂ (Names fs) more named ∧
      Reached r fs (paths ++ more) (units ++ named.flatten) (more.foldl (Progress.path r) p) := by
  induction more generalizing paths units p with
  | nil => exact ⟨[], .nil, by simpa using hp⟩
  | cons path more ih =>
    obtain ⟨first, hfirst, hpath⟩ := hp.path h path
    obtain ⟨named, hnamed, hmore⟩ := ih hpath
    refine ⟨first :: named, .cons hfirst hnamed, ?_⟩
    simpa using hmore

end Runs

/-! ## What a batch leaves behind -/

/-- The tree that a batch leaves when it writes files. -/
structure Isolated (options : Options) (fs : FileSystem) (units : List String) (fs' : FileSystem) :
    Prop where
  /-- The units are compiled one after the other. -/
  files : fs' = filesAfter options fs units
  /-- What is not at the output path of a unit stays as it is. -/
  frame : ∀ place, (∀ u ∈ units, fs.locate (outputPath u) ≠ .ok place) →
    fs'.find? place = fs.find? place
  /-- All source files stay as they are. -/
  sources : ∀ place name, isSource name = true →
    fs'.find? (place ++ [name]) = fs.find? (place ++ [name])
  /-- At the output path of a unit is its code, or nothing if it does not compile. -/
  outputs : ∀ u ∈ units, ∀ content, fs.lookup u = .ok (.file content) →
    fs.isDirectory (outputPath u) = false →
    fs'.lookup (outputPath u) =
      match Sources.code? options content with
      | some code => .ok (.file code)
      | none => .error notFound
  /-- A unit that is no file, or whose output path is a directory, fails and changes nothing. -/
  idle : ∀ before u after, units = before ++ u :: after → Idle fs u →
    (compileFile (filesAfter options fs before) u options).result.isOk = false ∧
      (compileFile (filesAfter options fs before) u options).files = filesAfter options fs before

/-- Units compiled one after the other are isolated. -/
theorem isolated_filesAfter {fs : FileSystem} (h : fs.IsTree) (options : Options)
    {units : List String} (hunits : ∀ u ∈ units, IsUnit fs u) :
    Isolated options fs units (filesAfter options fs units) := by
  have hsettled := settled_filesAfter h options hunits
  refine ⟨rfl, hsettled.frame, hsettled.kept.sources, fun u hu content hfile hfree => ?_,
    fun before u after heq hidle => ?_⟩
  · obtain ⟨parent, stem, job⟩ := exists_job h (hunits u hu).source hfile hfree
    have houtput := hsettled.outputs u hu parent stem content job
    have hlocate := (job.kept hsettled.kept).writes
    simp only [lookup, hlocate, houtput, bind, Except.bind]
    cases Sources.code? options content <;> rfl
  · have hunit := hunits u (by simp [heq])
    have hbefore : Settled options fs before (filesAfter options fs before) :=
      settled_filesAfter h options fun v hv => hunits v (by simp [heq, hv])
    exact hidle.compileFile h hbefore.kept hunit options

/-- A batch ends with what its progress has come to. -/
theorem run_of_request {args : List String} {r : Request} (h : request? args = some r)
    (fs : FileSystem) {p : Progress} (hp : r.paths.foldl (Progress.path r) { files := fs } = p) :
    (run fs args).files = p.files ∧
      (run fs args).printed.filterMap Printed.code? = p.codes ∧
      (run fs args).exitCode = if p.failed = 0 then 0 else 1 := by
  simp only [run, h, hp]
  split
  · exact ⟨rfl, rfl, rfl⟩
  · refine ⟨rfl, ?_, rfl⟩
    exact (p.codes_print _).trans (List.append_nil _)

/-- Batches are isolated. Arguments that make no sense change nothing. Otherwise every path names
its units in the tree as it is at first. When code is written into files, the tree changes at the
output paths of the units only, and there it holds the code of each unit; when code is printed, the
tree does not change, and the code printed is that of the units that compile, in order. The exit
code tells whether everything succeeded. -/
theorem run_isolates_units {fs : FileSystem} (h : fs.IsTree) (args : List String) :
    match request? args with
    | none => (run fs args).exitCode = 64 ∧ (run fs args).files = fs
    | some r =>
      ∃ named, List.Forall₂ (Names fs) r.paths named ∧
        (r.toOutput = false →
          Isolated r.options fs named.flatten (run fs args).files ∧
            (run fs args).printed.filterMap Printed.code? = []) ∧
        (r.toOutput = true →
          (run fs args).files = fs ∧
            (run fs args).printed.filterMap Printed.code? =
              named.flatten.filterMap (unitCode? r.options fs)) ∧
        (run fs args).exitCode =
          if (∀ path ∈ r.paths, accepted fs path = true) ∧
            ∀ u ∈ named.flatten, succeeds r fs u = true then 0 else 1 := by
  cases hrequest : request? args with
  | none => simp [run, hrequest]
  | some r =>
    have hstart : Reached r fs [] [] { files := fs } :=
      ⟨by simp, by simp [filesAfter], by simp [Progress.codes], by simp⟩
    obtain ⟨named, hnamed, hend⟩ := hstart.foldl_path h r.paths
    simp only [List.nil_append] at hend
    obtain ⟨hfiles, hcodes, hexit⟩ := run_of_request hrequest fs rfl
    refine ⟨named, hnamed, fun hr => ?_, fun hr => ?_, hexit.trans (if_congr hend.failed rfl rfl)⟩
    · rw [hfiles, hcodes, hend.files, hend.codes, hr, if_neg Bool.false_ne_true,
        if_neg Bool.false_ne_true]
      exact ⟨isolated_filesAfter h r.options hend.named, rfl⟩
    · rw [hfiles, hcodes, hend.files, hend.codes, hr, if_pos rfl, if_pos rfl]
      exact ⟨rfl, rfl⟩

/-- A directory with two classes, one of which is cut off, and a directory where the output of a
third one would go. -/
def library : FileSystem where
  entries := [
    (["lib"], .directory),
    (["lib", "Cut.jack"], .file "class Cut \x7b".toUTF8),
    (["lib", "List.jack"], .file "class List \x7b field int data; \x7d".toUTF8),
    (["lib", "List.vm"], .file "".toUTF8),
    (["lib", "Map.jack"], .file "class Map \x7b \x7d".toUTF8),
    (["lib", "Map.vm"], .directory)]

theorem library_isolated :
    library.IsTree ∧
      ∃ named, List.Forall₂ (Names library) ["lib", "Set.jack"] named ∧
        Isolated { indent := 2 } library named.flatten
          (run library ["--indent", "2", "lib", "Set.jack"]).files := by
  have htree : library.IsTree := by decide
  have hrequest : request? ["--indent", "2", "lib", "Set.jack"] =
      some { options := { indent := 2 }, paths := ["lib", "Set.jack"] } := by decide +kernel
  have hrun := run_isolates_units htree ["--indent", "2", "lib", "Set.jack"]
  rw [hrequest] at hrun
  obtain ⟨named, hnamed, hfiles, -⟩ := hrun
  exact ⟨htree, named, hnamed, (hfiles rfl).1⟩

end JackStack.Batch
