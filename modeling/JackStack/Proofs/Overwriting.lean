import JackStack.Proofs.Files.Units
import JackStack.Proofs.Sinks

/-!
# What compiling a file leaves alone

The output of a file goes beside it, under the same stem. That is another place, unless the file has
the extension of output files already: then it is emptied before it is read, the empty text is
refused, and the file is removed. Nothing else is ever touched.
-/

namespace JackStack.Sources

open FileSystem

/-- A path to a file ends in a name. Two dots would lead to the directory around a directory. -/
theorem exists_name_of_lookup {fs : FileSystem} (h : fs.IsTree) {path : String}
    {content : ByteArray} (hfile : fs.lookup path = .ok (.file content)) :
    ∃ name, Path.name? path = some name := by
  obtain ⟨place, hlocate, hfind⟩ := lookup_eq_ok_iff.mp hfile
  have hpath : path ≠ "" := by
    rintro rfl
    cases hlocate
  obtain ⟨front, last, hsegments⟩ : ∃ front last, Path.segments path = front ++ [last] := by
    rcases List.eq_nil_or_concat (Path.segments path) with hnil | ⟨front, last, hconcat⟩
    · exact absurd (List.map_eq_nil_iff.mp hnil) (Path.split_ne_nil _)
    · exact ⟨front, last, by simpa using hconcat⟩
  have hother := isDirectoryAt_eq_false_of_file hfind
  have hactive : Path.isIdle last = false := by
    rw [Bool.eq_false_iff]
    intro hidle
    rw [isDirectoryAt_of_idle hlocate hsegments hidle] at hother
    cases hother
  have hinside : last ≠ ".." := by
    rintro rfl
    obtain ⟨inner, -, hinner, hplace⟩ := (locate_eq_ok_iff hpath hsegments).mp hlocate
    have houter := h.isDirectoryAt_dropLast (isDirectoryAt_iff.mp hinner)
    change place = inner.dropLast at hplace
    rw [hplace, houter] at hother
    cases hother
  exact ⟨last, by rw [Path.name?, Path.parts?_of_segments hsegments (by simp) hactive hinside]; rfl⟩

/-- The file of the path is its own output: it has the extension of output files, and its stem is
not a single dot. -/
def IsOwnOutput (path : String) : Prop :=
  Path.extension? path = some outputExtension ∧
    Path.name? path ≠ some (Path.named "." outputExtension)

instance (path : String) : Decidable (IsOwnOutput path) := inferInstanceAs (Decidable (_ ∧ _))

/-- Where the output of a name goes is where the name is itself if the name has the extension of
output files. -/
theorem follow_outputName_eq_iff (parent : Location) {name : String}
    (hname : Path.IsEntryName name) :
    parent ++ [name] = follow parent (outputName name) ↔
      (Path.splitExtension name).2 = some outputExtension ∧
        name ≠ Path.named "." outputExtension := by
  rcases outputName_cases hname with ⟨hdot, hout⟩ | ⟨hdot, hout, hentry⟩
  · rw [hout]
    constructor
    · intro hplace
      have hlength : parent.length + 1 = parent.length - 1 := by
        simpa [follow, Path.isIdle] using congrArg List.length hplace
      omega
    · rintro ⟨hextension, hne⟩
      rcases Path.splitExtension_cases name with hnone | ⟨stem, extension, -, -, hstem, hsome⟩
      · rw [hnone] at hextension
        cases hextension
      · rw [hsome] at hextension hdot
        obtain rfl : stem = "." := hdot
        exact absurd (by rw [hstem, Option.some.inj hextension]) hne
  · rw [follow_name parent hentry, List.append_cancel_left_eq, List.singleton_inj, hout]
    rcases Path.splitExtension_cases name with
      hnone | ⟨stem, extension, hstem, hplain, hsplit, hsome⟩
    · rw [hnone]
      refine ⟨fun heq => ?_, fun hextension => by cases hextension.1⟩
      have hlength := congrArg String.length heq
      simp only [Path.named, String.length_append] at hlength
      have hdot : ".".length = 1 := rfl
      omega
    · rw [hsome] at hdot ⊢
      constructor
      · intro heq
        have hextension := Path.splitExtension_named hstem
          (show '.' ∉ outputExtension.toList by decide)
        rw [← heq, hsome] at hextension
        refine ⟨congrArg Prod.snd hextension, fun hself => hdot ?_⟩
        exact Path.named_injective outputExtension (heq.symm.trans hself)
      · rintro ⟨hextension, -⟩
        rw [hsplit, Option.some.inj hextension]

/-- An empty file is refused at its start. -/
theorem compileBytes_empty (options : Options) :
    (compileBytes .empty options).verdict =
      .error (.unexpectedToken .start (.keyword .classKw) none) :=
  (compile_default _ options).2.trans (by decide +kernel)

/-- A file is compiled into another place, into its own, or not at all because the output path leads
to a directory. The directory around the one of the file is a directory. -/
theorem compileFile_cases {fs : FileSystem} (h : fs.IsTree) {path : String} {content : ByteArray}
    (hfile : fs.lookup path = .ok (.file content)) (options : Options) :
    ∃ place target, fs.locate path = .ok place ∧ fs.find? place = some (.file content) ∧
      fs.locate (outputPath path) = .ok target ∧ (place = target ↔ IsOwnOutput path) ∧
      (fs.isDirectoryAt target = true ∧
          compileFile fs path options = ⟨[], .error (.io isADirectory), fs⟩ ∨
        fs.isDirectoryAt target = false ∧
          let read := if place = target then .empty else content
          (compileFile fs path options).result =
              (compileBytes read options).verdict.map (fun _ => outputPath path) ∧
            Replaces fs target (code? options read) (compileFile fs path options).files) := by
  obtain ⟨name, hname⟩ := exists_name_of_lookup h hfile
  obtain ⟨place, hlocate, hfind⟩ := lookup_eq_ok_iff.mp hfile
  obtain ⟨parent, hparent, hplace, hentry, hwrites⟩ := exists_output_place hname hlocate hfind
  have hown : place = follow parent (outputName name) ↔ IsOwnOutput path := by
    rw [hplace, follow_outputName_eq_iff parent hentry, IsOwnOutput, Path.extension?, hname,
      Option.bind_some, Ne, Ne, Option.some_inj]
  refine ⟨place, _, hlocate, hfind, hwrites, hown, ?_⟩
  cases hfree : fs.isDirectoryAt (follow parent (outputName name)) with
  | true =>
    have hdirectory : fs.isDirectory (outputPath path) = true := by
      rw [isDirectory_of_locate hwrites, hfree]
    exact .inl ⟨rfl, compileFile_of_directory options hfile hdirectory⟩
  | false =>
    rcases outputName_cases hentry with ⟨-, hout⟩ | ⟨-, -, hout⟩
    · have houter := h.isDirectoryAt_dropLast (isDirectoryAt_iff.mp hparent)
      rw [hout] at hfree
      change fs.isDirectoryAt parent.dropLast = false at hfree
      rw [houter] at hfree
      cases hfree
    · rw [follow_name parent hout] at hwrites hfree ⊢
      exact .inr ⟨rfl, compileFile_replaces h hlocate hfind hwrites hfree hparent hout options⟩

/-- A file that is its own output is read as an empty one, refused and removed. -/
theorem compileFile_of_isOwnOutput {fs : FileSystem} (h : fs.IsTree) {path : String}
    {content : ByteArray} (hfile : fs.lookup path = .ok (.file content)) (hpath : IsOwnOutput path)
    (options : Options) :
    (compileFile fs path options).result =
        .error (.unexpectedToken .start (.keyword .classKw) none) ∧
      (compileFile fs path options).files.lookup path = .error notFound := by
  obtain ⟨place, target, hlocate, hfind, -, hown, hcases⟩ := compileFile_cases h hfile options
  obtain rfl := hown.mpr hpath
  rcases hcases with ⟨hdirectory, -⟩ | ⟨hfree, hresult, hreplaces⟩
  · rw [isDirectoryAt_eq_false_of_file hfind] at hdirectory
    cases hdirectory
  · rw [if_pos rfl] at hresult hreplaces
    have hleads := (locate_iff_of_directories hreplaces.current
      (hreplaces.isDirectoryAt_eq hfree)).mpr hlocate
    have hgone := hreplaces.here
    rw [code?, compileBytes_empty] at hgone
    refine ⟨by rw [hresult, compileBytes_empty]; rfl, ?_⟩
    simp [lookup, hleads, hgone, bind, Except.bind, throw, throwThe, MonadExceptOf.throw]

/-- Compiling a file changes nothing but the place where its output goes, and when it succeeds this
place holds the code of what the file held. The file itself keeps its content exactly if it is not
its own output. A file that is its own output is read as an empty one, refused and removed. -/
theorem compileFile_spares_iff {fs : FileSystem} (h : fs.IsTree) {path : String}
    {content : ByteArray} (hfile : fs.lookup path = .ok (.file content)) (options : Options) :
    let done := compileFile fs path options
    (∀ place, fs.locate (outputPath path) ≠ .ok place → done.files.find? place = fs.find? place) ∧
      (∀ output, done.result = .ok output →
        output = outputPath path ∧ (compileBytes content options).verdict = .ok () ∧
          done.files.lookup output = .ok (.file (compileBytes content options).output)) ∧
      (done.files.lookup path = .ok (.file content) ↔ ¬IsOwnOutput path) ∧
      (IsOwnOutput path →
        done.result = .error (.unexpectedToken .start (.keyword .classKw) none) ∧
          done.files.lookup path = .error notFound) := by
  intro done
  obtain ⟨place, target, hlocate, hfind, hwrites, hown, hcases⟩ := compileFile_cases h hfile options
  rcases hcases with ⟨hdirectory, hdone⟩ | ⟨hfree, hresult, hreplaces⟩
  · have hother : ¬IsOwnOutput path := by
      rw [← hown]
      rintro rfl
      rw [isDirectoryAt_eq_false_of_file hfind] at hdirectory
      cases hdirectory
    have hfiles : done.files = fs := by rw [show done = _ from hdone]
    have hfails : done.result = .error (.io isADirectory) := by rw [show done = _ from hdone]
    rw [hfiles, hfails]
    refine ⟨fun _ _ => rfl, fun _ hok => ?_, iff_of_true hfile hother,
      fun hself => absurd hself hother⟩
    cases hok
  · have hleads : ∀ {p spot}, done.files.locate p = .ok spot ↔ fs.locate p = .ok spot :=
      locate_iff_of_directories hreplaces.current (hreplaces.isDirectoryAt_eq hfree)
    have helsewhere : ∀ spot, fs.locate (outputPath path) ≠ .ok spot →
        done.files.find? spot = fs.find? spot := fun spot hspot =>
      hreplaces.elsewhere spot fun heq => hspot (heq ▸ hwrites)
    by_cases hself : IsOwnOutput path
    · obtain ⟨hfails, hgone⟩ := compileFile_of_isOwnOutput h hfile hself options
      refine ⟨helsewhere, fun output hok => ?_, ?_, fun _ => ⟨hfails, hgone⟩⟩
      · rw [show done.result = _ from hfails] at hok
        cases hok
      · rw [show done.files.lookup path = _ from hgone]
        exact iff_of_false (fun heq => nomatch heq) (not_not_intro hself)
    · have hother : place ≠ target := mt hown.mp hself
      rw [if_neg hother] at hresult hreplaces
      have hkept : done.files.lookup path = .ok (.file content) :=
        lookup_eq_ok_iff.mpr
          ⟨place, hleads.mpr hlocate, (hreplaces.elsewhere place hother).trans hfind⟩
      refine ⟨helsewhere, fun output hok => ?_, iff_of_true hkept hself,
        fun hself' => absurd hself' hself⟩
      have hhere := hreplaces.here
      rw [show done.result = _ from hresult] at hok
      cases hverdict : (compileBytes content options).verdict with
      | error e =>
        rw [hverdict] at hok
        cases hok
      | ok _ =>
        rw [hverdict] at hok
        obtain rfl := Except.ok.inj hok
        rw [code?, hverdict] at hhere
        exact ⟨rfl, rfl, lookup_eq_ok_iff.mpr ⟨target, hleads.mpr hwrites, hhere⟩⟩

/-- Some code, and a class in a file whose name is a dot and the extension of code: that is a name
without an extension. -/
def workshop : FileSystem where
  entries := [
    (["a.vm"], .file "push constant 0\n".toUTF8),
    (["lib"], .directory),
    (["lib", ".vm"], .file "class Vm \x7b \x7d".toUTF8)]

theorem workshop_spares_class :
    workshop.IsTree ∧ workshop.lookup "lib/.vm" = .ok (.file "class Vm \x7b \x7d".toUTF8) ∧
      (compileFile workshop "lib/.vm" {}).files.lookup "lib/.vm" =
        .ok (.file "class Vm \x7b \x7d".toUTF8) ∧
      (compileFile workshop "lib/.vm" {}).files.find? ["a.vm"] = workshop.find? ["a.vm"] := by
  have htree : workshop.IsTree := by decide
  have hfile : workshop.lookup "lib/.vm" = .ok (.file "class Vm \x7b \x7d".toUTF8) := by rfl
  obtain ⟨helsewhere, -, hkept, -⟩ := compileFile_spares_iff htree hfile {}
  have houtput : workshop.locate (outputPath "lib/.vm") ≠ .ok ["a.vm"] := by decide +kernel
  exact ⟨htree, hfile, hkept.mpr (by decide +kernel), helsewhere _ houtput⟩

/-- Compiling a file of code destroys it. -/
theorem workshop_loses_code :
    workshop.IsTree ∧ workshop.lookup "a.vm" = .ok (.file "push constant 0\n".toUTF8) ∧
      (compileFile workshop "a.vm" {}).files.lookup "a.vm" = .error notFound := by
  have htree : workshop.IsTree := by decide
  have hfile : workshop.lookup "a.vm" = .ok (.file "push constant 0\n".toUTF8) := by rfl
  exact ⟨htree, hfile, (compileFile_of_isOwnOutput htree hfile (by decide +kernel) {}).2⟩

end JackStack.Sources
