import JackStack.Files.Sources
import Mathlib.Data.List.TakeWhile

/-!
# Source paths and output paths by their segments

A path leads where its segments lead. The path of a source file ends, up to segments that stay where
they are, in a name with the extension of source files; its output path has the same segments in
front of the same stem.
-/

namespace JackStack

namespace Path

/-! ## Segments -/

theorem split_ne_nil (cs : List Char) : split cs ≠ [] := by
  fun_induction split cs <;> simp

/-- Without a slash there is one segment. -/
theorem split_of_not_mem {cs : List Char} (h : '/' ∉ cs) : split cs = [cs] := by
  induction cs with
  | nil => rfl
  | cons c cs ih =>
    obtain ⟨hc, hcs⟩ := List.ne_and_not_mem_of_not_mem_cons h
    rw [split, if_neg (Ne.symm hc), ih hcs]

/-- A slash parts the segments on either side of it. -/
theorem split_append_slash (cs ds : List Char) :
    split (cs ++ '/' :: ds) = split cs ++ split ds := by
  induction cs with
  | nil => rfl
  | cons c cs ih =>
    obtain ⟨segment, more, hcs⟩ := List.exists_cons_of_ne_nil (split_ne_nil cs)
    by_cases hc : c = '/'
    · simp only [List.cons_append, split, if_pos hc, ih]
    · simp only [List.cons_append, split, if_neg hc, ih, hcs]

/-- No segment holds a slash. -/
theorem slash_not_mem_of_mem_split {cs segment : List Char} (h : segment ∈ split cs) :
    '/' ∉ segment := by
  induction cs generalizing segment with
  | nil =>
    rw [split, List.mem_singleton] at h
    rw [h]
    exact List.not_mem_nil
  | cons c cs ih =>
    obtain ⟨first, more, hcs⟩ := List.exists_cons_of_ne_nil (split_ne_nil cs)
    by_cases hc : c = '/'
    · rw [split, if_pos hc] at h
      rcases List.mem_cons.mp h with rfl | h
      · exact List.not_mem_nil
      · exact ih h
    · simp only [split, if_neg hc, hcs] at h
      rcases List.mem_cons.mp h with rfl | h
      · exact List.not_mem_cons_of_ne_of_not_mem (Ne.symm hc) (ih (hcs ▸ List.mem_cons_self))
      · exact ih (hcs ▸ List.mem_cons_of_mem _ h)

/-- A path is absolute where its first segment is empty and not its only one. -/
theorem head?_eq_slash_iff_split (cs : List Char) :
    cs.head? = some '/' ↔ ∃ rest, rest ≠ [] ∧ split cs = [] :: rest := by
  cases cs with
  | nil => simp [split]
  | cons c cs =>
    obtain ⟨first, more, hcs⟩ := List.exists_cons_of_ne_nil (split_ne_nil cs)
    by_cases hc : c = '/'
    · simp [split, hc, hcs]
    · simp [split, hc, hcs]

/-- No segment holds a slash. -/
theorem slash_not_mem_of_mem_segments (path : String) {segment : String}
    (h : segment ∈ segments path) : '/' ∉ segment.toList := by
  obtain ⟨cs, hcs, rfl⟩ := List.mem_map.mp h
  rw [String.toList_ofList]
  exact slash_not_mem_of_mem_split hcs

theorem segments_of_not_mem {s : String} (h : '/' ∉ s.toList) : segments s = [s] := by
  rw [segments, split_of_not_mem h, List.map_singleton, String.ofList_toList]

/-- The segments of two paths with a slash between them. -/
theorem segments_append_slash (p q : String) :
    segments (p ++ "/" ++ q) = segments p ++ segments q := by
  have hlist : (p ++ "/" ++ q).toList = p.toList ++ '/' :: q.toList := by simp
  rw [segments, hlist, split_append_slash, List.map_append]
  rfl

/-- A path starts at the root if its first segment is empty and not the only one. -/
theorem head?_eq_slash_iff (path : String) :
    path.toList.head? = some '/' ↔ ∃ rest, rest ≠ [] ∧ segments path = "" :: rest := by
  rw [head?_eq_slash_iff_split]
  constructor
  · rintro ⟨rest, hrest, hsplit⟩
    exact ⟨rest.map String.ofList, by simpa using hrest, by rw [segments, hsplit]; rfl⟩
  · rintro ⟨rest, hrest, hsegments⟩
    rw [segments] at hsegments
    obtain ⟨first, more, hsplit, hfirst, rfl⟩ := List.map_eq_cons_iff.mp hsegments
    have hnil : first = [] := by simpa using hfirst
    exact ⟨more, by simpa using hrest, by rw [hsplit, hnil]⟩

/-- Segments, each in front of a slash. -/
def slashed (segments : List String) : String := String.join (segments.map (· ++ "/"))

/-- Segments with slashes behind them stand in front of the segments of the rest. -/
theorem segments_slashed_append {front : List String} (h : ∀ s ∈ front, '/' ∉ s.toList)
    (path : String) : segments (slashed front ++ path) = front ++ segments path := by
  induction front with
  | nil => simp [slashed]
  | cons s front ih =>
    obtain ⟨hs, hfront⟩ := List.forall_mem_cons.mp h
    have happend : slashed (s :: front) ++ path = s ++ "/" ++ (slashed front ++ path) := by
      simp [slashed, String.append_assoc]
    rw [happend, segments_append_slash, segments_of_not_mem hs, ih hfront]
    rfl

/-! ## Names -/

/-- The text can name an entry of a directory. -/
structure IsEntryName (name : String) : Prop where
  active : isIdle name = false
  inside : name ≠ ".."
  whole : '/' ∉ name.toList

instance (name : String) : Decidable (IsEntryName name) :=
  decidable_of_iff (isIdle name = false ∧ name ≠ ".." ∧ '/' ∉ name.toList)
    ⟨fun ⟨h₁, h₂, h₃⟩ => ⟨h₁, h₂, h₃⟩, fun ⟨h₁, h₂, h₃⟩ => ⟨h₁, h₂, h₃⟩⟩

theorem IsEntryName.ne_empty {name : String} (h : IsEntryName name) : name ≠ "" := by
  rintro rfl
  exact absurd h (by decide)

/-- A path is cut at the last segment that is not idle. -/
theorem parts?_of_segments {path name : String} {before idle : List String}
    (hsegments : segments path = before ++ name :: idle) (hidle : ∀ s ∈ idle, isIdle s = true)
    (hactive : isIdle name = false) (hinside : name ≠ "..") :
    parts? path = some ⟨slashed before, name, idle.isEmpty⟩ := by
  have hreverse : (segments path).reverse = idle.reverse ++ name :: before.reverse := by
    simp [hsegments]
  have hdrop : (segments path).reverse.dropWhile isIdle = name :: before.reverse := by
    rw [hreverse, List.dropWhile_append_of_pos (by simpa using hidle), List.dropWhile_cons,
      hactive]
    rfl
  have hfinal : decide ((segments path).reverse.head? = some name) = idle.isEmpty := by
    rw [hreverse]
    cases hlast : idle.reverse with
    | nil => simp [List.reverse_eq_nil_iff.mp hlast]
    | cons last more =>
      have hmem : last ∈ idle := List.mem_reverse.mp (hlast ▸ List.mem_cons_self)
      have hne : last ≠ name := by
        rintro rfl
        rw [hidle last hmem] at hactive
        cases hactive
      have hidle : idle ≠ [] := List.ne_nil_of_mem hmem
      simp [hne, hidle]
  simp only [parts?, hdrop, if_neg hinside, List.reverse_reverse, hfinal, slashed]

/-- Where a path is cut. -/
theorem exists_segments_of_name? {path name : String} (h : name? path = some name) :
    ∃ before idle, segments path = before ++ name :: idle ∧ (∀ s ∈ idle, isIdle s = true) ∧
      IsEntryName name := by
  obtain ⟨p, hp, rfl⟩ := Option.map_eq_some_iff.mp h
  have hcut := List.takeWhile_append_dropWhile (p := isIdle) (l := (segments path).reverse)
  simp only [parts?] at hp
  split at hp
  · cases hp
  · rename_i last before hdrop
    split at hp
    · cases hp
    · rename_i hinside
      obtain rfl := Option.some.inj hp
      have hsegments : segments path =
          before.reverse ++ last :: ((segments path).reverse.takeWhile isIdle).reverse := by
        rw [hdrop] at hcut
        simpa using (congrArg List.reverse hcut).symm
      have hactive : isIdle last = false := by
        have hhead := List.head?_dropWhile_not isIdle (segments path).reverse
        simpa [hdrop] using hhead
      refine ⟨_, _, hsegments, fun s hs => ?_, hactive, hinside, ?_⟩
      · exact List.mem_takeWhile_imp (List.mem_reverse.mp hs)
      · apply slash_not_mem_of_mem_segments path
        rw [hsegments]
        simp

/-! ## Extensions -/

/-- The name with a stem and an extension. -/
def named (stem extension : String) : String := stem ++ "." ++ extension

/-- Different stems give different names. -/
theorem named_injective (extension : String) : Function.Injective (named · extension) := by
  intro stem stem' h
  rw [← String.toList_inj]
  simpa [named] using congrArg String.toList h

/-- A stem and an extension make a name. -/
theorem isEntryName_named {stem extension : String} (hstem : stem ≠ "")
    (hextension : extension ≠ "") (hwhole : '/' ∉ (named stem extension).toList) :
    IsEntryName (named stem extension) := by
  have hlength : 3 ≤ (named stem extension).length := by
    have h₁ : stem.length ≠ 0 := by simpa using hstem
    have h₂ : extension.length ≠ 0 := by simpa using hextension
    simp only [named, String.length_append]
    have hdot : ".".length = 1 := rfl
    omega
  refine ⟨?_, fun h => ?_, hwhole⟩
  · simp only [isIdle, Bool.or_eq_false_iff, decide_eq_false_iff_not]
    constructor
    · intro h
      rw [h] at hlength
      exact absurd hlength (by decide)
    · intro h
      rw [h] at hlength
      exact absurd hlength (by decide)
  · rw [h] at hlength
    exact absurd hlength (by decide)

/-- The extension is what follows the last dot, if something precedes it. -/
theorem splitExtension_named {stem extension : String} (hstem : stem ≠ "")
    (hextension : '.' ∉ extension.toList) :
    splitExtension (named stem extension) = (stem, some extension) := by
  have hreverse : (named stem extension).toList.reverse =
      extension.toList.reverse ++ '.' :: stem.toList.reverse := by simp [named]
  have hplain : ∀ c ∈ extension.toList.reverse, decide (c ≠ '.') = true := by
    intro c hc
    have hne : c ≠ '.' := fun h => hextension (h ▸ List.mem_reverse.mp hc)
    simpa using hne
  have hdrop : (named stem extension).toList.reverse.dropWhile (· ≠ '.') =
      '.' :: stem.toList.reverse := by
    rw [hreverse, List.dropWhile_append_of_pos hplain]
    rfl
  have htake : (named stem extension).toList.reverse.takeWhile (· ≠ '.') =
      extension.toList.reverse := by
    rw [hreverse, List.takeWhile_append_of_pos hplain]
    simp
  obtain ⟨c, cs, hcs⟩ : ∃ c cs, stem.toList.reverse = c :: cs :=
    List.exists_cons_of_ne_nil (by simpa using hstem)
  rw [hcs] at hdrop
  simp only [splitExtension, hdrop, htake]
  rw [← hcs]
  simp

/-- A name without an extension is its own stem; any other is its stem, a dot and the extension. -/
theorem splitExtension_cases (name : String) :
    splitExtension name = (name, none) ∨
      ∃ stem extension, stem ≠ "" ∧ '.' ∉ extension.toList ∧ name = named stem extension ∧
        splitExtension name = (stem, some extension) := by
  have hcut := List.takeWhile_append_dropWhile (p := (· ≠ '.')) (l := name.toList.reverse)
  cases hdrop : name.toList.reverse.dropWhile (· ≠ '.') with
  | nil => exact .inl (by simp only [splitExtension, hdrop])
  | cons dot before =>
    cases hbefore : before with
    | nil => exact .inl (by simp only [splitExtension, hdrop, hbefore])
    | cons c more =>
      have hdot : dot = '.' := by
        have hhead := List.head?_dropWhile_not (p := fun c : Char => decide (c ≠ '.'))
          (l := name.toList.reverse)
        rw [hdrop] at hhead
        simpa using hhead
      have hstem : String.ofList before.reverse ≠ "" := by simp [hbefore]
      have hplain : '.' ∉
          (String.ofList (name.toList.reverse.takeWhile (· ≠ '.')).reverse).toList := by
        rw [String.toList_ofList, List.mem_reverse]
        intro hmem
        simpa using List.mem_takeWhile_imp hmem
      have hname : name = named (String.ofList before.reverse)
          (String.ofList (name.toList.reverse.takeWhile (· ≠ '.')).reverse) := by
        rw [hdrop, hdot] at hcut
        rw [← String.toList_inj]
        simpa [named] using (congrArg List.reverse hcut).symm
      refine .inr ⟨_, _, hstem, hplain, hname, ?_⟩
      simp only [splitExtension, hdrop, hbefore]

/-- A name with an extension has a stem in front of it. -/
theorem exists_stem_of_splitExtension {name extension : String}
    (h : (splitExtension name).2 = some extension) :
    ∃ stem, stem ≠ "" ∧ name = named stem extension := by
  rcases splitExtension_cases name with hnone | ⟨stem, extension', hstem, -, hname, hsome⟩
  · rw [hnone] at h
    cases h
  · rw [hsome] at h
    obtain rfl := Option.some.inj h
    exact ⟨stem, hstem, hname⟩

/-! ## Names inside a directory -/

/-- A path in front of a name inside a directory is the directory up to an empty segment. -/
theorem segments_join (directory : String) {name : String} (h : '/' ∉ name.toList) :
    ∃ front, segments (join directory name) = front ++ [name] ∧
      (segments directory = front ∨ segments directory = front ++ [""]) := by
  unfold join
  split
  · rename_i hlast
    obtain ⟨cs, hcs⟩ := List.getLast?_eq_some_iff.mp hlast
    have hdirectory : directory = String.ofList cs ++ "/" := by
      rw [← String.toList_inj, hcs]
      simp
    refine ⟨segments (String.ofList cs), ?_, .inr ?_⟩
    · rw [hdirectory, segments_append_slash, segments_of_not_mem h]
    · rw [hdirectory, ← String.append_empty (s := String.ofList cs ++ "/"), segments_append_slash]
      rfl
  · exact ⟨segments directory, by rw [segments_append_slash, segments_of_not_mem h], .inl rfl⟩

end Path

namespace Sources

/-! ## Source paths -/

/-- A segment with the extension of source files is a name, and so is the one of its output. -/
theorem isEntryName_of_segments {path stem : String} {before idle : List String}
    (hstem : stem ≠ "")
    (hsegments : Path.segments path = before ++ Path.named stem sourceExtension :: idle) :
    Path.IsEntryName (Path.named stem sourceExtension) ∧
      Path.IsEntryName (Path.named stem outputExtension) := by
  have hwhole : '/' ∉ (Path.named stem sourceExtension).toList :=
    Path.slash_not_mem_of_mem_segments path (by simp [hsegments])
  have hslash : '/' ∉ stem.toList := by
    intro h
    apply hwhole
    simp [Path.named, h]
  have houtput : '/' ∉ (Path.named stem outputExtension).toList := by
    simp [Path.named, outputExtension, hslash]
  exact ⟨Path.isEntryName_named hstem (by decide) hwhole,
    Path.isEntryName_named hstem (by decide) houtput⟩

/-- The path of a source file ends in its name, up to segments that stay where they are. -/
theorem isSource_iff (path : String) :
    isSource path = true ↔ ∃ before stem idle, stem ≠ "" ∧
      Path.segments path = before ++ Path.named stem sourceExtension :: idle ∧
      ∀ s ∈ idle, Path.isIdle s = true := by
  simp only [isSource, Path.extension?, decide_eq_true_eq, Option.bind_eq_some_iff]
  constructor
  · rintro ⟨name, hname, hextension⟩
    obtain ⟨before, idle, hsegments, hidle, -⟩ := Path.exists_segments_of_name? hname
    obtain ⟨stem, hstem, rfl⟩ := Path.exists_stem_of_splitExtension hextension
    exact ⟨before, stem, idle, hstem, hsegments, hidle⟩
  · rintro ⟨before, stem, idle, hstem, hsegments, hidle⟩
    refine ⟨_, ?_, congrArg Prod.snd (Path.splitExtension_named hstem (by decide))⟩
    obtain ⟨hname, -⟩ := isEntryName_of_segments hstem hsegments
    rw [Path.name?, Path.parts?_of_segments hsegments hidle hname.active hname.inside]
    rfl

/-- A stem with the extension of sources names a source. -/
theorem isSource_named {stem : String} (hstem : stem ≠ "")
    (hwhole : '/' ∉ (Path.named stem sourceExtension).toList) :
    isSource (Path.named stem sourceExtension) = true :=
  (isSource_iff _).mpr ⟨[], stem, [], hstem, Path.segments_of_not_mem hwhole, by simp⟩

/-- The name of a source file is a stem with the extension. -/
theorem exists_stem_of_isSource {name : String} (h : isSource name = true)
    (hwhole : '/' ∉ name.toList) :
    ∃ stem, stem ≠ "" ∧ name = Path.named stem sourceExtension := by
  obtain ⟨before, stem, idle, hstem, hsegments, -⟩ := (isSource_iff name).mp h
  rw [Path.segments_of_not_mem hwhole] at hsegments
  cases before with
  | nil => exact ⟨stem, hstem, (List.cons.inj hsegments).1⟩
  | cons s before => simp at hsegments

/-- The name of an output file is not that of a source file. -/
theorem not_isSource_output {stem : String} (hstem : stem ≠ "")
    (hwhole : '/' ∉ (Path.named stem outputExtension).toList) :
    isSource (Path.named stem outputExtension) = false := by
  rw [Bool.eq_false_iff]
  intro hsource
  obtain ⟨stem', hstem', hname⟩ := exists_stem_of_isSource hsource hwhole
  have hsplit := congrArg Path.splitExtension hname
  rw [Path.splitExtension_named hstem (by decide), Path.splitExtension_named hstem' (by decide)]
    at hsplit
  have hextension : some outputExtension = some sourceExtension := congrArg Prod.snd hsplit
  exact absurd hextension (by decide)

/-- A source file inside a directory has a path of a source file. -/
theorem isSource_join (directory : String) {name : String} (h : isSource name = true)
    (hwhole : '/' ∉ name.toList) : isSource (Path.join directory name) = true := by
  obtain ⟨stem, hstem, rfl⟩ := exists_stem_of_isSource h hwhole
  obtain ⟨front, hjoin, -⟩ := Path.segments_join directory hwhole
  exact (isSource_iff _).mpr ⟨front, stem, [], hstem, hjoin, by simp⟩

/-- The last segment of the output path of a name: its stem under the extension of output files. A
single dot as the stem is no name, and leads out of the directory. -/
def outputName (name : String) : String :=
  if (Path.splitExtension name).1 = "." then ".."
  else Path.named (Path.splitExtension name).1 outputExtension

/-- The last segment of an output path is a name, or leads out of the directory. -/
theorem outputName_cases {name : String} (hname : Path.IsEntryName name) :
    (Path.splitExtension name).1 = "." ∧ outputName name = ".." ∨
      (Path.splitExtension name).1 ≠ "." ∧
        outputName name = Path.named (Path.splitExtension name).1 outputExtension ∧
        Path.IsEntryName (outputName name) := by
  have hstem : (Path.splitExtension name).1 ≠ "" ∧
      '/' ∉ (Path.splitExtension name).1.toList := by
    have hwhole := hname.whole
    rcases Path.splitExtension_cases name with hnone | ⟨stem, extension, hstem, -, rfl, hsome⟩
    · rw [hnone]
      exact ⟨hname.ne_empty, hwhole⟩
    · rw [hsome]
      exact ⟨hstem, fun hslash => hwhole (by simp [Path.named, hslash])⟩
  by_cases hdot : (Path.splitExtension name).1 = "."
  · exact .inl ⟨hdot, if_pos hdot⟩
  · have hout : outputName name = Path.named (Path.splitExtension name).1 outputExtension :=
      if_neg hdot
    refine .inr ⟨hdot, hout, ?_⟩
    rw [hout]
    apply Path.isEntryName_named hstem.1 (by decide)
    simp [Path.named, outputExtension, hstem.2]

/-- The output path of a path that ends in a name. -/
theorem segments_outputPath {path name : String} {before : List String}
    (hname : Path.IsEntryName name) (hsegments : Path.segments path = before ++ [name]) :
    Path.segments (outputPath path) = before ++ [outputName name] := by
  have hbefore : ∀ s ∈ before, '/' ∉ s.toList := fun s hs =>
    Path.slash_not_mem_of_mem_segments path (by simp [hsegments, hs])
  have hpath : outputPath path = Path.slashed before ++ outputName name := by
    simp only [outputPath, Path.withExtension,
      Path.parts?_of_segments hsegments (by simp) hname.active hname.inside]
    by_cases hdot : (Path.splitExtension name).1 = "."
    · simp [outputName, hdot]
    · rw [outputName, if_neg hdot, if_neg (by simpa using hdot)]
      simp [Path.named, String.append_assoc]
  have hwhole : '/' ∉ (outputName name).toList := by
    rcases outputName_cases hname with ⟨-, hout⟩ | ⟨-, -, hout⟩
    · rw [hout]
      decide
    · exact hout.whole
  rw [hpath, Path.segments_slashed_append hbefore, Path.segments_of_not_mem hwhole]

/-- The output of a source has the same stem, unless the stem is a single dot. -/
theorem outputName_source {stem : String} (hstem : stem ≠ "") :
    outputName (Path.named stem sourceExtension) =
      if stem = "." then ".." else Path.named stem outputExtension := by
  rw [outputName, Path.splitExtension_named hstem (by decide)]

end Sources

end JackStack
