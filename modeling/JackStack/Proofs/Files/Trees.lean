import JackStack.Proofs.Files.Paths
import Mathlib.Data.List.Basic
import Mathlib.Data.List.Induction

/-!
# Trees of files

In a tree every location stands once, under names that can be the names of entries, and inside a
directory. Which location a path leads to depends only on where the directories are, so it stays the
same when files come and go.
-/

namespace JackStack.FileSystem

/-- A directory stands at the location. -/
def isDirectoryAt (fs : FileSystem) (place : Location) : Bool :=
  (fs.find? place).any Entry.isDirectory

/-- The files and directories form a tree. -/
structure IsTree (fs : FileSystem) : Prop where
  once : fs.entries.Pairwise fun a b => a.1 ≠ b.1
  proper : ∀ item ∈ fs.entries, item.1 ≠ [] ∧ ∀ name ∈ item.1, Path.IsEntryName name
  nested : ∀ item ∈ fs.entries, fs.isDirectoryAt item.1.dropLast = true

instance (fs : FileSystem) : Decidable fs.IsTree :=
  decidable_of_iff
    ((fs.entries.Pairwise fun a b => a.1 ≠ b.1) ∧
      (∀ item ∈ fs.entries, item.1 ≠ [] ∧ ∀ name ∈ item.1, Path.IsEntryName name) ∧
      ∀ item ∈ fs.entries, fs.isDirectoryAt item.1.dropLast = true)
    ⟨fun ⟨h₁, h₂, h₃⟩ => ⟨h₁, h₂, h₃⟩, fun ⟨h₁, h₂, h₃⟩ => ⟨h₁, h₂, h₃⟩⟩

theorem isDirectoryAt_iff {fs : FileSystem} {place : Location} :
    fs.isDirectoryAt place = true ↔ fs.find? place = some .directory := by
  unfold isDirectoryAt
  cases fs.find? place with
  | none => simp
  | some e => cases e <;> simp [Entry.isDirectory]

/-- Where a file stands there is no directory. -/
theorem isDirectoryAt_eq_false_of_file {fs : FileSystem} {place : Location} {content : ByteArray}
    (h : fs.find? place = some (.file content)) : fs.isDirectoryAt place = false := by
  rw [isDirectoryAt, h]
  rfl

/-! ## What stands in a tree -/

/-- Where every location stands once, what is found there is what stands there. -/
theorem map_find?_eq_some_iff {entries : List (Location × Entry)}
    (honce : entries.Pairwise fun a b => a.1 ≠ b.1) {place : Location} {e : Entry} :
    (entries.find? (·.1 = place)).map (·.2) = some e ↔ (place, e) ∈ entries := by
  induction entries with
  | nil => simp
  | cons item entries ih =>
    obtain ⟨hitem, hentries⟩ := List.pairwise_cons.mp honce
    by_cases hfirst : item.1 = place
    · have hrest : (place, e) ∉ entries := fun hmem => hitem _ hmem hfirst
      rw [List.find?_cons_of_pos (by simpa using hfirst), List.mem_cons, or_iff_left hrest,
        Prod.ext_iff]
      simp [hfirst, eq_comm]
    · have hne : (place, e) ≠ item := fun heq => hfirst (heq ▸ rfl)
      rw [List.find?_cons_of_neg (by simpa using hfirst), List.mem_cons, or_iff_right hne]
      exact ih hentries

/-- The name of an entry that is a file directly inside a location. -/
def fileName? (place : Location) : Location × Entry → Option String
  | (_, .directory) => none
  | (spot, .file _) => if spot.dropLast = place then spot.getLast? else none

theorem fileNames_eq (fs : FileSystem) (place : Location) :
    fs.fileNames place = fs.entries.filterMap (fileName? place) := by
  unfold fileNames
  congr 1
  funext ⟨spot, e⟩
  cases e <;> rfl

/-- An entry names a file of a directory where it stands directly below it. -/
theorem fileName?_eq_some_iff {place : Location} {item : Location × Entry} {name : String} :
    fileName? place item = some name ↔ ∃ content, item = (place ++ [name], .file content) := by
  obtain ⟨spot, e⟩ := item
  cases e with
  | directory => simp [fileName?]
  | file content =>
    simp only [fileName?, Option.ite_none_right_eq_some, List.getLast?_eq_some_iff]
    constructor
    · rintro ⟨hplace, front, rfl⟩
      rw [List.dropLast_concat] at hplace
      exact ⟨content, by rw [hplace]⟩
    · rintro ⟨content, heq⟩
      obtain ⟨rfl, -⟩ := Prod.ext_iff.mp heq
      exact ⟨List.dropLast_concat, place, rfl⟩

section Entries

variable {fs : FileSystem} (h : fs.IsTree)
include h

/-- What is found at a location is the one entry that stands there. -/
theorem IsTree.find?_eq_some_iff {place : Location} (hplace : place ≠ []) {e : Entry} :
    fs.find? place = some e ↔ (place, e) ∈ fs.entries := by
  rw [find?, if_neg hplace]
  exact map_find?_eq_some_iff h.once

/-- The names on the way to an entry. -/
theorem IsTree.names_of_find? {place : Location} {e : Entry} (he : fs.find? place = some e) :
    ∀ name ∈ place, Path.IsEntryName name := by
  by_cases hplace : place = []
  · simp [hplace]
  · exact (h.proper _ ((h.find?_eq_some_iff hplace).mp he)).2

/-- What stands somewhere stands inside a directory. -/
theorem IsTree.isDirectoryAt_dropLast {place : Location} {e : Entry}
    (he : fs.find? place = some e) : fs.isDirectoryAt place.dropLast = true := by
  by_cases hplace : place = []
  · simp [hplace, isDirectoryAt, Entry.isDirectory]
  · exact h.nested _ ((h.find?_eq_some_iff hplace).mp he)

/-- The names of the files inside a location are those under which files are found. -/
theorem IsTree.mem_fileNames_iff {place : Location} {name : String} :
    name ∈ fs.fileNames place ↔
      ∃ content, fs.find? (place ++ [name]) = some (.file content) := by
  simp only [h.find?_eq_some_iff (List.concat_ne_nil name place), fileNames_eq,
    List.mem_filterMap, fileName?_eq_some_iff]
  constructor
  · rintro ⟨item, hmem, content, rfl⟩
    exact ⟨content, hmem⟩
  · rintro ⟨content, hmem⟩
    exact ⟨_, hmem, content, rfl⟩

/-- No two files inside a location have one name. -/
theorem IsTree.nodup_fileNames (place : Location) : (fs.fileNames place).Nodup := by
  rw [fileNames_eq]
  apply List.pairwise_filterMap.mpr
  refine h.once.imp fun {a b} hne name hname name' hname' heq => hne ?_
  obtain ⟨content, rfl⟩ := fileName?_eq_some_iff.mp hname
  obtain ⟨content', rfl⟩ := fileName?_eq_some_iff.mp hname'
  rw [heq]

/-! ## Files that come and go -/

variable {place : Location} (hfree : fs.isDirectoryAt place = false)
include hfree

/-- What stands inside a directory is not affected where no directory stands. -/
theorem IsTree.dropLast_ne {item : Location × Entry} (hitem : item ∈ fs.entries) :
    item.1.dropLast ≠ place := by
  rintro rfl
  rw [h.nested item hitem] at hfree
  cases hfree

/-- Removing a file leaves a tree. -/
theorem IsTree.erase : (fs.erase place).IsTree := by
  have hmem : ∀ item ∈ (fs.erase place).entries, item ∈ fs.entries := fun item hitem =>
    List.mem_of_mem_filter hitem
  refine ⟨h.once.filter _, fun item hitem => h.proper item (hmem item hitem), fun item hitem => ?_⟩
  rw [isDirectoryAt, find?_erase_of_ne fs (h.dropLast_ne hfree (hmem item hitem))]
  exact h.nested item (hmem item hitem)

/-- Putting a file under a name into a directory leaves a tree. -/
theorem IsTree.insert {content : ByteArray} {parent : Location} {name : String}
    (hplace : place = parent ++ [name]) (hparent : fs.isDirectoryAt parent = true)
    (hname : Path.IsEntryName name) : (fs.insert place (.file content)).IsTree := by
  have hnested : ∀ spot, spot ≠ place → fs.isDirectoryAt spot = true →
      (fs.insert place (.file content)).isDirectoryAt spot = true := fun spot hne hspot => by
    rwa [isDirectoryAt, find?_insert_of_ne fs hne]
  refine ⟨?_, ?_, ?_⟩
  · apply List.pairwise_append.mpr
    refine ⟨h.once.filter _, List.pairwise_singleton _ _, fun a ha b hb => ?_⟩
    rw [List.mem_singleton.mp hb]
    simpa using List.of_mem_filter ha
  · intro item hitem
    rcases List.mem_append.mp hitem with hold | hnew
    · exact h.proper item (List.mem_of_mem_filter hold)
    · rw [List.mem_singleton.mp hnew, hplace]
      refine ⟨List.concat_ne_nil name parent, fun n hn => ?_⟩
      rcases List.mem_append.mp hn with hn | hn
      · exact h.names_of_find? (isDirectoryAt_iff.mp hparent) n hn
      · rwa [List.mem_singleton.mp hn]
  · intro item hitem
    rcases List.mem_append.mp hitem with hold | hnew
    · have hold := List.mem_of_mem_filter hold
      exact hnested _ (h.dropLast_ne hfree hold) (h.nested item hold)
    · rw [List.mem_singleton.mp hnew]
      refine hnested _ ?_ ?_
      · simp [hplace]
      · simpa [hplace] using hparent

end Entries

/-! ## Where paths lead -/

/-- Where a segment leads from a directory. -/
def follow (place : Location) (segment : String) : Location :=
  if Path.isIdle segment then place
  else if segment = ".." then place.dropLast
  else place ++ [segment]

/-- The name of an entry leads below the place. -/
theorem follow_name (place : Location) {name : String} (h : Path.IsEntryName name) :
    follow place name = place ++ [name] := by
  simp [follow, h.active, h.inside]

/-- A segment is followed from a directory. -/
theorem enter_eq_ok_iff {fs : FileSystem} {place next : Location} {segment : String} :
    fs.enter place segment = .ok next ↔
      fs.isDirectoryAt place = true ∧ next = follow place segment := by
  unfold enter isDirectoryAt
  cases fs.find? place with
  | none => simp
  | some e =>
    cases e with
    | file content => simp [Entry.isDirectory]
    | directory =>
      simp only [Option.any_some, Entry.isDirectory, true_and, follow]
      split_ifs <;> simp [eq_comm]

/-- Where a path starts. -/
def start (fs : FileSystem) (path : String) : Location :=
  if path.toList.head? = some '/' then [] else fs.current

/-- A path is located segment by segment. -/
theorem locate_of_ne_empty (fs : FileSystem) {path : String} (h : path ≠ "") :
    fs.locate path = (Path.segments path).foldlM fs.enter (fs.start path) := by
  rw [locate, if_neg h]
  rfl

/-- The last segment is followed from the directory that the others lead to. -/
theorem foldlM_enter_concat {fs : FileSystem} {front : List String} {segment : String}
    {place next : Location} :
    (front ++ [segment]).foldlM fs.enter place = .ok next ↔
      ∃ inner, front.foldlM fs.enter place = .ok inner ∧ fs.isDirectoryAt inner = true ∧
        next = follow inner segment := by
  simp only [List.foldlM_append, List.foldlM_cons, List.foldlM_nil, bind_pure]
  cases front.foldlM fs.enter place with
  | error e => simp [bind, Except.bind]
  | ok inner => simp [bind, Except.bind, enter_eq_ok_iff]

/-- A path leads through a directory to what its last segment says. -/
theorem locate_eq_ok_iff {fs : FileSystem} {path segment : String} {front : List String}
    (hpath : path ≠ "") (hsegments : Path.segments path = front ++ [segment]) {place : Location} :
    fs.locate path = .ok place ↔
      ∃ inner, front.foldlM fs.enter (fs.start path) = .ok inner ∧
        fs.isDirectoryAt inner = true ∧ place = follow inner segment := by
  rw [locate_of_ne_empty fs hpath, hsegments, foldlM_enter_concat]

section Directories

variable {fs fs' : FileSystem} (hcurrent : fs'.current = fs.current)
  (hdirectories : ∀ place, fs'.isDirectoryAt place = fs.isDirectoryAt place)

include hdirectories in
/-- Which places segments lead to depends on the directories only. -/
theorem foldlM_enter_iff_of_directories {segments : List String} {place next : Location} :
    segments.foldlM fs'.enter place = .ok next ↔ segments.foldlM fs.enter place = .ok next := by
  induction segments using List.reverseRecOn generalizing next with
  | nil => rfl
  | append_singleton front segment ih => simp only [foldlM_enter_concat, ih, hdirectories]

include hcurrent hdirectories in
/-- Where a path leads depends on the directories only. -/
theorem locate_iff_of_directories {path : String} {place : Location} :
    fs'.locate path = .ok place ↔ fs.locate path = .ok place := by
  by_cases hpath : path = ""
  · rw [hpath]
    rfl
  · rw [locate_of_ne_empty fs' hpath, locate_of_ne_empty fs hpath,
      foldlM_enter_iff_of_directories hdirectories, start, start, hcurrent]

end Directories

theorem ne_empty_of_segments {path segment : String} {front back : List String}
    (hsegments : Path.segments path = front ++ segment :: back) (h : segment ≠ "") :
    path ≠ "" := by
  rintro rfl
  have hempty : [""] = front ++ segment :: back := hsegments
  cases front with
  | nil => exact h (List.cons.inj hempty).1.symm
  | cons s front => simp at hempty

/-- Two paths with the same segments in front of a name start at the same place. -/
theorem start_eq_of_segments (fs : FileSystem) {path path' a b : String}
    {front as bs : List String} (ha : a ≠ "") (hb : b ≠ "")
    (hpath : Path.segments path = front ++ a :: as)
    (hpath' : Path.segments path' = front ++ b :: bs) : fs.start path = fs.start path' := by
  have hiff : path.toList.head? = some '/' ↔ path'.toList.head? = some '/' := by
    rw [Path.head?_eq_slash_iff, Path.head?_eq_slash_iff, hpath, hpath']
    cases front with
    | nil => simp [ha, hb]
    | cons s front => simp
  simp only [start, hiff]

/-- A name behind a directory is looked for from where the directory is. -/
theorem start_join (fs : FileSystem) {directory : String} (h : directory ≠ "") (name : String) :
    fs.start (Path.join directory name) = fs.start directory := by
  have hne : directory.toList ≠ [] := by simpa using h
  have hhead : (Path.join directory name).toList.head? = directory.toList.head? := by
    unfold Path.join
    split
    · rw [String.toList_append, List.head?_append_of_ne_nil _ hne]
    · rw [String.append_assoc, String.toList_append, List.head?_append_of_ne_nil _ hne]
  simp only [start, hhead]

/-- A name inside a directory leads to the entry of that name. -/
theorem locate_join {fs : FileSystem} {directory name : String} {place : Location}
    (hlocate : fs.locate directory = .ok place) (hplace : fs.isDirectoryAt place = true)
    (hname : Path.IsEntryName name) :
    fs.locate (Path.join directory name) = .ok (place ++ [name]) := by
  have hdirectory : directory ≠ "" := by
    rintro rfl
    cases hlocate
  obtain ⟨front, hjoin, hsegments⟩ := Path.segments_join directory hname.whole
  rw [locate_eq_ok_iff (ne_empty_of_segments hjoin hname.ne_empty) hjoin, start_join fs hdirectory]
  refine ⟨place, ?_, hplace, (follow_name place hname).symm⟩
  rcases hsegments with hsegments | hsegments
  · rwa [← hsegments, ← locate_of_ne_empty fs hdirectory]
  · obtain ⟨inner, hinner, -, hfollow⟩ := (locate_eq_ok_iff hdirectory hsegments).mp hlocate
    obtain rfl : place = inner := hfollow
    exact hinner

/-- A path whose last segment stays where it is leads to a directory. -/
theorem isDirectoryAt_of_idle {fs : FileSystem} {path segment : String} {front : List String}
    {place : Location} (hlocate : fs.locate path = .ok place)
    (hsegments : Path.segments path = front ++ [segment]) (hidle : Path.isIdle segment = true) :
    fs.isDirectoryAt place = true := by
  have hpath : path ≠ "" := by
    rintro rfl
    cases hlocate
  obtain ⟨inner, -, hinner, hfollow⟩ := (locate_eq_ok_iff hpath hsegments).mp hlocate
  rw [hfollow, follow, if_pos hidle]
  exact hinner

/-- What a path leads to is what stands at its place. -/
theorem lookup_eq_ok_iff {fs : FileSystem} {path : String} {e : Entry} :
    fs.lookup path = .ok e ↔ ∃ place, fs.locate path = .ok place ∧ fs.find? place = some e := by
  unfold lookup
  cases fs.locate path with
  | error err => simp [bind, Except.bind]
  | ok place =>
    cases hfind : fs.find? place with
    | none => simp [bind, Except.bind, hfind, throw, throwThe, MonadExceptOf.throw]
    | some entry => simp [bind, Except.bind, hfind, pure, Except.pure]

/-- A path leads to a directory where its place is one. -/
theorem isDirectory_iff {fs : FileSystem} {path : String} :
    fs.isDirectory path = true ↔
      ∃ place, fs.locate path = .ok place ∧ fs.isDirectoryAt place = true := by
  have hlookup : fs.isDirectory path = true ↔ fs.lookup path = .ok .directory := by
    unfold isDirectory
    split <;> simp_all
  simp only [hlookup, lookup_eq_ok_iff, isDirectoryAt_iff]

/-- Whether a path leads to a directory is seen at its place. -/
theorem isDirectory_of_locate {fs : FileSystem} {path : String} {place : Location}
    (h : fs.locate path = .ok place) : fs.isDirectory path = fs.isDirectoryAt place := by
  rw [Bool.eq_iff_iff, isDirectory_iff]
  constructor
  · rintro ⟨spot, hspot, hat⟩
    rw [h] at hspot
    rwa [Except.ok.inj hspot]
  · exact fun hat => ⟨place, h, hat⟩

end JackStack.FileSystem
