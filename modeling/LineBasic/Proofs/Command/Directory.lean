import Mathlib.Data.List.Basic
import LineBasic.Command.Directory

/-!
# Reading and writing files

What is written to a file is read back from it, and all other files stay as they are. Two written paths that agree in
front of their last names lead to different places if the names differ.

## Main definitions

* `Path.next?`: where a step leads to from a folder.
* `IsFront`: a text behind which a written path has its last name.
* `extension`: what the stem of a name lacks.

## Main results

* `Directory.read_of_write`, `Directory.read_of_write_ne`: reading after writing.
* `Directory.locate_ne_of_name_ne`: different names behind the same front.
* `Directory.locate_stem_append_ne`: a path and its stem with another ending.
-/

namespace LineBasic

/-- Where a step leads to from a folder: it stays, goes up, or goes down. -/
def Path.next? (place : Path) (step : String) : Option Path :=
  if step = "" ∨ step = "." then some place
  else if step = ".." then if place ≠ [] then some place.dropLast else none
  else if maxNameSize < step.utf8ByteSize then none
  else some (place ++ [step])

namespace Directory

variable {d d' : Directory} {path : String} {place place' x : Path} {bytes : List UInt8}

/-! ### Places -/

theorem walk_cons_eq_ok_iff {step : String} {steps : Path} : d.walk place (step :: steps) = .ok place' ↔
    d.entry? place = some .folder ∧ ∃ next, place.next? step = some next ∧ d.walk next steps = .ok place' := by
  rw [walk, Path.next?]
  split
  · simp_all
  · simp_all
  · rename_i hfolder
    simp only [hfolder, true_and]
    by_cases hstay : step = "" ∨ step = "."
    · simp [hstay]
    · by_cases hup : step = ".."
      · by_cases hroot : place = [] <;> simp [hup, hroot]
      · by_cases hlong : maxNameSize < step.utf8ByteSize <;> simp [hstay, hup, hlong]

/-- Steps are taken one after another. -/
theorem walk_append_eq_ok_iff {steps steps' : Path} : d.walk place (steps ++ steps') = .ok place' ↔
    ∃ middle, d.walk place steps = .ok middle ∧ d.walk middle steps' = .ok place' := by
  induction steps generalizing place with
  | nil => simp [walk]
  | cons step steps ih =>
    simp only [List.cons_append, walk_cons_eq_ok_iff, ih]
    constructor
    · rintro ⟨hfolder, next, hnext, middle, hmiddle, hrest⟩
      exact ⟨middle, ⟨hfolder, next, hnext, hmiddle⟩, hrest⟩
    · rintro ⟨middle, ⟨hfolder, next, hnext, hmiddle⟩, hrest⟩
      exact ⟨hfolder, next, hnext, middle, hmiddle, hrest⟩

theorem locate_eq_ok_iff : d.locate path = .ok place ↔
    path.utf8ByteSize ≤ maxPathSize ∧ path ≠ "" ∧ path.toList.head? ≠ some '/' ∧
      d.walk [] (pathSteps path) = .ok place := by
  rw [locate, ← Nat.not_lt]
  by_cases hlong : maxPathSize < path.utf8ByteSize
  · simp [hlong]
  · by_cases hempty : path = ""
    · simp [hempty]
    · by_cases habsolute : path.toList.head? = some '/'
      · simp [hlong, hempty, habsolute]
      · simp [hlong, hempty, habsolute]

/-- A way through folders is the same in a directory in which they are still folders. -/
theorem walk_mono (h : ∀ x, d.entry? x = some .folder → d'.entry? x = some .folder) {steps : Path}
    (hwalk : d.walk place steps = .ok place') : d'.walk place steps = .ok place' := by
  induction steps generalizing place with
  | nil => exact hwalk
  | cons step steps ih =>
    obtain ⟨hfolder, next, hnext, hrest⟩ := walk_cons_eq_ok_iff.1 hwalk
    exact walk_cons_eq_ok_iff.2 ⟨h place hfolder, next, hnext, ih hrest⟩

theorem locate_mono (h : ∀ x, d.entry? x = some .folder → d'.entry? x = some .folder)
    (hlocate : d.locate path = .ok place) : d'.locate path = .ok place := by
  obtain ⟨hlong, hempty, habsolute, hwalk⟩ := locate_eq_ok_iff.1 hlocate
  exact locate_eq_ok_iff.2 ⟨hlong, hempty, habsolute, walk_mono h hwalk⟩

/-! ### Reading after writing -/

theorem read_eq_ok_iff :
    d.read path = .ok bytes ↔ ∃ place, d.locate path = .ok place ∧ d.entry? place = some (.file bytes) := by
  rw [read]
  cases hlocate : d.locate path with
  | error e => simp [bind, Except.bind]
  | ok place =>
    simp only [bind, Except.bind, Except.ok.injEq, exists_eq_left']
    split <;> simp_all [pure, Except.pure, throw, throwThe, MonadExceptOf.throw]

theorem write_eq_ok_iff : d.write path bytes = .ok d' ↔
    ∃ place, d.locate path = .ok place ∧ d.entry? place ≠ some .folder ∧ d.replace place bytes = d' := by
  rw [write]
  cases hlocate : d.locate path with
  | error e => simp [bind, Except.bind]
  | ok place =>
    simp only [bind, Except.bind, Except.ok.injEq, exists_eq_left']
    split <;> simp_all [pure, Except.pure, throw, throwThe, MonadExceptOf.throw]

theorem lookup_filter_ne (files : List (Path × List UInt8)) (h : x ≠ place) :
    (files.filter fun f => f.1 ≠ place).lookup x = files.lookup x := by
  induction files with
  | nil => rfl
  | cons f files ih =>
    obtain ⟨y, content⟩ := f
    by_cases hy : y = place
    · have hx : (x == y) = false := beq_eq_false_iff_ne.2 fun hxy => h (hxy.trans hy)
      rw [List.filter_cons_of_neg (by simp [hy]), List.lookup_cons, hx, ih]
    · rw [List.filter_cons_of_pos (by simp [hy]), List.lookup_cons, List.lookup_cons, ih]

theorem entry?_replace_self : entry? (d.replace place bytes) place = some (.file bytes) := by
  simp [replace, entry?]

/-- Putting a file at one place leaves what lies at other places. -/
theorem entry?_replace_of_ne (hx : x ≠ place) {e : Entry}
    (h : d.entry? x = some e) : entry? (d.replace place bytes) x = some e := by
  have hlookup : (d.replace place bytes).files.lookup x = d.files.lookup x := by
    rw [replace, List.lookup_cons, beq_eq_false_iff_ne.2 hx]
    exact lookup_filter_ne d.files hx
  unfold entry? at h ⊢
  rw [hlookup]
  cases hfile : d.files.lookup x with
  | some content => rwa [hfile] at h
  | none =>
    rw [hfile] at h
    dsimp only at h ⊢
    split at h
    · rename_i hfolder
      rw [if_pos]
      · exact h
      · rcases hfolder with hroot | hfolder | hbelow
        · exact .inl hroot
        · exact .inr (.inl hfolder)
        · -- The file below the folder is still there, or it is the one that was written.
          refine .inr (.inr ?_)
          obtain ⟨f, hf, hprefix⟩ := List.any_eq_true.1 hbelow
          by_cases hfplace : f.1 = place
          · exact List.any_eq_true.2 ⟨(place, bytes), by simp [replace], by rwa [← hfplace]⟩
          · exact List.any_eq_true.2 ⟨f, by simp [replace, hf, hfplace], hprefix⟩
    · cases h

theorem folder_of_write (h : d.write path bytes = .ok d') (hx : d.entry? x = some .folder) :
    d'.entry? x = some .folder := by
  obtain ⟨place, -, hplace, rfl⟩ := write_eq_ok_iff.1 h
  refine entry?_replace_of_ne ?_ hx
  rintro rfl
  exact hplace hx

/-- What was written is read back. -/
theorem read_of_write (h : d.write path bytes = .ok d') : d'.read path = .ok bytes := by
  have hfolders := fun x => folder_of_write (x := x) h
  obtain ⟨place, hlocate, -, rfl⟩ := write_eq_ok_iff.1 h
  exact read_eq_ok_iff.2 ⟨place, locate_mono hfolders hlocate, entry?_replace_self⟩

/-- Files at other places are read as before. -/
theorem read_of_write_ne {path' : String} {content : List UInt8} (h : d.write path' content = .ok d')
    (hne : ∀ place, d.locate path = .ok place → d.locate path' ≠ .ok place) (hread : d.read path = .ok bytes) :
    d'.read path = .ok bytes := by
  have hfolders := fun x => folder_of_write (x := x) h
  obtain ⟨place', hlocate', -, rfl⟩ := write_eq_ok_iff.1 h
  obtain ⟨place, hlocate, hfile⟩ := read_eq_ok_iff.1 hread
  refine read_eq_ok_iff.2 ⟨place, locate_mono hfolders hlocate, entry?_replace_of_ne ?_ hfile⟩
  rintro rfl
  exact hne place hlocate hlocate'

end Directory

/-! ### Last names -/

/-- A text behind which a written path has its last name. -/
def IsFront (front : List Char) : Prop := front = [] ∨ ∃ cs, front = cs ++ ['/']

/-- The last name of a written path is its last step. -/
theorem IsFront.exists_pathSteps_eq {front : List Char} (h : IsFront front) :
    ∃ steps : Path, ∀ name : List Char, '/' ∉ name →
      pathSteps (String.ofList (front ++ name)) = steps ++ [String.ofList name] := by
  rcases h with rfl | ⟨cs, rfl⟩
  · refine ⟨[], fun name hname => ?_⟩
    simp [pathSteps, List.splitOn_eq_singleton hname]
  · refine ⟨(cs.splitOn '/').map String.ofList, fun name hname => ?_⟩
    simp [pathSteps, List.append_assoc, List.splitOn_append_cons_self, List.splitOn_eq_singleton hname]

/-- A step stays, goes up, or goes down to the name that it is. -/
theorem Path.next?_cases {place next : Path} {step : String} (h : place.next? step = some next) :
    next = place ∨ next = place.dropLast ∨ next = place ++ [step] := by
  rw [next?] at h
  split at h
  · exact .inl (Option.some.inj h).symm
  · split at h
    · split at h
      · exact .inr (.inl (Option.some.inj h).symm)
      · cases h
    · split at h
      · cases h
      · exact .inr (.inr (Option.some.inj h).symm)

/-- A step of more than two characters goes down. -/
theorem Path.eq_concat_of_next? {place next : Path} {step : String} (hstep : 2 < step.length)
    (h : place.next? step = some next) : next = place ++ [step] := by
  have hstay : ¬(step = "" ∨ step = ".") := by
    rintro (rfl | rfl) <;> exact absurd hstep (by decide)
  have hup : step ≠ ".." := by
    rintro rfl
    exact absurd hstep (by decide)
  rw [next?, if_neg hstay, if_neg hup] at h
  split at h
  · cases h
  · exact (Option.some.inj h).symm

/-- Behind the same front, a long name leads to another place than any other name. -/
theorem Directory.locate_ne_of_name_ne {d : Directory} {front name name' : List Char} {place : Path}
    (hfront : IsFront front) (hname : '/' ∉ name) (hname' : '/' ∉ name') (hlong : 2 < name'.length)
    (hne : name ≠ name') (h : d.locate (String.ofList (front ++ name)) = .ok place) :
    d.locate (String.ofList (front ++ name')) ≠ .ok place := by
  intro h'
  obtain ⟨steps, hsteps⟩ := hfront.exists_pathSteps_eq
  obtain ⟨-, -, -, hwalk⟩ := locate_eq_ok_iff.1 h
  obtain ⟨-, -, -, hwalk'⟩ := locate_eq_ok_iff.1 h'
  rw [hsteps name hname, walk_append_eq_ok_iff] at hwalk
  rw [hsteps name' hname', walk_append_eq_ok_iff] at hwalk'
  -- Both ways go through the same folder, and only their last steps differ.
  obtain ⟨folder, hfolder, hlast⟩ := hwalk
  obtain ⟨folder', hfolder', hlast'⟩ := hwalk'
  obtain rfl : folder = folder' := Except.ok.inj (hfolder.symm.trans hfolder')
  obtain ⟨-, next, hnext, hend⟩ := walk_cons_eq_ok_iff.1 hlast
  obtain ⟨-, next', hnext', hend'⟩ := walk_cons_eq_ok_iff.1 hlast'
  obtain rfl : next = place := Except.ok.inj hend
  obtain rfl : next' = next := Except.ok.inj hend'
  have hdown := Path.eq_concat_of_next? (by simpa using hlong) hnext'
  have hlength := congrArg List.length hdown
  rw [List.length_append, List.length_singleton] at hlength
  rcases Path.next?_cases hnext with hstay | hup | hdown'
  · rw [hstay] at hlength
    omega
  · rw [hup, List.length_dropLast] at hlength
    omega
  · rw [hdown'] at hdown
    have hnames : [String.ofList name] = [String.ofList name'] := List.append_cancel_left hdown
    exact hne (String.ofList_injective (List.singleton_inj.1 hnames))

/-! ### Extensions -/

/-- What stands behind the last `c` of a text has no `c`. It is all of the text, or `c` stands in front of it. -/
theorem exists_eq_append_last (c : Char) (cs : List Char) :
    c ∉ (cs.reverse.takeWhile (· ≠ c)).reverse ∧
      ((cs.reverse.takeWhile (· ≠ c)).reverse = cs ∧ c ∉ cs ∨
        ∃ before, cs = before ++ c :: (cs.reverse.takeWhile (· ≠ c)).reverse) := by
  have hlast : c ∉ (cs.reverse.takeWhile (· ≠ c)).reverse := by
    intro h
    simpa using List.all_eq_true.1 List.all_takeWhile c (List.mem_reverse.1 h)
  refine ⟨hlast, ?_⟩
  have hsplit : cs.reverse.takeWhile (· ≠ c) ++ cs.reverse.dropWhile (· ≠ c) = cs.reverse :=
    List.takeWhile_append_dropWhile
  cases hrest : cs.reverse.dropWhile (· ≠ c) with
  | nil =>
    rw [hrest, List.append_nil] at hsplit
    rw [hsplit, List.reverse_reverse] at hlast ⊢
    exact .inl ⟨rfl, hlast⟩
  | cons x rest =>
    have hx := List.head?_dropWhile_not (· ≠ c) cs.reverse
    rw [hrest] at hx
    obtain rfl : x = c := by simpa using hx
    rw [hrest] at hsplit
    have hcs := congrArg List.reverse hsplit
    rw [List.reverse_append, List.reverse_cons, List.append_assoc, List.reverse_reverse] at hcs
    exact .inr ⟨rest.reverse, hcs.symm⟩

/-- The characters of a name that belong to its extension. -/
def extension (name : List Char) : List Char := name.drop (name.length - extensionLength name)

/-- A name without an extension, or the extension begins with the last dot of the name. -/
theorem extension_cases (name : List Char) : extensionLength name ≤ name.length ∧
    (extension name = [] ∨ ∃ after, extension name = '.' :: after ∧ '.' ∉ after) := by
  obtain ⟨hafter, hsplit⟩ := exists_eq_append_last '.' name
  rw [extension, extensionLength]
  split
  · rename_i hdot
    rcases hsplit with ⟨-, hnone⟩ | ⟨before, hname⟩
    · simp [hnone] at hdot
    · have hlength := congrArg List.length hname
      simp only [List.length_append, List.length_cons, List.length_reverse] at hlength
      refine ⟨by omega, .inr ⟨_, ?_, hafter⟩⟩
      conv => lhs; arg 2; rw [hname]
      rw [List.drop_append_of_le_length (by omega), List.drop_of_length_le (by omega), List.nil_append]
  · simp

/-- A written path is its last name behind a front, and its stem lacks the extension of the name. -/
theorem exists_stem_eq (path : String) : ∃ front base ext : List Char, IsFront front ∧ '/' ∉ base ++ ext ∧
    path = String.ofList (front ++ (base ++ ext)) ∧ stem path = String.ofList (front ++ base) ∧
    (ext = [] ∨ ∃ after, ext = '.' :: after ∧ '.' ∉ after) := by
  obtain ⟨hname, hsplit⟩ := exists_eq_append_last '/' path.toList
  generalize hdef : (path.toList.reverse.takeWhile (· ≠ '/')).reverse = name at hname hsplit
  obtain ⟨front, hfront, hpath⟩ : ∃ front, IsFront front ∧ path.toList = front ++ name := by
    rcases hsplit with ⟨hall, -⟩ | ⟨before, hbefore⟩
    · exact ⟨[], .inl rfl, hall.symm⟩
    · exact ⟨before ++ ['/'], .inr ⟨before, rfl⟩, by simpa using hbefore⟩
  obtain ⟨hlength, hext⟩ := extension_cases name
  have hbase : name.take (name.length - extensionLength name) ++ extension name = name := List.take_append_drop _ _
  refine ⟨front, name.take (name.length - extensionLength name), extension name, hfront, by rwa [hbase], ?_, ?_, hext⟩
  · rw [hbase, ← hpath, String.ofList_toList]
  · rw [stem, hdef, hpath, List.length_append, List.take_append, List.take_of_length_le (by omega)]
    congr 3
    omega

/-- A stem with some characters behind it leads to another place than the path, unless it is the path. -/
theorem Directory.locate_stem_append_ne {d : Directory} {path suffix : String} {place : Path}
    (hslash : '/' ∉ suffix.toList) (hlong : 2 < suffix.length) (hne : stem path ++ suffix ≠ path)
    (h : d.locate path = .ok place) : d.locate (stem path ++ suffix) ≠ .ok place := by
  obtain ⟨front, base, ext, hfront, hname, hpath, hstem, -⟩ := exists_stem_eq path
  have hsuffix : stem path ++ suffix = String.ofList (front ++ (base ++ suffix.toList)) := by
    simp only [hstem, String.ofList_append, String.ofList_toList, String.append_assoc]
  rw [hsuffix] at hne ⊢
  rw [hpath] at h
  have hbase : '/' ∉ base := fun h => hname (List.mem_append_left _ h)
  refine locate_ne_of_name_ne hfront hname ?_ ?_ ?_ h
  · simp [hbase, hslash]
  · rw [List.length_append, String.length_toList]
    omega
  · rintro hsame
    exact hne (hsame ▸ hpath.symm)

/-- A stem does not become the path again by characters with a second dot. -/
theorem stem_append_ne (path : String) (suffix : List Char) (hdot : '.' ∈ suffix) :
    stem path ++ String.ofList ('.' :: suffix) ≠ path := by
  obtain ⟨front, base, ext, -, -, hpath, hstem, hext⟩ := exists_stem_eq path
  intro h
  rw [hstem, ← String.ofList_append, List.append_assoc] at h
  have hsame := List.append_cancel_left (List.append_cancel_left (String.ofList_injective (h.trans hpath)))
  rcases hext with rfl | ⟨after, rfl, hafter⟩
  · cases hsame
  · cases hsame
    exact hafter hdot

end LineBasic
