import MicroGo.Command.Files

/-!
# The laws of reading and writing files

What a command does to the files is stated for every setting in which files are read and written as
they should be.  `FileView σ φ` says how the states of the setting are looked at: which file a path
leads to, and what the files hold.  `FileSystem.Lawful` are the laws.

* Reading changes nothing, and gives the text of the file that the path leads to.
* Writing puts the text into the file that the path leads to and changes no other file.
* Writing that fails changes nothing.

Paths may lead to one file in many ways, so the files themselves are compared and not their paths.

## Disks

`Disk.lawful` proves the laws of a disk, whose files are known by their places.
-/

namespace MicroGo
namespace Command

variable {σ φ : Type}

/-! ## Laws -/

/-- The files of a state.  They are told apart by `φ`, whether they exist or not. -/
structure FileView (σ φ : Type) where
  /-- The file that a path leads to. -/
  find : σ → String → Option φ
  /-- What a file holds, if it exists. -/
  contents : σ → φ → Option ByteArray

namespace FileView

/-- The file at `path` holds exactly `text`. -/
def Holds (view : FileView σ φ) (s : σ) (path text : String) : Prop :=
  ∃ file, view.find s path = some file ∧ view.contents s file = some text.toUTF8

/-- `s'` differs from `s` in the file at `path` alone, which holds exactly `text`. -/
def Updated (view : FileView σ φ) (s : σ) (path text : String) (s' : σ) : Prop :=
  ∃ file, view.find s path = some file ∧ view.find s' path = some file ∧
    view.contents s' file = some text.toUTF8 ∧
      ∀ other, other ≠ file → view.contents s' other = view.contents s other

end FileView

/-- **The laws of reading and writing.** -/
structure FileSystem.Lawful (fs : FileSystem (StateM σ)) (view : FileView σ φ) : Prop where
  read_state : ∀ path s, ((fs.read path).run s).2 = s
  read_ok : ∀ path s text, ((fs.read path).run s).1 = .ok text → view.Holds s path text
  write_error : ∀ path text s e, ((fs.write path text).run s).1 = .error e →
    ((fs.write path text).run s).2 = s
  write_ok : ∀ path text s, ((fs.write path text).run s).1 = .ok () →
    view.Updated s path text ((fs.write path text).run s).2

theorem run_bind {α β : Type} (x : StateM σ α) (next : α → StateM σ β) (s : σ) :
    (x >>= next).run s = (next (x.run s).1).run (x.run s).2 :=
  rfl

theorem toUTF8_of_textOfBytes {bytes : ByteArray} {text : String}
    (h : textOfBytes bytes = .ok text) : text.toUTF8 = bytes := by
  unfold textOfBytes at h
  split at h
  next decoded hdecoded =>
    obtain rfl := Except.ok.inj h
    unfold String.fromUTF8? at hdecoded
    split at hdecoded
    next =>
      obtain rfl := Option.some.inj hdecoded
      rfl
    next => cases hdecoded
  next => cases h

/-! ## Paths -/

theorem Place.trim_concat {parts : List (List Char)} {last : List Char} (h : last ≠ []) :
    trim (parts ++ [last]) = parts ++ [last] := by
  unfold trim
  rw [List.reverse_concat, List.dropWhile_cons_of_neg (by simpa using h), List.reverse_cons,
    List.reverse_reverse]

namespace Disk

variable {disk disk' : Disk} {place : Place} {path text : String}

/-- A file is known by its place. -/
def view : FileView Disk Place where
  find disk path := (disk.reach path (Place.trim (Place.parts path.toList))).toOption
  contents disk place := disk.files.lookup place

theorem follow_append (disk : Disk) (ps qs : List (List Char)) (place : Place) :
    disk.follow place (ps ++ qs) = disk.follow place ps >>= fun place => disk.follow place qs := by
  induction ps generalizing place with
  | nil => rfl
  | cons part ps ih =>
    rw [List.cons_append, follow, follow]
    split
    next => exact ih _
    next => split <;> rfl

/-- What is not a directory has no slash behind its name. -/
theorem follow_trim {parts : List (List Char)} {start : Place}
    (h : disk.follow start parts = .ok place) (hfile : disk.isDirectory place = false) :
    Place.trim parts = parts := by
  rcases List.eq_nil_or_concat parts with rfl | ⟨ps, last, rfl⟩
  · rfl
  · rw [List.concat_eq_append] at h ⊢
    refine Place.trim_concat ?_
    rintro rfl
    rw [follow_append] at h
    cases hps : disk.follow start ps with
    | error e =>
      rw [hps] at h
      cases h
    | ok above =>
      rw [hps] at h
      change disk.follow above [[]] = .ok place at h
      rw [follow] at h
      split at h
      next hdirectory =>
        obtain rfl : above = place := Except.ok.inj h
        exact absurd hdirectory (Bool.eq_false_iff.1 hfile)
      next => split at h <;> cases h

theorem reach_trim {parts : List (List Char)} (h : disk.reach path parts = .ok place)
    (hfile : disk.isDirectory place = false) :
    disk.reach path (Place.trim parts) = .ok place := by
  unfold reach at h ⊢
  split at h
  next => cases h
  next hpath =>
    rw [if_neg hpath, follow_trim h hfile]
    exact h

/-- A path leads to the same place after a file has been written. -/
theorem follow_insert {bytes : ByteArray} {target : Place} (parts : List (List Char))
    {start : Place} (h : disk.follow start parts = .ok place) :
    (disk.insert target bytes).follow start parts = .ok place := by
  induction parts generalizing start with
  | nil => exact h
  | cons part parts ih =>
    rw [follow] at h
    split at h
    next hdirectory =>
      have hdirectory' : (disk.insert target bytes).isDirectory start = true := hdirectory
      rw [follow, if_pos hdirectory']
      exact ih h
    next => split at h <;> cases h

theorem reach_insert {bytes : ByteArray} {target : Place} {parts : List (List Char)}
    (h : disk.reach path parts = .ok place) :
    (disk.insert target bytes).reach path parts = .ok place := by
  unfold reach at h ⊢
  split
  next hempty =>
    rw [if_pos hempty] at h
    cases h
  next hpath =>
    rw [if_neg hpath] at h
    exact follow_insert parts h

/-! ## Contents -/

theorem lookup_insert_self (disk : Disk) (place : Place) (bytes : ByteArray) :
    (disk.insert place bytes).files.lookup place = some bytes := by
  have hnone : (disk.files.filter fun file => file.1 ≠ place).lookup place = none := by
    rw [List.lookup_eq_none_iff]
    intro file hfile
    have hne : file.1 ≠ place := of_decide_eq_true (List.mem_filter.1 hfile).2
    exact bne_iff_ne.2 hne.symm
  show List.lookup place (_ ++ _) = _
  rw [List.lookup_append, hnone, Option.none_or]
  exact List.lookup_cons_self

theorem lookup_insert_of_ne (disk : Disk) {other : Place} (bytes : ByteArray)
    (hne : other ≠ place) :
    (disk.insert place bytes).files.lookup other = disk.files.lookup other := by
  have hfilter : (disk.files.filter fun file => file.1 ≠ place).lookup other =
      disk.files.lookup other := by
    induction disk.files with
    | nil => rfl
    | cons file files ih =>
      obtain ⟨key, contents⟩ := file
      by_cases hkey : key = place
      · subst hkey
        rw [List.filter_cons_of_neg (by simp), ih, List.lookup_cons, beq_false_of_ne hne]
      · rw [List.filter_cons_of_pos (by simpa using hkey), List.lookup_cons, List.lookup_cons, ih]
  have hlast : [(place, bytes)].lookup other = none := by
    rw [List.lookup_cons, beq_false_of_ne hne]
    rfl
  show List.lookup other (_ ++ _) = _
  rw [List.lookup_append, hfilter, hlast, Option.or_none]

/-- A text that can be read is in the file that the path leads to. -/
theorem holds_of_read (h : disk.read path = .ok text) : view.Holds disk path text := by
  unfold read at h
  cases hreach : disk.reach path (Place.parts path.toList) with
  | error e =>
    rw [hreach] at h
    cases h
  | ok place =>
    rw [hreach] at h
    change (if disk.isDirectory place then _ else _) = _ at h
    split at h
    next => cases h
    next hfile =>
      split at h
      next bytes hbytes =>
        have hfound := reach_trim hreach (Bool.eq_false_iff.2 hfile)
        exact ⟨place, congrArg Except.toOption hfound, toUTF8_of_textOfBytes h ▸ hbytes⟩
      next => cases h

/-- A text that can be written is in its file, and all other files are as before. -/
theorem updated_of_write (h : disk.write path text = .ok disk') :
    view.Updated disk path text disk' := by
  unfold write at h
  cases hreach : disk.reach path (Place.trim (Place.parts path.toList)) with
  | error e =>
    rw [hreach] at h
    cases h
  | ok place =>
    rw [hreach] at h
    change (if _ then _ else _) = _ at h
    split at h
    next => cases h
    next =>
      obtain rfl := Except.ok.inj h
      exact ⟨place, congrArg Except.toOption hreach, congrArg Except.toOption (reach_insert hreach),
        disk.lookup_insert_self place _, fun _ hother => disk.lookup_insert_of_ne _ hother⟩

/-! ## The laws hold -/

theorem run_write_of_ok (h : disk.write path text = .ok disk') :
    (fileSystem.write path text).run disk = (.ok (), disk') := by
  show StateT.run (get >>= _) disk = _
  rw [run_bind]
  split
  next written hwritten =>
    obtain rfl : written = disk' := Except.ok.inj (hwritten.symm.trans h)
    rfl
  next e he => cases he.symm.trans h

theorem run_write_of_error {e : FileError} (h : disk.write path text = .error e) :
    (fileSystem.write path text).run disk = (.error e, disk) := by
  show StateT.run (get >>= _) disk = _
  rw [run_bind]
  split
  next written hwritten => cases hwritten.symm.trans h
  next e' he =>
    obtain rfl : e' = e := Except.error.inj (he.symm.trans h)
    rfl

/-- **A disk is read and written as it should be.** -/
theorem lawful : fileSystem.Lawful view where
  read_state _ _ := rfl
  read_ok _ _ _ h := holds_of_read h
  write_error path text disk e h := by
    cases hwrite : disk.write path text with
    | ok disk' =>
      rw [run_write_of_ok hwrite] at h
      cases h
    | error e' => rw [run_write_of_error hwrite]
  write_ok path text disk h := by
    cases hwrite : disk.write path text with
    | ok disk' =>
      rw [run_write_of_ok hwrite]
      exact updated_of_write hwrite
    | error e =>
      rw [run_write_of_error hwrite] at h
      cases h

end Disk
end Command
end MicroGo
