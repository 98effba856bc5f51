import CipherLink.KeyFile

/-!
# Files in directories

A file can be made in every open directory that a path leads to, under every name that is
still free there. It is found under its path from then on, and all that was there before is
found as it was.
-/

namespace CipherLink.KeyFiles

variable {k : KeyFiles} {path : String} {content : Bytes} {entry : Entry}
  {place around : List (List Char)}

theorem mayCreate_iff : k.mayCreate path = true ↔
    ∃ name around, k.place? path = some (name :: around) ∧ k.found? around = some .directory ∧
      k.found? (name :: around) = none ∧ around ∉ k.closed := by
  rw [mayCreate]
  split
  · next name around hplace =>
    rw [decide_eq_true_eq]
    constructor
    · exact fun h => ⟨name, around, hplace, h⟩
    · rintro ⟨_, _, hsame, h⟩
      cases hplace.symm.trans hsame
      exact h
  · next hplace => simp [hplace]
  · next hplace => simp [hplace]

theorem at?_of_mayCreate (h : k.mayCreate path = true) : k.at? path = none := by
  obtain ⟨name, around, hplace, -, hfree, -⟩ := mayCreate_iff.mp h
  rw [at?, hplace]
  exact hfree

theorem read?_eq_some_iff : k.read? path = some content ↔ k.at? path = some (.file content) := by
  rw [read?]
  split <;> simp_all

theorem read?_of_mayCreate (h : k.mayCreate path = true) : k.read? path = none := by
  rw [read?, at?_of_mayCreate h]

theorem write_of_place (h : k.place? path = some place) :
    k.write path content = { k with
      entries := (place, .file content) :: k.entries.filter fun entry => entry.1 != place } := by
  rw [write, h]

theorem found?_write (hplace : k.place? path = some place) (hfree : k.found? place = none)
    (h : k.found? around = some entry) : (k.write path content).found? around = some entry := by
  -- What a place has depends on the places around it, which are those of directories.
  induction around generalizing entry with
  | nil => exact h
  | cons name around ih =>
    have hother : name :: around ≠ place := by
      rintro rfl
      simp [hfree] at h
    rw [found?] at h ⊢
    split at h
    · next hdirectory =>
      have hkept (e : List (List Char) × Entry) :
          decide ((e.1 != place) = true ∧ (e.1 == name :: around) = true) =
            (e.1 == name :: around) := by
        by_cases he : e.1 = name :: around
        · simp [he, hother]
        · simp [he]
      have hnew : (place == name :: around) = false := by simp [hother.symm]
      rw [if_pos (ih hdirectory), write_of_place hplace]
      simp only [List.find?_cons, hnew, List.find?_filter, hkept]
      exact h
    · cases h

theorem follow?_write (hplace : k.place? path = some place) (hfree : k.found? place = none)
    {names : List (List Char)} {dir : List (List Char)} (h : k.follow? around names = some dir) :
    (k.write path content).follow? around names = some dir := by
  induction names generalizing around with
  | nil => exact h
  | cons name names ih =>
    rw [follow?] at h ⊢
    split at h
    · next hdirectory =>
      rw [if_pos (found?_write hplace hfree hdirectory)]
      exact ih h
    · cases h

theorem place?_write (hplace : k.place? path = some place) (hfree : k.found? place = none)
    {other : String} (h : k.place? other = some around) :
    (k.write path content).place? other = some around := by
  have hworking : (k.write path content).working = k.working := by
    rw [write_of_place hplace]
  rw [place?] at h ⊢
  split at h
  · cases h
  · next hchars =>
    rw [if_neg hchars, hworking]
    exact follow?_write hplace hfree h

/-- All that was found before a file was made is found as it was. -/
theorem at?_write (h : k.mayCreate path = true) {other : String}
    (hother : k.at? other = some entry) : (k.write path content).at? other = some entry := by
  obtain ⟨name, around, hplace, -, hfree, -⟩ := mayCreate_iff.mp h
  obtain ⟨place, hleads, hentry⟩ := Option.bind_eq_some_iff.mp hother
  rw [at?, place?_write hplace hfree hleads]
  exact found?_write hplace hfree hentry

theorem read?_write (h : k.mayCreate path = true) :
    (k.write path content).read? path = some content := by
  obtain ⟨name, around, hplace, hdirectory, hfree, -⟩ := mayCreate_iff.mp h
  rw [read?_eq_some_iff, at?, place?_write hplace hfree hplace, Option.bind_some, found?,
    if_pos (found?_write hplace hfree hdirectory), write_of_place hplace]
  simp

theorem follow?_concat {names : List (List Char)} {name : List Char}
    (h : k.follow? around names = some place) (hdirectory : k.found? place = some .directory) :
    k.follow? around (names ++ [name]) = some (enter place name) := by
  induction names generalizing around with
  | nil =>
    obtain rfl := Option.some.inj h
    rw [List.nil_append, follow?, if_pos hdirectory, follow?]
  | cons first names ih =>
    rw [follow?] at h
    split at h
    · next hfirst =>
      rw [List.cons_append, follow?, if_pos hfirst]
      exact ih h
    · cases h

theorem place?_append {dir name : String} (hplace : k.place? dir = some place)
    (hdirectory : k.found? place = some .directory)
    (hname : '/' ∉ name.toList ∧ '\x00' ∉ name.toList) :
    k.place? (dir ++ "/" ++ name) = some (enter place name.toList) := by
  have hchars : (dir ++ "/" ++ name).toList = dir.toList ++ '/' :: name.toList := by
    simp
  rw [place?] at hplace ⊢
  split at hplace
  · cases hplace
  · next hdir =>
    rw [not_or] at hdir
    have hhead : (dir.toList ++ '/' :: name.toList).head? = dir.toList.head? := by
      obtain ⟨first, rest, hfirst⟩ := List.exists_cons_of_ne_nil hdir.1
      simp [hfirst]
    have hsplit : (dir.toList ++ '/' :: name.toList).splitOn '/' =
        dir.toList.splitOn '/' ++ [name.toList] := by
      rw [List.splitOn_eq_splitOnP, List.splitOnP_append_cons _ _ (by simp),
        ← List.splitOn_eq_splitOnP, ← List.splitOn_eq_splitOnP, List.splitOn_eq_singleton hname.1]
    rw [if_neg (by simp [hchars, hdir.2, hname.2]), hchars, hhead, hsplit]
    exact follow?_concat hplace hdirectory

/-- A file can be made in every open directory, under every name that is free there. -/
theorem mayCreate_of_directory {dir name : String} (hplace : k.place? dir = some place)
    (hdirectory : k.found? place = some .directory) (hopen : place ∉ k.closed)
    (hname : '/' ∉ name.toList ∧ '\x00' ∉ name.toList)
    (hproper : name.toList ∉ [[], ['.'], ['.', '.']])
    (hfree : k.found? (name.toList :: place) = none) :
    k.mayCreate (dir ++ "/" ++ name) = true := by
  have henter : enter place name.toList = name.toList :: place := by
    simp only [List.mem_cons, List.not_mem_nil, or_false, not_or] at hproper
    simp [enter, hproper]
  have hleads := place?_append hplace hdirectory hname
  rw [henter] at hleads
  exact mayCreate_iff.mpr ⟨_, _, hleads, hdirectory, hfree, hopen⟩

theorem obtain_of_absent (h : k.mayCreate path = true) {bits : Nat} {noise : Noise}
    {key : Rsa.PrivateKey} (hgenerate : Rsa.generate bits noise = .ok key) :
    Rsa.obtain bits (.persisted path) k noise =
      (.ok key, k.write path key.toText) := by
  simp only [Rsa.obtain, Rsa.loadOrCreate, at?_of_mayCreate h, hgenerate, h, if_true]

theorem obtain_of_read? (h : k.read? path = some content) (bits : Nat) (noise : Noise) :
    Rsa.obtain bits (.persisted path) k noise = (Rsa.load bits path content, k) := by
  simp only [Rsa.obtain, Rsa.loadOrCreate, read?_eq_some_iff.mp h]

end CipherLink.KeyFiles
