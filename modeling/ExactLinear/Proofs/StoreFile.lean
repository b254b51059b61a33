import ExactLinear.CommandLine.Directory
import ExactLinear.CommandLine.Turn
import ExactLinear.Proofs.StoreDocument

/-!
# Stores are read back from their files

A file that was written is found again under its path: a file stands in a directory, so writing it
makes no other directories than there were (`Directory.isDirectory_put`), the path leads to the same
place as before (`Directory.locate?_put`), and what stands there is the text that was written
(`Directory.content?_look_of_write?`). With the round trip of the document this makes the store that
was saved the store that is loaded. What stands in any other place is what stood there before
(`Directory.agreeOff_of_write?`).
-/

namespace ExactLinear.CommandLine

namespace Directory

variable {d d' : Directory} {path content : String} {place : Location}

/-! ## Directories and ways -/

theorem isDirectory_iff (d : Directory) (q : Location) : d.isDirectory q = true ↔
    q.isPrefixOf d.place = true ∨ ∃ file ∈ d.files, q.isPrefixOf file.1 = true ∧ file.1 ≠ q := by
  simp [isDirectory]

/-- What leads to a directory is a directory. -/
theorem isDirectory_of_isPrefixOf {q r : Location} (hq : q.isPrefixOf r = true)
    (h : d.isDirectory r = true) : d.isDirectory q = true := by
  rw [List.isPrefixOf_iff_prefix] at hq
  rw [isDirectory_iff] at h ⊢
  simp only [List.isPrefixOf_iff_prefix] at h ⊢
  obtain hr | ⟨file, hfile, hr, hne⟩ := h
  · exact .inl (hq.trans hr)
  · refine .inr ⟨file, hfile, hq.trans hr, ?_⟩
    rintro rfl
    exact hne (hr.eq_of_length_le hq.length_le).symm

/-- A path that leads somewhere still leads there when there are more directories. -/
theorem follow_mono (h : ∀ q, d.isDirectory q = true → d'.isDirectory q = true)
    {parts : List String} {origin : Location} (hfollow : d.follow origin parts = some place) :
    d'.follow origin parts = some place := by
  induction parts generalizing origin with
  | nil => exact hfollow
  | cons part parts ih =>
    rw [follow] at hfollow ⊢
    split_ifs at hfollow with hmissing hstay hparent hlong
    · rw [if_neg (by simpa using h origin (by simpa using hmissing)), if_pos hstay]
      exact ih hfollow
    · rw [if_neg (by simpa using h origin (by simpa using hmissing)), if_neg hstay, if_pos hparent]
      exact ih hfollow
    · rw [if_neg (by simpa using h origin (by simpa using hmissing)), if_neg hstay, if_neg hparent,
        if_neg hlong]
      exact ih hfollow

/-- A path leads to the same place where there are the same directories. -/
theorem follow_congr (h : ∀ q, d'.isDirectory q = d.isDirectory q) (origin : Location)
    (parts : List String) : d'.follow origin parts = d.follow origin parts := by
  refine Option.ext fun place => ⟨fun hplace => ?_, fun hplace => ?_⟩
  · exact follow_mono (fun q hq => (h q).symm.trans hq) hplace
  · exact follow_mono (fun q hq => (h q).trans hq) hplace

/-- A path leads to where it starts, to a directory, or to a place in a directory. -/
theorem follow_cases {parts : List String} {origin : Location}
    (h : d.follow origin parts = some place) :
    (place = origin ∧ parts = []) ∨ d.isDirectory place = true ∨
      ∃ parent name, place = parent ++ [name] ∧ d.isDirectory parent = true := by
  induction parts generalizing origin with
  | nil => exact .inl ⟨(Option.some.inj h).symm, rfl⟩
  | cons part parts ih =>
    right
    rw [follow] at h
    split_ifs at h with hmissing hstay hparent hlong
    all_goals have horigin : d.isDirectory origin = true := by simpa using hmissing
    · obtain ⟨rfl, -⟩ | hplace := ih h
      · exact .inl horigin
      · exact hplace
    · obtain ⟨rfl, -⟩ | hplace := ih h
      · refine .inl (isDirectory_of_isPrefixOf ?_ horigin)
        rw [List.isPrefixOf_iff_prefix]
        exact List.dropLast_prefix origin
      · exact hplace
    · obtain ⟨rfl, -⟩ | hplace := ih h
      · exact .inr ⟨origin, part, rfl, horigin⟩
      · exact hplace

theorem parts_ne_nil (path : String) : parts path ≠ [] := by
  simp [parts, List.splitOnP_ne_nil]

/-! ## Writing a file -/

/-- The directory with a file in its place. -/
def put (d : Directory) (place : Location) (content : String) : Directory :=
  { d with files := (place, content) :: d.files.filter (·.1 ≠ place) }

/-- What writing a file does: its path leads to a place that is no directory, and the file stands
there. -/
theorem write?_eq_some_iff : d.write? path content = some d' ↔
    ∃ place, d.locate? path = some place ∧ d.isDirectory place = false ∧
      d' = d.put place content := by
  unfold write?
  cases d.locate? path with
  | none => simp
  | some place =>
    dsimp only
    cases hplace : d.isDirectory place with
    | true => simp [hplace]
    | false =>
      rw [if_neg Bool.false_ne_true, Option.some.injEq]
      constructor
      · rintro rfl
        exact ⟨place, rfl, hplace, rfl⟩
      · rintro ⟨_, hfound, -, rfl⟩
        rw [Option.some.inj hfound]
        rfl

/-- A file that can be written stands in a directory. -/
theorem exists_parent (hlocate : d.locate? path = some place)
    (hplace : d.isDirectory place = false) :
    ∃ parent name, place = parent ++ [name] ∧ d.isDirectory parent = true := by
  unfold locate? at hlocate
  split_ifs at hlocate
  obtain ⟨-, hnil⟩ | hdirectory | hparent := follow_cases hlocate
  · exact absurd hnil (parts_ne_nil path)
  · rw [hplace] at hdirectory
    cases hdirectory
  · exact hparent

/-- A file takes no directory away. -/
theorem isDirectory_put_of_isDirectory (place : Location) (content : String) {q : Location}
    (h : d.isDirectory q = true) : (d.put place content).isDirectory q = true := by
  rw [isDirectory_iff] at h ⊢
  obtain hq | ⟨file, hfile, hq, hne⟩ := h
  · exact .inl hq
  · right
    by_cases hplace : file.1 = place
    · exact ⟨(place, content), List.mem_cons_self, hplace ▸ hq, hplace ▸ hne⟩
    · have hkept : file ∈ d.files.filter (·.1 ≠ place) :=
        List.mem_filter.mpr ⟨hfile, by simpa using hplace⟩
      exact ⟨file, List.mem_cons_of_mem _ hkept, hq, hne⟩

/-- A file makes no place a directory that was none. -/
theorem isDirectory_put (content : String) (hlocate : d.locate? path = some place)
    (hplace : d.isDirectory place = false) (q : Location) :
    (d.put place content).isDirectory q = d.isDirectory q := by
  rw [Bool.eq_iff_iff]
  refine ⟨fun h => ?_, isDirectory_put_of_isDirectory place content⟩
  obtain ⟨parent, name, rfl, hparent⟩ := exists_parent hlocate hplace
  rw [isDirectory_iff] at h
  obtain hq | ⟨file, hfile, hq, hne⟩ := h
  · exact (isDirectory_iff d q).mpr (.inl hq)
  · obtain rfl | hfile := List.mem_cons.mp hfile
    · refine isDirectory_of_isPrefixOf ?_ hparent
      rw [List.isPrefixOf_iff_prefix] at hq ⊢
      exact (List.prefix_concat_iff.mp hq).resolve_left hne.symm
    · exact (isDirectory_iff d q).mpr (.inr ⟨file, (List.mem_filter.mp hfile).1, hq, hne⟩)

/-- Writing a file changes no way. -/
theorem locate?_put (content : String) (hlocate : d.locate? path = some place)
    (hplace : d.isDirectory place = false) (other : String) :
    (d.put place content).locate? other = d.locate? other := by
  unfold locate?
  rw [follow_congr (isDirectory_put content hlocate hplace)]
  rfl

/-- A file that was written is found under its path. -/
theorem content?_look_of_write? (h : d.write? path content = some d') :
    (d'.look path).content? = some content := by
  obtain ⟨place, hlocate, hplace, rfl⟩ := write?_eq_some_iff.mp h
  have hfound := (locate?_put content hlocate hplace path).trans hlocate
  have hfile := (isDirectory_put content hlocate hplace place).trans hplace
  have hcontent : ∀ parts, (FileState.ofContent parts content).content? = some content := by
    intro parts
    unfold FileState.ofContent
    split_ifs <;> rfl
  rw [look, hfound]
  dsimp only
  rw [if_neg (by simp [hfile]), put, List.lookup_cons_self]
  dsimp only
  exact hcontent place

/-- Every text can be written to the path. -/
def Writable (d : Directory) (path : String) : Prop :=
  ∀ content, ∃ d', d.write? path content = some d'

/-- Where a file was written another one can be. -/
theorem writable_of_write? (h : d.write? path content = some d') : d'.Writable path := by
  obtain ⟨place, hlocate, hplace, rfl⟩ := write?_eq_some_iff.mp h
  have hfound := (locate?_put content hlocate hplace path).trans hlocate
  have hfile := (isDirectory_put content hlocate hplace place).trans hplace
  exact fun other => ⟨_, write?_eq_some_iff.mpr ⟨place, hfound, hfile, rfl⟩⟩

/-! ## Other places -/

theorem lookup_filter_of_ne {q : Location} (hq : q ≠ place) (files : List (Location × String)) :
    (files.filter (·.1 ≠ place)).lookup q = files.lookup q := by
  induction files with
  | nil => rfl
  | cons file files ih =>
    obtain ⟨r, text⟩ := file
    by_cases hr : r = place
    · have hqr : (q == r) = false := by simpa [hr] using hq
      rw [List.filter_cons_of_neg (by simpa using hr), ih, List.lookup_cons, hqr]
    · rw [List.filter_cons_of_pos (by simpa using hr), List.lookup_cons, List.lookup_cons, ih]

/-- A directory after one of its files may have been written, and nothing else. -/
structure AgreeOff (path : String) (d d' : Directory) : Prop where
  place : d'.place = d.place
  locate? : ∀ other, d'.locate? other = d.locate? other
  look : ∀ other, d.locate? other ≠ d.locate? path → d'.look other = d.look other

theorem AgreeOff.refl (path : String) (d : Directory) : AgreeOff path d d :=
  ⟨rfl, fun _ => rfl, fun _ _ => rfl⟩

theorem AgreeOff.trans {d'' : Directory} (h : AgreeOff path d d') (h' : AgreeOff path d' d'') :
    AgreeOff path d d'' where
  place := h'.place.trans h.place
  locate? other := (h'.locate? other).trans (h.locate? other)
  look other hother := by
    refine (h'.look other ?_).trans (h.look other hother)
    rwa [h.locate?, h.locate?]

/-- Writing a file changes nothing in any other place. -/
theorem agreeOff_of_write? (h : d.write? path content = some d') : AgreeOff path d d' := by
  obtain ⟨place, hlocate, hplace, rfl⟩ := write?_eq_some_iff.mp h
  refine ⟨rfl, locate?_put content hlocate hplace, fun other hother => ?_⟩
  rw [look, look, locate?_put content hlocate hplace]
  cases hq : d.locate? other with
  | none => rfl
  | some q =>
    have hne : q ≠ place := by
      rintro rfl
      exact hother (hq.trans hlocate.symm)
    dsimp only
    rw [isDirectory_put content hlocate hplace, put, List.lookup_cons, beq_false_of_ne hne]
    dsimp only
    rw [lookup_filter_of_ne hne]

end Directory

/-- **A store is read back from its document and from its file.** -/
theorem readStore_of_write? {s : Store} (h : s.WellFormed) :
    Store.ofJson s.toJson = .ok s ∧
      ∀ (d d' : Directory) (path : String), d.write? path (storeText s) = some d' →
        readStore d'.look path = .ok s := by
  refine ⟨Store.ofJson_toJson h, fun d d' path hwrite => ?_⟩
  have hcontent := Directory.content?_look_of_write? hwrite
  have hfile : d'.look path ≠ .absent := by
    intro habsent
    rw [habsent] at hcontent
    cases hcontent
  rw [readStore, if_neg hfile, hcontent]
  dsimp only
  rw [storeText, Store.read?_pretty_toJson]
  dsimp only
  rw [Store.ofJson_toJson h]
  rfl

/-- A store with a plain matrix, a system and a vector, whose numbers stand on both sides of the
64-bit range. -/
def sampleStore : Store where
  matrices := ((Vector.replicate 26 none).set (0 : Fin 26)
      (some ⟨⟨1, 2⟩, [[1 / 2, -9223372036854775808]], false⟩)).set (1 : Fin 26)
    (some ⟨⟨1, 2⟩, [[-9223372036854775809, 9223372036854775807]], true⟩)
  vectors := (Vector.replicate 26 none).set (25 : Fin 26) (some ⟨[9223372036854775808 / 3, 0]⟩)

theorem wellFormed_sampleStore : sampleStore.WellFormed where
  matrixAt i m h := by
    obtain rfl | h := eq_or_getElem_eq_of_set h
    · decide +kernel
    obtain rfl | h := eq_or_getElem_eq_of_set h
    · decide +kernel
    · simp at h
  vectorAt i v h := by
    obtain rfl | h := eq_or_getElem_eq_of_set h
    · decide +kernel
    · simp at h

/-- The sample is saved in an empty directory and loaded again. -/
theorem readStore_of_write?_sampleStore :
    Store.ofJson sampleStore.toJson = .ok sampleStore ∧
      readStore ((Directory.mk ["home"] []).put ["home", "store.json"] (storeText sampleStore)).look
        "store.json" = .ok sampleStore := by
  have hwrite : (Directory.mk ["home"] []).write? "store.json" (storeText sampleStore) =
      some ((Directory.mk ["home"] []).put ["home", "store.json"] (storeText sampleStore)) :=
    Directory.write?_eq_some_iff.mpr ⟨_, by decide +kernel, by decide +kernel, rfl⟩
  have h := readStore_of_write? wellFormed_sampleStore
  exact ⟨h.1, h.2 _ _ _ hwrite⟩

end ExactLinear.CommandLine
