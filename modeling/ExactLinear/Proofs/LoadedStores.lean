import Mathlib.Data.List.Sort
import ExactLinear.CommandLine.Startup
import ExactLinear.Proofs.DocumentMeaning
import ExactLinear.Proofs.JsonDocuments
import ExactLinear.Proofs.Names

/-!
# Loaded stores

`Store.Reflects` says that a store has what a document says: the names are those of the members of
its two sections, and each of them stands for the matrix or the vector that its member writes. The
reader binds the members one after the other. As no name occurs twice, each binding survives the
later ones (`Store.foldlM_addRead_eq_ok_iff`), so a document is read as a store exactly when the
store reflects it (`Store.ofJson_eq_ok_iff`).

The flag of a matrix is the one thing that is read leniently: a member that is no Boolean counts as
false, and is false for good when the store is saved again. The flags are kept exactly if all of
them are Booleans (`Store.Reflects.keepsFlags_iff`).
-/

namespace ExactLinear

open Json

/-! ## The sections of a document -/

/-- The members of a section of a document. A section that is missing has none. -/
def Json.entriesOf (name : String) (j : Json) : List (String × Json) :=
  ((j.member? name).bind members?).getD []

/-- A section is an object, if it is there. -/
def Json.SectionValid (name : String) (j : Json) : Prop :=
  ∀ found, j.member? name = some found → ∃ members, found = .object members

variable {j : Json}

theorem Json.Sorted.member? (h : j.Sorted) {name : String} {found : Json}
    (hfound : j.member? name = some found) : found.Sorted := by
  cases h with
  | object _ hmembers =>
    obtain ⟨front, back, rfl, -⟩ := List.lookup_eq_some_iff.mp hfound
    exact hmembers (name, found) (by simp)
  | _ => cases hfound

/-- In a sorted document the names in a section are sorted. -/
theorem Json.Sorted.entriesOf (h : j.Sorted) (name : String) :
    ((j.entriesOf name).map (·.1)).Pairwise (· < ·) := by
  unfold Json.entriesOf
  cases hfound : j.member? name with
  | none => exact .nil
  | some found =>
    cases h.member? hfound with
    | object hsorted _ => exact hsorted
    | _ => exact .nil

namespace Store

variable {s t : Store} {name : String}

theorem sectionOf_eq_ok_iff {members : List (String × Json)} :
    sectionOf j name = .ok members ↔ j.SectionValid name ∧ j.entriesOf name = members := by
  unfold sectionOf SectionValid entriesOf
  cases j.member? name with
  | none => simp [eq_comm]
  | some found => cases found <;> simp [members?, eq_comm]

/-! ## Binding the members -/

theorem addRead_eq_ok_iff {place : String} {value : Except DocumentError Stored} :
    s.addRead place name value = .ok t ↔ ∃ x, value = .ok x ∧ s.insert name x = .ok t := by
  simp only [addRead, DocumentError.locate, bind_eq_ok_iff, mapError_eq_ok_iff]

/-- The second store has what the members write under their names, and all other names stand for
what they stand for in the first one. -/
def Adds {α : Type} (wrap : α → Stored) (writes : Json → α → Prop)
    (members : List (String × Json)) (s t : Store) : Prop :=
  (∀ m ∈ members, ∃ a, t.find? m.1 = some (wrap a) ∧ writes m.2 a) ∧
    ∀ name ∉ members.map (·.1), t.find? name = s.find? name

/-- The loop over members with different names adds what they write. It succeeds whenever there is
a store to which this leads. -/
theorem foldlM_addRead_eq_ok_iff {α : Type} (place : String) {read : Json → Except DocumentError α}
    {writes : Json → α → Prop} (hread : ∀ j a, read j = .ok a ↔ writes j a) (wrap : α → Stored)
    {members : List (String × Json)} (hnames : (members.map (·.1)).Nodup) :
    members.foldlM (fun s m => s.addRead place m.1 ((read m.2).map wrap)) s = .ok t ↔
      Adds wrap writes members s t := by
  unfold Adds
  induction members generalizing s with
  | nil =>
    rw [List.foldlM_nil]
    constructor
    · intro h
      obtain rfl := Except.ok.inj h
      exact ⟨List.forall_mem_nil _, fun _ _ => rfl⟩
    · rintro ⟨-, h⟩
      exact congrArg Except.ok (eq_of_find? fun name => (h name List.not_mem_nil).symm)
  | cons m members ih =>
    obtain ⟨hm, hnames⟩ := List.nodup_cons.mp hnames
    simp only [List.foldlM_cons, bind_eq_ok_iff, ih hnames, addRead_eq_ok_iff, map_eq_ok_iff, hread]
    constructor
    · rintro ⟨next, ⟨_, ⟨a, ha, rfl⟩, hinsert⟩, hbound, hframe⟩
      refine ⟨List.forall_mem_cons.mpr ⟨⟨a, ?_, ha⟩, hbound⟩, fun name hname => ?_⟩
      · rw [hframe _ hm, find?_insert hinsert, if_pos rfl]
      · obtain ⟨hne, hname⟩ := not_or.mp (List.mem_cons.not.mp hname)
        rw [hframe _ hname, find?_insert hinsert, if_neg hne]
    · rintro ⟨hbound, hframe⟩
      obtain ⟨⟨a, hfind, ha⟩, hbound⟩ := List.forall_mem_cons.mp hbound
      obtain ⟨next, hinsert⟩ := exists_insert_of_find? hfind s
      refine ⟨next, ⟨_, ⟨a, ha, rfl⟩, hinsert⟩, hbound, fun name hname => ?_⟩
      rw [find?_insert hinsert]
      split_ifs with heq
      · exact heq ▸ hfind
      · exact hframe name (List.mem_cons.not.mpr (not_or.mpr ⟨heq, hname⟩))

/-! ## Documents and their stores -/

/-- The store has what the document says, and nothing else. -/
structure Reflects (s : Store) (j : Json) : Prop where
  sections : j.SectionValid "matrices" ∧ j.SectionValid "vectors"
  /-- The names are those of the members of the sections. -/
  names : s.names = (j.entriesOf "matrices").map (·.1) ++ (j.entriesOf "vectors").map (·.1)
  /-- Each name in the one section stands for the matrix that its member writes. -/
  matrix : ∀ e ∈ j.entriesOf "matrices", ∃ m, s.find? e.1 = some (.matrix m) ∧ WritesMatrix e.2 m
  /-- Each name in the other section stands for the vector that its member writes. -/
  vector : ∀ e ∈ j.entriesOf "vectors", ∃ v, s.find? e.1 = some (.vector v) ∧ WritesVector e.2 v

/-- A store that has some matrices and vectors has just their names if it has no others. -/
theorem names_eq_iff {matrices vectors : List String} (hmatrices : matrices.Pairwise (· < ·))
    (hvectors : vectors.Pairwise (· < ·))
    (hmatrix : ∀ name ∈ matrices, ∃ m, s.find? name = some (.matrix m))
    (hvector : ∀ name ∈ vectors, ∃ v, s.find? name = some (.vector v)) :
    s.names = matrices ++ vectors ↔
      (∀ name m, s.find? name = some (.matrix m) → name ∈ matrices) ∧
        ∀ name v, s.find? name = some (.vector v) → name ∈ vectors := by
  constructor
  · intro h
    have hmem : ∀ name x, s.find? name = some x → name ∈ matrices ∨ name ∈ vectors :=
      fun name x hx => List.mem_append.mp (h ▸ mem_names_iff.mpr ⟨x, hx⟩)
    refine ⟨fun name m hm => (hmem name _ hm).resolve_right fun hv => ?_,
      fun name v hv => (hmem name _ hv).resolve_left fun hm => ?_⟩
    · obtain ⟨v, hv⟩ := hvector name hv
      exact find?_ne_vector hm s v hv
    · obtain ⟨m, hm⟩ := hmatrix name hm
      exact find?_ne_vector hm s v hv
  · rintro ⟨hm, hv⟩
    refine congrArg₂ (· ++ ·) (s.namedMatrices_sorted.eq_of_mem_iff hmatrices fun name => ?_)
      (s.namedVectors_sorted.eq_of_mem_iff hvectors fun name => ?_)
    · simp only [List.mem_map, Prod.exists, exists_and_right, exists_eq_right,
        mem_namedMatrices_iff]
      exact ⟨fun ⟨m, h⟩ => hm name m h, hmatrix name⟩
    · simp only [List.mem_map, Prod.exists, exists_and_right, exists_eq_right,
        mem_namedVectors_iff]
      exact ⟨fun ⟨v, h⟩ => hv name v h, hvector name⟩

theorem ofJson_eq_ok_iff_adds (hj : j.Sorted) :
    ofJson j = .ok s ↔ (j.SectionValid "matrices" ∧ j.SectionValid "vectors") ∧
      ∃ mid, Adds .matrix WritesMatrix (j.entriesOf "matrices") empty mid ∧
        Adds .vector WritesVector (j.entriesOf "vectors") mid s := by
  have hnodup : ∀ name, ((j.entriesOf name).map (·.1)).Nodup := fun name =>
    (hj.entriesOf name).nodup
  simp only [← foldlM_addRead_eq_ok_iff "matrix" (fun _ _ => matrixOfJson_eq_ok_iff) .matrix
    (hnodup _), ← foldlM_addRead_eq_ok_iff "vector" (fun _ _ => vectorOfJson_eq_ok_iff) .vector
    (hnodup _)]
  unfold ofJson
  simp only [bind_eq_ok_iff, sectionOf_eq_ok_iff]
  constructor
  · rintro ⟨_, ⟨hmatrices, rfl⟩, mid, hmid, _, ⟨hvectors, rfl⟩, hs⟩
    exact ⟨⟨hmatrices, hvectors⟩, mid, hmid, hs⟩
  · rintro ⟨⟨hmatrices, hvectors⟩, mid, hmid, hs⟩
    exact ⟨_, ⟨hmatrices, rfl⟩, mid, hmid, _, ⟨hvectors, rfl⟩, hs⟩

/-- The store that has the matrices of another one and no vectors. -/
def withoutVectors (s : Store) : Store := { s with vectors := empty.vectors }

theorem find?_withoutVectors {m : RatMatrix} :
    s.withoutVectors.find? name = some (.matrix m) ↔ s.find? name = some (.matrix m) := by
  rw [find?_eq_some_matrix_iff, find?_eq_some_matrix_iff]
  rfl

theorem find?_withoutVectors_ne (v : RatVector) :
    s.withoutVectors.find? name ≠ some (.vector v) := by
  intro h
  obtain ⟨i, hi, -⟩ := find?_eq_some_vector_iff.mp h
  rw [vectorAt, withoutVectors, empty, Fin.getElem_fin, Vector.getElem_replicate] at hi
  cases hi

/-- As no name stands for a matrix and for a vector, what the two loops add is there in the end, and
nothing else is. -/
theorem exists_adds_iff {matrices vectors : List (String × Json)} :
    (∃ mid, Adds .matrix WritesMatrix matrices empty mid ∧
        Adds .vector WritesVector vectors mid s) ↔
      ((∀ e ∈ matrices, ∃ m, s.find? e.1 = some (.matrix m) ∧ WritesMatrix e.2 m) ∧
        ∀ e ∈ vectors, ∃ v, s.find? e.1 = some (.vector v) ∧ WritesVector e.2 v) ∧
      (∀ name m, s.find? name = some (.matrix m) → name ∈ matrices.map (·.1)) ∧
        ∀ name v, s.find? name = some (.vector v) → name ∈ vectors.map (·.1) := by
  constructor
  · rintro ⟨mid, ⟨hmid, hrest⟩, hvector, hs⟩
    have hother : ∀ {name m t}, find? t name = some (.matrix m) →
        name ∉ vectors.map (·.1) := by
      intro name m t hm hname
      obtain ⟨e, he, rfl⟩ := List.mem_map.mp hname
      obtain ⟨v, hv, -⟩ := hvector e he
      exact find?_ne_vector hm s v hv
    refine ⟨⟨fun e he => ?_, hvector⟩, fun name m hm => ?_, fun name v hv => ?_⟩
    · obtain ⟨m, hm, hwrites⟩ := hmid e he
      exact ⟨m, (hs _ (hother hm)).trans hm, hwrites⟩
    · by_contra hname
      rw [hs name (hother hm), hrest name hname, find?_empty] at hm
      cases hm
    · by_contra hname
      rw [hs name hname] at hv
      by_cases hm : name ∈ matrices.map (·.1)
      · obtain ⟨e, he, rfl⟩ := List.mem_map.mp hm
        obtain ⟨m, hm, -⟩ := hmid e he
        exact find?_ne_vector hm mid v hv
      · rw [hrest name hm, find?_empty] at hv
        cases hv
  · rintro ⟨⟨hmatrix, hvector⟩, hmatrices, hvectors⟩
    -- between the loops there are the matrices only
    refine ⟨s.withoutVectors, ⟨fun e he => ?_, fun name hname => ?_⟩, hvector,
      fun name hname => Option.ext fun x => ?_⟩
    · obtain ⟨m, hm, hwrites⟩ := hmatrix e he
      exact ⟨m, find?_withoutVectors.mpr hm, hwrites⟩
    · rw [find?_empty]
      refine Option.eq_none_iff_forall_ne_some.mpr fun x hx => ?_
      cases x with
      | matrix m => exact hname (hmatrices name m (find?_withoutVectors.mp hx))
      | vector v => exact find?_withoutVectors_ne v hx
    · cases x with
      | matrix m => exact find?_withoutVectors.symm
      | vector v =>
        exact ⟨fun hx => absurd (hvectors name v hx) hname,
          fun hx => absurd hx (find?_withoutVectors_ne v)⟩

/-- A document is read as a store exactly if the store reflects it. -/
theorem ofJson_eq_ok_iff (hj : j.Sorted) : ofJson j = .ok s ↔ s.Reflects j := by
  rw [ofJson_eq_ok_iff_adds hj, exists_adds_iff]
  have hnames : (∀ e ∈ j.entriesOf "matrices", ∃ m, s.find? e.1 = some (.matrix m) ∧
        WritesMatrix e.2 m) →
      (∀ e ∈ j.entriesOf "vectors", ∃ v, s.find? e.1 = some (.vector v) ∧
        WritesVector e.2 v) → _ := fun hmatrix hvector =>
    names_eq_iff (hj.entriesOf "matrices") (hj.entriesOf "vectors")
      (List.forall_mem_map.mpr fun e he => (hmatrix e he).imp fun _ h => h.1)
      (List.forall_mem_map.mpr fun e he => (hvector e he).imp fun _ h => h.1)
  constructor
  · rintro ⟨hsections, ⟨hmatrix, hvector⟩, honly⟩
    exact ⟨hsections, (hnames hmatrix hvector).mpr honly, hmatrix, hvector⟩
  · rintro ⟨hsections, honly, hmatrix, hvector⟩
    exact ⟨hsections, ⟨hmatrix, hvector⟩, (hnames hmatrix hvector).mp honly⟩

/-! ## Flags -/

/-- Where the document has a flag, it is the flag of the matrix. -/
def KeepsFlags (s : Store) (j : Json) : Prop :=
  ∀ e ∈ j.entriesOf "matrices", ∀ m flag, s.find? e.1 = some (.matrix m) →
    e.2.member? "augmented" = some flag → flag = .bool m.augmented

/-- A store that reflects its document keeps the flags exactly if they are Booleans. -/
theorem Reflects.keepsFlags_iff (h : s.Reflects j) : s.KeepsFlags j ↔
    ∀ e ∈ j.entriesOf "matrices", ∀ flag, e.2.member? "augmented" = some flag →
      ∃ b, flag = .bool b := by
  constructor
  · intro hkeeps e he flag hflag
    obtain ⟨m, hm, -⟩ := h.matrix e he
    exact ⟨m.augmented, hkeeps e he m flag hm hflag⟩
  · intro hboolean e he m flag hm hflag
    obtain ⟨b, rfl⟩ := hboolean e he flag hflag
    obtain ⟨m', hm', hwrites⟩ := h.matrix e he
    obtain rfl := Stored.matrix.inj (Option.some.inj (hm.symm.trans hm'))
    have haugmented := hwrites.augmented
    rw [hflag, Option.some.injEq, Json.bool.injEq] at haugmented
    rw [Bool.eq_iff_iff.mpr haugmented]

end Store

namespace CommandLine

/-! ## Store files -/

/-- A file with the text of a document is read as the store of the document. -/
theorem readStore_of_content? {look : String → FileState} {path content : String} {doc : Json}
    (hcontent : (look path).content? = some content) (hdoc : Json.read? content = some doc) :
    readStore look path = (Store.ofJson doc).mapError fun _ => .invalidStore path := by
  have hfile : look path ≠ .absent := by
    intro habsent
    rw [habsent] at hcontent
    cases hcontent
  rw [readStore, if_neg hfile, hcontent]
  dsimp only
  rw [hdoc]

/-- **A loaded store has what its document says, and keeps the flags that are Booleans.** A document
is accepted exactly if the store reflects it: the names are those of the members of its sections,
every matrix and every vector has the shape and, position by position, the rationals that are
written there, and a matrix is augmented exactly if its flag is there and is true. So the flags are
kept exactly if each of them is a Boolean or is missing. A store file is read in this way. -/
theorem readStore_reflects (j : Json) (hj : j.Sorted) (s : Store) :
    (Store.ofJson j = .ok s ↔ s.Reflects j) ∧
      (Store.ofJson j = .ok s → (s.KeepsFlags j ↔
        ∀ e ∈ j.entriesOf "matrices", ∀ flag, e.2.member? "augmented" = some flag →
          ∃ b, flag = .bool b)) ∧
      ∀ (look : String → FileState) (path content : String), (look path).content? = some content →
        Json.read? content = some j → (readStore look path = .ok s ↔ Store.ofJson j = .ok s) := by
  refine ⟨Store.ofJson_eq_ok_iff hj, fun h => ?_, fun look path content hcontent hread => ?_⟩
  · exact ((Store.ofJson_eq_ok_iff hj).mp h).keepsFlags_iff
  · rw [readStore_of_content? hcontent hread, mapError_eq_ok_iff]

/-- A document as it may be written by hand: a fraction is not in lowest terms and has a negative
denominator, an integer of more than 64 bits has its digits in groups, there is no section for
vectors, and the flag can be any value. -/
def handWritten (flag : Json) : Json :=
  .object
    [("matrices", .object
      [("A", .object
        [("augmented", flag),
          ("values", .array [.array
            [.object [fractionMark, ("denominator", .integer (-4)), ("numerator", .integer 2)],
              .object [fractionMark, ("denominator", .integer 1),
                ("numerator", .string "9_223_372_036_854_775_808")]]])])])]

/-- What the document is read as. -/
def handWrittenStore (augmented : Bool) : Store where
  matrices := Vector.ofFn fun i =>
    if i.val = 0 then some ⟨⟨1, 2⟩, [[-1 / 2, 9223372036854775808]], augmented⟩ else none
  vectors := Vector.replicate 26 none

/-- The document is read back from its text, if the flag is. -/
theorem read?_handWritten {flag : Json} (h : Exact 124 flag) :
    Json.read? (handWritten flag).pretty = some (handWritten flag) := by
  have hnames : ["__type__", "denominator", "numerator"].Pairwise (· < ·) := by decide +kernel
  have hnames' : ["augmented", "values"].Pairwise (· < ·) := by decide +kernel
  have hfraction : ∀ {denom numer : Json}, Exact 121 denom → Exact 121 numer →
      Exact 122 (.object [fractionMark, ("denominator", denom), ("numerator", numer)]) := by
    intro denom numer hdenom hnumer
    refine .object hnames ?_
    simp only [List.forall_mem_cons]
    exact ⟨.string _, hdenom, hnumer, List.forall_mem_nil _⟩
  refine read?_text (.object (List.pairwise_singleton _ _) (List.forall_mem_singleton.mpr ?_)) _
  refine .object (List.pairwise_singleton _ _) (List.forall_mem_singleton.mpr ?_)
  refine .object hnames' ?_
  simp only [List.forall_mem_cons]
  refine ⟨h, .array (List.forall_mem_singleton.mpr (.array ?_)), List.forall_mem_nil _⟩
  simp only [List.forall_mem_cons]
  exact ⟨hfraction (.integer (by decide) (by decide)) (.integer (by decide) (by decide)),
    hfraction (.integer (by decide) (by decide)) (.string _), List.forall_mem_nil _⟩

/-- The document of a system: what is written there in an unusual form is read as it is meant. -/
theorem readStore_reflects_of_handWritten :
    let document := handWritten (.bool true)
    let store := handWrittenStore true
    readStore (fun _ => .text document.pretty) "s.json" = .ok store ∧ store.Reflects document ∧
      store.KeepsFlags document := by
  intro document store
  have hread : Json.read? document.pretty = some document := read?_handWritten (.bool true)
  have hstore : Store.ofJson document = .ok store := toOption_eq_some_iff.mp (by decide +kernel)
  obtain ⟨hreflects, hflags, hfile⟩ := readStore_reflects document (sorted_of_read? hread) store
  refine ⟨(hfile _ _ _ rfl hread).mpr hstore, hreflects.mp hstore, (hflags hstore).mpr ?_⟩
  intro e he flag hflag
  obtain rfl := List.mem_singleton.mp he
  exact ⟨true, (Option.some.inj hflag).symm⟩

/-- A flag that is the number one is accepted, and the matrix is not augmented. -/
theorem readStore_of_number_flag :
    let document := handWritten (.integer 1)
    let store := handWrittenStore false
    Json.read? document.pretty = some document ∧
      readStore (fun _ => .text document.pretty) "s.json" = .ok store ∧
        ¬ store.KeepsFlags document := by
  intro document store
  have hread : Json.read? document.pretty = some document :=
    read?_handWritten (.integer (by decide) (by decide))
  have hstore : Store.ofJson document = .ok store := toOption_eq_some_iff.mp (by decide +kernel)
  refine ⟨hread, ?_, fun h => ?_⟩
  · rw [readStore_of_content? rfl hread]
    exact mapError_eq_ok_iff.mpr hstore
  · cases h _ (List.mem_singleton_self _) ⟨⟨1, 2⟩, [[-1 / 2, 9223372036854775808]], false⟩ _
      (by decide +kernel) rfl

end CommandLine

end ExactLinear
