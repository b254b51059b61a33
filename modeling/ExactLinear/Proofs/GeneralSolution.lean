import ExactLinear.Proofs.SolutionSet
import ExactLinear.Proofs.TextParts

/-!
# The parts of a general solution

When a system has infinitely many solutions, `solve` names the free variables and gives one
expression for each of the others. Which variables are free can be told from the coefficients alone:
they are those whose column depends on the columns before it. A dependence between columns is a
property of the row space (`dependentColumn_iff`), so a reduction keeps it, and in reduced rows the
columns without a lead are the dependent ones (`Reduced.exists_solvedBy_iff`).

`GeneralSolution` says how the parts fit together. As the free and the other variables are all
variables, each of them once, sorting the printed lines by their variables leaves one line for each
variable, in the order of the variables (`GeneralSolution.forall₂_lines`).
-/

namespace ExactLinear

open RatMatrix (entryAt leadingRows classify)
open Finset

variable {vars r : ℕ} {lead : ℕ → ℕ} {rows : List (List ℚ)} {free : List ℕ}
  {expressions : List (ℕ × AffineExpr)}

/-! ## Dependent columns -/

namespace RatMatrix

/-- Column `j` is a linear combination of the columns before it. -/
def DependentColumn (m : RatMatrix) (j : ℕ) : Prop :=
  ∃ a : ℕ → ℚ, ∀ i < m.shape.rows, entryAt m.rows i j = ∑ k ∈ range j, a k * entryAt m.rows i k

/-- A column depends on those before it when some numbers solve all equations of the row space that
have the column for their constants. -/
theorem dependentColumn_iff {m : RatMatrix} (hm : m.WellFormed) {j : ℕ} :
    m.DependentColumn j ↔ ∃ a, rowSpace m.rows ≤ solvedBy j a := by
  refine exists_congr fun a => ?_
  simp only [rowSpace_le_solvedBy_iff, mem_solvedBy_iff, mul_comm (a _),
    eq_comm (b := Finset.sum _ _)]
  refine ⟨fun h i => ?_, fun h i _ => h i⟩
  rcases lt_or_ge i m.shape.rows with hi | hi
  · exact h i hi
  · simp [hm.rectangular.entryAt_of_rows_le hi]

end RatMatrix

/-- In reduced rows the columns that depend on those before them are those without a lead. -/
theorem Reduced.exists_solvedBy_iff (hs : Reduced vars r lead rows) {j : ℕ} (hj : j < vars) :
    (∃ a, rowSpace rows ≤ solvedBy j a) ↔ j ∈ freeColumns vars r lead := by
  rw [mem_freeColumns, and_iff_right hj]
  constructor
  · -- the row that leads in the column has nothing before it
    rintro ⟨a, ha⟩ i hi rfl
    have hrow := mem_solvedBy_iff.mp (ha (entryAt_mem_rowSpace rows i))
    rw [hs.lead_eq_one i hi, Finset.sum_eq_zero fun k hk => by
      rw [hs.before_lead i hi k (mem_range.mp hk), zero_mul]] at hrow
    exact zero_ne_one hrow
  · -- the column has in row `i` the multiple of the column that leads this row
    intro hfree
    let a : ℕ → ℚ := Function.extend (fun i : Fin r => lead i) (fun i => entryAt rows i j) 0
    have hinjective := (strictMono_of_ascends hs.ascends).injective
    have hlead : ∀ i < r, a (lead i) = entryAt rows i j := fun i hi =>
      hinjective.extend_apply (fun i => entryAt rows i j) 0 ⟨i, hi⟩
    have hrest : ∀ k, (∀ i < r, lead i ≠ k) → a k = 0 := fun k hk =>
      Function.extend_apply' _ _ _ fun ⟨i, hi⟩ => hk i i.isLt hi
    refine ⟨a, ExactLinear.rowSpace_le_solvedBy_iff.mpr fun i => mem_solvedBy_iff.mpr ?_⟩
    rcases lt_or_ge i r with hi | hi
    · rcases lt_or_gt_of_ne (hfree i hi) with hlt | hgt
      · rw [Finset.sum_eq_single_of_mem (lead i) (mem_range.mpr hlt), hs.lead_eq_one i hi, one_mul,
          hlead i hi]
        intro k _ hk
        by_cases hled : ∃ i' < r, lead i' = k
        · obtain ⟨i', hi', rfl⟩ := hled
          rw [hs.column hi' (fun h => hk (h ▸ rfl)), zero_mul]
        · push Not at hled
          rw [hrest k hled, mul_zero]
      · rw [hs.before_lead i hi j hgt]
        refine Finset.sum_eq_zero fun k hk => ?_
        rw [hs.before_lead i hi k ((mem_range.mp hk).trans hgt), zero_mul]
    · rw [hs.rest_eq_zero i hi j hj]
      refine Finset.sum_eq_zero fun k hk => ?_
      rw [hs.rest_eq_zero i hi k ((mem_range.mp hk).trans hj), zero_mul]

/-! ## The parts of the answer -/

/-- The free variables and the expressions for the others, as parts of one answer in `vars`
variables. -/
structure GeneralSolution (vars : ℕ) (free : List ℕ) (expressions : List (ℕ × AffineExpr)) :
    Prop where
  /-- The free variables ascend. -/
  free_ascends : free.Pairwise (· < ·)
  /-- The variables that have an expression ascend. -/
  bound_ascends : (expressions.map (·.1)).Pairwise (· < ·)
  /-- Each variable is free or has an expression, and not both. -/
  partition : (free ++ expressions.map (·.1)).Perm (List.range vars)
  /-- The variables in an expression ascend. -/
  terms_ascend : ∀ e ∈ expressions, (e.2.terms.map (·.1)).Pairwise (· < ·)
  /-- The variables in an expression are free, come after its own variable, and count. -/
  terms_free : ∀ e ∈ expressions, ∀ t ∈ e.2.terms, t.1 ∈ free ∧ e.1 < t.1 ∧ t.2 ≠ 0

/-- The expression of a row has a term for each free variable behind its own that occurs in the
row. -/
theorem AffineExpr.terms_ofRow (vars : ℕ) (free : List ℕ) (c : ℕ) (row : List ℚ) :
    (AffineExpr.ofRow vars free c row).terms =
      (free.filter fun k => c < k ∧ row.getD k 0 ≠ 0).map fun k => (k, -row.getD k 0) := by
  unfold AffineExpr.ofRow
  dsimp only
  induction free with
  | nil => rfl
  | cons k free ih =>
    by_cases hk : c < k ∧ row.getD k 0 ≠ 0
    · rw [List.filterMap_cons, if_pos hk, List.filter_cons, if_pos (decide_eq_true hk),
        List.map_cons, ih]
    · rw [List.filterMap_cons, if_neg hk, List.filter_cons, if_neg (by simpa using hk), ih]

/-- What is read off reduced rows fits together. -/
theorem Reduced.generalSolution (hs : Reduced vars r lead rows)
    (hfree : free = (List.range vars).filter fun j => (leadingRows vars rows).all (·.1 ≠ j)) :
    GeneralSolution vars free
      ((leadingRows vars rows).map fun (c, row) => (c, AffineExpr.ofRow vars free c row)) := by
  have hmem : ∀ j, j ∈ free ↔ j < vars ∧ ∀ i < r, lead i ≠ j := fun j => by
    rw [hfree, hs.mem_free_iff, mem_freeColumns]
  have hascends : free.Pairwise (· < ·) := hfree ▸ List.pairwise_lt_range.filter _
  rw [hs.leadingRows_eq, List.map_map]
  have hbound : ((List.range r).map ((fun (c, row) => (c, AffineExpr.ofRow vars free c row)) ∘
      fun i => (lead i, rows.getD i []))).map (·.1) = (List.range r).map lead := by
    rw [List.map_map]
    rfl
  have hleads : ((List.range r).map lead).Pairwise (· < ·) :=
    List.pairwise_map.mpr (List.pairwise_lt_range.imp_of_mem fun _ hk hik =>
      hs.ascends _ _ hik (List.mem_range.mp hk))
  constructor
  case free_ascends => exact hascends
  case bound_ascends => rwa [hbound]
  case partition =>
    rw [hbound]
    refine (List.perm_ext_iff_of_nodup ?_ List.nodup_range).mpr fun j => ?_
    · refine List.nodup_append'.mpr ⟨hascends.imp Nat.ne_of_lt, hleads.imp Nat.ne_of_lt, ?_⟩
      intro j hj hlead
      obtain ⟨i, hi, rfl⟩ := List.mem_map.mp hlead
      exact ((hmem _).mp hj).2 i (List.mem_range.mp hi) rfl
    · simp only [List.mem_append, hmem, List.mem_map, List.mem_range]
      constructor
      · rintro (hj | ⟨i, hi, rfl⟩)
        · exact hj.1
        · exact hs.lead_lt i hi
      · intro hj
        by_cases hled : ∃ i < r, lead i = j
        · exact .inr hled
        · push Not at hled
          exact .inl ⟨hj, hled⟩
  case terms_ascend =>
    intro e he
    obtain ⟨i, -, rfl⟩ := List.mem_map.mp he
    show ((AffineExpr.ofRow vars free (lead i) (rows.getD i [])).terms.map (·.1)).Pairwise (· < ·)
    rw [AffineExpr.terms_ofRow, List.map_map]
    exact List.pairwise_map.mpr (hascends.filter _)
  case terms_free =>
    intro e he t ht
    obtain ⟨i, -, rfl⟩ := List.mem_map.mp he
    rw [Function.comp_apply, AffineExpr.terms_ofRow] at ht
    obtain ⟨k, hk, rfl⟩ := List.mem_map.mp ht
    obtain ⟨hkfree, hk⟩ := List.mem_filter.mp hk
    exact ⟨hkfree, (of_decide_eq_true hk).1, neg_ne_zero.mpr (of_decide_eq_true hk).2⟩

/-! ## Lines in the order of their variables -/

namespace Solution

theorem insertLine_perm (line : ℕ × String) (lines : List (ℕ × String)) :
    (insertLine line lines).Perm (line :: lines) := by
  induction lines with
  | nil => exact .refl _
  | cons l lines ih =>
    rw [insertLine]
    split_ifs
    · exact .refl _
    · exact (ih.cons l).trans (.swap line l lines)

theorem insertLine_sorted (line : ℕ × String) {lines : List (ℕ × String)}
    (h : lines.Pairwise fun l l' => l.1 ≤ l'.1) :
    (insertLine line lines).Pairwise fun l l' => l.1 ≤ l'.1 := by
  induction lines with
  | nil => exact List.pairwise_singleton _ _
  | cons l lines ih =>
    obtain ⟨hl, hlines⟩ := List.pairwise_cons.mp h
    rw [insertLine]
    split_ifs with hlt
    · refine List.pairwise_cons.mpr ⟨List.forall_mem_cons.mpr ⟨hlt.le, fun l' hl' => ?_⟩, h⟩
      exact hlt.le.trans (hl l' hl')
    · refine List.pairwise_cons.mpr ⟨fun l' hl' => ?_, ih hlines⟩
      obtain rfl | hl' := List.mem_cons.mp ((insertLine_perm line lines).mem_iff.mp hl')
      · exact not_lt.mp hlt
      · exact hl l' hl'

/-- Sorting changes the order of the lines and nothing else, and the variables then ascend. -/
theorem sortLines_spec (lines : List (ℕ × String)) :
    (sortLines lines).Perm lines ∧ (sortLines lines).Pairwise fun l l' => l.1 ≤ l'.1 := by
  unfold sortLines
  -- the lines so far are sorted, and the others follow
  have hfold : ∀ sorted : List (ℕ × String), sorted.Pairwise (fun l l' => l.1 ≤ l'.1) →
      (lines.foldl (fun sorted line => insertLine line sorted) sorted).Perm (sorted ++ lines) ∧
        (lines.foldl (fun sorted line => insertLine line sorted) sorted).Pairwise
          fun l l' => l.1 ≤ l'.1 := by
    induction lines with
    | nil => exact fun sorted hsorted => ⟨by simp, hsorted⟩
    | cons line lines ih =>
      intro sorted hsorted
      obtain ⟨hperm, hnext⟩ := ih _ (insertLine_sorted line hsorted)
      refine ⟨hperm.trans ?_, hnext⟩
      exact ((insertLine_perm line sorted).append_right lines).trans List.perm_middle.symm
  exact hfold [] .nil

end Solution

/-- The line of a variable in a general solution. -/
inductive IsLineOf (free : List ℕ) (expressions : List (ℕ × AffineExpr)) : ℕ → String → Prop where
  | free {j : ℕ} (hj : j ∈ free) : IsLineOf free expressions j (variableName j ++ " is free")
  | bound {j : ℕ} {e : AffineExpr} (he : (j, e) ∈ expressions) :
    IsLineOf free expressions j (variableName j ++ " = " ++ e.text)

/-- A general solution has one line for each variable, in the order of the variables. -/
theorem GeneralSolution.forall₂_lines (h : GeneralSolution vars free expressions) :
    List.Forall₂ (IsLineOf free expressions) (List.range vars)
      (Solution.infinite free expressions).lines := by
  let unsorted := (expressions.map fun e => (e.1, variableName e.1 ++ " = " ++ e.2.text)) ++
    free.map fun var => (var, variableName var ++ " is free")
  show List.Forall₂ _ _ ((Solution.sortLines unsorted).map (·.2))
  obtain ⟨hperm, hsorted⟩ := Solution.sortLines_spec unsorted
  have hvariables : unsorted.map (·.1) = expressions.map (·.1) ++ free := by
    simp [unsorted, Function.comp_def]
  -- the variables are sorted, and they are all variables
  have hrange : (Solution.sortLines unsorted).map (·.1) = List.range vars := by
    refine List.Perm.eq_of_pairwise' (r := (· ≤ ·)) ?_ (List.pairwise_lt_range.imp Nat.le_of_lt) ?_
    · exact List.pairwise_map.mpr hsorted
    · refine (hperm.map _).trans ?_
      rw [hvariables]
      exact List.perm_append_comm.trans h.partition
  rw [← hrange, List.forall₂_map_left_iff, List.forall₂_map_right_iff, List.forall₂_same]
  intro line hline
  obtain hline | hline := List.mem_append.mp (hperm.mem_iff.mp hline)
  · obtain ⟨e, he, rfl⟩ := List.mem_map.mp hline
    exact .bound he
  · obtain ⟨j, hj, rfl⟩ := List.mem_map.mp hline
    exact .free hj

/-! ## No line is broken -/

theorem oneLine_variableName (j : ℕ) : OneLine (variableName j) :=
  .append (by simp [OneLine]) (oneLine_toString _)

namespace AffineExpr

theorem oneLine_termText (var : ℕ) (coefficient : ℚ) : OneLine (termText var coefficient) := by
  refine .append ?_ (oneLine_variableName var)
  split_ifs
  · exact oneLine_empty
  · exact (oneLine_write _).append (by simp [OneLine])

theorem oneLine_signText (front : Bool) (coefficient : ℚ) :
    OneLine (signText front coefficient) := by
  unfold signText
  split_ifs <;> simp [OneLine]

theorem oneLine_termsText (front : Bool) (terms : List (ℕ × ℚ)) :
    OneLine (termsText front terms) := by
  induction terms generalizing front with
  | nil => exact oneLine_empty
  | cons t terms ih =>
    rw [termsText]
    split_ifs
    · exact ih front
    · exact ((oneLine_signText front t.2).append (oneLine_termText t.1 t.2)).append (ih false)

theorem oneLine_text (e : AffineExpr) : OneLine e.text := by
  unfold AffineExpr.text
  dsimp only
  split_ifs
  · simp [OneLine]
  · exact oneLine_termsText true e.terms
  · exact (oneLine_write e.constant).append (oneLine_termsText false e.terms)

end AffineExpr

theorem IsLineOf.oneLine {j : ℕ} {line : String} (h : IsLineOf free expressions j line) :
    OneLine line := by
  cases h with
  | free hj => exact (oneLine_variableName j).append (by simp [OneLine])
  | bound he =>
    exact ((oneLine_variableName j).append (by simp [OneLine])).append (AffineExpr.oneLine_text _)

/-! ## The answer of `solve` -/

namespace RatMatrix

variable {m : RatMatrix}

/-- What `classify` answers when it finds free variables. -/
theorem eq_of_classify_eq_infinite (h : classify vars rows = .infinite free expressions) :
    (free = (List.range vars).filter fun j => (leadingRows vars rows).all (·.1 ≠ j)) ∧
      expressions =
        (leadingRows vars rows).map fun (c, row) => (c, AffineExpr.ofRow vars free c row) := by
  unfold classify at h
  split at h
  · cases h
  · dsimp only at h
    split_ifs at h
    obtain ⟨rfl, rfl⟩ := Solution.infinite.inj h
    exact ⟨rfl, rfl⟩

/-- **The shape and the meaning of a general solution.** When `solve` finds infinitely many
solutions, the free variables ascend and so do the others, and together they are all variables; a
variable is free exactly when its column is a linear combination of the columns before it; the
terms of an expression ascend, and each of them has a free variable after the expression's own one
and a coefficient other than zero. The printed solution consists of one line for each variable, in
the order of the variables. -/
theorem solve_infinite_parts (m : RatMatrix) (hm : m.WellFormed) (free : List ℕ)
    (expressions : List (ℕ × AffineExpr)) (h : m.solve = .ok (.infinite free expressions)) :
    GeneralSolution m.variableCount free expressions ∧
      (∀ j < m.variableCount, j ∈ free ↔ m.DependentColumn j) ∧
      ∃ lines, (Solution.infinite free expressions).text = "\n".intercalate lines ∧
        (∀ line ∈ lines, OneLine line) ∧
        List.Forall₂ (IsLineOf free expressions) (List.range m.variableCount) lines := by
  obtain ⟨r, lead, hs⟩ := reduced_reduce hm
  unfold solve at h
  split_ifs at h
  obtain ⟨hfree, rfl⟩ := eq_of_classify_eq_infinite (Except.ok.inj h)
  have hparts := hs.generalSolution hfree
  refine ⟨hparts, fun j hj => ?_, _, rfl, fun line hline => ?_, hparts.forall₂_lines⟩
  · rw [hfree, hs.mem_free_iff, ← hs.exists_solvedBy_iff hj, rowSpace_reduce hm,
      dependentColumn_iff hm]
  · obtain ⟨hlength, hline_of⟩ := List.forall₂_iff_get.mp hparts.forall₂_lines
    obtain ⟨j, hj, rfl⟩ := List.mem_iff_getElem.mp hline
    exact (hline_of j (hlength ▸ hj) hj).oneLine

/-- In `2y + 4z = 6`, `x + y + z = 1` only `z` is free: the column of `z` is twice the column of
`y` less the column of `x`. -/
theorem solve_infinite_parts_of_system :
    let m : RatMatrix := ⟨⟨2, 4⟩, [[0, 2, 4, 6], [1, 1, 1, 1]], true⟩
    let expressions : List (ℕ × AffineExpr) := [(0, ⟨-2, [(2, 1)]⟩), (1, ⟨3, [(2, -2)]⟩)]
    m.solve = .ok (.infinite [2] expressions) ∧ m.DependentColumn 2 ∧ ¬ m.DependentColumn 1 ∧
      List.Forall₂ (IsLineOf [2] expressions) [0, 1, 2]
        ["x_1 = -2 + x_3", "x_2 = 3 - 2·x_3", "x_3 is free"] := by
  intro m expressions
  have hm : m.WellFormed := by decide +kernel
  have hsolve : m.solve = .ok (.infinite [2] expressions) := by decide +kernel
  have hlines : (Solution.infinite [2] expressions).lines =
      ["x_1 = -2 + x_3", "x_2 = 3 - 2·x_3", "x_3 is free"] := by decide +kernel
  obtain ⟨hparts, hfree, -⟩ := solve_infinite_parts m hm _ _ hsolve
  refine ⟨hsolve, (hfree 2 (by decide)).mp (by decide), fun h => ?_, ?_⟩
  · exact absurd ((hfree 1 (by decide)).mpr h) (by decide)
  · exact hlines ▸ hparts.forall₂_lines

end RatMatrix

end ExactLinear
