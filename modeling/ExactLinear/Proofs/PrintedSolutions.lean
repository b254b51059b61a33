import ExactLinear.Proofs.GeneralSolution
import ExactLinear.Proofs.PrintedExpressions

/-!
# Different solutions print differently

The text of a solution determines its lines. A line that starts with a variable belongs to a
solution, and it gives the value of the variable, its expression, or that it is free. An answer of
`solve` has one line for each variable and no term that is zero: such solutions are `Proper`, and
they are known from their texts (`Solution.Proper.text_inj`). For general solutions the argument
goes by the variables: where two of them have the same line, both count the variable as free, or
both give it the same expression (`GeneralSolution.subset_of_lines_eq`).
-/

namespace ExactLinear

variable {vars vars' : ℕ} {free free' : List ℕ} {expressions expressions' : List (ℕ × AffineExpr)}

/-! ## General solutions -/

/-- Lists that ascend by a key are equal when they have the same items. -/
theorem eq_of_subset_of_ascends {α : Type} {key : α → ℕ} {l l' : List α}
    (h : (l.map key).Pairwise (· < ·)) (h' : (l'.map key).Pairwise (· < ·)) (hsub : l ⊆ l')
    (hsub' : l' ⊆ l) : l = l' := by
  have hl := List.pairwise_map.mp h
  have hl' := List.pairwise_map.mp h'
  have hnodup : ∀ {l : List α}, l.Pairwise (fun a b => key a < key b) → l.Nodup :=
    List.Pairwise.imp fun hlt heq => hlt.ne (congrArg key heq)
  refine List.Perm.eq_of_pairwise (fun a b _ _ hab hba => absurd hab hba.asymm) hl hl' ?_
  exact (List.perm_ext_iff_of_nodup (hnodup hl) (hnodup hl')).mpr fun a => ⟨@hsub a, @hsub' a⟩

/-- What is said of a free variable is no equation. -/
theorem freeLine_ne (j : ℕ) (t : String) :
    variableName j ++ " is free" ≠ variableName j ++ " = " ++ t := by
  intro heq
  rw [String.append_assoc, String.append_right_inj] at heq
  have hlist := congrArg String.toList heq
  rw [String.toList_append] at hlist
  exact absurd (List.cons.inj (List.cons.inj hlist).2).1 (by decide)

/-- Where two lines of a variable agree, the variable is free in both solutions or its expressions
print alike. -/
theorem IsLineOf.agree {j : ℕ} {line : String} (h : IsLineOf free expressions j line)
    (h' : IsLineOf free' expressions' j line) :
    j ∈ free ∧ j ∈ free' ∨
      ∃ e e', (j, e) ∈ expressions ∧ (j, e') ∈ expressions' ∧ e.text = e'.text := by
  generalize hline : line = line' at h'
  cases h with
  | free hj =>
    cases h' with
    | free hj' => exact .inl ⟨hj, hj'⟩
    | bound he' => exact absurd hline (freeLine_ne j _)
  | bound he =>
    cases h' with
    | free hj' => exact absurd hline.symm (freeLine_ne j _)
    | bound he' => exact .inr ⟨_, _, he, he', (String.append_right_inj _).mp hline⟩

namespace GeneralSolution

variable (h : GeneralSolution vars free expressions)
include h

theorem length_lines : (Solution.infinite free expressions).lines.length = vars := by
  rw [← h.forall₂_lines.length_eq, List.length_range]

/-- The line of a variable by its number. -/
theorem isLineOf_getElem {j : ℕ} (hj : j < (Solution.infinite free expressions).lines.length) :
    IsLineOf free expressions j (Solution.infinite free expressions).lines[j] := by
  have hline := (List.forall₂_iff_get.mp h.forall₂_lines).2 j
    (by rwa [List.length_range, ← h.length_lines]) hj
  rwa [List.get_eq_getElem, List.getElem_range] at hline

theorem lt_of_mem_free {j : ℕ} (hj : j ∈ free) : j < vars :=
  List.mem_range.mp (h.partition.mem_iff.mp (List.mem_append_left _ hj))

theorem lt_of_mem_expressions {e : ℕ × AffineExpr} (he : e ∈ expressions) : e.1 < vars :=
  List.mem_range.mp
    (h.partition.mem_iff.mp (List.mem_append_right _ (List.mem_map_of_mem he)))

theorem not_free_of_mem {e : ℕ × AffineExpr} (he : e ∈ expressions) : e.1 ∉ free := fun hj =>
  List.disjoint_of_nodup_append (h.partition.nodup_iff.mpr List.nodup_range) hj
    (List.mem_map_of_mem he)

/-- A variable has one expression. -/
theorem expression_unique {j : ℕ} {e e' : AffineExpr} (he : (j, e) ∈ expressions)
    (he' : (j, e') ∈ expressions) : e = e' := by
  have hnodup : (expressions.map (·.1)).Nodup := h.bound_ascends.imp Nat.ne_of_lt
  exact (Prod.mk.inj (List.inj_on_of_nodup_map hnodup he he' rfl)).2

theorem subset_of_lines_eq (h' : GeneralSolution vars' free' expressions')
    (heq : (Solution.infinite free expressions).lines =
      (Solution.infinite free' expressions').lines) :
    free ⊆ free' ∧ expressions ⊆ expressions' := by
  have hagree : ∀ j < vars, j ∈ free ∧ j ∈ free' ∨
      ∃ e e', (j, e) ∈ expressions ∧ (j, e') ∈ expressions' ∧ e.text = e'.text := by
    intro j hj
    have hlt : j < (Solution.infinite free expressions).lines.length := h.length_lines.symm ▸ hj
    have hline := h'.isLineOf_getElem (j := j) (heq ▸ hlt)
    simp only [← heq] at hline
    exact (h.isLineOf_getElem hlt).agree hline
  constructor
  · intro j hj
    obtain ⟨-, hj'⟩ | ⟨e, -, he, -⟩ := hagree j (h.lt_of_mem_free hj)
    · exact hj'
    · exact absurd hj (h.not_free_of_mem he)
  · rintro ⟨j, e⟩ he
    obtain ⟨hj, -⟩ | ⟨e₁, e₂, he₁, he₂, htext⟩ := hagree j (h.lt_of_mem_expressions he)
    · exact absurd hj (h.not_free_of_mem he)
    · obtain rfl := h.expression_unique he he₁
      have heq : e = e₂ := AffineExpr.text_inj (fun t ht => (h.terms_free _ he t ht).2.2)
        (fun t ht => (h'.terms_free _ he₂ t ht).2.2) htext
      exact heq ▸ he₂

theorem eq_of_lines_eq (h' : GeneralSolution vars' free' expressions')
    (heq : (Solution.infinite free expressions).lines =
      (Solution.infinite free' expressions').lines) :
    Solution.infinite free expressions = Solution.infinite free' expressions' := by
  obtain ⟨hfree, hbound⟩ := h.subset_of_lines_eq h' heq
  obtain ⟨hfree', hbound'⟩ := h'.subset_of_lines_eq h heq.symm
  have hids : ∀ {l : List ℕ}, l.Pairwise (· < ·) → (l.map id).Pairwise (· < ·) := fun hl => by
    rwa [List.map_id]
  rw [eq_of_subset_of_ascends (hids h.free_ascends) (hids h'.free_ascends) hfree hfree',
    eq_of_subset_of_ascends h.bound_ascends h'.bound_ascends hbound hbound']

end GeneralSolution

/-! ## Solutions of the three kinds -/

namespace Solution

/-- The solution has the form of an answer: where there are infinitely many solutions, their parts
fit together, and some variable is free. -/
def Proper : Solution → Prop
  | .infinite free expressions => free ≠ [] ∧ ∃ vars, GeneralSolution vars free expressions
  | _ => True

theorem getElem?_lines_unique (values : List ℚ) (i : ℕ) :
    (unique values).lines[i]? =
      values[i]?.map fun x => variableName i ++ " = " ++ Literal.write x :=
  List.getElem?_mapIdx

theorem unique_eq_of_lines_eq {values values' : List ℚ}
    (h : (unique values).lines = (unique values').lines) : unique values = unique values' := by
  refine congrArg unique (List.ext_getElem? fun i => ?_)
  have hi := congrArg (·[i]?) h
  rw [getElem?_lines_unique, getElem?_lines_unique] at hi
  refine Option.map_injective (fun x x' hx => ?_) hi
  exact Literal.write_injective ((String.append_right_inj _).mp hx)

/-- A list of values has no line that says that a variable is free. -/
theorem lines_unique_ne_lines_infinite (values : List ℚ)
    (h : GeneralSolution vars free expressions) (hfree : free ≠ []) :
    (unique values).lines ≠ (infinite free expressions).lines := by
  intro heq
  obtain ⟨j, hj⟩ := List.exists_mem_of_ne_nil free hfree
  have hlt : j < (infinite free expressions).lines.length :=
    h.length_lines.symm ▸ h.lt_of_mem_free hj
  have hline := getElem?_lines_unique values j
  rw [heq, List.getElem?_eq_getElem hlt] at hline
  obtain ⟨x, -, hx⟩ := Option.map_eq_some_iff.mp hline.symm
  generalize hfound : (infinite free expressions).lines[j] = line at hx
  cases hfound ▸ h.isLineOf_getElem hlt with
  | free _ => exact freeLine_ne j _ hx.symm
  | bound he => exact h.not_free_of_mem he hj

/-- The lines of a solution that exists start with variables. -/
theorem Proper.exists_eq_append {s : Solution} (hs : s.Proper) (hcons : s.isConsistent = true) :
    ∀ line ∈ s.lines, ∃ j t, line = variableName j ++ t ∧ OneLine t := by
  intro line hline
  cases s with
  | unique values =>
    obtain ⟨i, hi, rfl⟩ := List.mem_mapIdx.mp hline
    refine ⟨i, _, String.append_assoc, .append (by simp [OneLine]) (oneLine_write _)⟩
  | infinite free expressions =>
    obtain ⟨-, vars, h⟩ := hs
    obtain ⟨j, hj, hfound⟩ := List.mem_iff_getElem.mp hline
    cases hfound ▸ h.isLineOf_getElem hj with
    | free _ => exact ⟨j, _, rfl, by simp [OneLine]⟩
    | @bound e _ =>
      exact ⟨j, _, String.append_assoc, .append (by simp [OneLine]) e.oneLine_text⟩
  | inconsistent row constant => cases hcons

theorem toList_inconsistent (row : ℕ) (constant : ℚ) :
    ("Row " ++ toString (row + 1) ++ " reads 0 = " ++ Literal.write constant ++
        ": the system has no solution").toList =
      "Row ".toList ++ (digits (row + 1) ++ ' ' :: ("reads 0 = ".toList ++
        ((Literal.write constant).toList ++ ':' :: " the system has no solution".toList))) := by
  simp only [String.toList_append, toList_toString_nat, List.append_assoc]
  rfl

theorem oneLine_inconsistent (row : ℕ) (constant : ℚ) :
    OneLine ("Row " ++ toString (row + 1) ++ " reads 0 = " ++ Literal.write constant ++
      ": the system has no solution") := by
  refine .append (.append (.append (.append ?_ (oneLine_toString _)) ?_) (oneLine_write _)) ?_ <;>
    simp [OneLine]

theorem inconsistent_eq_of_lines_eq {row row' : ℕ} {constant constant' : ℚ}
    (h : (inconsistent row constant).lines = (inconsistent row' constant').lines) :
    inconsistent row constant = inconsistent row' constant' := by
  have hlist := congrArg String.toList (List.singleton_inj.mp h)
  rw [toList_inconsistent, toList_inconsistent] at hlist
  obtain ⟨hrow, hlist⟩ := digits_append_inj (.cons rfl _) (.cons rfl _)
    (List.append_cancel_left hlist)
  obtain ⟨hconstant, -⟩ := Literal.write_append_inj (.cons rfl _) (.cons rfl _)
    (List.append_cancel_left (List.cons.inj hlist).2)
  rw [Nat.succ_injective hrow, hconstant]

/-- The verdict on a system without solutions starts with no variable. -/
theorem Proper.lines_ne_lines_inconsistent {s : Solution} (hs : s.Proper)
    (hcons : s.isConsistent = true) (row : ℕ) (constant : ℚ) :
    s.lines ≠ (inconsistent row constant).lines := by
  intro heq
  obtain ⟨j, t, hline, -⟩ := hs.exists_eq_append hcons _
    (by rw [heq]; exact List.mem_singleton_self _)
  have hlist := congrArg String.toList hline
  rw [toList_inconsistent, String.toList_append, toList_variableName] at hlist
  exact absurd (List.cons.inj hlist).1 (by decide)

/-- No line is empty or broken. -/
theorem Proper.forall_mem_lines {s : Solution} (hs : s.Proper) :
    ∀ line ∈ s.lines, OneLine line ∧ line ≠ "" := by
  intro line hline
  by_cases hcons : s.isConsistent = true
  · obtain ⟨j, t, rfl, ht⟩ := hs.exists_eq_append hcons line hline
    refine ⟨(oneLine_variableName j).append ht, fun h => ?_⟩
    have hlist := congrArg String.toList h
    rw [String.toList_append, toList_variableName] at hlist
    cases hlist
  · cases s with
    | inconsistent row constant =>
      obtain rfl := List.mem_singleton.mp hline
      refine ⟨oneLine_inconsistent row constant, fun h => ?_⟩
      have hlist := congrArg String.toList h
      rw [toList_inconsistent] at hlist
      cases hlist
    | _ => exact absurd rfl hcons

/-- Answers are known from their texts. -/
theorem Proper.text_inj {s t : Solution} (hs : s.Proper) (ht : t.Proper)
    (htext : s.text = t.text) : s = t := by
  have hlines : s.lines = t.lines :=
    Text.intercalate_inj hs.forall_mem_lines ht.forall_mem_lines htext
  cases s with
  | unique values =>
    cases t with
    | unique values' => exact unique_eq_of_lines_eq hlines
    | infinite free' expressions' =>
      obtain ⟨hfree, vars, h'⟩ := ht
      exact absurd hlines (lines_unique_ne_lines_infinite values h' hfree)
    | inconsistent row' constant' =>
      exact absurd hlines (hs.lines_ne_lines_inconsistent rfl row' constant')
  | infinite free expressions =>
    obtain ⟨hfree, vars, h⟩ := id hs
    cases t with
    | unique values' =>
      exact absurd hlines.symm (lines_unique_ne_lines_infinite values' h hfree)
    | infinite free' expressions' =>
      obtain ⟨-, vars', h'⟩ := ht
      exact h.eq_of_lines_eq h' hlines
    | inconsistent row' constant' =>
      exact absurd hlines (hs.lines_ne_lines_inconsistent rfl row' constant')
  | inconsistent row constant =>
    by_cases hcons : t.isConsistent = true
    · exact absurd hlines.symm (ht.lines_ne_lines_inconsistent hcons row constant)
    · cases t with
      | inconsistent row' constant' => exact inconsistent_eq_of_lines_eq hlines
      | _ => exact absurd rfl hcons

end Solution

/-! ## Answers of `solve` -/

namespace RatMatrix

/-- What `solve` answers has the form of an answer. -/
theorem exists_solve_proper {m : RatMatrix} (hm : m.WellFormed) (haug : m.augmented = true) :
    ∃ s, m.solve = .ok s ∧ s.Proper := by
  obtain ⟨s, hsolve, hdescribes⟩ := describes_solve hm haug
  refine ⟨s, hsolve, ?_⟩
  cases s with
  | infinite free expressions =>
    obtain ⟨r, lead, hs⟩ := reduced_reduce hm
    rw [solve, if_pos haug] at hsolve
    obtain ⟨hfree, rfl⟩ := eq_of_classify_eq_infinite (Except.ok.inj hsolve)
    exact ⟨hdescribes.1, _, hs.generalSolution hfree⟩
  | _ => trivial

/-- **Printed solutions are unambiguous.** Two expressions print alike exactly when they have the
same constant and the same terms, those that are zero left out. Every augmented matrix has an
answer, and the answers for two of them print alike exactly when they are equal. -/
theorem printed_solutions_unambiguous :
    (∀ e e' : AffineExpr, e.text = e'.text ↔
        e.constant = e'.constant ∧
          e.terms.filter (fun t => t.2 ≠ 0) = e'.terms.filter (fun t => t.2 ≠ 0)) ∧
      ∀ m n : RatMatrix, m.WellFormed → n.WellFormed → m.augmented = true → n.augmented = true →
        ∃ s t, m.solve = .ok s ∧ n.solve = .ok t ∧ (s.text = t.text ↔ m.solve = n.solve) := by
  refine ⟨fun e e' => AffineExpr.text_eq_text_iff, fun m n hm hn hmaug hnaug => ?_⟩
  obtain ⟨s, hs, hproper⟩ := exists_solve_proper hm hmaug
  obtain ⟨t, ht, hproper'⟩ := exists_solve_proper hn hnaug
  refine ⟨s, t, hs, ht, fun htext => ?_, fun heq => ?_⟩
  · rw [hs, ht, hproper.text_inj hproper' htext]
  · rw [hs, ht] at heq
    rw [Except.ok.inj heq]

/-- Two systems with infinitely many solutions, whose answers differ in the sign of one term. -/
theorem printed_solutions_unambiguous_of_opposite_terms :
    let m : RatMatrix := ⟨⟨1, 3⟩, [[1, 1, 1]], true⟩
    let n : RatMatrix := ⟨⟨1, 3⟩, [[1, -1, 1]], true⟩
    ∃ s t, m.solve = .ok s ∧ n.solve = .ok t ∧ s.text ≠ t.text := by
  intro m n
  obtain ⟨s, t, hs, ht, hiff⟩ :=
    printed_solutions_unambiguous.2 m n (by decide) (by decide) rfl rfl
  exact ⟨s, t, hs, ht, fun htext => absurd (hiff.mp htext) (by decide +kernel)⟩

end RatMatrix

end ExactLinear
