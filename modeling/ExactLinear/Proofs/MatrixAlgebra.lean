import ExactLinear.Proofs.Computation
import ExactLinear.Proofs.Representation

/-!
# The laws of matrix algebra

Sums and products are partial: they fail when the shapes of the operands do not fit, and each of
them looks at the shapes of its own two operands only. So a law of matrix algebra has three parts
here: the two sides succeed for the same operands, these are the operands whose shapes fit, and then
the results are equal, flags included (`SameResult`). That they fail together follows from the
shapes of the intermediate results (`fits_of_add`, `fits_of_mul`), that they agree from the law for
the matrices over `Fin` that they represent. Of these operations only the sum and the transpose have
no lemma yet on what they represent.
-/

namespace ExactLinear

namespace RatMatrix

variable {α : Type} {n k w : ℕ} {a b c : RatMatrix} {v u : RatVector}

/-! ## Two computations of one result -/

/-- The two computations have the same results, and they have one exactly when the operands fit. -/
structure SameResult (fits : Prop) (x y : Except LinearError α) : Prop where
  eq_ok_iff : ∀ r, x = .ok r ↔ y = .ok r
  exists_eq_ok_iff : (∃ r, x = .ok r) ↔ fits

/-- Each side shows by its steps that the operands fit, and operands that fit have one result. -/
theorem SameResult.of_fits {fits : Prop} {x y : Except LinearError α} (hx : ∀ r, x = .ok r → fits)
    (hy : ∀ r, y = .ok r → fits) (h : fits → ∃ r, x = .ok r ∧ y = .ok r) : SameResult fits x y := by
  refine ⟨fun r => ⟨fun hr => ?_, fun hr => ?_⟩, fun ⟨r, hr⟩ => hx r hr, fun hfits => ?_⟩
  · obtain ⟨s, hs, hs'⟩ := h (hx r hr)
    rw [hs', Except.ok.inj (hs.symm.trans hr)]
  · obtain ⟨s, hs, hs'⟩ := h (hy r hr)
    rw [hs, Except.ok.inj (hs'.symm.trans hr)]
  · obtain ⟨s, hs, -⟩ := h hfits
    exact ⟨s, hs⟩

/-! ## Operands that fit -/

theorem fits_of_add (h : a.add b = .ok c) : a.shape = b.shape ∧ c.shape = a.shape := by
  rw [add, zipWith] at h
  split_ifs at h with hshape
  exact ⟨hshape, (congrArg RatMatrix.shape (Except.ok.inj h)).symm⟩

theorem fits_of_mul (h : a.mul b = .ok c) :
    a.shape.cols = b.shape.rows ∧ c.shape = ⟨a.shape.rows, b.shape.cols⟩ := by
  rw [mul] at h
  split_ifs at h with hfit
  exact ⟨hfit, (congrArg shape (Except.ok.inj h)).symm⟩

theorem fits_of_mulVector (h : a.mulVector v = .ok u) :
    a.shape.cols = v.length ∧ u.length = a.rows.length := by
  rw [mulVector] at h
  split_ifs at h with hfit
  rw [RatVector.ofList] at h
  split_ifs at h
  obtain rfl := Except.ok.inj h
  exact ⟨hfit, List.length_map _⟩

/-! ## What sums and transposes represent -/

/-- An item of two lists that are combined, at a place of both. -/
theorem getD_zipWith {β γ : Type} {f : α → β → γ} {l : List α} {l' : List β} {i : ℕ}
    (h : i < l.length) (h' : i < l'.length) (d : α) (d' : β) (e : γ) :
    (List.zipWith f l l').getD i e = f (l.getD i d) (l'.getD i d') := by
  have hi : i < (List.zipWith f l l').length := List.length_zipWith ▸ lt_min h h'
  rw [List.getD_eq_getElem _ _ hi, List.getElem_zipWith, List.getD_eq_getElem _ _ h,
    List.getD_eq_getElem _ _ h']

/-- The sum represents the sum, and has the flag of the left summand. -/
theorem Represents.add {A B : Matrix (Fin n) (Fin w) ℚ} (ha : a.Represents A)
    (hb : b.Represents B) :
    ∃ c, a.add b = .ok c ∧ c.Represents (A + B) ∧ c.augmented = a.augmented := by
  obtain ⟨hashape, ⟨harows, hacols⟩, -⟩ := id ha
  obtain ⟨hbshape, ⟨hbrows, hbcols⟩, -⟩ := id hb
  rw [RatMatrix.add, zipWith, hashape, hbshape, if_pos rfl]
  refine ⟨_, rfl, ⟨rfl, ⟨?_, fun row hrow => ?_⟩, ?_⟩, rfl⟩
  · rw [List.length_zipWith, harows, hbrows, min_self]
  · obtain ⟨i, hi, rfl⟩ := List.mem_iff_getElem.mp hrow
    rw [List.getElem_zipWith, List.length_zipWith, hacols _ (List.getElem_mem _),
      hbcols _ (List.getElem_mem _), min_self]
  · ext i j
    have hja : j < (a.rows.getD i []).length := (ha.rectangular.length_getD i.isLt).symm ▸ j.isLt
    have hjb : j < (b.rows.getD i []).length := (hb.rectangular.length_getD i.isLt).symm ▸ j.isLt
    rw [Matrix.add_apply, ← ha.entryAt_eq, ← hb.entryAt_eq, grid_apply, entryAt,
      getD_zipWith (harows.symm ▸ i.isLt) (hbrows.symm ▸ i.isLt) [] [], getD_zipWith hja hjb 0 0]
    rfl

/-- The transpose represents the transpose. -/
theorem Represents.transpose {A : Matrix (Fin n) (Fin w) ℚ} (h : a.Represents A) :
    a.transpose.Represents A.transpose := by
  have hcolumn : ∀ j, (a.column j).length = n := fun j => by
    rw [column, List.length_map, h.rectangular.length_eq]
  refine ⟨by rw [RatMatrix.transpose, h.shape_eq], ⟨?_, fun row hrow => ?_⟩, ?_⟩
  · rw [RatMatrix.transpose, List.length_map, List.length_range, h.shape_eq]
  · obtain ⟨j, -, rfl⟩ := List.mem_map.mp hrow
    exact hcolumn j
  · ext j i
    rw [grid_apply, RatMatrix.transpose, h.shape_eq, entryAt, getD_map_range _ _ j.isLt,
      Matrix.transpose_apply, ← h.entryAt_eq]
    exact List.getD_map a.rows [] fun row => row.getD j 0

/-! ## The laws -/

/-- A product distributes over a sum of right factors. -/
theorem sameResult_mul_add (ha : a.WellFormed) (hb : b.WellFormed) (hc : c.WellFormed) :
    SameResult (b.shape = c.shape ∧ a.shape.cols = b.shape.rows)
      (do a.mul (← b.add c)) (do (← a.mul b).add (← a.mul c)) := by
  refine .of_fits (fun r h => ?_) (fun r h => ?_) fun ⟨hbc, hab⟩ => ?_
  · obtain ⟨s, hs, hr⟩ := bind_eq_ok_iff.mp h
    obtain ⟨hbc, hshape⟩ := fits_of_add hs
    exact ⟨hbc, hshape ▸ (fits_of_mul hr).1⟩
  · obtain ⟨p, hp, h⟩ := bind_eq_ok_iff.mp h
    obtain ⟨q, hq, hr⟩ := bind_eq_ok_iff.mp h
    obtain ⟨hab, hpshape⟩ := fits_of_mul hp
    obtain ⟨hac, hqshape⟩ := fits_of_mul hq
    -- the summands have as many columns as the right factors
    have hcols := (hpshape.symm.trans (fits_of_add hr).1).trans hqshape
    exact ⟨Shape.ext (hab.symm.trans hac) (Shape.mk.inj hcols).2, hab⟩
  · have ha := ha.represents
    have hb := hb.represents_of_shape_eq (n := a.shape.cols) (w := b.shape.cols) (by rw [hab])
    have hc := hc.represents_of_shape_eq (n := a.shape.cols) (w := b.shape.cols)
      (by rw [hab, hbc])
    obtain ⟨s, hs, hsum, -⟩ := hb.add hc
    obtain ⟨l, hl, hleft, hlflag⟩ := ha.mul hsum
    obtain ⟨p, hp, hfirst, hpflag⟩ := ha.mul hb
    obtain ⟨q, hq, hsecond, -⟩ := ha.mul hc
    obtain ⟨r, hr, hright, hrflag⟩ := hfirst.add hsecond
    rw [← Matrix.mul_add] at hright
    obtain rfl := hleft.eq_of_augmented_eq hright (hlflag.trans (hrflag.trans hpflag).symm)
    exact ⟨l, bind_eq_ok_iff.mpr ⟨s, hs, hl⟩,
      bind_eq_ok_iff.mpr ⟨p, hp, bind_eq_ok_iff.mpr ⟨q, hq, hr⟩⟩⟩

/-- A product distributes over a sum of left factors. -/
theorem sameResult_add_mul (ha : a.WellFormed) (hb : b.WellFormed) (hc : c.WellFormed) :
    SameResult (a.shape = b.shape ∧ a.shape.cols = c.shape.rows)
      (do (← a.add b).mul c) (do (← a.mul c).add (← b.mul c)) := by
  refine .of_fits (fun r h => ?_) (fun r h => ?_) fun ⟨hab, hac⟩ => ?_
  · obtain ⟨s, hs, hr⟩ := bind_eq_ok_iff.mp h
    obtain ⟨hab, hshape⟩ := fits_of_add hs
    exact ⟨hab, hshape ▸ (fits_of_mul hr).1⟩
  · obtain ⟨p, hp, h⟩ := bind_eq_ok_iff.mp h
    obtain ⟨q, hq, hr⟩ := bind_eq_ok_iff.mp h
    obtain ⟨hac, hpshape⟩ := fits_of_mul hp
    obtain ⟨hbc, hqshape⟩ := fits_of_mul hq
    -- the summands have as many rows as the left factors
    have hrows := (hpshape.symm.trans (fits_of_add hr).1).trans hqshape
    exact ⟨Shape.ext (Shape.mk.inj hrows).1 (hac.trans hbc.symm), hac⟩
  · have ha := ha.represents
    have hb := hb.represents_of_shape_eq hab.symm
    have hc := hc.represents_of_shape_eq (n := a.shape.cols) (w := c.shape.cols) (by rw [hac])
    obtain ⟨s, hs, hsum, hsflag⟩ := ha.add hb
    obtain ⟨l, hl, hleft, hlflag⟩ := hsum.mul hc
    obtain ⟨p, hp, hfirst, hpflag⟩ := ha.mul hc
    obtain ⟨q, hq, hsecond, -⟩ := hb.mul hc
    obtain ⟨r, hr, hright, hrflag⟩ := hfirst.add hsecond
    rw [← Matrix.add_mul] at hright
    obtain rfl := hleft.eq_of_augmented_eq hright
      ((hlflag.trans hsflag).trans (hrflag.trans hpflag).symm)
    exact ⟨l, bind_eq_ok_iff.mpr ⟨s, hs, hl⟩,
      bind_eq_ok_iff.mpr ⟨p, hp, bind_eq_ok_iff.mpr ⟨q, hq, hr⟩⟩⟩

/-- Products are associative. -/
theorem sameResult_mul_assoc (ha : a.WellFormed) (hb : b.WellFormed) (hc : c.WellFormed) :
    SameResult (a.shape.cols = b.shape.rows ∧ b.shape.cols = c.shape.rows)
      (do (← a.mul b).mul c) (do a.mul (← b.mul c)) := by
  refine .of_fits (fun r h => ?_) (fun r h => ?_) fun ⟨hab, hbc⟩ => ?_
  · obtain ⟨p, hp, hr⟩ := bind_eq_ok_iff.mp h
    obtain ⟨hab, hpshape⟩ := fits_of_mul hp
    obtain ⟨hpc, -⟩ := fits_of_mul hr
    rw [hpshape] at hpc
    exact ⟨hab, hpc⟩
  · obtain ⟨q, hq, hr⟩ := bind_eq_ok_iff.mp h
    obtain ⟨hbc, hqshape⟩ := fits_of_mul hq
    obtain ⟨haq, -⟩ := fits_of_mul hr
    rw [hqshape] at haq
    exact ⟨haq, hbc⟩
  · have ha := ha.represents
    have hb := hb.represents_of_shape_eq (n := a.shape.cols) (w := b.shape.cols) (by rw [hab])
    have hc := hc.represents_of_shape_eq (n := b.shape.cols) (w := c.shape.cols) (by rw [hbc])
    obtain ⟨p, hp, hfirst, hpflag⟩ := ha.mul hb
    obtain ⟨l, hl, hleft, hlflag⟩ := hfirst.mul hc
    obtain ⟨q, hq, hsecond, -⟩ := hb.mul hc
    obtain ⟨r, hr, hright, hrflag⟩ := ha.mul hsecond
    rw [← Matrix.mul_assoc] at hright
    obtain rfl := hleft.eq_of_augmented_eq hright ((hlflag.trans hpflag).trans hrflag.symm)
    exact ⟨l, bind_eq_ok_iff.mpr ⟨p, hp, hl⟩, bind_eq_ok_iff.mpr ⟨q, hq, hr⟩⟩

/-- To multiply a vector by a product is to multiply it by one factor after the other. -/
theorem sameResult_mul_mulVector (ha : a.WellFormed) (hb : b.WellFormed) (v : RatVector) :
    SameResult (a.shape.cols = b.shape.rows ∧ b.shape.cols = v.length)
      (do (← a.mul b).mulVector v) (do a.mulVector (← b.mulVector v)) := by
  refine .of_fits (fun r h => ?_) (fun r h => ?_) fun ⟨hab, hbv⟩ => ?_
  · obtain ⟨p, hp, hr⟩ := bind_eq_ok_iff.mp h
    obtain ⟨hab, hpshape⟩ := fits_of_mul hp
    obtain ⟨hpv, -⟩ := fits_of_mulVector hr
    rw [hpshape] at hpv
    exact ⟨hab, hpv⟩
  · obtain ⟨u, hu, hr⟩ := bind_eq_ok_iff.mp h
    obtain ⟨hbv, hulen⟩ := fits_of_mulVector hu
    exact ⟨(fits_of_mulVector hr).1.trans (hulen.trans hb.2.2.1), hbv⟩
  · have hapos := ha.1
    have hbpos := hab ▸ hb.1
    have ha := ha.represents
    have hb := hb.represents_of_shape_eq (n := a.shape.cols) (w := b.shape.cols) (by rw [hab])
    obtain ⟨p, hp, hproduct, -⟩ := ha.mul hb
    obtain ⟨l, hl, hleft⟩ := hproduct.mulVector hapos hbv.symm
    obtain ⟨u, hu, hmiddle⟩ := hb.mulVector hbpos hbv.symm
    have hulen : u.length = a.shape.cols := by rw [RatVector.length, hmiddle, List.length_ofFn]
    obtain ⟨r, hr, hright⟩ := ha.mulVector hapos hulen
    have hlr : l.entries = r.entries := by
      rw [hleft, hright, hmiddle, funext (getD_ofFn _), Matrix.mulVec_mulVec]
    obtain rfl : l = r := congrArg RatVector.mk hlr
    exact ⟨l, bind_eq_ok_iff.mpr ⟨p, hp, hl⟩, bind_eq_ok_iff.mpr ⟨u, hu, hr⟩⟩

/-- The transpose of a product is the product of the transposes in the other order. -/
theorem sameResult_transpose_mul (ha : a.WellFormed) (hb : b.WellFormed) :
    SameResult (a.shape.cols = b.shape.rows)
      (do return (← a.mul b).transpose) (b.transpose.mul a.transpose) := by
  refine .of_fits (fun r h => ?_) (fun r h => (fits_of_mul h).1.symm) fun hab => ?_
  · obtain ⟨p, hp, -⟩ := bind_eq_ok_iff.mp h
    exact (fits_of_mul hp).1
  · have ha := ha.represents
    have hb := hb.represents_of_shape_eq (n := a.shape.cols) (w := b.shape.cols) (by rw [hab])
    obtain ⟨p, hp, hproduct, -⟩ := ha.mul hb
    obtain ⟨r, hr, hright, hrflag⟩ := hb.transpose.mul ha.transpose
    have hleft := hproduct.transpose
    rw [Matrix.transpose_mul] at hleft
    obtain rfl := hleft.eq_of_augmented_eq hright hrflag.symm
    exact ⟨_, bind_eq_ok_iff.mpr ⟨p, hp, rfl⟩, hr⟩

/-- **The laws of matrix algebra.** Products distribute over sums on both sides and are associative,
also with a vector at the right end, and the transpose of a product is the product of the transposes
in the other order. In each law both sides succeed exactly for the operands whose shapes fit, and
then they are equal, with the same flag. -/
theorem algebra_laws (a b c : RatMatrix) (v : RatVector) (ha : a.WellFormed) (hb : b.WellFormed)
    (hc : c.WellFormed) :
    SameResult (b.shape = c.shape ∧ a.shape.cols = b.shape.rows)
        (do a.mul (← b.add c)) (do (← a.mul b).add (← a.mul c)) ∧
      SameResult (a.shape = b.shape ∧ a.shape.cols = c.shape.rows)
        (do (← a.add b).mul c) (do (← a.mul c).add (← b.mul c)) ∧
      SameResult (a.shape.cols = b.shape.rows ∧ b.shape.cols = c.shape.rows)
        (do (← a.mul b).mul c) (do a.mul (← b.mul c)) ∧
      SameResult (a.shape.cols = b.shape.rows ∧ b.shape.cols = v.length)
        (do (← a.mul b).mulVector v) (do a.mulVector (← b.mulVector v)) ∧
      SameResult (a.shape.cols = b.shape.rows)
        (do return (← a.mul b).transpose) (b.transpose.mul a.transpose) :=
  ⟨sameResult_mul_add ha hb hc, sameResult_add_mul ha hb hc, sameResult_mul_assoc ha hb hc,
    sameResult_mul_mulVector ha hb v, sameResult_transpose_mul ha hb⟩

/-- One row of a system times a sum of which only the right summand is a system. -/
theorem algebra_laws_of_mixed_flags :
    (do
        let s ← add ⟨⟨2, 2⟩, [[1, 0], [0, 1]], false⟩ ⟨⟨2, 2⟩, [[5, 6], [7, 1 / 2]], true⟩
        mul ⟨⟨1, 2⟩, [[1, 2]], true⟩ s) = .ok ⟨⟨1, 2⟩, [[20, 9]], true⟩ ∧
      (do
        let p ← mul ⟨⟨1, 2⟩, [[1, 2]], true⟩ ⟨⟨2, 2⟩, [[1, 0], [0, 1]], false⟩
        let q ← mul ⟨⟨1, 2⟩, [[1, 2]], true⟩ ⟨⟨2, 2⟩, [[5, 6], [7, 1 / 2]], true⟩
        add p q) = .ok ⟨⟨1, 2⟩, [[20, 9]], true⟩ := by
  obtain ⟨hdistributes, -⟩ := algebra_laws ⟨⟨1, 2⟩, [[1, 2]], true⟩
    ⟨⟨2, 2⟩, [[1, 0], [0, 1]], false⟩ ⟨⟨2, 2⟩, [[5, 6], [7, 1 / 2]], true⟩ ⟨[]⟩ (by decide)
    (by decide) (by decide)
  have hleft : (do
      let s ← add ⟨⟨2, 2⟩, [[1, 0], [0, 1]], false⟩ ⟨⟨2, 2⟩, [[5, 6], [7, 1 / 2]], true⟩
      mul ⟨⟨1, 2⟩, [[1, 2]], true⟩ s) = .ok ⟨⟨1, 2⟩, [[20, 9]], true⟩ := by
    decide +kernel
  exact ⟨hleft, (hdistributes.eq_ok_iff _).mp hleft⟩

end RatMatrix

end ExactLinear
