import FiniteDomain.Proofs.Variable.Saturation

/-! # Fixed variables

    A variable is called fixed if its bounds agree.  One value below is enough for
    that; but a view is also fixed while there are several, if the images of all of
    them are saturated to the same end of the range (`isFixed_iff`).

    This cannot happen to a variable that discerns its values, of which at most one
    has an image at or beyond either end.  It is fixed if and only if one value is
    left, now and after any narrowing (`Discerns.isFixed_iff`). -/

namespace FiniteDomain

/-- Two numbers are saturated to the same one if they lie at or beyond the same end. -/
theorem Width.clamp_eq_clamp_iff {m n : Int} (hne : m ≠ n) :
    Width.value.clamp m = Width.value.clamp n
      ↔ (maxValue ≤ m ∧ maxValue ≤ n) ∨ m ≤ minValue ∧ n ≤ minValue := by
  have hlt : Width.value.least < Width.value.greatest := by decide
  unfold clamp maxValue minValue
  omega

namespace IntVar

variable {x : IntVar} {s t : Store} {v : Int}

/-! ### One value -/

theorem size_eq_one_iff (hs : s.Wf) (x : IntVar) :
    x.size s = 1 ↔ (s.int x.base).lower = (s.int x.base).upper := by
  have hd := hs.int x.base
  have hsize : x.size s = (s.int x.base).valueSet.card := hd.size_eq
  rw [hsize, Finset.card_eq_one]
  constructor
  · rintro ⟨v, hv⟩
    have hsingle : ∀ w, (s.int x.base).contains w = true → w = v := fun w hw => by
      rwa [← IntegerDomain.mem_valueSet, hv, Finset.mem_singleton] at hw
    rw [hsingle _ hd.lower_mem, hsingle _ hd.upper_mem]
  · intro heq
    refine ⟨(s.int x.base).lower, Finset.eq_singleton_iff_unique_mem.mpr ⟨?_, fun w hw => ?_⟩⟩
    · exact IntegerDomain.mem_valueSet.mpr hd.lower_mem
    · obtain ⟨hlower, hupper, -⟩ := IntegerDomain.contains_iff.mp (IntegerDomain.mem_valueSet.mp hw)
      omega

/-- The variable of the store below has one value if all of its values have the same image. -/
theorem size_eq_one_of_takes (hs : s.Wf) {k : Int} (h : ∀ l, x.Takes s l → l = k) :
    x.size s = 1 := by
  have hd := hs.int x.base
  rw [size_eq_one_iff hs]
  exact image_injective ((h _ (takes_image hd.lower_mem)).trans
    (h _ (takes_image hd.upper_mem)).symm)

theorem isFixed_of_size (hs : s.Wf) (h : x.size s = 1) : x.isFixed s = true := by
  have heq := (size_eq_one_iff hs x).mp h
  obtain ⟨hlower, hupper⟩ := bounds_eq_shown x s
  rw [isFixed, hlower, hupper, heq, ite_self, beq_iff_eq]

/-- One value stays the same one, and so does what the variable shows. -/
theorem single_narrower (hst : s.Narrower t) (hs : s.Wf) (h : x.size s = 1) :
    x.size t = 1 ∧ x.lowerBound t = x.lowerBound s := by
  have heq := (size_eq_one_iff hs x).mp h
  refine ⟨(size_eq_one_iff hst.wf x).mpr ?_, (fixed_narrower hst (isFixed_of_size hs h)).2⟩
  obtain ⟨hlow, -⟩ := IntegerDomain.contains_iff.mp (hst.contains (hst.wf.int x.base).lower_mem)
  obtain ⟨-, hhigh, -⟩ := IntegerDomain.contains_iff.mp (hst.contains (hst.wf.int x.base).upper_mem)
  have hle := (hst.wf.int x.base).lower_le_upper
  omega

/-! ### Saturated images -/

/-- Several values are left, and their images all lie at or beyond the same end of the range. -/
def Merged (x : IntVar) (s : Store) : Prop :=
  x.size s ≠ 1 ∧ ((∀ k, x.Takes s k → maxValue ≤ k) ∨ ∀ k, x.Takes s k → k ≤ minValue)

/-- A variable is fixed if one value is left, or if all images are saturated to one number. -/
theorem isFixed_iff (hs : s.Wf) (hx : x.source.Ranges Width.value s) :
    x.isFixed s = true ↔ x.size s = 1 ∨ x.Merged s := by
  by_cases hsize : x.size s = 1
  · exact ⟨fun _ => Or.inl hsize, fun _ => isFixed_of_size hs hsize⟩
  -- the bounds are saturated from the least and the greatest number that is taken
  obtain ⟨⟨least, hleast, hlower, hsmallest⟩, great, hgreat, hupper, hgreatest⟩ := exists_ends hs hx
  have hends : least ≠ great := fun heq => hsize (size_eq_one_of_takes hs fun l hl =>
    Int.le_antisymm (heq ▸ hgreatest l hl) (hsmallest l hl))
  rw [isFixed, hlower, hupper, beq_iff_eq, Width.clamp_eq_clamp_iff hends]
  constructor
  · rintro (⟨habove, -⟩ | ⟨-, hbelow⟩)
    · exact Or.inr ⟨hsize, Or.inl fun k hk => Int.le_trans habove (hsmallest k hk)⟩
    · exact Or.inr ⟨hsize, Or.inr fun k hk => Int.le_trans (hgreatest k hk) hbelow⟩
  · rintro (hsingle | ⟨-, habove | hbelow⟩)
    · exact absurd hsingle hsize
    · exact Or.inl ⟨habove _ hleast, habove _ hgreat⟩
    · exact Or.inr ⟨hbelow _ hleast, hbelow _ hgreat⟩

/-! ### Discerned values -/

/-- What the variable is an image of stays in the range of values, and at most one of its own
    images lies at or beyond either end. -/
structure Discerns (x : IntVar) (s : Store) : Prop where
  /-- The values of what the variable is an image of lie in the range. -/
  source : x.source.Ranges Width.value s
  /-- At most one image lies at or above the greatest value. -/
  above : ∀ k l, x.Takes s k → x.Takes s l → maxValue ≤ k → maxValue ≤ l → k = l
  /-- At most one image lies at or below the least value. -/
  below : ∀ k l, x.Takes s k → x.Takes s l → k ≤ minValue → l ≤ minValue → k = l

theorem Ranges.discerns (hx : x.Ranges Width.value s) : x.Discerns s where
  source := hx.source
  above := by
    intro k l hk hl hkmax hlmax
    exact Int.le_antisymm (Int.le_trans (hx.fits hk).2 hlmax) (Int.le_trans (hx.fits hl).2 hkmax)
  below := by
    intro k l hk hl hkmin hlmin
    exact Int.le_antisymm (Int.le_trans hkmin (hx.fits hl).1) (Int.le_trans hlmin (hx.fits hk).1)

theorem Takes.narrower {k : Int} (hk : x.Takes t k) (h : s.Narrower t) : x.Takes s k := by
  obtain ⟨v, hv, rfl⟩ := hk
  exact takes_image (h.contains hv)

namespace Discerns

theorem base (hx : x.Discerns s) : (plain x.base).Ranges Width.value s := by
  cases x with
  | plain y => exact hx.source
  | view inner map => exact hx.source.base

theorem narrower (hx : x.Discerns s) (h : s.Narrower t) : x.Discerns t where
  source := hx.source.narrower h
  above := fun k l hk hl => hx.above k l (hk.narrower h) (hl.narrower h)
  below := fun k l hk hl => hx.below k l (hk.narrower h) (hl.narrower h)

theorem not_merged (hx : x.Discerns s) (hs : s.Wf) : ¬ x.Merged s := by
  have htakes := takes_image (x := x) (hs.int x.base).lower_mem
  rintro ⟨hsize, habove | hbelow⟩
  · exact hsize (size_eq_one_of_takes hs fun l hl =>
      hx.above l _ hl htakes (habove l hl) (habove _ htakes))
  · exact hsize (size_eq_one_of_takes hs fun l hl =>
      hx.below l _ hl htakes (hbelow l hl) (hbelow _ htakes))

/-- A variable that discerns its values is fixed if and only if one value is left. -/
theorem isFixed_iff (hx : x.Discerns s) (hs : s.Wf) : x.isFixed s = true ↔ x.size s = 1 :=
  (IntVar.isFixed_iff hs hx.source).trans (or_iff_left (hx.not_merged hs))

/-- A variable whose values below all have the same image in the range shows this image. -/
theorem lowerBound_eq (hx : x.Discerns s) (hs : s.Wf) {k : Int} (hk : Width.value.Fits k)
    (h : ∀ l, x.Takes s l → l = k) : x.lowerBound s = k := by
  have hlower := (hs.int x.base).lower_mem
  have hsingle : ∀ w, (s.int x.base).contains w = true → w = (s.int x.base).lower := fun w hw =>
    image_injective ((h _ (takes_image hw)).trans (h _ (takes_image hlower)).symm)
  rw [(bounds_of_single x hs hsingle).1, shown_eq_clamp hx.source hlower, h _ (takes_image hlower)]
  exact Width.clamp_of_fits hk

theorem isFixed_eq_false_iff (hx : x.Discerns s) (hs : s.Wf) :
    x.isFixed s = false ↔ x.size s ≠ 1 := by
  rw [← Bool.not_eq_true, hx.isFixed_iff hs]

end Discerns

end IntVar

end FiniteDomain
