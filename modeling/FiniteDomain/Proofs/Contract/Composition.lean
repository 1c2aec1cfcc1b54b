import FiniteDomain.Proofs.Contract.Reading
import FiniteDomain.Proofs.Domain.Integer.Congruence
import FiniteDomain.Proofs.Program
import FiniteDomain.Proofs.Variable.Events

/-! # A view of a view is one view

    Two affine maps one after the other are one affine map, and a view of a view is
    the view under that map: everything that can be read off the two, asked of them
    and heard from them is the same (`IntVar.Agrees`), as long as no image on the
    way reaches an end of the range of values.

    More generally two variables over the same variable of the store agree if they
    have the same images (`IntVar.Alike.agrees`).  What a view asks of the variable
    below is rounded and saturated on the way, twice through two maps, but the
    values that obey are those whose image obeys, and requests that the same values
    obey have the same outcome.

    Scaling, shifting and negating a variable yields the view under the composed
    map, or a fault if a factor is zero or a coefficient leaves the range
    (`Store.composed_views`). -/

namespace FiniteDomain

/-! ### Composed maps -/

namespace AffineMap

/-- The first map followed by the second. -/
def followedBy (m m' : AffineMap) : AffineMap where
  scale := m.scale * m'.scale
  offset := m.offset * m'.scale + m'.offset
  scale_ne_zero := Int.mul_ne_zero m.scale_ne_zero m'.scale_ne_zero

theorem image_followedBy (m m' : AffineMap) (v : Int) :
    (m.followedBy m').image v = m'.image (m.image v) := by
  simp only [followedBy, image]
  ring

/-- The coefficients are in the range of values. -/
def InRange (m : AffineMap) : Prop := Width.value.Fits m.scale ∧ Width.value.Fits m.offset

variable {m m' : AffineMap} {k : Int}

theorem make_eq_ok_iff {scale offset : Int} :
    make scale offset = .ok m ↔ ∃ hne : scale ≠ 0, m = ⟨scale, offset, hne⟩ := by
  unfold make
  by_cases hzero : scale = 0
  · rw [dif_pos hzero]
    exact ⟨nofun, fun ⟨hne, _⟩ => absurd hzero hne⟩
  · rw [dif_neg hzero]
    exact ⟨fun h => ⟨hzero, (Except.ok.inj h).symm⟩, fun ⟨_, h⟩ => congrArg Except.ok h.symm⟩

/-- Multiplication is one more map, and fails if the factor is zero or a coefficient leaves the
    range. -/
theorem scaled_eq_ok_iff :
    m.scaled k = .ok m' ↔ ∃ hne : k ≠ 0, m' = m.followedBy ⟨k, 0, hne⟩ ∧ m'.InRange := by
  have hne_iff : m.scale * k ≠ 0 ↔ k ≠ 0 :=
    ⟨fun h h' => h (h' ▸ Int.mul_zero m.scale), Int.mul_ne_zero m.scale_ne_zero⟩
  have hfollowed : ∀ (hne : k ≠ 0) (hne' : m.scale * k ≠ 0),
      (⟨m.scale * k, m.offset * k, hne'⟩ : AffineMap) = m.followedBy ⟨k, 0, hne⟩ := by
    intro hne hne'
    simp only [followedBy, Int.add_zero]
  unfold scaled
  by_cases hfits : Width.value.Fits (m.scale * k) ∧ Width.value.Fits (m.offset * k)
  · rw [if_pos hfits, make_eq_ok_iff]
    constructor
    · rintro ⟨hne, rfl⟩
      exact ⟨hne_iff.mp hne, hfollowed (hne_iff.mp hne) hne, hfits⟩
    · rintro ⟨hne, rfl, -⟩
      exact ⟨hne_iff.mpr hne, (hfollowed hne (hne_iff.mpr hne)).symm⟩
  · rw [if_neg hfits]
    refine ⟨nofun, ?_⟩
    rintro ⟨hne, rfl, hrange⟩
    rw [← hfollowed hne (hne_iff.mpr hne)] at hrange
    exact absurd hrange hfits

/-- Addition is one more map, and fails if the offset leaves the range. -/
theorem shifted_eq_ok_iff (hm : m.InRange) :
    m.shifted k = .ok m' ↔ m' = m.followedBy ⟨1, k, Int.one_ne_zero⟩ ∧ m'.InRange := by
  have hfollowed : m.followedBy ⟨1, k, Int.one_ne_zero⟩ = { m with offset := m.offset + k } := by
    simp only [followedBy, Int.mul_one]
  rw [hfollowed]
  unfold shifted
  by_cases hfits : Width.value.Fits (m.offset + k)
  · rw [if_pos hfits]
    constructor
    · rintro h
      cases h
      exact ⟨rfl, hm.1, hfits⟩
    · rintro ⟨rfl, -⟩
      rfl
  · rw [if_neg hfits]
    refine ⟨nofun, ?_⟩
    rintro ⟨rfl, hrange⟩
    exact absurd hrange.2 hfits

end AffineMap

/-! ### Bounds from either side -/

/-- The value obeys the bound `k` from above or from below. -/
def Bounded (above : Bool) (k v : Int) : Prop := if above then v ≤ k else k ≤ v

namespace AffineMap

/-- The bound from above or from below that a bound is pulled back to. -/
def pull? (m : AffineMap) (above : Bool) (k : Int) : Option Int :=
  if above then m.pullUpper? k else m.pullLower? k

/-- A bound is pulled back to one from the same side, or from the other side if the order is
    reversed. -/
theorem pull?_spec {m : AffineMap} {v : Int} (hv : Width.value.Fits v) (above : Bool) (k : Int) :
    (m.pull? (above ^^ m.reverses) k).elim False (Bounded (above ^^ m.reverses) · v)
      ↔ Bounded above k (m.image v) := by
  cases hr : m.reverses with
  | false =>
    cases above with
    | false => exact (pullLower?_spec hv).trans (pullUp_le hr)
    | true => exact (pullUpper?_spec hv).trans (le_pullDown hr)
  | true =>
    cases above with
    | false => exact (pullUpper?_spec hv).trans (le_pullDown_of_reverses hr)
    | true => exact (pullLower?_spec hv).trans (pullUp_le_of_reverses hr)

end AffineMap

namespace Store

variable {s : Store} {y : IntId}

/-- Keeps the values of a variable of the store that obey a bound from either side. -/
def tighten (s : Store) (y : IntId) (above : Bool) (k : Int) : Narrowed :=
  if above then s.tightenUpper y k else s.tightenLower y k

theorem tighten_congr (hs : s.Wf) {above : Bool} {k k' : Int}
    (h : ∀ v, (s.int y).contains v = true → (Bounded above k v ↔ Bounded above k' v)) :
    s.tighten y above k = s.tighten y above k' := by
  cases above with
  | false => exact congrArg (s.commitInt y) (IntegerDomain.tightenLower_congr (hs.int y) h)
  | true => exact congrArg (s.commitInt y) (IntegerDomain.tightenUpper_congr (hs.int y) h)

/-- Some bound is obeyed by no value; it is refused. -/
theorem exists_tighten_refused (hs : s.Wf) (y : IntId) (above : Bool) :
    ∃ p, s.tighten y above p = ⟨none, s⟩
      ∧ ∀ v, (s.int y).contains v = true → ¬ Bounded above p v := by
  have hbetween : ∀ v, (s.int y).contains v = true → (s.int y).lower ≤ v ∧ v ≤ (s.int y).upper :=
    fun v hv => ⟨(IntegerDomain.contains_iff.mp hv).1, (IntegerDomain.contains_iff.mp hv).2.1⟩
  cases above with
  | false =>
    have hnone : ∀ v, (s.int y).contains v = true → ¬ (s.int y).upper + 1 ≤ v := fun v hv =>
      Int.not_le.mpr (Int.lt_add_one_of_le (hbetween v hv).2)
    exact ⟨_, congrArg (s.commitInt y) (IntegerDomain.tightenLower_of_none (hs.int y) hnone), hnone⟩
  | true =>
    have hnone : ∀ v, (s.int y).contains v = true → ¬ v ≤ (s.int y).lower - 1 := fun v hv =>
      Int.not_le.mpr (Int.sub_one_lt_of_le (hbetween v hv).1)
    exact ⟨_, congrArg (s.commitInt y) (IntegerDomain.tightenUpper_of_none (hs.int y) hnone), hnone⟩

theorem removeInterval_congr (hs : s.Wf) {a a' b b' : Int}
    (h : ∀ v, (s.int y).contains v = true → ((a ≤ v ∧ v ≤ b) ↔ (a' ≤ v ∧ v ≤ b'))) :
    s.removeInterval y a b = s.removeInterval y a' b' :=
  congrArg (s.commitInt y) (IntegerDomain.removeInterval_congr (hs.int y) h)

end Store

namespace IntVar

open IntegerDomain (IsNext IsPrevious)

variable {x y inner : IntVar} {map m m' : AffineMap} {s : Store} {k v : Int}

/-- Keeps the values that obey a bound from either side. -/
def tighten (x : IntVar) (above : Bool) (s : Store) (k : Int) : Narrowed :=
  if above then x.tightenUpper s k else x.tightenLower s k

theorem tighten_view (inner : IntVar) (map : AffineMap) (above : Bool) (s : Store) (k : Int) :
    (view inner map).tighten above s k
      = (map.pull? (above ^^ map.reverses) k).elim ⟨none, s⟩
        (inner.tighten (above ^^ map.reverses) s) := by
  cases above <;> simp only [tighten, tightenLower, tightenUpper, AffineMap.pull?] <;>
    cases map.reverses <;> rfl

/-- A bound on a variable comes to a bound on the variable of the store below that the values
    obey whose image obeys the bound. -/
theorem exists_tighten (hs : s.Wf) (hx : x.source.Ranges Width.value s) (above : Bool) (k : Int) :
    ∃ p, x.tighten above s k = s.tighten x.base (above ^^ x.reverses) p
      ∧ ∀ v, (s.int x.base).contains v = true →
        (Bounded (above ^^ x.reverses) p v ↔ Bounded above k (x.image v)) := by
  induction x generalizing above k with
  | plain y =>
    rw [show (above ^^ (plain y).reverses) = above from Bool.xor_false above]
    exact ⟨k, rfl, fun v _ => Iff.rfl⟩
  | view inner map ih =>
    have hinner : inner.Ranges Width.value s := hx
    have hspec : ∀ v, (s.int inner.base).contains v = true →
        ((map.pull? (above ^^ map.reverses) k).elim False
            (Bounded (above ^^ map.reverses) · (inner.image v))
          ↔ Bounded above k ((view inner map).image v)) := fun v hv =>
      AffineMap.pull?_spec (hinner v hv).fits above k
    have hside : (above ^^ (view inner map).reverses) = ((above ^^ map.reverses) ^^ inner.reverses) := by
      show (above ^^ (inner.reverses ^^ map.reverses)) = _
      rw [Bool.xor_assoc, Bool.xor_comm map.reverses]
    rw [tighten_view, hside]
    cases hpull : map.pull? (above ^^ map.reverses) k with
    -- a bound that cannot be pulled back is refused, as it is below by a bound beyond the domain
    | none =>
      obtain ⟨p, hrefused, hnone⟩ :=
        Store.exists_tighten_refused hs inner.base ((above ^^ map.reverses) ^^ inner.reverses)
      refine ⟨p, hrefused.symm, fun v hv => ?_⟩
      rw [← hspec v hv, hpull]
      exact iff_false_intro (hnone v hv)
    | some w =>
      obtain ⟨p, heq, hobeys⟩ := ih hinner.source (above ^^ map.reverses) w
      refine ⟨p, heq, fun v hv => (hobeys v hv).trans ?_⟩
      rw [← hspec v hv, hpull]
      exact Iff.rfl

/-! ### Values and intervals that are pulled back -/

/-- What goes through the preimages of a number down to the variable of the store is done there to
    the value whose image the number is, if there is one. -/
theorem through_preimages {α : Type} {f : IntVar → Int → α} {other : α}
    (hview : ∀ inner map k, f (view inner map) k = (map.preimage? k).elim other (f inner))
    (hplain : ∀ y k, ¬ (s.int y).contains k = true → f (plain y) k = other)
    (hx : x.source.Ranges Width.value s) :
    (∀ v, (s.int x.base).contains v = true → f x (x.image v) = f (plain x.base) v)
      ∧ ∀ k, ¬ x.Takes s k → f x k = other := by
  induction x with
  | plain y => exact ⟨fun v _ => rfl, fun k hk => hplain y k fun hin => hk ⟨k, hin, rfl⟩⟩
  | view inner map ih =>
    have hinner : inner.Ranges Width.value s := hx
    obtain ⟨htaken, hother⟩ := ih hinner.source
    constructor
    · intro v hv
      have hpre : map.preimage? (map.image (inner.image v)) = some (inner.image v) :=
        AffineMap.preimage?_eq_some.mpr ⟨rfl, (hinner v hv).fits⟩
      rw [hview]
      show (map.preimage? (map.image (inner.image v))).elim other (f inner) = _
      rw [hpre]
      exact htaken v hv
    · intro k hk
      rw [hview]
      cases hpre : map.preimage? k with
      | none => rfl
      | some u =>
        refine hother u fun hu => hk (takes_view.mpr ⟨u, hu, ?_⟩)
        exact (AffineMap.preimage?_eq_some.mp hpre).1

/-- An interval is pulled back to the values whose image it holds, as long as no value on the way
    is an end of the range. -/
theorem pullInterval?_spec (hx : x.source.Ranges Width.interior s)
    (hv : (s.int x.base).contains v = true) (lower upper : Int) :
    (x.pullInterval? lower upper).elim False (fun i => i.1 ≤ v ∧ v ≤ i.2)
      ↔ lower ≤ x.image v ∧ x.image v ≤ upper := by
  induction x generalizing lower upper with
  | plain y => exact Iff.rfl
  | view inner map ih =>
    have hinner : inner.Ranges Width.interior s := hx
    have hclear := (hinner v hv).fits
    -- inside the range saturating the ends makes no difference
    have hpulled : Width.value.clamp (map.pullUp (if map.reverses then upper else lower))
            ≤ inner.image v
          ∧ inner.image v ≤ Width.value.clamp (map.pullDown (if map.reverses then lower else upper))
        ↔ lower ≤ (view inner map).image v ∧ (view inner map).image v ≤ upper := by
      rw [clamp_le_iff hclear, le_clamp_iff hclear]
      cases hr : map.reverses with
      | false => exact and_congr (AffineMap.pullUp_le hr) (AffineMap.le_pullDown hr)
      | true =>
        exact (and_congr (AffineMap.pullUp_le_of_reverses hr)
          (AffineMap.le_pullDown_of_reverses hr)).trans And.comm
    rw [← hpulled]
    change (if Width.value.clamp (map.pullDown (if map.reverses then lower else upper))
          < Width.value.clamp (map.pullUp (if map.reverses then upper else lower)) then none
        else inner.pullInterval? (Width.value.clamp (map.pullUp (if map.reverses then upper else lower)))
          (Width.value.clamp (map.pullDown (if map.reverses then lower else upper)))).elim False
      (fun i => i.1 ≤ v ∧ v ≤ i.2) ↔ _
    generalize Width.value.clamp (map.pullUp (if map.reverses then upper else lower)) = first
    generalize Width.value.clamp (map.pullDown (if map.reverses then lower else upper)) = last
    by_cases hempty : last < first
    · rw [if_pos hempty]
      refine ⟨False.elim, fun ⟨hlow, hhigh⟩ => ?_⟩
      exact Int.not_le.mpr hempty (Int.le_trans hlow hhigh)
    · rw [if_neg hempty]
      exact ih hinner.source hv first last

/-- Removing an interval comes to removing one below that holds the values whose image the
    interval holds. -/
theorem exists_removeInterval (hs : s.Wf) (hx : x.source.Ranges Width.interior s)
    (lower upper : Int) :
    ∃ p q, x.removeInterval s lower upper = s.removeInterval x.base p q
      ∧ ∀ v, (s.int x.base).contains v = true →
        ((p ≤ v ∧ v ≤ q) ↔ (lower ≤ x.image v ∧ x.image v ≤ upper)) := by
  have hspec := fun v (hv : (s.int x.base).contains v = true) => pullInterval?_spec hx hv lower upper
  unfold removeInterval
  cases hpull : x.pullInterval? lower upper with
  | none =>
    -- no value is above 1 and below 0
    have hempty : ∀ v : Int, ¬ (1 ≤ v ∧ v ≤ 0) := by
      intro v
      omega
    have hidle := IntegerDomain.removeInterval_of_none (hs.int x.base) fun v _ => hempty v
    refine ⟨1, 0, congrArg (s.commitInt x.base) hidle.symm, fun v hv => ?_⟩
    rw [← hspec v hv, hpull]
    exact iff_false_intro (hempty v)
  | some i =>
    refine ⟨i.1, i.2, rfl, fun v hv => ?_⟩
    rw [← hspec v hv, hpull]
    exact Iff.rfl

/-! ### Events -/

/-- The event below is that of the variable, with the bounds exchanged if the order is reversed. -/
theorem eventSeen_eq (x : IntVar) (e : Event) :
    x.eventSeen e = if x.reverses then e.reflect else e := by
  induction x with
  | plain y => rfl
  | view inner map ih =>
    show (if map.reverses then (inner.eventSeen e).reflect else inner.eventSeen e)
      = if inner.reverses ^^ map.reverses then e.reflect else e
    rw [ih]
    cases map.reverses <;> cases inner.reverses <;> cases e <;> rfl

theorem reverses_eq_decide (x : IntVar) : x.reverses = decide (x.image 1 ≤ x.image 0) := by
  cases hr : x.reverses with
  | false => exact (decide_eq_false (mt (image_le_image hr).mp (by decide))).symm
  | true => exact (decide_eq_true ((image_le_image_of_reverses hr).mpr (by decide))).symm

/-! ### Variables that agree -/

/-- Two variables cannot be told apart by what is read off them, asked of them or heard from
    them. -/
structure Agrees (x y : IntVar) (s : Store) : Prop where
  /-- They have the same least value. -/
  lowerBound : x.lowerBound s = y.lowerBound s
  /-- They have the same greatest value. -/
  upperBound : x.upperBound s = y.upperBound s
  /-- They contain the same numbers. -/
  contains : ∀ k, x.contains s k = y.contains s k
  /-- They have the same number of values. -/
  size : x.size s = y.size s
  /-- They are fixed together. -/
  isFixed : x.isFixed s = y.isFixed s
  /-- Every number is followed by the same value. -/
  nextValue : ∀ k, x.nextValue s k = y.nextValue s k
  /-- Every number is preceded by the same value. -/
  previousValue : ∀ k, x.previousValue s k = y.previousValue s k
  /-- They list the same values in the same order. -/
  values : x.values s = y.values s
  /-- Bounding, removing and choosing a value give the same answer and the same store. -/
  narrowing : ∀ (c : Comparator) k, (c.narrowing x k).apply s = (c.narrowing y k).apply s
  /-- Removing an interval gives the same answer and the same store. -/
  removeInterval : ∀ lower upper, x.removeInterval s lower upper = y.removeInterval s lower upper
  /-- Imposing a predicate gives the same answer and the same store. -/
  predicate : ∀ (c : Comparator) k, s.impose (c.predicate x k) = s.impose (c.predicate y k)
  /-- They are woken by the same events of the variable below. -/
  watchedEvents : ∀ events, x.watchedEvents events = y.watchedEvents events
  /-- They make the same of an event of the variable below. -/
  eventSeen : ∀ e, x.eventSeen e = y.eventSeen e

/-- Two variables are images of the same variable of the store by the same map. -/
structure Alike (x y : IntVar) : Prop where
  /-- The variable of the store. -/
  base : x.base = y.base
  /-- The images of its values. -/
  image : ∀ v, x.image v = y.image v

namespace Alike

theorem reverses (h : x.Alike y) : x.reverses = y.reverses := by
  rw [reverses_eq_decide, reverses_eq_decide, h.image, h.image]

theorem takes (h : x.Alike y) : x.Takes s = y.Takes s := by
  funext k
  unfold Takes
  simp only [h.base, h.image]

theorem bounds (h : x.Alike y) (hs : s.Wf) (hx : x.Ranges Width.value s)
    (hy : y.Ranges Width.value s) :
    x.lowerBound s = y.lowerBound s ∧ x.upperBound s = y.upperBound s := by
  obtain ⟨hlower, hupper⟩ := bounds_eq hs hx
  obtain ⟨hlower', hupper'⟩ := bounds_eq hs hy
  rw [hlower, hupper, hlower', hupper', h.reverses, h.base, h.image, h.image]
  exact ⟨rfl, rfl⟩

/-- The neighbours of a number are determined by the numbers that are taken. -/
theorem neighbours (h : x.Alike y) (hs : s.Wf) (hx : x.Ranges Width.interior s)
    (hy : y.Ranges Width.interior s) (k : Int) :
    x.nextValue s k = y.nextValue s k ∧ x.previousValue s k = y.previousValue s k := by
  obtain ⟨hnext, hprevious⟩ := isNext_and_isPrevious hs hx k
  obtain ⟨hnext', hprevious'⟩ := isNext_and_isPrevious hs hy k
  rw [h.takes] at hnext hprevious
  exact ⟨hnext.unique hnext' fun _ _ => Int.le_antisymm,
    hprevious.unique hprevious' fun _ _ h h' => Int.le_antisymm h' h⟩

theorem through_preimages (h : x.Alike y) {α : Type} {f : IntVar → Int → α} {other : α}
    (hview : ∀ inner map k, f (view inner map) k = (map.preimage? k).elim other (f inner))
    (hplain : ∀ z k, ¬ (s.int z).contains k = true → f (plain z) k = other)
    (hx : x.source.Ranges Width.value s) (hy : y.source.Ranges Width.value s) (k : Int) :
    f x k = f y k := by
  obtain ⟨htaken, hother⟩ := IntVar.through_preimages hview hplain hx
  obtain ⟨htaken', hother'⟩ := IntVar.through_preimages hview hplain hy
  by_cases hk : x.Takes s k
  · obtain ⟨v, hv, rfl⟩ := hk
    rw [htaken v hv, h.image v, htaken' v (h.base ▸ hv), h.base]
  · rw [hother k hk, hother' k (h.takes ▸ hk)]

theorem tighten (h : x.Alike y) (hs : s.Wf) (hx : x.source.Ranges Width.value s)
    (hy : y.source.Ranges Width.value s) (above : Bool) (k : Int) :
    x.tighten above s k = y.tighten above s k := by
  obtain ⟨p, heq, hobeys⟩ := exists_tighten hs hx above k
  obtain ⟨p', heq', hobeys'⟩ := exists_tighten hs hy above k
  rw [heq, heq', h.base, h.reverses]
  rw [h.base, h.reverses] at hobeys
  refine Store.tighten_congr hs fun v hv => ?_
  rw [hobeys v hv, hobeys' v hv, h.image]

theorem narrowing (h : x.Alike y) (hs : s.Wf) (hx : x.source.Ranges Width.value s)
    (hy : y.source.Ranges Width.value s) (c : Comparator) (k : Int) :
    (c.narrowing x k).apply s = (c.narrowing y k).apply s := by
  have hmissing : ∀ {z : IntId} {k : Int}, ¬ (s.int z).contains k = true →
      (s.int z).contains k = false := fun hk => Bool.eq_false_iff.mpr hk
  cases c with
  | atLeast => exact h.tighten hs hx hy false k
  | atMost => exact h.tighten hs hx hy true k
  | differs =>
    refine h.through_preimages (f := fun x k => x.removeValue s k) (fun _ _ _ => rfl)
      (fun z k hk => ?_) hx hy k
    have hidle : (s.int z).remove k = .unchanged := by
      unfold IntegerDomain.remove
      rw [hmissing hk]
      rfl
    exact congrArg (s.commitInt z) hidle
  | equals =>
    refine h.through_preimages (f := fun x k => x.instantiate s k) (fun _ _ _ => rfl)
      (fun z k hk => ?_) hx hy k
    have hrefused : (s.int z).instantiate k = .empty := by
      unfold IntegerDomain.instantiate
      rw [hmissing hk]
      rfl
    exact congrArg (s.commitInt z) hrefused

theorem removeInterval (h : x.Alike y) (hs : s.Wf) (hx : x.source.Ranges Width.interior s)
    (hy : y.source.Ranges Width.interior s) (lower upper : Int) :
    x.removeInterval s lower upper = y.removeInterval s lower upper := by
  obtain ⟨p, q, heq, hholds⟩ := exists_removeInterval hs hx lower upper
  obtain ⟨p', q', heq', hholds'⟩ := exists_removeInterval hs hy lower upper
  rw [heq, heq', h.base]
  rw [h.base] at hholds
  refine Store.removeInterval_congr hs fun v hv => ?_
  rw [hholds v hv, hholds' v hv, h.image]

/-- Variables with the same images agree, if no image on the way is an end of the range. -/
theorem agrees (h : x.Alike y) (hs : s.Wf) (hx : x.Ranges Width.interior s)
    (hy : y.Ranges Width.interior s) : x.Agrees y s := by
  have hx' := hx.mono fun _ => Width.fits_of_interior
  have hy' := hy.mono fun _ => Width.fits_of_interior
  obtain ⟨hlower, hupper⟩ := h.bounds hs hx' hy'
  have hnarrowing := h.narrowing hs hx'.source hy'.source
  -- all readings follow from the bounds, the neighbours and the narrowings
  constructor
  case lowerBound => exact hlower
  case upperBound => exact hupper
  case contains =>
    intro k
    rw [Bool.eq_iff_iff, contains_iff hx', contains_iff hy', h.takes]
  case size => exact congrArg (fun z => (s.int z).size) h.base
  case isFixed =>
    unfold isFixed
    rw [hlower, hupper]
  case nextValue => exact fun k => (h.neighbours hs hx hy k).1
  case previousValue => exact fun k => (h.neighbours hs hx hy k).2
  case values =>
    have hnext : x.nextValue s = y.nextValue s := funext fun k => (h.neighbours hs hx hy k).1
    unfold values firstValues
    rw [hlower, hupper, hnext]
  case narrowing => exact hnarrowing
  case removeInterval => exact h.removeInterval hs hx.source hy.source
  case predicate =>
    intro c k
    rw [c.impose_predicate, c.impose_predicate, hnarrowing]
  case watchedEvents =>
    intro events
    rw [watchedEvents_eq, watchedEvents_eq, h.reverses]
  case eventSeen =>
    intro e
    rw [eventSeen_eq, eventSeen_eq, h.reverses]

end Alike

/-! ### Composition -/

/-- The view of a variable under one more map; of a view it is the view under the composed map. -/
def compose : IntVar → AffineMap → IntVar
  | .plain y, m => .view (.plain y) m
  | .view inner map, m => .view inner (map.followedBy m)

/-- The second variable has the same images as the first, and fewer on the way. -/
structure Flattens (x y : IntVar) : Prop extends x.Alike y where
  /-- Where the images of the first stay in a width, those of the second do. -/
  within : ∀ {width : Width} {v : Int}, x.Within width v → y.Within width v

theorem flattens_refl (x : IntVar) : x.Flattens x := ⟨⟨rfl, fun _ => rfl⟩, id⟩

theorem Flattens.agrees (h : x.Flattens y) (hs : s.Wf) (hx : x.Ranges Width.interior s) :
    x.Agrees y s :=
  h.toAlike.agrees hs hx fun v hv => h.within (hx v (h.base ▸ hv))

/-- A view of the first variable is flattened by composing its map with the second. -/
theorem Flattens.compose (h : x.Flattens y) (m : AffineMap) : (view x m).Flattens (y.compose m) := by
  have himage : ∀ v, (y.compose m).image v = m.image (y.image v) := by
    intro v
    cases y with
    | plain z => rfl
    | view inner map => exact map.image_followedBy m (inner.image v)
  refine ⟨⟨?_, fun v => ?_⟩, fun {width v} hwithin => ?_⟩
  · cases y with
    | plain z => exact h.base
    | view inner map => exact h.base
  · rw [himage, ← h.image]
    rfl
  · have hfits : width.Fits ((y.compose m).image v) := by
      rw [himage, ← h.image]
      exact hwithin.fits
    have hbelow := h.within hwithin.1
    cases y with
    | plain z => exact ⟨hbelow, hfits⟩
    | view inner map => exact ⟨hbelow.1, hfits⟩

/-- Views stacked on a variable are flattened by composing their maps. -/
theorem flattens_foldl (maps : List AffineMap) (h : x.Flattens y) :
    (maps.foldl view x).Flattens (maps.foldl IntVar.compose y) := by
  induction maps generalizing x y with
  | nil => exact h
  | cons m maps ih => exact ih (h.compose m)

/-- The coefficients of a view are in the range of values. -/
def Writable : IntVar → Prop
  | .plain _ => True
  | .view _ map => map.InRange

theorem scaled_eq_ok_iff {factor : Int} (hfactor : Width.value.Fits factor) :
    x.scaled factor = .ok y
      ↔ ∃ hne : factor ≠ 0, y = x.compose ⟨factor, 0, hne⟩ ∧ y.Writable := by
  have hzero : Width.value.Fits 0 := by decide
  cases x with
  | plain z =>
    show (AffineMap.make factor 0).bind (fun m => .ok (view (plain z) m)) = .ok y ↔ _
    rw [except_bind_eq_ok_iff]
    simp only [AffineMap.make_eq_ok_iff]
    constructor
    · rintro ⟨m, ⟨hne, rfl⟩, h⟩
      cases h
      exact ⟨hne, rfl, hfactor, hzero⟩
    · rintro ⟨hne, rfl, -⟩
      exact ⟨_, ⟨hne, rfl⟩, rfl⟩
  | view inner map =>
    show (map.scaled factor).bind (fun m => .ok (view inner m)) = .ok y ↔ _
    rw [except_bind_eq_ok_iff]
    simp only [AffineMap.scaled_eq_ok_iff]
    constructor
    · rintro ⟨m, ⟨hne, rfl, hrange⟩, h⟩
      cases h
      exact ⟨hne, rfl, hrange⟩
    · rintro ⟨hne, rfl, hrange⟩
      exact ⟨_, ⟨hne, rfl, hrange⟩, rfl⟩

theorem shifted_eq_ok_iff (hx : x.Writable) {summand : Int} (hsummand : Width.value.Fits summand) :
    x.shifted summand = .ok y
      ↔ y = x.compose ⟨1, summand, Int.one_ne_zero⟩ ∧ y.Writable := by
  cases x with
  | plain z =>
    have hone : Width.value.Fits 1 := by decide
    constructor
    · intro h
      cases h
      exact ⟨rfl, hone, hsummand⟩
    · rintro ⟨rfl, -⟩
      rfl
  | view inner map =>
    show (map.shifted summand).bind (fun m => .ok (view inner m)) = .ok y ↔ _
    rw [except_bind_eq_ok_iff]
    simp only [AffineMap.shifted_eq_ok_iff hx]
    constructor
    · rintro ⟨m, ⟨rfl, hrange⟩, h⟩
      cases h
      exact ⟨rfl, hrange⟩
    · rintro ⟨rfl, hrange⟩
      exact ⟨_, ⟨rfl, hrange⟩, rfl⟩

end IntVar

/-! ### Chains of transformations -/

/-- A transformation of a variable. -/
inductive Transform where
  /-- Multiply by a factor. -/
  | scale (factor : Int)
  /-- Add a constant. -/
  | shift (summand : Int)
  /-- Change the sign. -/
  | negate

namespace Transform

/-- The transformed variable, or a fault. -/
def apply (x : IntVar) : Transform → Except Fault IntVar
  | .scale factor => x.scaled factor
  | .shift summand => x.shifted summand
  | .negate => x.negated

/-- The number of the transformation is in the range of values. -/
def Fits : Transform → Prop
  | .scale factor => Width.value.Fits factor
  | .shift summand => Width.value.Fits summand
  | .negate => True

/-- The map of the transformation; factor zero has none. -/
def map? : Transform → Option AffineMap
  | .scale factor => if h : factor = 0 then none else some ⟨factor, 0, h⟩
  | .shift summand => some ⟨1, summand, Int.one_ne_zero⟩
  | .negate => some ⟨-1, 0, AffineMap.neg_one_ne_zero⟩

/-- One transformation after the other, up to the first fault. -/
def chain (ts : List Transform) (x : IntVar) : Except Fault IntVar := ts.foldlM apply x

variable {x y : IntVar} {t : Transform} {ts : List Transform}

/-- A transformation composes its map, unless it has none or a coefficient leaves the range. -/
theorem apply_eq_ok_iff (hx : x.Writable) (ht : t.Fits) :
    t.apply x = .ok y ↔ ∃ m, t.map? = some m ∧ y = x.compose m ∧ y.Writable := by
  cases t with
  | scale factor =>
    -- a factor of zero has no map, and it is refused
    show x.scaled factor = .ok y ↔ _
    rw [IntVar.scaled_eq_ok_iff ht]
    constructor
    · rintro ⟨hne, h⟩
      exact ⟨_, dif_neg hne, h⟩
    · rintro ⟨m, hm, h⟩
      by_cases hzero : factor = 0
      · rw [show map? (.scale factor) = none from dif_pos hzero] at hm
        cases hm
      · rw [show map? (.scale factor) = some _ from dif_neg hzero] at hm
        cases hm
        exact ⟨hzero, h⟩
  | shift summand =>
    show x.shifted summand = .ok y ↔ _
    rw [IntVar.shifted_eq_ok_iff hx ht]
    constructor
    · intro h
      exact ⟨_, rfl, h⟩
    · rintro ⟨m, hm, h⟩
      cases hm
      exact h
  | negate =>
    show x.scaled (-1) = .ok y ↔ _
    rw [IntVar.scaled_eq_ok_iff (by decide)]
    constructor
    · rintro ⟨hne, h⟩
      exact ⟨_, rfl, h⟩
    · rintro ⟨m, hm, h⟩
      cases hm
      exact ⟨_, h⟩

/-- A chain yields the view under the composed map, unless a factor is zero or a coefficient
    leaves the range on the way. -/
theorem chain_eq_ok_iff (hx : x.Writable) (hts : ∀ t ∈ ts, t.Fits) :
    chain ts x = .ok y ↔ ∃ maps, ts.mapM map? = some maps ∧ y = maps.foldl IntVar.compose x
      ∧ ∀ first, first <+: maps → (first.foldl IntVar.compose x).Writable := by
  induction ts generalizing x with
  | nil =>
    constructor
    · intro h
      cases h
      refine ⟨[], rfl, rfl, fun first hfirst => ?_⟩
      rw [List.prefix_nil.mp hfirst]
      exact hx
    · rintro ⟨maps, hmaps, rfl, -⟩
      cases hmaps
      rfl
  | cons t ts ih =>
    obtain ⟨ht, hrest⟩ := List.forall_mem_cons.mp hts
    show (t.apply x).bind (chain ts) = .ok y ↔ _
    rw [except_bind_eq_ok_iff]
    constructor
    · rintro ⟨z, hz, h⟩
      obtain ⟨m, hm, rfl, hwritable⟩ := (apply_eq_ok_iff hx ht).mp hz
      obtain ⟨maps, hmaps, rfl, hprefixes⟩ := (ih hwritable hrest).mp h
      refine ⟨m :: maps, ?_, rfl, fun first hfirst => ?_⟩
      · rw [List.mapM_cons, hm, hmaps]
        rfl
      · rcases List.prefix_cons_iff.mp hfirst with rfl | ⟨tail, rfl, htail⟩
        · exact hx
        · exact hprefixes tail htail
    · rintro ⟨maps, hmaps, rfl, hprefixes⟩
      rw [List.mapM_cons] at hmaps
      cases hm : t.map? with
      | none =>
        rw [hm] at hmaps
        cases hmaps
      | some m =>
        cases hrest' : ts.mapM map? with
        | none =>
          rw [hm, hrest'] at hmaps
          cases hmaps
        | some rest =>
          rw [hm, hrest'] at hmaps
          cases hmaps
          -- the prefix of length one says that the first step stays in range
          have hfirst := hprefixes [m] (List.prefix_append [m] rest)
          refine ⟨x.compose m, (apply_eq_ok_iff hx ht).mpr ⟨m, hm, rfl, hfirst⟩, ?_⟩
          refine (ih hfirst hrest).mpr ⟨rest, hrest', rfl, fun first hpre => ?_⟩
          exact hprefixes (m :: first) (List.cons_prefix_cons.mpr ⟨rfl, hpre⟩)

end Transform

/-! ### Views of views -/

namespace Store

open IntVar

variable {s : Store}

/-- A view of a view agrees with the one view under the composed map, if no image on the way is an
    end of the range.  A chain of transformations yields exactly the composed view, or a fault if
    a factor is zero or a coefficient leaves the range, and views stacked by its maps agree with
    what it yields. -/
theorem composed_views (hs : s.Reachable) (x : IntVar) :
    (∀ m m', (view (view x m) m').Ranges Width.interior s →
      (view (view x m) m').Agrees
        (view x ⟨m.scale * m'.scale, m.offset * m'.scale + m'.offset,
          Int.mul_ne_zero m.scale_ne_zero m'.scale_ne_zero⟩) s)
      ∧ (x.Writable → ∀ ts : List Transform, (∀ t ∈ ts, t.Fits) →
        (∀ y, Transform.chain ts x = .ok y ↔ ∃ maps, ts.mapM Transform.map? = some maps
          ∧ y = maps.foldl compose x
          ∧ ∀ first, first <+: maps → (first.foldl compose x).Writable)
        ∧ ∀ maps, ts.mapM Transform.map? = some maps →
          (maps.foldl view x).Ranges Width.interior s →
          (maps.foldl view x).Agrees (maps.foldl compose x) s) := by
  have hwf := hs.traced.wf
  constructor
  · intro m m' hx
    have himage := fun v => (m.image_followedBy m' (x.image v)).symm
    have hflat : (view (view x m) m').Flattens (view x (m.followedBy m')) := by
      refine ⟨⟨rfl, himage⟩, fun {width v} hwithin => ⟨hwithin.1.1, ?_⟩⟩
      rw [← himage v]
      exact hwithin.2
    exact hflat.agrees hwf hx
  · intro hx ts hts
    refine ⟨fun y => Transform.chain_eq_ok_iff hx hts, fun maps _ hranges => ?_⟩
    exact (flattens_foldl maps (flattens_refl x)).agrees hwf hranges

/-- Multiplied by -2, increased by 3 and negated, the values 1, 4, 6 and 9 are seen through the
    map `v ↦ 2 v - 3`. -/
theorem composed_views_sieved :
    ∃ x y : IntVar,
      x = .view (.view (.view (.plain ⟨0⟩) ⟨-2, 0, by decide⟩) ⟨1, 3, by decide⟩)
          ⟨-1, 0, by decide⟩
      ∧ y = .view (.plain ⟨0⟩) ⟨2, -3, by decide⟩
      ∧ Transform.chain [.scale (-2), .shift 3, .negate] (.plain ⟨0⟩) = .ok y
      ∧ x.Agrees y sieved := by
  obtain ⟨-, hchain⟩ := composed_views sieved_reachable (.plain ⟨0⟩)
  have hfits : ∀ t ∈ [Transform.scale (-2), .shift 3, .negate], t.Fits := by
    have hnumbers : Width.value.Fits (-2) ∧ Width.value.Fits 3 := by decide
    exact List.forall_mem_cons.mpr ⟨hnumbers.1, List.forall_mem_cons.mpr ⟨hnumbers.2,
      List.forall_mem_singleton.mpr trivial⟩⟩
  obtain ⟨-, hagrees⟩ := hchain trivial _ hfits
  refine ⟨_, _, rfl, rfl, rfl, hagrees [⟨-2, 0, by decide⟩, ⟨1, 3, by decide⟩, ⟨-1, 0, by decide⟩]
    rfl fun v hv => ?_⟩
  obtain ⟨hlower, hupper, -⟩ := IntegerDomain.contains_iff.mp hv
  change 1 ≤ v at hlower
  change v ≤ 9 at hupper
  have hclear : ∀ n : Int, -100 ≤ n → n ≤ 100 → Width.interior.Fits n := fun n hleast hgreatest =>
    ⟨Int.le_trans (by decide) hleast, Int.le_trans hgreatest (by decide)⟩
  refine ⟨⟨⟨hclear v (by omega) (by omega), hclear _ ?_ ?_⟩, hclear _ ?_ ?_⟩, hclear _ ?_ ?_⟩
  all_goals
    simp only [image, AffineMap.image]
    omega

end Store

end FiniteDomain
