import FiniteDomain.Proofs.Store.Loss
import FiniteDomain.Proofs.Store.Undo

/-! # What a request to an integer domain comes to

    `Request.Keeps r` are the values that obey the request `r`.  A domain cannot
    always hold exactly these: an interval has no gaps.  `Hull` is the least that a
    domain of the same kind can hold, and it is what a request leaves.

    For every reachable store the request is refused exactly if no value obeys it,
    and then the store is as it was; it is idle exactly if the hull is the whole
    domain; otherwise the trail gets longer and one event is raised, which
    `Describes` the change (`request_contract`). -/

namespace FiniteDomain

namespace IntegerDomain

/-! ### Requests -/

/-- A request to narrow an integer domain. -/
inductive Request where
  /-- Keep the values that are at least `k`. -/
  | tightenLower (k : Int)
  /-- Keep the values that are at most `k`. -/
  | tightenUpper (k : Int)
  /-- Keep the values other than `k`. -/
  | removeValue (k : Int)
  /-- Keep the values outside the interval. -/
  | removeInterval (lower upper : Int)
  /-- Keep the value `k` alone. -/
  | instantiate (k : Int)

namespace Request

/-- The value obeys the request. -/
def Keeps : Request → Int → Prop
  | .tightenLower k, v => k ≤ v
  | .tightenUpper k, v => v ≤ k
  | .removeValue k, v => v ≠ k
  | .removeInterval lower upper, v => v < lower ∨ upper < v
  | .instantiate k, v => v = k

/-- What the domain makes of the request. -/
def outcome (d : IntegerDomain) : Request → Outcome IntegerDomain Entry
  | .tightenLower k => d.tightenLower k
  | .tightenUpper k => d.tightenUpper k
  | .removeValue k => d.remove k
  | .removeInterval lower upper => d.removeInterval lower upper
  | .instantiate k => d.instantiate k

/-- The request as it is made of a store. -/
def narrowing (x : IntId) : Request → Narrowing
  | .tightenLower k => .tightenLower (.plain x) k
  | .tightenUpper k => .tightenUpper (.plain x) k
  | .removeValue k => .removeValue (.plain x) k
  | .removeInterval lower upper => .removeInterval (.plain x) lower upper
  | .instantiate k => .instantiate (.plain x) k

theorem apply_narrowing (s : Store) (x : IntId) (r : Request) :
    (r.narrowing x).apply s = s.commitInt x (r.outcome (s.int x)) := by
  cases r <;> rfl

end Request

/-! ### Hulls -/

/-- The values that are left in the least domain of the same kind that holds all values obeying
    a request: these alone, or in an interval all between two of them. -/
def Hull (d : IntegerDomain) (keeps : Int → Prop) (v : Int) : Prop :=
  if d.isEnumerated then d.contains v = true ∧ keeps v
  else (∃ u, u ≤ v ∧ d.contains u = true ∧ keeps u)
    ∧ ∃ w, v ≤ w ∧ d.contains w = true ∧ keeps w

variable {d d' : IntegerDomain} {keeps : Int → Prop} {v : Int}

/-- An interval has no gaps. -/
theorem contains_of_between (hkind : d.isEnumerated = false) {u w : Int}
    (hu : d.contains u = true) (hw : d.contains w = true) (huv : u ≤ v) (hvw : v ≤ w) :
    d.contains v = true := by
  have hlower := (contains_iff.mp hu).1
  have hupper := (contains_iff.mp hw).2.1
  have hvalues : d.values? = none := by
    unfold isEnumerated at hkind
    rwa [Option.isSome_eq_false_iff, Option.isNone_iff_eq_none] at hkind
  refine contains_iff.mpr ⟨by omega, by omega, ?_⟩
  unfold holds
  rw [hvalues]

/-- A domain that holds exactly the values obeying the request holds the hull. -/
theorem contains_iff_hull (hkind : d'.isEnumerated = d.isEnumerated)
    (hexact : ∀ v, d'.contains v = true ↔ d.contains v = true ∧ keeps v) :
    d'.contains v = true ↔ d.Hull keeps v := by
  unfold Hull
  cases henum : d.isEnumerated with
  | true => exact hexact v
  | false =>
    rw [if_neg Bool.false_ne_true]
    constructor
    · intro hv
      have hboth := (hexact v).mp hv
      exact ⟨⟨v, Int.le_refl v, hboth⟩, v, Int.le_refl v, hboth⟩
    · intro ⟨⟨u, huv, hu⟩, w, hvw, hw⟩
      exact contains_of_between (hkind.trans henum) ((hexact u).mpr hu) ((hexact w).mpr hw) huv hvw

/-- An interval whose ends obey the request is the hull. -/
theorem contains_iff_hull_of_ends (hd : d.Wf) (hkind : d.isEnumerated = false)
    (hlower : keeps d.lower) (hupper : keeps d.upper) :
    d.contains v = true ↔ d.Hull keeps v := by
  unfold Hull
  rw [hkind, if_neg Bool.false_ne_true]
  constructor
  · intro hv
    obtain ⟨hge, hle, -⟩ := contains_iff.mp hv
    exact ⟨⟨d.lower, hge, hd.lower_mem, hlower⟩, d.upper, hle, hd.upper_mem, hupper⟩
  · intro ⟨⟨u, huv, hu, _⟩, w, hvw, hw, _⟩
    exact contains_of_between hkind hu hw huv hvw

/-! ### Events -/

/-- The event says what the change was. -/
inductive Describes (d d' : IntegerDomain) : Event → Prop where
  /-- One value is left. -/
  | assign (single : ∃ v, ∀ w, d'.contains w = true ↔ w = v) : Describes d d' .assign
  /-- The lower bound is higher. -/
  | lowerBound (several : d'.lower < d'.upper) (moved : d.lower < d'.lower)
      (kept : d'.upper = d.upper) : Describes d d' .lowerBound
  /-- The upper bound is lower. -/
  | upperBound (several : d'.lower < d'.upper) (moved : d'.upper < d.upper)
      (kept : d'.lower = d.lower) : Describes d d' .upperBound
  /-- Values between the bounds are gone. -/
  | removal (several : d'.lower < d'.upper) (lower : d'.lower = d.lower)
      (upper : d'.upper = d.upper) : Describes d d' .removal

/-- The event of a change says what it was. -/
def Described (d : IntegerDomain) : Outcome IntegerDomain Entry → Prop
  | .changed d' _ e => Describes d d' e
  | _ => True

theorem single_of_bounds (hd : d.Wf) (h : d.lower = d.upper) :
    ∃ v, ∀ w, d.contains w = true ↔ w = v := by
  refine ⟨d.lower, fun w => ⟨?_, ?_⟩⟩
  · intro hw
    obtain ⟨hge, hle, -⟩ := contains_iff.mp hw
    omega
  · intro hw
    rw [hw]
    exact hd.lower_mem

theorem described_tightenLower (hd : d.Wf) (v : Int) : Described d (d.tightenLower v) := by
  unfold tightenLower
  split
  · trivial
  split
  · trivial
  next hgt hle =>
    obtain ⟨hge, hin, -⟩ := firstFrom_spec hd (v := v) (by omega) (by omega)
    have htick : Tick d _ (d.raiseLower (d.firstFrom v)) := .raise _ (by omega) hin
    have hd' := htick.wf hd
    show Describes d (d.raiseLower (d.firstFrom v)) (boundEvent _ .lowerBound)
    -- the bound has moved to the least value that is left
    have hmoved : d.lower < (d.raiseLower (d.firstFrom v)).lower := by
      show d.lower < d.firstFrom v
      omega
    unfold boundEvent
    split
    next hfixed => exact .assign (single_of_bounds hd' (beq_iff_eq.mp hfixed))
    next hopen =>
      have hne : (d.raiseLower (d.firstFrom v)).lower ≠ _ := fun h => hopen (beq_iff_eq.mpr h)
      exact .lowerBound (lt_of_le_of_ne hd'.lower_le_upper hne) hmoved rfl

theorem described_tightenUpper (hd : d.Wf) (v : Int) : Described d (d.tightenUpper v) := by
  unfold tightenUpper
  split
  · trivial
  split
  · trivial
  next hgt hle =>
    obtain ⟨hge, hin, -⟩ := lastUpTo_spec hd (v := v) (by omega) (by omega)
    have htick : Tick d _ (d.dropUpper (d.lastUpTo v)) := .drop _ (by omega) hin
    have hd' := htick.wf hd
    show Describes d (d.dropUpper (d.lastUpTo v)) (boundEvent _ .upperBound)
    -- the bound has moved to the greatest value that is left
    have hmoved : (d.dropUpper (d.lastUpTo v)).upper < d.upper := by
      show d.lastUpTo v < d.upper
      omega
    unfold boundEvent
    split
    next hfixed => exact .assign (single_of_bounds hd' (beq_iff_eq.mp hfixed))
    next hopen =>
      have hne : (d.dropUpper (d.lastUpTo v)).lower ≠ _ := fun h => hopen (beq_iff_eq.mpr h)
      exact .upperBound (lt_of_le_of_ne hd'.lower_le_upper hne) hmoved rfl

theorem described_remove (hd : d.Wf) (v : Int) : Described d (d.remove v) := by
  unfold remove
  split
  · trivial
  next hin =>
    have hv : d.contains v = true := by simpa using hin
    obtain ⟨hge, hle, -⟩ := contains_iff.mp hv
    split
    · exact described_tightenLower hd _
    split
    · exact described_tightenUpper hd _
    next hne hne' =>
      cases d.values? with
      | none => trivial
      | some s => exact .removal (show d.lower < d.upper by omega) rfl rfl

theorem described_removeInterval (hd : d.Wf) (lower upper : Int) :
    Described d (d.removeInterval lower upper) := by
  unfold removeInterval
  simp only
  split
  · trivial
  split
  · exact described_tightenLower hd _
  split
  · exact described_tightenUpper hd _
  next hnonempty hne hne' =>
    cases d.values? with
    | none => trivial
    | some s =>
      simp only
      split
      · trivial
      · exact .removal (show d.lower < d.upper by omega) rfl rfl

theorem described_instantiate (d : IntegerDomain) (v : Int) : Described d (d.instantiate v) := by
  obtain ⟨⟨hobeys, -⟩, hexact⟩ := instantiate_narrows d v
  unfold instantiate at hobeys hexact ⊢
  split
  · trivial
  split
  · trivial
  next hin hopen =>
    have hv : d.contains v = true := by simpa using hin
    rw [if_neg hin, if_neg hopen] at hobeys hexact
    obtain ⟨-, -, hkept⟩ := hobeys
    exact .assign ⟨v, fun w => ⟨hexact w, fun hw => hkept w (hw ▸ hv) hw⟩⟩

/-! ### Outcomes -/

/-- What an outcome comes to, for the values that the request was to keep. -/
structure Fulfils (d : IntegerDomain) (keeps : Int → Prop) (o : Outcome IntegerDomain Entry) :
    Prop where
  /-- No value that obeys is lost. -/
  narrows : Narrows d keeps o
  /-- Nothing else is left, or an interval was left alone since its ends obey. -/
  exact : ExactFor d keeps o
    ∨ d.isEnumerated = false ∧ o = .unchanged ∧ keeps d.lower ∧ keeps d.upper
  /-- The event says what the change was. -/
  described : Described d o

theorem remove_of_gap (hkind : d.isEnumerated = false) (hlower : d.lower < v) (hupper : v < d.upper) :
    d.remove v = .unchanged := by
  have hvalues : d.values? = none := Option.not_isSome_iff_eq_none.mp (by simpa [isEnumerated] using hkind)
  unfold remove
  split
  · rfl
  · rw [if_neg (by omega), if_neg (by omega), hvalues]

theorem removeInterval_of_gap (hkind : d.isEnumerated = false) {lower upper : Int}
    (hlower : d.lower < lower) (hupper : upper < d.upper) :
    d.removeInterval lower upper = .unchanged := by
  have hvalues : d.values? = none := Option.not_isSome_iff_eq_none.mp (by simpa [isEnumerated] using hkind)
  unfold removeInterval
  simp only
  split
  · rfl
  · rw [if_neg (by omega), if_neg (by omega), hvalues]

theorem Request.fulfils (hd : d.Wf) (r : Request) : Fulfils d r.Keeps (r.outcome d) := by
  cases r with
  | tightenLower k =>
    obtain ⟨hnarrows, hexact⟩ := tightenLower_narrows hd k
    exact ⟨hnarrows, Or.inl hexact, described_tightenLower hd k⟩
  | tightenUpper k =>
    obtain ⟨hnarrows, hexact⟩ := tightenUpper_narrows hd k
    exact ⟨hnarrows, Or.inl hexact, described_tightenUpper hd k⟩
  | instantiate k =>
    obtain ⟨hnarrows, hexact⟩ := instantiate_narrows d k
    exact ⟨hnarrows, Or.inl hexact, described_instantiate d k⟩
  | removeValue k =>
    obtain ⟨hnarrows, hexact⟩ := remove_narrows hd k
    refine ⟨hnarrows, ?_, described_remove hd k⟩
    by_cases hclean : d.isEnumerated = true ∨ ¬ (d.lower < k ∧ k < d.upper)
    · exact Or.inl (hexact hclean)
    -- the value leaves no trace between the bounds of an interval
    · obtain ⟨hkind, hgap⟩ := not_or.mp hclean
      obtain ⟨hlower, hupper⟩ := not_not.mp hgap
      have hkind' := Bool.eq_false_iff.mpr hkind
      exact Or.inr ⟨hkind', remove_of_gap hkind' hlower hupper, Int.ne_of_lt hlower,
        Int.ne_of_gt hupper⟩
  | removeInterval lower upper =>
    obtain ⟨hnarrows, hexact⟩ := removeInterval_narrows hd lower upper
    refine ⟨hnarrows, ?_, described_removeInterval hd lower upper⟩
    by_cases hclean : d.isEnumerated = true ∨ ¬ (d.lower < lower ∧ upper < d.upper)
    · exact Or.inl (hexact hclean)
    · obtain ⟨hkind, hgap⟩ := not_or.mp hclean
      obtain ⟨hlower, hupper⟩ := not_not.mp hgap
      have hkind' := Bool.eq_false_iff.mpr hkind
      exact Or.inr ⟨hkind', removeInterval_of_gap hkind' hlower hupper, Or.inl hlower,
        Or.inr hupper⟩

namespace Fulfils

variable {o : Outcome IntegerDomain Entry}

/-- An outcome is empty exactly if no value obeys. -/
theorem eq_empty_iff (h : Fulfils d keeps o) (hd : d.Wf) :
    o = .empty ↔ ∀ v, d.contains v = true → ¬ keeps v := by
  have hobeys := h.narrows.obeys
  constructor
  · intro heq
    subst heq
    exact hobeys
  · intro hnone
    cases o with
    | empty => rfl
    | unchanged =>
      rcases h.exact with hexact | ⟨-, -, hlower, -⟩
      · exact absurd (hexact _ hd.lower_mem) (hnone _ hd.lower_mem)
      · exact absurd hlower (hnone _ hd.lower_mem)
    | changed d' entries e =>
      obtain ⟨hchain, -, -⟩ := hobeys
      have hd' : d'.Wf := hchain.invariant (fun ht hx => ht.wf hx) hd
      -- the new domain has a lower bound, which obeys if the outcome is exact
      rcases h.exact with hexact | ⟨-, heq, -⟩
      · have hin := hchain.narrows decreasing hd hd'.lower_mem
        exact absurd (hexact _ hd'.lower_mem) (hnone _ hin)
      · cases heq

/-- What is left is the hull. -/
theorem contains_iff_hull (h : Fulfils d keeps o) (hd : d.Wf) (ho : o.domain? d = some d') :
    d'.isEnumerated = d.isEnumerated ∧ ∀ v, d'.contains v = true ↔ d.Hull keeps v := by
  have hobeys := h.narrows.obeys
  cases o with
  | empty => cases ho
  | unchanged =>
    obtain rfl := Option.some.inj ho
    refine ⟨rfl, fun v => ?_⟩
    rcases h.exact with hexact | ⟨hkind, -, hlower, hupper⟩
    · refine IntegerDomain.contains_iff_hull rfl fun v => ?_
      exact ⟨fun hv => ⟨hv, hexact v hv⟩, And.left⟩
    · exact contains_iff_hull_of_ends hd hkind hlower hupper
  | changed after entries e =>
    obtain rfl := Option.some.inj ho
    obtain ⟨hchain, -, hkept⟩ := hobeys
    have hkind : after.isEnumerated = d.isEnumerated :=
      hchain.invariant (P := fun x => x.isEnumerated = d.isEnumerated)
        (fun ht hx => ht.isEnumerated_eq.trans hx) rfl
    refine ⟨hkind, fun v => IntegerDomain.contains_iff_hull hkind fun v => ?_⟩
    rcases h.exact with hexact | ⟨-, heq, -⟩
    · exact ⟨fun hv => ⟨hchain.narrows decreasing hd hv, hexact v hv⟩, fun hv => hkept v hv.1 hv.2⟩
    · cases heq

/-- Nothing changes exactly if the hull is the domain. -/
theorem eq_unchanged_iff (h : Fulfils d keeps o) (hd : d.Wf) :
    o = .unchanged ↔ ∀ v, d.contains v = true ↔ d.Hull keeps v := by
  constructor
  · intro heq
    subst heq
    exact (h.contains_iff_hull hd rfl).2
  · intro hsame
    cases o with
    | unchanged => rfl
    | empty =>
      -- the lower bound would be in the hull of nothing
      have hhull := (hsame d.lower).mp hd.lower_mem
      have hnone := (h.eq_empty_iff hd).mp rfl
      unfold Hull at hhull
      split at hhull
      · exact absurd hhull.2 (hnone _ hhull.1)
      · obtain ⟨⟨u, -, hu, hkeeps⟩, -⟩ := hhull
        exact absurd hkeeps (hnone u hu)
    | changed d' entries e =>
      -- a change takes some value away
      obtain ⟨hchain, hne, -⟩ := h.narrows.obeys
      obtain ⟨v, hv, hlost⟩ := hchain.exists_loss decreasing hne hd
      exact absurd (((h.contains_iff_hull hd rfl).2 v).mpr ((hsame v).mp hv)) hlost

end Fulfils

end IntegerDomain

/-! ### Stores -/

namespace Store

open IntegerDomain

variable {s : Store} {x : IntId}

/-- What the answer to a request comes to. -/
structure Answers (s : Store) (x : IntId) (keeps : Int → Prop) (n : Narrowed) : Prop where
  /-- The request is refused exactly if no value obeys it. -/
  refused : n.changed? = none ↔ ∀ v, (s.int x).contains v = true → ¬ keeps v
  /-- Nothing changes exactly if the hull is the domain. -/
  idle : n.changed? = some false ↔ ∀ v, (s.int x).contains v = true ↔ (s.int x).Hull keeps v
  /-- Without a change the store is as it was: its domains, its trail and its events. -/
  untouched : n.changed? ≠ some true → n.store = s
  /-- A request that is not refused leaves the hull, stored as before. -/
  hull : n.changed? ≠ none → (n.store.int x).isEnumerated = (s.int x).isEnumerated
    ∧ ∀ v, (n.store.int x).contains v = true ↔ (s.int x).Hull keeps v
  /-- Nothing else changes. -/
  others : (∀ z, z ≠ x → n.store.int z = s.int z) ∧ n.store.sets = s.sets
    ∧ n.store.graphs = s.graphs ∧ n.store.passive = s.passive
  /-- A change is recorded, and one event is raised that describes it. -/
  recorded : n.changed? = some true → ∃ entries e, entries ≠ []
    ∧ n.store.trail = s.trail.append (entries.map (.int x))
    ∧ n.store.events = s.events.raise e (.int x) ∧ Describes (s.int x) (n.store.int x) e

theorem answers_commitInt (hs : s.Wf) {keeps : Int → Prop} {o : Outcome IntegerDomain Entry}
    (h : Fulfils (s.int x) keeps o) : s.Answers x keeps (s.commitInt x o) := by
  have hd := hs.int x
  cases o with
  | empty =>
    refine ⟨⟨fun _ => (h.eq_empty_iff hd).mp rfl, fun _ => rfl⟩, ⟨nofun, fun hsame => ?_⟩,
      fun _ => rfl, fun hne => absurd rfl hne, ⟨fun _ _ => rfl, rfl, rfl, rfl⟩, nofun⟩
    cases (h.eq_unchanged_iff hd).mpr hsame
  | unchanged =>
    refine ⟨⟨nofun, fun hnone => ?_⟩, ⟨fun _ => (h.eq_unchanged_iff hd).mp rfl, fun _ => rfl⟩,
      fun _ => rfl, fun _ => h.contains_iff_hull hd rfl, ⟨fun _ _ => rfl, rfl, rfl, rfl⟩, nofun⟩
    cases (h.eq_empty_iff hd).mpr hnone
  | changed d entries e =>
    obtain ⟨hchain, hne, -⟩ := h.narrows.obeys
    have known := known_of_chain_int hchain hne hs
    have hafter : (s.commitInt x (.changed d entries e)).store.int x = d :=
      int_changeInt known d entries
    refine ⟨⟨nofun, fun hnone => ?_⟩, ⟨nofun, fun hsame => ?_⟩, fun hno => absurd rfl hno,
      fun _ => ?_, ⟨fun z hz => int_changeInt_of_ne hz d entries, rfl, rfl, rfl⟩,
      fun _ => ⟨entries, e, hne, rfl, rfl, ?_⟩⟩
    · cases (h.eq_empty_iff hd).mpr hnone
    · cases (h.eq_unchanged_iff hd).mpr hsame
    · rw [hafter]
      exact h.contains_iff_hull hd rfl
    · rw [hafter]
      exact h.described

/-- Integer domains are well-formed whatever was done before, and every request does what it
    says. -/
theorem request_contract (hs : s.Reachable) (x : IntId) (r : Request) :
    (s.int x).lower ≤ (s.int x).upper ∧ (s.int x).contains (s.int x).lower = true
      ∧ (s.int x).contains (s.int x).upper = true ∧ (s.int x).size = (s.int x).valueSet.card
      ∧ s.Answers x r.Keeps ((r.narrowing x).apply s) := by
  have hwf := hs.traced.wf
  have hd := hwf.int x
  refine ⟨hd.lower_le_upper, hd.lower_mem, hd.upper_mem, hd.size_eq, ?_⟩
  rw [Request.apply_narrowing]
  exact answers_commitInt hwf (r.fulfils hd)

/-- The values 1, 4, 6, 9 and 12 after the last one has been taken away. -/
def sieved : Store :=
  let s := (Store.empty.addInt
    (match IntegerDomain.enumerated [1, 4, 6, 9, 12] with | .ok d => d | .error _ => default)).2
  (s.tightenUpper ⟨0⟩ 10).store

theorem sieved_reachable : sieved.Reachable := by
  have hsorted : ([1, 4, 6, 9, 12] : List Int).Pairwise (· < ·) := by decide
  exact .move (.addEnumerated .empty hsorted rfl) (.narrow (.tightenUpper (.plain ⟨0⟩) 10)) rfl

/-- Without the values from 2 to 7, which are 4 and 6, the values 1 and 9 are left. -/
theorem request_contract_sieved :
    ∃ n, n = ((Request.removeInterval 2 7).narrowing ⟨0⟩).apply sieved ∧ n.changed? = some true
      ∧ ∀ v, (n.store.int ⟨0⟩).contains v = true
        ↔ (sieved.int ⟨0⟩).contains v = true ∧ (v < 2 ∨ 7 < v) := by
  obtain ⟨-, -, -, -, hanswers⟩ := request_contract sieved_reachable ⟨0⟩ (.removeInterval 2 7)
  have hchanged : (((Request.removeInterval 2 7).narrowing ⟨0⟩).apply sieved).changed?
      = some true := by decide
  have hsuccess : (((Request.removeInterval 2 7).narrowing ⟨0⟩).apply sieved).changed? ≠ none := by
    rw [hchanged]
    exact Option.some_ne_none true
  exact ⟨_, rfl, hchanged, (hanswers.hull hsuccess).2⟩

end Store

end FiniteDomain
