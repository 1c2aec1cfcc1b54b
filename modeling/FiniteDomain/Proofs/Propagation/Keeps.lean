import FiniteDomain.Filter
import FiniteDomain.Proofs.Program
import FiniteDomain.Proofs.Store.Undo

/-! # What filters leave alone

    A filter touches the store by narrowings only.  So whatever every narrowing
    keeps, every filter keeps, whether it succeeds or refuses.  In particular the
    store after a filter extends the one before it.

    A filter ends in a fault if a variable or a node is missing, if a number does
    not fit its width, or if one of its loops runs out of steps
    (`Narrowable.upholds`); that the last does not happen is a matter of the
    loops. -/

namespace FiniteDomain

/-! ### Checked numbers -/

theorem Width.raises_checked {faults : Fault → Prop} (h : faults .overflow) (w : Width) (n : Int) :
    RaisesOnly faults (w.checked n) := by
  unfold checked
  split
  · exact .ok n
  · exact .error h

theorem Width.eq_of_checked {w : Width} {n m : Int} (h : w.checked n = .ok m) : n = m := by
  unfold checked at h
  split at h
  · exact Except.ok.inj h
  · cases h

theorem LinearAtMost.raises_sumOf {faults : Fault → Prop} (h : faults .overflow)
    (terms : List IntVar) (bound : IntVar → Int) : RaisesOnly faults (sumOf terms bound) := by
  unfold sumOf
  generalize (0 : Int) = sum
  induction terms generalizing sum with
  | nil => exact .ok sum
  | cons x rest ih => exact (Width.sum.raises_checked h _).bind fun sum' _ => ih sum'

namespace Filtering

variable {α β : Type}

/-! ### Running programs -/

theorem runOn_bind (p : Filtering α) (f : α → Filtering β) (s : Store) :
    runOn (p >>= f) s = (runOn p s).bind fun r =>
      match r with
      | (.ok a, s') => runOn (f a) s'
      | (.error refusal, s') => .ok (.error refusal, s') := by
  simp only [runOn, Program.run_bind]
  cases p.run.run s with
  | error e => rfl
  | ok r =>
    obtain ⟨verdict, s'⟩ := r
    cases verdict <;> rfl

theorem runOn_narrowOr (refusal : Refusal) (f : Store → Narrowed) (s : Store) :
    runOn (narrowOr refusal f) s
      = .ok ((f s).changed?.elim (Except.error refusal) Except.ok, (f s).store) := by
  simp only [narrowOr, runOn_bind]
  show Except.bind (Except.ok (Except.ok (f s).changed?, (f s).store)) _ = _
  simp only [Except.bind]
  cases (f s).changed? <;> rfl

/-! ### Keeping -/

open Program

variable {faults : Fault → Prop} {I : Store → Prop}

theorem upholds_read (view : Store → α) : Upholds faults I (read view) :=
  upholds_get.bind fun _ => upholds_pure _

theorem upholds_refuse : Upholds faults I (refuse : Filtering α) := upholds_throw _

theorem upholds_fault {f : Fault} (hf : faults f) : Upholds faults I (fault f : Filtering α) :=
  upholds_lift (.error hf)

theorem upholds_checked {result : Except Fault α} (h : RaisesOnly faults result) :
    Upholds faults I (checked result) := upholds_lift h

theorem upholds_narrowOr {refusal : Refusal} {f : Store → Narrowed}
    (hf : ∀ s, I s → I (f s).store) : Upholds faults I (narrowOr refusal f) :=
  upholds_of_run (fun s => ((f s).changed?.elim (.error refusal) .ok, (f s).store))
    (runOn_narrowOr refusal f) hf

theorem upholds_narrowing {f : Store → Narrowed} (hf : ∀ s, I s → I (f s).store) :
    Upholds faults I (narrowing f) :=
  (upholds_narrowOr hf).bind fun _ => upholds_pure _

/-- The faults that filters may end in for want of a variable or node, or since a number does not
    fit, are among the given ones. -/
structure Tolerates (faults : Fault → Prop) : Prop where
  /-- A variable or node is missing. -/
  missing : faults .indexOutOfBounds
  /-- A number does not fit. -/
  overflow : faults .overflow

namespace Tolerates

variable (hf : Tolerates faults)

include hf

theorem require (s : Store) (v : VariableId) : RaisesOnly faults (s.require v) := by
  unfold Store.require
  split
  · exact .ok _
  · exact .error hf.missing

theorem fits (w : Width) (n : Int) : RaisesOnly faults (w.checked n) :=
  w.raises_checked hf.overflow n

theorem sumOf (terms : List IntVar) (bound : IntVar → Int) :
    RaisesOnly faults (LinearAtMost.sumOf terms bound) :=
  LinearAtMost.raises_sumOf hf.overflow terms bound

theorem upholds_require (vs : List VariableId) : Upholds faults I (Filtering.require vs) :=
  upholds_forM fun v => upholds_get.bind fun s => upholds_checked (hf.require s v)

end Tolerates

end Filtering

/-! ### The filters -/

/-- The property survives every narrowing. -/
def Narrowable (I : Store → Prop) : Prop := ∀ request s, I s → I (Narrowing.apply s request).store

namespace Narrowable

open Filtering Program

variable {faults : Fault → Prop} {I : Store → Prop} (hI : Narrowable I)

include hI

theorem strike (vars : List IntVar) (i : Nat) (value : Int) (stack : List Nat) :
    Upholds faults I (AllDifferent.strike vars i value stack) := by
  refine upholds_foldlM (fun stack xj => ?_) stack
  refine upholds_ite (upholds_pure _) ((upholds_read _).bind fun before => ?_)
  refine (upholds_narrowing fun s hs => hI (.removeValue xj.1 value) s hs).bind fun _ => ?_
  exact (upholds_read _).bind fun after => upholds_pure _

theorem settleAll (hf : Tolerates faults) (hfuel : faults .outOfFuel) (vars : List IntVar)
    (stack : List Nat) : Upholds faults I (AllDifferent.settleAll vars stack) := by
  have hsettle : ∀ fuel stack, Upholds faults I (AllDifferent.settle vars fuel stack) := by
    intro fuel
    induction fuel with
    | zero =>
      intro stack
      cases stack with
      | nil => exact upholds_pure ()
      | cons i stack => exact upholds_fault hfuel
    | succ fuel ih =>
      intro stack
      cases stack with
      | nil => exact upholds_pure ()
      | cons i stack =>
        simp only [AllDifferent.settle]
        cases vars[i]? with
        | none => exact upholds_fault hf.missing
        | some x =>
          exact (upholds_read _).bind fun value => (hI.strike vars i value stack).bind fun stack' =>
            ih stack'
  exact hsettle _ _

theorem moveOut (hf : Tolerates faults) (x : IntVar) (low high : Int) :
    Upholds faults I (AllDifferent.moveOut x low high) := by
  refine (upholds_read _).bind fun lower => ?_
  refine upholds_join (fun raised => ?_) fun rest hrest =>
    upholds_ite ((upholds_checked (hf.fits _ _)).bind fun bound =>
      (upholds_narrowOr fun s hs => hI (.tightenLower x bound) s hs).bind hrest)
      ((upholds_pure _).bind hrest)
  refine (upholds_read _).bind fun upper => ?_
  exact upholds_join (fun dropped => upholds_pure _) fun rest hrest =>
    upholds_ite ((upholds_checked (hf.fits _ _)).bind fun bound =>
      (upholds_narrowOr fun s hs => hI (.tightenUpper x bound) s hs).bind hrest)
      ((upholds_pure _).bind hrest)

theorem treatInterval (hf : Tolerates faults) (vars : List IntVar) (bounds : List (Int × Int))
    (low high : Int) : Upholds faults I (AllDifferent.treatInterval vars bounds low high) := by
  unfold AllDifferent.treatInterval
  extract_lets inside room
  refine upholds_ite upholds_refuse (upholds_ite (upholds_pure _) ?_)
  refine upholds_foldlM (fun changed xb => ?_) false
  obtain ⟨x, b⟩ := xb
  exact upholds_ite (upholds_pure _) ((hI.moveOut hf x low high).bind fun _ => upholds_pure _)

theorem hallPass (hf : Tolerates faults) (vars : List IntVar) :
    Upholds faults I (AllDifferent.hallPass vars) := by
  refine (upholds_read _).bind fun bounds => upholds_foldlM (fun changed interval => ?_) false
  exact (hI.treatInterval hf _ _ _ _).bind fun _ => upholds_pure _

theorem hallPasses (hf : Tolerates faults) (hfuel : faults .outOfFuel) (vars : List IntVar)
    (fuel : Nat) : Upholds faults I (AllDifferent.hallPasses vars fuel) := by
  induction fuel with
  | zero => exact upholds_fault hfuel
  | succ fuel ih => exact (hI.hallPass hf vars).bind fun changed => upholds_ite ih (upholds_pure _)

theorem removeFixedValues (vars : List IntVar) :
    Upholds faults I (AllDifferent.removeFixedValues vars) := by
  refine upholds_forM fun xi => (upholds_read _).bind fun fixed => upholds_ite ?_ (upholds_pure _)
  refine (upholds_read _).bind fun value => upholds_forM fun yj => upholds_ite ?_ (upholds_pure _)
  exact upholds_narrowing fun s hs => hI (.removeValue yj.1 value) s hs

theorem restrict (hf : Tolerates faults) (room : Int) (x : IntVar) :
    Upholds faults I (LinearAtMost.restrict room x) := by
  refine (upholds_read _).bind fun lower => (upholds_checked (hf.fits _ _)).bind fun bound =>
    (upholds_read _).bind fun upper => upholds_ite ?_ (upholds_pure _)
  exact upholds_narrowing fun s hs => hI (.tightenUpper x (Width.value.wrap bound)) s hs

theorem linear (hf : Tolerates faults) (terms : List IntVar) (limit : Int) :
    Upholds faults I (LinearAtMost.filter terms limit) := by
  refine upholds_get.bind fun s => (upholds_checked (hf.sumOf _ _)).bind fun least => ?_
  refine (upholds_checked (hf.fits _ _)).bind fun room => ?_
  refine upholds_join (fun _ => ?_) fun rest hrest =>
    upholds_ite (upholds_refuse.bind hrest) (hrest ())
  exact upholds_forM (hI.restrict hf room)

theorem subset (a b : SetId) : Upholds faults I (Subset.filter a b) := by
  refine (upholds_read _).bind fun required => (upholds_forM fun e => ?_).bind fun _ => ?_
  · exact upholds_narrowing fun s hs => hI (.includeElement b e) s hs
  · refine (upholds_read _).bind fun excluded => upholds_forM fun e => ?_
    exact upholds_narrowing fun s hs => hI (.excludeElement a e) s hs

theorem disjoint (a b : SetId) : Upholds faults I (Disjoint.filter a b) := by
  have hexclude : ∀ a b, Upholds faults I (Disjoint.excludeKernel a b) := fun a b =>
    (upholds_read _).bind fun required => upholds_forM fun e =>
      upholds_narrowing fun s hs => hI (.excludeElement b e) s hs
  exact (hexclude a b).bind fun _ => hexclude b a

theorem member (x : IntVar) (y : SetId) : Upholds faults I (Member.filter x y) := by
  refine (upholds_read _).bind fun parts => ?_
  obtain ⟨supported, unsupported⟩ := parts
  simp only
  split
  next least greatest _ _ =>
    refine (upholds_narrowing fun s hs => hI (.tightenLower x least) s hs).bind fun _ => ?_
    refine (upholds_narrowing fun s hs => hI (.tightenUpper x greatest) s hs).bind fun _ => ?_
    refine (upholds_forM fun v => ?_).bind fun _ => ?_
    · exact upholds_narrowing fun s hs => hI (.removeValue x v) s hs
    · refine (upholds_read _).bind fun fixed => upholds_ite ?_ (upholds_pure _)
      exact (upholds_read _).bind fun value =>
        upholds_narrowing fun s hs => hI (.includeElement y value) s hs
  next => exact upholds_refuse

theorem oneNeighbour (d : Direction) (g : GraphId) (but : Nat) :
    Upholds faults I (OneNeighbour.filter d g but) := by
  have hremove : ∀ n neighbours, Upholds faults I (OneNeighbour.removeArcs d g n neighbours) :=
    fun n neighbours => upholds_forM fun m =>
      upholds_narrowing fun s hs => hI (.excludeArc g (d.arc n m).1 (d.arc n m).2) s hs
  have hnode : ∀ n, Upholds faults I (OneNeighbour.filterNode d g but n) := by
    intro n
    refine (upholds_read _).bind fun possible => upholds_ite (hremove n _) ?_
    refine (upholds_read _).bind fun certain => ?_
    split
    · exact hremove n _
    · exact upholds_refuse
    · refine (upholds_read _).bind fun needed => ?_
      split
      · exact upholds_ite upholds_refuse
          (upholds_narrowing fun s hs => hI (.excludeNode g n) s hs)
      · exact upholds_ite (upholds_narrowing fun s hs => hI (.includeArc g _ _) s hs)
          (upholds_pure _)
      · exact upholds_pure _
  refine (upholds_read _).bind fun order => upholds_forM fun n => ?_
  exact (upholds_read _).bind fun possible => upholds_ite (hnode n) (upholds_pure _)

theorem pathNoCycle (hf : Tolerates faults) (g : GraphId) (source sink : Nat) :
    Upholds faults I (PathNoCycle.filter g source sink) := by
  have hexclude : ∀ t u, Upholds faults I (narrowing (·.excludeArc g t u)) := fun t u =>
    upholds_narrowing fun s hs => hI (.excludeArc g t u) s hs
  have hnode : ∀ n, Upholds faults I (PathNoCycle.filterNode g n) := by
    intro n
    refine (hexclude n n).bind fun _ => (upholds_read _).bind fun d =>
      upholds_ite ?_ (upholds_pure _)
    split
    · exact upholds_refuse
    · exact hexclude _ _
  refine (upholds_read _).bind fun order => ?_
  refine upholds_join (fun _ => ?_) fun rest hrest =>
    upholds_ite ((upholds_fault hf.missing).bind hrest) (hrest ())
  refine (upholds_read _).bind fun intoSource =>
    (upholds_forM fun n => hexclude n source).bind fun _ => ?_
  refine upholds_join (fun _ => ?_) fun rest hrest =>
    upholds_ite ((upholds_fault hf.missing).bind hrest) (hrest ())
  refine (upholds_read _).bind fun outOfSink =>
    (upholds_forM fun n => hexclude sink n).bind fun _ => ?_
  refine (upholds_forM hnode).bind fun _ => ?_
  exact (upholds_read _).bind fun cycle => upholds_ite upholds_refuse (upholds_pure _)

theorem atMost (a b : IntVar) : Upholds faults I (AtMost.filter a b) := by
  refine (upholds_read _).bind fun upper => ?_
  refine (upholds_narrowing fun s hs => hI (.tightenUpper a upper) s hs).bind fun _ => ?_
  exact (upholds_read _).bind fun lower =>
    upholds_narrowing fun s hs => hI (.tightenLower b lower) s hs

theorem distinct (a b : IntVar) : Upholds faults I (Distinct.filter a b) := by
  have hremove : ∀ (y : IntVar) (value : Int),
      Upholds faults I (narrowing (y.removeValue · value)) :=
    fun y value => upholds_narrowing fun s hs => hI (.removeValue y value) s hs
  refine (upholds_read _).bind fun fixed => ?_
  refine upholds_join (fun _ => ?_) fun rest hrest =>
    upholds_ite ((upholds_read _).bind fun value => (hremove b value).bind hrest) (hrest ())
  refine (upholds_read _).bind fun fixed => upholds_ite ?_ (upholds_pure _)
  exact (upholds_read _).bind fun value => hremove a value

/-- A filter keeps what narrowings keep. -/
theorem upholds (hf : Tolerates faults) (hfuel : faults .outOfFuel) (f : Filter) :
    Upholds faults I f.program := by
  cases f with
  | distinctByValue vars =>
    exact (upholds_read _).bind fun fixed => hI.settleAll hf hfuel vars _
  | distinctByBounds vars =>
    exact (upholds_read _).bind fun slack => (hI.hallPasses hf hfuel vars _).bind fun _ =>
      hI.removeFixedValues vars
  | sumAtMost terms limit => exact hI.linear hf terms limit
  | atMost a b => exact hI.atMost a b
  | distinct a b => exact hI.distinct a b
  | subset a b => exact hI.subset a b
  | disjoint a b => exact hI.disjoint a b
  | member x y => exact hI.member x y
  | oneNeighbour d g but => exact hI.oneNeighbour d g but
  | pathNoCycle g source sink => exact hI.pathNoCycle hf g source sink

end Narrowable

end FiniteDomain
