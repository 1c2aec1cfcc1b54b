import FiniteDomain.Filter

/-! # Scripted propagators

    A scripted propagator does what a list of rules says, and notes everything it
    does.  It observes when a constraint space runs its propagators, for which
    events, and what they see.  `Agent` is a propagator of the library or a
    scripted one, so that both can be posted on one space. -/

namespace FiniteDomain

/-- When a rule applies. -/
inductive Trigger where
  /-- On the first run. -/
  | initial
  /-- On every later run. -/
  | always
  /-- On a run for a position of the scope. -/
  | position (l : LocalId)
deriving DecidableEq, Repr, Inhabited

/-- What a scripted propagator can do. -/
inductive Action where
  /-- Narrow a domain. -/
  | narrow (request : Narrowing)
  /-- Ask a question. -/
  | ask (q : Query)
  /-- Refuse. -/
  | refuse
deriving Repr

/-- Actions with the occasion for them. -/
structure Rule where
  /-- When the actions are carried out. -/
  trigger : Trigger
  /-- The actions, in order. -/
  actions : List Action
deriving Repr

/-- A variable of the scope of a scripted propagator. -/
inductive ScopeVariable where
  /-- An integer variable. -/
  | int (x : IntVar)
  /-- A set or graph variable. -/
  | other (v : VariableId)
deriving Repr

/-- An element of the scope of a scripted propagator. -/
structure ScopeItem where
  /-- The variable. -/
  subject : ScopeVariable
  /-- The events to be told about. -/
  events : EventSet
  /-- The position under which it is registered. -/
  position : LocalId
deriving Repr

/-- What a scripted propagator answers when asked what it knows. -/
inductive ScriptedEntailment where
  /-- Always the same. -/
  | constant (e : Entailment)
  /-- It holds as soon as all integer variables of the scope are fixed. -/
  | whenFixed
deriving Repr

/-- A propagator that follows rules. -/
structure Script where
  /-- Its name. -/
  name : String
  /-- Its scope. -/
  scope : List ScopeItem
  /-- How costly a call is. -/
  priority : Priority
  /-- What it does. -/
  rules : List Rule
  /-- What it knows. -/
  entailment : ScriptedEntailment
deriving Repr

namespace Script

/-- Carries out actions in order, until one of them refuses; the notes made so far come
    first. -/
def perform (name : String) : List Action → Store → List Note →
    Except Fault (Option Refusal × Store × List Note)
  | [], s, notes => return (none, s, notes)
  | .refuse :: _, s, notes => return (some .inconsistent, s, notes)
  | .ask q :: rest, s, notes => do
    let answer ← q.answer s
    perform name rest s (notes ++ [.answered name answer])
  | .narrow request :: rest, s, notes => do
    let narrowed ← request.run s
    let notes := notes ++ [.narrowed name narrowed.changed?]
    match narrowed.changed? with
    | none => return (some .emptyDomain, narrowed.store, notes)
    | some _ => perform name rest narrowed.store notes

/-- Carries out the rules with one of the given triggers. -/
def follow (p : Script) (triggers : List Trigger) (first : Note) (s : Store) :
    Except Fault (Pass Script) := do
  let actions := (p.rules.filter fun rule => triggers.contains rule.trigger).flatMap (·.actions)
  let (refusal?, store, notes) ← perform p.name actions s [first]
  return { self := p, refusal?, store, notes }

/-- The event as the first scope element at the position sees it. -/
def eventSeen (p : Script) (position : LocalId) (e : Event) : Event :=
  match p.scope.find? fun item => item.position = position with
  | some { subject := .int x, .. } => x.eventSeen e
  | _ => e

/-- The wishes of the scope. -/
def watches (p : Script) : List Watch :=
  p.scope.map fun item =>
    match item.subject with
    | .int x => x.watch item.events item.position
    | .other v => ⟨v, item.events, item.position⟩

/-- The integer variables of the scope are fixed; they have to exist. -/
def scopeFixed (p : Script) (s : Store) : Except Fault Bool :=
  p.scope.foldlM
    (fun fixed item =>
      match item.subject with
      | .other _ => return fixed
      | .int x => do
        if !fixed then return false
        s.require (.int x.base)
        return x.isFixed s)
    true

instance : Propagator Script where
  name := Script.name
  priority := Script.priority
  watches := watches
  initial p s := p.follow [.initial] (.posted p.name) s
  propagate p position e s :=
    p.follow [.always, .position position] (.woken p.name position (p.eventSeen position e)) s
  entailment p s :=
    match p.entailment with
    | .constant e => return e
    | .whenFixed => do return if ← p.scopeFixed s then .holds else .undecided

end Script

/-- A propagator of the library or a scripted one. -/
inductive Agent where
  /-- A propagator of the library. -/
  | filter (f : Filter)
  /-- A scripted propagator. -/
  | script (p : Script)

instance : Inhabited Agent := ⟨.filter (.distinctByValue [])⟩

/-- The pass of a propagator as a pass of a propagator of another type. -/
def Pass.map {P Q : Type} (wrap : P → Q) (pass : Pass P) : Pass Q :=
  { self := wrap pass.self, refusal? := pass.refusal?, store := pass.store, notes := pass.notes }

instance : Propagator Agent where
  name
    | .filter f => Propagator.name f
    | .script p => Propagator.name p
  priority
    | .filter f => Propagator.priority f
    | .script p => Propagator.priority p
  watches
    | .filter f => Propagator.watches f
    | .script p => Propagator.watches p
  initial
    | .filter f, s => return (← Propagator.initial f s).map .filter
    | .script p, s => return (← Propagator.initial p s).map .script
  propagate
    | .filter f, l, e, s => return (← Propagator.propagate f l e s).map .filter
    | .script p, l, e, s => return (← Propagator.propagate p l e s).map .script
  entailment
    | .filter f, s => Propagator.entailment f s
    | .script p, s => Propagator.entailment p s

end FiniteDomain
