import FiniteDomain.BitSet
import FiniteDomain.BitSet.Tree
import FiniteDomain.BitSet.Words
import FiniteDomain.Branching.Branch
import FiniteDomain.Branching.Brancher
import FiniteDomain.Branching.TieBreaker
import FiniteDomain.Branching.ValueSelector
import FiniteDomain.Branching.VariableSelector
import FiniteDomain.CommandLine.Arguments
import FiniteDomain.CommandLine.Console
import FiniteDomain.CommandLine.Portfolio
import FiniteDomain.CommandLine.Program
import FiniteDomain.CommandLine.Session
import FiniteDomain.Domain.Graph
import FiniteDomain.Domain.Integer
import FiniteDomain.Domain.Outcome
import FiniteDomain.Domain.Set
import FiniteDomain.Event
import FiniteDomain.Fault
import FiniteDomain.Filter
import FiniteDomain.Filter.AllDifferent.Basic
import FiniteDomain.Filter.AllDifferent.Bounds
import FiniteDomain.Filter.AllDifferent.Instantiation
import FiniteDomain.Filter.Comparison
import FiniteDomain.Filter.Linear
import FiniteDomain.Filter.OneNeighbour
import FiniteDomain.Filter.PathNoCycle
import FiniteDomain.Filter.Sets
import FiniteDomain.Identifier
import FiniteDomain.Limit
import FiniteDomain.Main
import FiniteDomain.Model.Constraint
import FiniteDomain.Model.Modelling
import FiniteDomain.Names
import FiniteDomain.Narrowing
import FiniteDomain.Predicate
import FiniteDomain.Problem.Catalogue
import FiniteDomain.Problem.Chain
import FiniteDomain.Problem.HamiltonianPath
import FiniteDomain.Problem.Instance
import FiniteDomain.Problem.Queens
import FiniteDomain.Proofs.Ascending
import FiniteDomain.Proofs.BitSet
import FiniteDomain.Proofs.BitSet.Members
import FiniteDomain.Proofs.BitSet.Words
import FiniteDomain.Proofs.Branching.Decision
import FiniteDomain.Proofs.Branching.Division
import FiniteDomain.Proofs.Branching.Partition
import FiniteDomain.Proofs.Branching.Strategy
import FiniteDomain.Proofs.Branching.Values
import FiniteDomain.Proofs.Branching.Variables
import FiniteDomain.Proofs.Contract.Composition
import FiniteDomain.Proofs.Contract.Integer
import FiniteDomain.Proofs.Contract.Interval
import FiniteDomain.Proofs.Contract.Reading
import FiniteDomain.Proofs.Contract.Structure
import FiniteDomain.Proofs.Contract.View
import FiniteDomain.Proofs.Domain.Chain
import FiniteDomain.Proofs.Domain.Digraph
import FiniteDomain.Proofs.Domain.Graph
import FiniteDomain.Proofs.Domain.Integer
import FiniteDomain.Proofs.Domain.Integer.Congruence
import FiniteDomain.Proofs.Domain.Integer.Narrowing
import FiniteDomain.Proofs.Domain.Integer.Values
import FiniteDomain.Proofs.Domain.Set
import FiniteDomain.Proofs.Filter.AllDifferent.Bounds
import FiniteDomain.Proofs.Filter.AllDifferent.Hall
import FiniteDomain.Proofs.Filter.AllDifferent.Headroom
import FiniteDomain.Proofs.Filter.AllDifferent.Instantiation
import FiniteDomain.Proofs.Filter.AllDifferent.Support
import FiniteDomain.Proofs.Filter.Chains
import FiniteDomain.Proofs.Filter.Comparison
import FiniteDomain.Proofs.Filter.Consistency
import FiniteDomain.Proofs.Filter.Decided
import FiniteDomain.Proofs.Filter.Demand
import FiniteDomain.Proofs.Filter.Exclusion
import FiniteDomain.Proofs.Filter.Judgement
import FiniteDomain.Proofs.Filter.Linear
import FiniteDomain.Proofs.Filter.Lossless
import FiniteDomain.Proofs.Filter.Meaning
import FiniteDomain.Proofs.Filter.OneNeighbour
import FiniteDomain.Proofs.Filter.PathNoCycle
import FiniteDomain.Proofs.Filter.Room
import FiniteDomain.Proofs.Filter.Saturated
import FiniteDomain.Proofs.Filter.Sets
import FiniteDomain.Proofs.Filter.Sound
import FiniteDomain.Proofs.Filter.Termination
import FiniteDomain.Proofs.Filter.Tour
import FiniteDomain.Proofs.Filter.Walk
import FiniteDomain.Proofs.IndexTree
import FiniteDomain.Proofs.Model.Build
import FiniteDomain.Proofs.Model.Growth
import FiniteDomain.Proofs.Model.Meaning
import FiniteDomain.Proofs.Model.Permutation
import FiniteDomain.Proofs.Model.Postable
import FiniteDomain.Proofs.Model.Refusal
import FiniteDomain.Proofs.Problem.Board
import FiniteDomain.Proofs.Problem.Row
import FiniteDomain.Proofs.Program
import FiniteDomain.Proofs.Propagation.Alike
import FiniteDomain.Proofs.Propagation.Chores
import FiniteDomain.Proofs.Propagation.Concern
import FiniteDomain.Proofs.Propagation.Concession
import FiniteDomain.Proofs.Propagation.Duty
import FiniteDomain.Proofs.Propagation.Fixpoint
import FiniteDomain.Proofs.Propagation.Guard
import FiniteDomain.Proofs.Propagation.Keeps
import FiniteDomain.Proofs.Propagation.Lanes
import FiniteDomain.Proofs.Propagation.Lapse
import FiniteDomain.Proofs.Propagation.Pending
import FiniteDomain.Proofs.Propagation.Post
import FiniteDomain.Proofs.Propagation.Queue
import FiniteDomain.Proofs.Propagation.Rest
import FiniteDomain.Proofs.Propagation.Resurfacing
import FiniteDomain.Proofs.Propagation.Sound
import FiniteDomain.Proofs.Propagation.Space
import FiniteDomain.Proofs.Propagation.Termination
import FiniteDomain.Proofs.Propagation.Wakeup
import FiniteDomain.Proofs.Propagation.WatchList
import FiniteDomain.Proofs.Propagation.Watchful
import FiniteDomain.Proofs.Search.Account
import FiniteDomain.Proofs.Search.Alike
import FiniteDomain.Proofs.Search.Branches
import FiniteDomain.Proofs.Search.Budget
import FiniteDomain.Proofs.Search.Complete
import FiniteDomain.Proofs.Search.Consistency
import FiniteDomain.Proofs.Search.Course
import FiniteDomain.Proofs.Search.Cut
import FiniteDomain.Proofs.Search.Deals
import FiniteDomain.Proofs.Search.Enumeration
import FiniteDomain.Proofs.Search.Exclusion
import FiniteDomain.Proofs.Search.Hamiltonian
import FiniteDomain.Proofs.Search.Lasting
import FiniteDomain.Proofs.Search.Latch
import FiniteDomain.Proofs.Search.Optimum
import FiniteDomain.Proofs.Search.Paths
import FiniteDomain.Proofs.Search.Replay
import FiniteDomain.Proofs.Search.Reports
import FiniteDomain.Proofs.Search.Resume
import FiniteDomain.Proofs.Search.Rounds
import FiniteDomain.Proofs.Search.Step
import FiniteDomain.Proofs.Search.Sums
import FiniteDomain.Proofs.Search.Termination
import FiniteDomain.Proofs.Search.Traversal
import FiniteDomain.Proofs.Search.Untouched
import FiniteDomain.Proofs.Search.Visits
import FiniteDomain.Proofs.Store
import FiniteDomain.Proofs.Store.Changes
import FiniteDomain.Proofs.Store.Contents
import FiniteDomain.Proofs.Store.Exact
import FiniteDomain.Proofs.Store.Loss
import FiniteDomain.Proofs.Store.Narrowing
import FiniteDomain.Proofs.Store.Step
import FiniteDomain.Proofs.Store.Steps
import FiniteDomain.Proofs.Store.Undo
import FiniteDomain.Proofs.Table
import FiniteDomain.Proofs.Variable
import FiniteDomain.Proofs.Variable.Arithmetic
import FiniteDomain.Proofs.Variable.Events
import FiniteDomain.Proofs.Variable.Fixed
import FiniteDomain.Proofs.Variable.Narrowing
import FiniteDomain.Proofs.Variable.Reading
import FiniteDomain.Proofs.Variable.Saturation
import FiniteDomain.Proofs.Variable.Seamless
import FiniteDomain.Propagation.Fifo
import FiniteDomain.Propagation.Filtering
import FiniteDomain.Propagation.Propagator
import FiniteDomain.Propagation.Queue
import FiniteDomain.Propagation.Space
import FiniteDomain.Propagation.WatchList
import FiniteDomain.Random
import FiniteDomain.Scripted
import FiniteDomain.Search.Measures
import FiniteDomain.Search.Optimisation
import FiniteDomain.Search.Run
import FiniteDomain.Search.Solution
import FiniteDomain.Search.SolutionStream
import FiniteDomain.Search.Solver
import FiniteDomain.Statistics
import FiniteDomain.Store
import FiniteDomain.Table
import FiniteDomain.Trail
import FiniteDomain.Variable
import FiniteDomain.Width
