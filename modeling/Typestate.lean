import Typestate.Text.Shapeless
import Typestate.Text
import Typestate.Fault
import Typestate.SortedMap
import Typestate.Diagnostic
import Typestate.SExpr.Basic
import Typestate.SExpr.Reader
import Typestate.SExpr.Printer
import Typestate.Space.Basic
import Typestate.Space.Draft
import Typestate.Space.Registry
import Typestate.Space.Printer
import Typestate.Fraction.Basic
import Typestate.Fraction.Constraint
import Typestate.Fraction.Solution
import Typestate.Fraction.Constraints
import Typestate.Fraction.Ledger
import Typestate.Permission.Kind
import Typestate.Permission.Shares
import Typestate.Permission.Basic
import Typestate.Permission.Request
import Typestate.Permission.Transfer
import Typestate.Permission.Reroot
import Typestate.Permission.Join
import Typestate.Permission.Pool
import Typestate.Permission.RequestSet
import Typestate.Location
import Typestate.Specification.Predicate
import Typestate.Specification.Method
import Typestate.Specification.Reader
import Typestate.Holding.Basic
import Typestate.Holding.Transfer
import Typestate.Holding.Join
import Typestate.BranchTree
import Typestate.Session
import Typestate.Permission.Printer
import Typestate.Holding.Printer
import Typestate.Tuple.Basic
import Typestate.Tuple.Packing
import Typestate.Context.Basic
import Typestate.Context.Precision
import Typestate.Context.Compact
import Typestate.Context.Join
import Typestate.Context.Check
import Typestate.Flow.Call
import Typestate.Flow.Field
import Typestate.Flow.Check
import Typestate.Flow.Entry
import Typestate.Flow.State
import Typestate.Proofs.Fraction.Reading
import Typestate.Proofs.Fraction.Soundness
import Typestate.Proofs.Context.Blocking
import Typestate.Proofs.Flow.CallReachability
import Typestate.Proofs.Fraction.Valuation
import Typestate.Proofs.Holding.Roots
import Typestate.Proofs.Holding.JoinSoundness
import Typestate.Proofs.Fraction.Monotonicity
import Typestate.Proofs.Context.NormalForm
import Typestate.Proofs.Context.Verdict
import Typestate.Proofs.Flow.Runs
import Typestate.Proofs.Space.Alternation
import Typestate.Proofs.Flow.Agreement
import Typestate.Proofs.Permission.Exclusion
import Typestate.Proofs.Permission.Stepwise
import Typestate.Proofs.Permission.SmallShares
import Typestate.Proofs.Holding.Dealing
import Typestate.Proofs.Holding.Conservation
import Typestate.Proofs.BranchTree
import Typestate.Proofs.SExpr.RoundTrip
import Typestate.Proofs.Session.Growth
import Typestate.Proofs.Session.Outcome
import Typestate.Proofs.Tuple.Footprint
import Typestate.Proofs.Flow.Footprint
import Typestate.Proofs.Flow.Branches
import Typestate.Proofs.Holding.JoinedStates
import Typestate.Proofs.Flow.JoinedStates
import Typestate.Proofs.Context.Freezing
import Typestate.Proofs.Fraction.Rounds
import Typestate.Proofs.Fraction.Separation
import Typestate.Proofs.Space.RoundTrip
import Typestate.Proofs.Fraction.Cohesion
import Typestate.Proofs.Fraction.Implication
import Typestate.Proofs.Space.Implication
import Typestate.Proofs.Permission.StateInfo
import Typestate.Proofs.Permission.Bookkeeping
import Typestate.Proofs.Permission.Exactness
import Typestate.Proofs.Permission.Restoring
import Typestate.Proofs.Permission.Remainders
import Typestate.Proofs.Permission.Dividing
import Typestate.Proofs.Permission.Bounding
import Typestate.Proofs.Holding.Bounding
import Typestate.Proofs.Holding.UpperBound
import Typestate.Proofs.Holding.Precision
import Typestate.Proofs.Tuple.Taking
import Typestate.Proofs.Tuple.Wrangling
import Typestate.Proofs.Holding.Returning
import Typestate.Proofs.Tuple.Returning
import Typestate.Proofs.Tuple.Reaching
import Typestate.Proofs.Flow.FieldAccess
import Typestate.Proofs.Permission.Dominance
import Typestate.Proofs.Permission.Neatness
import Typestate.Proofs.Permission.Backing
import Typestate.Proofs.Permission.Lockstep
import Typestate.Proofs.Holding.Backing
import Typestate.Proofs.Flow.JoinedPacking
import Typestate.Proofs.Space.Relations
import Typestate.Proofs.Flow.JoinedReachability
import Typestate.Proofs.Flow.CallFailures
import Typestate.Proofs.Specification.Coexistence
import Typestate.Proofs.BranchTree.Ancestors
import Typestate.Proofs.SExpr.Hyphens
import Typestate.Proofs.Permission.Absorbing
import Typestate.Proofs.Fraction.Closure
