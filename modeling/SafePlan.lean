import SafePlan.Name
import SafePlan.Atom
import SafePlan.Query
import SafePlan.Formula
import SafePlan.Text.Blank
import SafePlan.Text.Reader
import SafePlan.Text.ParseError
import SafePlan.Text.QueryText
import SafePlan.Text.FormulaText
import SafePlan.Text.Forward
import SafePlan.Text.Decimal
import SafePlan.Text.FactMessage
import SafePlan.DisjointSets
import SafePlan.Components
import SafePlan.Arithmetic
import SafePlan.Table
import SafePlan.Store
import SafePlan.Interner
import SafePlan.InternedStore
import SafePlan.Unsupported
import SafePlan.Hierarchy
import SafePlan.Plan
import SafePlan.QueryPlan
import SafePlan.FormulaPlan
import SafePlan.QueryFormula
import SafePlan.Evaluation
import SafePlan.Json.Value
import SafePlan.Json.Forms
import SafePlan.World
import SafePlan.Proofs.Forest
import SafePlan.Proofs.Connection
import SafePlan.Proofs.Outcome
import SafePlan.Proofs.Hierarchical
import SafePlan.Proofs.Likelihood
import SafePlan.Proofs.Safety
import SafePlan.Proofs.Positions
import SafePlan.Proofs.Instances
import SafePlan.Proofs.QueryLikelihood
import SafePlan.Proofs.FormulaLikelihood
import SafePlan.Proofs.Compilation
import SafePlan.Proofs.Acceptance
import SafePlan.Proofs.Ledger
import SafePlan.Proofs.Agreement
import SafePlan.Proofs.Refusal
import SafePlan.Proofs.Population
import SafePlan.Proofs.Grammar
import SafePlan.Proofs.Reading
import SafePlan.Proofs.QueryGrammar
import SafePlan.Proofs.FormulaGrammar
import SafePlan.Proofs.Writing
import SafePlan.Proofs.QueryRoundTrip
import SafePlan.Proofs.FormulaRoundTrip
import SafePlan.Proofs.AtomValues
import SafePlan.Proofs.Relevance
import SafePlan.Proofs.Recording
import SafePlan.Proofs.Derivation
import SafePlan.Proofs.EmptyDomain
import SafePlan.Proofs.Miniscoping
import SafePlan.Proofs.Obstruction
import SafePlan.Proofs.Occurrences
import SafePlan.Proofs.Monotonicity
import SafePlan.Proofs.Factors
import SafePlan.Proofs.Scoping
import SafePlan.Proofs.Separation
import SafePlan.Proofs.Renaming
import SafePlan.Proofs.Duality
import SafePlan.Proofs.Sweep
import SafePlan.Proofs.Depth
import SafePlan.Proofs.Parentheses
import SafePlan.Proofs.Viability
import SafePlan.Proofs.Places
import SafePlan.Proofs.JsonForms
import SafePlan.Proofs.QueryFaults
import SafePlan.Proofs.Climbing
import SafePlan.Proofs.Doubles
import SafePlan.Proofs.Shortest
import SafePlan.Proofs.ProperNumbers
