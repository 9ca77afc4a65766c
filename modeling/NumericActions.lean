import NumericActions.Registry.Session
import NumericActions.Proofs.Traversal
import NumericActions.Proofs.WindowIndices
import NumericActions.Proofs.FirstProblem
import NumericActions.Proofs.ActionFaults
import NumericActions.Proofs.NameLanguage
import NumericActions.Proofs.TermContract
import NumericActions.Proofs.References
import NumericActions.Proofs.ValidatorLaws
import NumericActions.Proofs.ViolationOrder
import NumericActions.Proofs.InvocationContract
import NumericActions.Proofs.InvocationOutcome
import NumericActions.Proofs.SinkAtomicity
import NumericActions.Proofs.SpecificationContract
import NumericActions.Proofs.Bracketing
import NumericActions.Proofs.ScopeIndependence
import NumericActions.Proofs.BinomialCoefficients
import NumericActions.Proofs.StirlingNumbers
import NumericActions.Primes.Unbounded
import NumericActions.Proofs.StrongProbablePrimes
import NumericActions.Proofs.CycleSearch
import NumericActions.Proofs.PrimeFactorization
import NumericActions.Proofs.SumOrder
import NumericActions.Proofs.NextPrime
import NumericActions.Proofs.ExactSum
import NumericActions.Proofs.EmittedFactors
import NumericActions.Proofs.Extremes
import NumericActions.Proofs.WidenedExtremes
import NumericActions.Proofs.ReductionDomains
import NumericActions.Proofs.AggregateOutcome
import NumericActions.Proofs.Parameters
import NumericActions.Proofs.TermAgreement
import NumericActions.Proofs.SpecialAddends
import NumericActions.Proofs.HalfUp
import NumericActions.Proofs.Qualification
import NumericActions.Proofs.RegistrationRuns
import NumericActions.Proofs.Truncation
