import GradedModal.Main
import GradedModal.Proofs.Reaches
import GradedModal.Proofs.Infer
import GradedModal.Proofs.Demands
import GradedModal.Proofs.Lookup
import GradedModal.Proofs.Patterns
import GradedModal.Proofs.Paths
import GradedModal.Proofs.Uses
import GradedModal.Proofs.Linearity
import GradedModal.Proofs.Duplication
import GradedModal.Proofs.Grading
import GradedModal.Proofs.Effects
import GradedModal.Proofs.Truth
import GradedModal.Proofs.Search
import GradedModal.Proofs.Termination
import GradedModal.Proofs.Validity
import GradedModal.Proofs.Quantifiers
import GradedModal.Proofs.Sinking
import GradedModal.Proofs.Refutation
import GradedModal.Proofs.Acceptance
import GradedModal.Proofs.Lockstep
import GradedModal.Proofs.Plain
import GradedModal.Proofs.Unboxing
import GradedModal.Proofs.Scoping
import GradedModal.Proofs.Mentions
import GradedModal.Proofs.Existentials
import GradedModal.Proofs.Remainder
import GradedModal.Proofs.Confinement
import GradedModal.Proofs.Escape
import GradedModal.Proofs.Closure
import GradedModal.Proofs.Saturation
import GradedModal.Proofs.Doubles
import GradedModal.Proofs.Reading
import GradedModal.Proofs.SmtLib
import GradedModal.Proofs.LevelQueries
import GradedModal.Proofs.NaturalConstraints
import GradedModal.Proofs.Kinds
import GradedModal.Proofs.Advances
import GradedModal.Proofs.Frame
import GradedModal.Proofs.FreeVariables
import GradedModal.Proofs.Pairing
import GradedModal.Proofs.Parallel
import GradedModal.Proofs.ParallelTypes
import GradedModal.Proofs.ParallelContexts
import GradedModal.Proofs.ParallelChecks
import GradedModal.Proofs.Renaming
import GradedModal.Proofs.KindedQueries
import GradedModal.Proofs.ParallelInfer
import GradedModal.Proofs.PatternVariables
import GradedModal.Proofs.Independence
import GradedModal.Proofs.Quoting
import GradedModal.Proofs.Visits
import GradedModal.Proofs.Uniqueness
import GradedModal.Proofs.Usage
import GradedModal.Proofs.KindedTypes
import GradedModal.Proofs.SynthesizedKinds
import GradedModal.Proofs.RoundTrip
import GradedModal.Proofs.Promotion
import GradedModal.Proofs.LeastUpperBound
import GradedModal.Proofs.Comparable
import GradedModal.Proofs.TypeJoin
import GradedModal.Proofs.Propagation
import GradedModal.Proofs.Rigidity
import GradedModal.Proofs.GroundTypes
import GradedModal.Proofs.KindSolutions
import GradedModal.Proofs.Combination
import GradedModal.Proofs.SearchLimit
import GradedModal.Proofs.PatternRepeats
import GradedModal.Proofs.PatternBoxes
import GradedModal.Proofs.Instances
import GradedModal.Proofs.Indices
import GradedModal.Proofs.Monotonicity
import GradedModal.Proofs.DiagnosticOrder
import GradedModal.Proofs.Positions
import GradedModal.Proofs.KindUnification
import GradedModal.Proofs.Layout
