import NeuralQuery.Main
import NeuralQuery.Token.Reader
import NeuralQuery.Typed.Node
import NeuralQuery.Proofs.Derivation
import NeuralQuery.Proofs.ParserSound
import NeuralQuery.Proofs.ParserComplete
import NeuralQuery.Proofs.WellTyped
import NeuralQuery.Proofs.Agreement
import NeuralQuery.Proofs.Terms
import NeuralQuery.Proofs.Conditions
import NeuralQuery.Proofs.Reports
import NeuralQuery.Proofs.NetworkTable
import NeuralQuery.Proofs.Resolution
import NeuralQuery.Proofs.Indexes
import NeuralQuery.Proofs.RegistryTable
import NeuralQuery.Proofs.Framing
import NeuralQuery.Proofs.Pass
import NeuralQuery.Proofs.Acceptance
import NeuralQuery.Proofs.Pinning
import NeuralQuery.Proofs.SingleFault
import NeuralQuery.Proofs.Relexing
import NeuralQuery.Proofs.Reading
import NeuralQuery.Proofs.Spacing
import NeuralQuery.Proofs.Unplaced
import NeuralQuery.Proofs.Written
import NeuralQuery.Proofs.Display
import NeuralQuery.Proofs.Renumbering
import NeuralQuery.Proofs.Placeless
import NeuralQuery.Proofs.Retyping
import NeuralQuery.Proofs.RoundTrip
import NeuralQuery.Proofs.Placement
import NeuralQuery.Proofs.SourceOrder
import NeuralQuery.Proofs.Moving
import NeuralQuery.Proofs.Located
import NeuralQuery.Proofs.Rows
import NeuralQuery.Proofs.Layout
import NeuralQuery.Proofs.NetworkCheck
import NeuralQuery.Proofs.SymbolAgreement
import NeuralQuery.Proofs.History
import NeuralQuery.Proofs.PolicyRuns
import NeuralQuery.Proofs.TwoTables
import NeuralQuery.Proofs.NetworkOrder
import NeuralQuery.Proofs.Naming
import NeuralQuery.Proofs.Recovery
import NeuralQuery.Proofs.Rendering
import NeuralQuery.Proofs.Independence
import NeuralQuery.Proofs.DuplicateNetwork
import NeuralQuery.Proofs.Reparsing
import NeuralQuery.Proofs.Quoting
import NeuralQuery.Proofs.Slicing
import NeuralQuery.Proofs.Spans
import NeuralQuery.Proofs.Walks
import NeuralQuery.Proofs.WalkOrder
import NeuralQuery.Proofs.FailureReports
import NeuralQuery.Proofs.Regrouping
import NeuralQuery.Proofs.RelationVerdicts
import NeuralQuery.Proofs.Spelling
import NeuralQuery.Proofs.Tiling
import NeuralQuery.Proofs.Lines
import NeuralQuery.Proofs.Caret
import NeuralQuery.Proofs.LongestMatch
import NeuralQuery.Proofs.ConstantSigns
import NeuralQuery.Proofs.UnsignedConstants
import NeuralQuery.Proofs.Confinement
import NeuralQuery.Proofs.ParserCalls
