import CallByNeed.Machine.Checked
import CallByNeed.Main
import CallByNeed.Proofs.NormalForms
import CallByNeed.Proofs.Lockstep
import CallByNeed.Report.Asked
import CallByNeed.Proofs.Independence
import CallByNeed.Proofs.Reports
import CallByNeed.Proofs.Sessions
import CallByNeed.Proofs.Completions
import CallByNeed.Proofs.Grammar
import CallByNeed.Proofs.RoundTrip
import CallByNeed.Proofs.Recognition
import CallByNeed.Proofs.ImportOrder
import CallByNeed.Proofs.Wiring
import CallByNeed.Proofs.Linking
import CallByNeed.Proofs.Resolution
import CallByNeed.Proofs.WriteOnce
import CallByNeed.Proofs.Confinement
import CallByNeed.Proofs.References
import CallByNeed.Proofs.Reading
import CallByNeed.Proofs.FixedPoints
import CallByNeed.Proofs.Legibility
import CallByNeed.Proofs.Scoping
import CallByNeed.Proofs.PrintedForms
import CallByNeed.Proofs.StagedLinking
import CallByNeed.Proofs.Standardization
import CallByNeed.Proofs.StepBounds
import CallByNeed.Proofs.NormalOrder
import CallByNeed.Proofs.Iteration
import CallByNeed.Proofs.Counting
import CallByNeed.Proofs.Clients
import CallByNeed.Proofs.Decoding
import CallByNeed.Proofs.Arithmetic
import CallByNeed.Proofs.Abstractions
import CallByNeed.Proofs.Library
import CallByNeed.Proofs.Calculation
import CallByNeed.Proofs.Noninterference
import CallByNeed.Proofs.NaturalSemantics
import CallByNeed.Proofs.Unobservable
import CallByNeed.Proofs.BoundNames
import CallByNeed.Proofs.Paths
import CallByNeed.Proofs.Discovery
import CallByNeed.Proofs.Loading
import CallByNeed.Proofs.Entries
import CallByNeed.Proofs.Operations
import CallByNeed.Proofs.CutShort
import CallByNeed.Proofs.Nesting
import CallByNeed.Proofs.ReadingLimits
import CallByNeed.Proofs.Numerals
import CallByNeed.Proofs.Endings
import CallByNeed.Proofs.Pointing
import CallByNeed.Proofs.Brackets
import CallByNeed.Proofs.CommandWords
import CallByNeed.Proofs.Messages
import CallByNeed.Proofs.Wording
import CallByNeed.Proofs.Drafts
import CallByNeed.Proofs.RecursiveReading
import CallByNeed.Proofs.FileIdentity
import CallByNeed.Proofs.Relinking
import CallByNeed.Proofs.Retrying
