import QueryShorthand.Main
import QueryShorthand.Access
import QueryShorthand.Proofs.Grammar
import QueryShorthand.Proofs.Edits
import QueryShorthand.Proofs.WellFormed
import QueryShorthand.Proofs.Paths
import QueryShorthand.Proofs.Unambiguous
import QueryShorthand.Proofs.Meaning
import QueryShorthand.Proofs.Replay
import QueryShorthand.Proofs.Lookup
import QueryShorthand.Proofs.Addresses
import QueryShorthand.Proofs.Scans
import QueryShorthand.Proofs.Faults
import QueryShorthand.Proofs.Calls
import QueryShorthand.Proofs.Repeats
import QueryShorthand.Proofs.Order
import QueryShorthand.Proofs.Expansion
import QueryShorthand.Proofs.Failures
import QueryShorthand.Proofs.Excerpts
import QueryShorthand.Proofs.Continuation
import QueryShorthand.Proofs.Printing
import QueryShorthand.Proofs.Growth
import QueryShorthand.Proofs.Indices
import QueryShorthand.Proofs.Encoding
import QueryShorthand.Proofs.FormPairs
import QueryShorthand.Proofs.PlainUris
import QueryShorthand.Proofs.Delivery
import QueryShorthand.Proofs.Modes
import QueryShorthand.Proofs.Lines
import QueryShorthand.Proofs.LabelForms
import QueryShorthand.Proofs.Labels
import QueryShorthand.Proofs.Resolution
import QueryShorthand.Proofs.ArgumentGaps
import QueryShorthand.Proofs.WholeInput
import QueryShorthand.Proofs.LabelWrites
import QueryShorthand.Proofs.FilterHistory
import QueryShorthand.Proofs.Messages
import QueryShorthand.Proofs.Decoded
import QueryShorthand.Proofs.JsonGrammar
import QueryShorthand.Proofs.Scalars
import QueryShorthand.Proofs.Reading
import QueryShorthand.Proofs.RoundTrip
import QueryShorthand.Proofs.Answers
