import Protobuf.Main
import Protobuf.Writer.Operation
import Protobuf.Message.Equality
import Protobuf.Message.Fingerprint
import Protobuf.Proofs.Likeness
import Protobuf.Text.Parsing
import Protobuf.Proofs.Simulation
import Protobuf.Proofs.Merging
import Protobuf.Proofs.Fitting
import Protobuf.Proofs.Concatenation
import Protobuf.Proofs.RawFields
import Protobuf.Proofs.Spans
import Protobuf.Proofs.UnknownFields
import Protobuf.Proofs.TwoPasses
import Protobuf.Proofs.ForeignFields
import Protobuf.Proofs.ScalarRoundTrip
import Protobuf.Proofs.ReadingBack
import Protobuf.Proofs.RoundTrip
import Protobuf.Proofs.Entries
import Protobuf.Proofs.Operations
import Protobuf.Proofs.Text.RoundTrip
import Protobuf.Proofs.Equality
import Protobuf.Proofs.Keeping
import Protobuf.Proofs.Packing
import Protobuf.Proofs.Labels
import Protobuf.Proofs.Text.Expansion
import Protobuf.Proofs.Text.NestingLimit
import Protobuf.Proofs.Text.SkippedTexts
import Protobuf.Proofs.Text.UnknownLines
import Protobuf.Proofs.Text.Faults
import Protobuf.Proofs.Text.IgnoredFields
import Protobuf.Proofs.Text.UnknownNames
import Protobuf.Proofs.Registrations
import Protobuf.Proofs.ErrorPlaces
import Protobuf.Proofs.FailedMerges
import Protobuf.Proofs.VarintCommand
import Protobuf.Proofs.RequiredFields
import Protobuf.Proofs.Commuting
import Protobuf.Proofs.Text.Appending
import Protobuf.Proofs.Text.AppendedFields
import Protobuf.Proofs.Text.Composition
import Protobuf.Proofs.Grammar
import Protobuf.Proofs.SkippedGroups
import Protobuf.Proofs.Text.Rendering
import Protobuf.Proofs.DecodeCommand
import Protobuf.Proofs.Resolving
import Protobuf.Proofs.Text.NestedPayloads
import Protobuf.Proofs.PackedRuns
import Protobuf.Proofs.MapEntries
import Protobuf.Proofs.KeptFields
import Protobuf.Proofs.BoundedWriter
import Protobuf.Proofs.ScalarFields
import Protobuf.Proofs.Text.Numerals
import Protobuf.Proofs.Text.Escapes
import Protobuf.Proofs.CanonicalVarints
import Protobuf.Proofs.Text.Turns
import Protobuf.Proofs.Text.Steps
import Protobuf.Proofs.Text.Walks
import Protobuf.Proofs.Text.Boundaries
import Protobuf.Proofs.Text.ErrorLines
import Protobuf.Proofs.Text.Layouts
import Protobuf.Proofs.Text.Lists
import Protobuf.Proofs.Text.SaturatedDigits
import Protobuf.Proofs.EntrySizes
import Protobuf.Proofs.Text.FailingNames
import Protobuf.Proofs.Text.FieldNumbers
