import Wireform.Main
import Wireform.Files.Tree
import Wireform.Proofs.Walk.InStep
import Wireform.Proofs.Table.Reach
import Wireform.Proofs.Walk.Steps
import Wireform.Proofs.Descriptor.Index
import Wireform.Proofs.Descriptor.Related
import Wireform.Proofs.Walk.Accept
import Wireform.Proofs.Walk.Ends
import Wireform.Proofs.Json.Reorder
import Wireform.Proofs.Walk.Rows
import Wireform.Proofs.Walk.Settles
import Wireform.Proofs.Walk.Spots
import Wireform.Proofs.RoundTrip
import Wireform.Proofs.Members
import Wireform.Proofs.Swap
import Wireform.Proofs.Blame
import Wireform.Proofs.Table.Chain
import Wireform.Proofs.Table.Faults
import Wireform.Proofs.Table.Resolve
import Wireform.Proofs.Walk.Safe
import Wireform.Proofs.Walk.Depth
import Wireform.Proofs.Walk.Refusals
import Wireform.Proofs.Table.Related
import Wireform.Proofs.Table.Shuffled
import Wireform.Proofs.Table.Unfolded
import Wireform.Proofs.Widening
import Wireform.Proofs.Walk.Course
import Wireform.Proofs.Limit
import Wireform.Proofs.Unchanged
import Wireform.Proofs.KeyOrder
import Wireform.Proofs.Relevance
import Wireform.Proofs.Attribution
import Wireform.Proofs.FirstMismatch
import Wireform.Proofs.Unfolding
import Wireform.Proofs.Json.Same
import Wireform.Proofs.Descriptor.Rewriting
import Wireform.Proofs.Table.Rewriting
import Wireform.Proofs.Walk.Matched
import Wireform.Proofs.Walk.Rewriting
import Wireform.Proofs.Simplification
import Wireform.Proofs.Descriptor.Grammar
import Wireform.Proofs.Descriptor.Reading
import Wireform.Proofs.Descriptor.Spelling
import Wireform.Proofs.Table.Reading
import Wireform.Proofs.Table.Loaders
import Wireform.Proofs.Table.Writing
import Wireform.Proofs.Table.Loaded
import Wireform.Proofs.Date.Canonical
import Wireform.Proofs.Date.Spelling
import Wireform.Proofs.EncodedText
import Wireform.Proofs.NumberCases
import Wireform.Proofs.OutputKeys
import Wireform.Proofs.Cli.Sinks
import Wireform.Proofs.Cli.Lines
import Wireform.Proofs.Relocation
import Wireform.Proofs.Filter.Identity
import Wireform.Proofs.Cli.Arguments
import Wireform.Proofs.Cli.Identity
