import JsonTree.Elements.Basic
import JsonTree.Elements.Room
import JsonTree.Members.Path
import JsonTree.Parser
import JsonTree.Portable
import JsonTree.Proofs.Checked.Safety
import JsonTree.Proofs.Elements
import JsonTree.Proofs.Grammar.Exact
import JsonTree.Proofs.Grammar.Pieces
import JsonTree.Proofs.Grammar.Units
import JsonTree.Proofs.Locality.Grounds
import JsonTree.Proofs.Members.Edits
import JsonTree.Proofs.Members.Remove
import JsonTree.Proofs.Members.Slots
import JsonTree.Proofs.Members.Store
import JsonTree.Proofs.Members.Undo
import JsonTree.Proofs.Number.Conversion
import JsonTree.Proofs.OptionWords
import JsonTree.Proofs.Path
import JsonTree.Proofs.Position.Tracking
import JsonTree.Proofs.Text.Escaper
import JsonTree.Proofs.Text.Growth
import JsonTree.Proofs.Trail.Commas
import JsonTree.Proofs.Trail.Depth
import JsonTree.Proofs.Trail.Finite
import JsonTree.Proofs.Trail.Keys
import JsonTree.Proofs.Value.Borrowing
import JsonTree.Proofs.Value.Canonical
import JsonTree.Proofs.Value.Equality
import JsonTree.Proofs.Value.FloatCasts
import JsonTree.Proofs.Value.Lossless
import JsonTree.Proofs.Value.RoundTrip
import JsonTree.Proofs.Value.StrictText
import JsonTree.Proofs.Value.Unambiguous
import JsonTree.Value.Equality
import JsonTree.Value.Outline
import JsonTree.Value.Storage
import JsonTree.Value.Text
