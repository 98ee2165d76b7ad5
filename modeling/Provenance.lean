import Provenance.Document.Basic
import Provenance.Excerpt
import Provenance.Proofs.Document.Embedding
import Provenance.Proofs.Json.RoundTrip
import Provenance.Proofs.PositionMap.Segments
import Provenance.Proofs.Json.Records
import Provenance.Proofs.PositionMap.RoundTrip
import Provenance.Proofs.Document.Rendering
import Provenance.Proofs.Document.Attribution
import Provenance.Proofs.PositionMap.Reading
import Provenance.Proofs.Document.Nesting
import Provenance.Proofs.PositionMap.Tracing
import Provenance.Proofs.Document.Text
import Provenance.Proofs.Excerpt.Window
import Provenance.Proofs.Excerpt.Pointer
import Provenance.Proofs.Document.Files
import Provenance.Proofs.Locator
import Provenance.Proofs.PositionMap.Acceptance
import Provenance.Proofs.PositionMap.Deltas
import Provenance.Proofs.MapComment.LastLine
import Provenance.Proofs.PositionMap.Canonical
import Provenance.Proofs.Document.Previous
import Provenance.Proofs.Path.Climbing
import Provenance.Proofs.PositionMap.Rebasing
import Provenance.Proofs.SourceContext
import Provenance.Proofs.Vlq.Acceptance
