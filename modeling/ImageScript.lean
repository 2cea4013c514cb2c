import ImageScript.Main
import ImageScript.Files.Store
import ImageScript.Worker.Rehearsal
import ImageScript.Proofs.Files.PathComponents
import ImageScript.Proofs.Files.Listing
import ImageScript.Proofs.Script.LiteralScan
import ImageScript.Proofs.Bundle.CleanupEffect
import ImageScript.Proofs.Document.Atoms
import ImageScript.Proofs.Document.Edits
import ImageScript.Proofs.Edit.Inverse
import ImageScript.Proofs.Document.Identity
import ImageScript.Proofs.Edit.Steps
import ImageScript.Proofs.Edit.Operations
import ImageScript.Proofs.Edit.Timeline
import ImageScript.Proofs.Script.LiteralKinds
import ImageScript.Proofs.Script.ImageMentions
import ImageScript.Proofs.Edit.Save
import ImageScript.Proofs.Bundle.CleanupReading
import ImageScript.Proofs.Document.Outline
import ImageScript.Proofs.Document.Layout
import ImageScript.Proofs.Document.Rereading
import ImageScript.Proofs.Document.Changes
import ImageScript.Proofs.Document.Agreement
import ImageScript.Proofs.Document.Seam
import ImageScript.Proofs.Script.Cutting
import ImageScript.Proofs.Document.InPlace
import ImageScript.Proofs.Document.FlatSequence
import ImageScript.Proofs.Document.Widening
import ImageScript.Proofs.Bundle.Placement
import ImageScript.Proofs.Bundle.Switching
import ImageScript.Proofs.Edit.Refusal
import ImageScript.Proofs.Script.Continuation
import ImageScript.Proofs.Script.Taking
import ImageScript.Proofs.Script.Rewriting
import ImageScript.Proofs.Script.Spelling
import ImageScript.Proofs.Text.Encoding
import ImageScript.Proofs.Files.Overwriting
import ImageScript.Proofs.Document.WidgetText
import ImageScript.Proofs.Document.ReadingBack
import ImageScript.Proofs.Document.CanonicalText
import ImageScript.Proofs.Command.Format
import ImageScript.Proofs.Decimal.Hundredths
import ImageScript.Proofs.Document.Distinctness
import ImageScript.Proofs.Document.KeptWidgets
import ImageScript.Proofs.Edit.HistoryIds
import ImageScript.Proofs.Edit.WidgetIds
import ImageScript.Proofs.Script.Lossless
import ImageScript.Proofs.Edit.Pasting
import ImageScript.Proofs.Edit.PastedRange
import ImageScript.Proofs.Edit.SavedMark
import ImageScript.Proofs.Script.RegionText
import ImageScript.Proofs.Script.Acceptance
import ImageScript.Proofs.Decimal.Sign
import ImageScript.Proofs.Script.ChainText
import ImageScript.Proofs.Document.WidgetDecoding
import ImageScript.Proofs.Edit.TakingBack
import ImageScript.Proofs.Edit.Validation
import ImageScript.Proofs.Edit.CaptureResults
import ImageScript.Proofs.Worker.Previews
import ImageScript.Proofs.Worker.Cancelling
import ImageScript.Proofs.Document.DirtyRange
import ImageScript.Proofs.Document.Covering
import ImageScript.Proofs.Document.Clipping
import ImageScript.Proofs.Document.Locality
import ImageScript.Proofs.Document.Sameness
import ImageScript.Proofs.Document.ChangeReport
import ImageScript.Proofs.Script.Resuming
import ImageScript.Proofs.Document.NormalForm
import ImageScript.Proofs.Script.NameRow
import ImageScript.Proofs.Bundle.Searching
import ImageScript.Proofs.Script.Exchanging
import ImageScript.Proofs.Edit.Renaming
import ImageScript.Proofs.Script.LiteralPlaces
import ImageScript.Proofs.Document.Positions
import ImageScript.Proofs.Edit.FreeNames
import ImageScript.Proofs.Script.Parentheses
