import CodeImage.Command.Store
import CodeImage.Main
import CodeImage.Proofs.Checked
import CodeImage.Proofs.Commit
import CodeImage.Proofs.Commuting
import CodeImage.Proofs.Confinement
import CodeImage.Proofs.EndOfStream
import CodeImage.Proofs.FixedPoint
import CodeImage.Proofs.Growth
import CodeImage.Proofs.InPlace
import CodeImage.Proofs.Instruction
import CodeImage.Proofs.Meaning
import CodeImage.Proofs.KnownTexts
import CodeImage.Proofs.Realised
import CodeImage.Proofs.Session
import CodeImage.Proofs.Streamed
import CodeImage.Proofs.Truncation
import CodeImage.Proofs.Widening
import CodeImage.Proofs.Decoding
import CodeImage.Proofs.Flattening
import CodeImage.Proofs.Splicing
import CodeImage.Proofs.HeaderForms
import CodeImage.Proofs.Placement
import CodeImage.Proofs.Text
import CodeImage.Proofs.StoredStrings
import CodeImage.Proofs.StringPool
import CodeImage.Proofs.Literals
import CodeImage.Proofs.Windows
import CodeImage.Proofs.PatchRuns
import CodeImage.Proofs.Recognition
import CodeImage.Proofs.Chunking
import CodeImage.Proofs.Lookup
import CodeImage.Proofs.BodySharing
import CodeImage.Proofs.JumpTables
import CodeImage.Proofs.RecordWrites
import CodeImage.Proofs.SegmentGeometry
import CodeImage.Proofs.OffsetTables
