import Bindery.Main
import Bindery.Rehearsal.Remote
import Bindery.Proofs.RunTrace
import Bindery.Proofs.GraphOrder
import Bindery.Proofs.PlanOrder
import Bindery.Proofs.NameTree
import Bindery.Proofs.ModuleFile
import Bindery.Proofs.ScanTree
import Bindery.Proofs.VolumeTree
import Bindery.Proofs.JsonLayout
import Bindery.Proofs.ManifestText
import Bindery.Proofs.PackageContents
import Bindery.Proofs.ModuleTree
import Bindery.Proofs.PackageRoundTrip
import Bindery.Proofs.DottedName
import Bindery.Proofs.IndexLookup
import Bindery.Proofs.RunOrder
import Bindery.Proofs.PlanDeps
import Bindery.Proofs.OutputLookup
import Bindery.Proofs.RunOutput
import Bindery.Proofs.CompiledTree
import Bindery.Proofs.OutputManifest
import Bindery.Proofs.FrameStream
import Bindery.Proofs.JsonValue
import Bindery.Proofs.MessageText
import Bindery.Proofs.CommandStream
import Bindery.Proofs.Noise
import Bindery.Proofs.Correlation
import Bindery.Proofs.Registration
import Bindery.Proofs.SearchAnswers
import Bindery.Proofs.BytePosition
import Bindery.Proofs.FailurePlace
import Bindery.Proofs.RunPhase
import Bindery.Proofs.Enumeration
import Bindery.Proofs.OutputNames
import Bindery.Proofs.ManifestName
import Bindery.Proofs.PackageOutcome
import Bindery.Proofs.StagedFiles
import Bindery.Proofs.RunArtifacts
import Bindery.Proofs.TextParts
import Bindery.Proofs.ListingStat
import Bindery.Proofs.WrittenRequires
import Bindery.Proofs.LegacyPackage
import Bindery.Proofs.CurrentIndex
import Bindery.Proofs.LayoutParts
import Bindery.Proofs.NumberText
import Bindery.Proofs.TextPlaces
import Bindery.Proofs.LayoutSpace
import Bindery.Proofs.LayoutWidth
import Bindery.Proofs.CommentSpace
import Bindery.Proofs.PartAccount
import Bindery.Proofs.SavedPackage
import Bindery.Proofs.ExternalPackages
import Bindery.Proofs.ReverseLookup
import Bindery.Proofs.DeclaredRoots
import Bindery.Proofs.LegacyNames
import Bindery.Proofs.LogicalCopy
import Bindery.Proofs.StepSequence
import Bindery.Proofs.ReplyText
import Bindery.Proofs.LineScan
import Bindery.Proofs.ArchiveNames
import Bindery.Proofs.FrameLimit
