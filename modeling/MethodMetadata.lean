import MethodMetadata.ClassFile.Assembly
import MethodMetadata.Host.Memory
import MethodMetadata.Main
import MethodMetadata.Proofs.ExactClassFiles
import MethodMetadata.Proofs.Frame
import MethodMetadata.Proofs.OutputTables
import MethodMetadata.Proofs.Replay
import MethodMetadata.Proofs.Reprocessing
import MethodMetadata.Proofs.Descriptors
import MethodMetadata.Proofs.SignatureKeys
import MethodMetadata.Proofs.PoolHistories
import MethodMetadata.Proofs.Jobs
import MethodMetadata.Proofs.ConstructorIndices
import MethodMetadata.Proofs.Regeneration
import MethodMetadata.Proofs.PoolTables
import MethodMetadata.Proofs.OrderIndependence
import MethodMetadata.Proofs.ArchivePasses
import MethodMetadata.Proofs.OutputInvariants
import MethodMetadata.Proofs.ExactDescriptors
import MethodMetadata.Proofs.TextGroups
import MethodMetadata.Proofs.ShortestGroups
import MethodMetadata.Proofs.CodePointBytes
import MethodMetadata.Proofs.Refusals
import MethodMetadata.Proofs.Failures
import MethodMetadata.Proofs.MappedEntries
import MethodMetadata.Proofs.PlainStoring
import MethodMetadata.Proofs.MergedAttributes
import MethodMetadata.Proofs.SelfDelimiting
import MethodMetadata.Proofs.MappingAppend
import MethodMetadata.Proofs.ArgumentTables
import MethodMetadata.Proofs.OffsetScan
import MethodMetadata.Proofs.RenderedTables
import MethodMetadata.Proofs.MappingLayout
