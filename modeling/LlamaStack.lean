import LlamaStack.GoJsonRoundTrip
import LlamaStack.GoJsonString
import LlamaStack.GoJsonNumber
import LlamaStack.ResponsesAdapter
import LlamaStack.ResponsesArguments
import LlamaStack.ResponsesSequence
import LlamaStack.GoFloat64
import LlamaStack.GoMap
import LlamaStack.ResponsesSpelling
import LlamaStack.NChoiceErrors
import LlamaStack.NChoiceContract
import LlamaStack.CatalogPaths
import LlamaStack.PresetReadback
import LlamaStack.ResponsesOutputIndex
import LlamaStack.StreamFlushing
import LlamaStack.DownloaderAtomicity
import LlamaStack.RequestFidelity
import LlamaStack.NChoiceIndices
import LlamaStack.CatalogLookup
import LlamaStack.FileSelection
import LlamaStack.FanOut
import LlamaStack.SchemaBlocks
import LlamaStack.ResponsesInjection
import LlamaStack.NChoiceUsage
import LlamaStack.NChoiceAggregate
import LlamaStack.GoJsonObjects
import LlamaStack.RequestItems
import LlamaStack.RequestNormalForm
import LlamaStack.AdaptedBodies
import LlamaStack.VendoredIntegrity
import LlamaStack.SharedFiles
import LlamaStack.GatewayProgress
import LlamaStack.PresetPublishing
import LlamaStack.PinnedCompletion
import LlamaStack.GatewayRefinement
