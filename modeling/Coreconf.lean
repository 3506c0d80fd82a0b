import Coreconf.Fuel
import Coreconf.FinMap
import Coreconf.ChainTable
import Coreconf.ChainOrder
import Coreconf.Cbor
import Coreconf.Types
import Coreconf.TypesInvariant
import Coreconf.MapRefinement
import Coreconf.Overrides
import Coreconf.Tree
import Coreconf.ZcborDecode
import Coreconf.ZcborSkip
import Coreconf.Decoder
import Coreconf.DecoderRules
import Coreconf.DecoderProgress
import Coreconf.DecoderTermination
import Coreconf.ZcborEncode
import Coreconf.Encoder
import Coreconf.Ipatch
import Coreconf.Post
import Coreconf.Fetch
import Coreconf.Stream
import Coreconf.RequestRules
import Coreconf.Termination
import Coreconf.Items
import Coreconf.ItemContents
import Coreconf.ItemDecode
import Coreconf.EncoderItems
import Coreconf.ZcborPut
import Coreconf.EncoderWrites
import Coreconf.Codec
import Coreconf.DecoderLimits
import Coreconf.KeyedList
import Coreconf.PatchMeaning
import Coreconf.Server
import Coreconf.ServerInvariant
import Coreconf.Replace
import Coreconf.Fidelity
import Coreconf.PatchRun
import Coreconf.PatchEffects
import Coreconf.PatchIdempotence
import Coreconf.ChainKeys
import Coreconf.PatchRequests
import Coreconf.PostRequests
import Coreconf.EncoderComplete
import Coreconf.FetchRequests
import Coreconf.SchemaDecode
import Coreconf.FetchFidelity
import Coreconf.ListInstances
import Coreconf.IpatchPaths
import Coreconf.Fingerprint
import Coreconf.Shell
import Coreconf.PasswordRotation
import Coreconf.InstanceKeys
import Coreconf.FetchResponses
import Coreconf.SkipGrammar
import Coreconf.SkipComplete
import Coreconf.StreamSlices
import Coreconf.SkipItems
import Coreconf.SkipRefused
import Coreconf.StreamWalk
import Coreconf.StreamFilter
import Coreconf.PayloadPeeks
import Coreconf.IpatchEvents
import Coreconf.Manipulation
import Coreconf.PathIndex
import Coreconf.PathLookup
import Coreconf.ParentIndex
import Coreconf.Climb
import Coreconf.ParentWalk
import Coreconf.NoMatch
import Coreconf.ComparisonSort
import Coreconf.LongLists
import Coreconf.Delete
import Coreconf.SidRequests
import Coreconf.ScannerProgress
import Coreconf.EventQueue
import Coreconf.StreamWrapper
import Coreconf.DeleteQuery
import Coreconf.KeyMappings
import Coreconf.WireKeys
import Coreconf.SharedPatch
import Coreconf.FetchSequences
import Coreconf.RobinHood
import Coreconf.Hashmap
import Coreconf.HashmapProbes
import Coreconf.HashmapInvariant
import Coreconf.HashmapCalls
import Coreconf.HashmapRuns
import Coreconf.HashmapLoad
import Coreconf.SidHashmaps
import Coreconf.SidTables
import Coreconf.Process
import Coreconf.ProcessStream
import Coreconf.PostAnswers
import Coreconf.Timestamps
