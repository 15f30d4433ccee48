import OrionNetwork.Runs
import OrionNetwork.Codec
import OrionNetwork.MessageBlock
import OrionNetwork.BlockHash
import OrionNetwork.ChatReplica
import OrionNetwork.ChatSteps
import OrionNetwork.ChatNumbering
import OrionNetwork.ChatFinality
import OrionNetwork.BlockBinding
import OrionNetwork.ChatQuorum
import OrionNetwork.ChatUniqueness
import OrionNetwork.ChatPagination
import OrionNetwork.ChatPush
import OrionNetwork.ChatSafety
import OrionNetwork.ByteMemory
import OrionNetwork.PacketWriter
import OrionNetwork.Collections
import OrionNetwork.StreamingBehaviour
import OrionNetwork.StreamLedger
import OrionNetwork.ChunkedInput
import OrionNetwork.PacketReader
import OrionNetwork.RpcBehaviour
import OrionNetwork.RpcConservation
import OrionNetwork.RpcIsolation
import OrionNetwork.RpcFailures
import OrionNetwork.CountingLoops
import OrionNetwork.GaloisField
import OrionNetwork.PivotExchange
import OrionNetwork.EvaluationCode
import OrionNetwork.PolynomialRows
import OrionNetwork.GaussJordan
import OrionNetwork.FecMatrix
import OrionNetwork.FecCode
import OrionNetwork.GaloisSimd
import OrionNetwork.FecRebuild
import OrionNetwork.StorageCodec
import OrionNetwork.FecSyndrome
import OrionNetwork.FecDecode
import OrionNetwork.MatrixInverse
import OrionNetwork.FecDistance
import OrionNetwork.SymbolTableau
import OrionNetwork.TriangularForm
import OrionNetwork.FecSingular
import OrionNetwork.CoefficientLists
import OrionNetwork.FecDivision
import OrionNetwork.PolyBuffers
import OrionNetwork.FecSystem
import OrionNetwork.RowMajor
import OrionNetwork.FecBuffers
import OrionNetwork.FecPanics
import OrionNetwork.CodecTypes
import OrionNetwork.Varints
import OrionNetwork.Replicated
import OrionNetwork.Protocols
import OrionNetwork.WrappedErrors
import OrionNetwork.Reads
import OrionNetwork.CodecReads
import OrionNetwork.ChatAuthorship
import OrionNetwork.ChatActions
import OrionNetwork.ChatDispatch
import OrionNetwork.CheckedIntegers
import OrionNetwork.KyberMatrix
import OrionNetwork.KyberReduction
import OrionNetwork.PolynomialHalves
import OrionNetwork.KyberNtt
import OrionNetwork.KyberPoly
import OrionNetwork.KyberIndcpa
import OrionNetwork.NodeStaker
import OrionNetwork.Slashing
import OrionNetwork.OnionRelay
import OrionNetwork.Mailbox
import OrionNetwork.OnionPacket
import OrionNetwork.OnionPeeling
import OrionNetwork.OnionHandshake
import OrionNetwork.OnionRouter
import OrionNetwork.MailDelivery
import OrionNetwork.HandlerNest
import OrionNetwork.SortedVectors
import OrionNetwork.Dht
import OrionNetwork.DhtLookup
import OrionNetwork.StakeMirror
import OrionNetwork.StakeVotes
import OrionNetwork.ReplicaSets
import OrionNetwork.UserNames
import OrionNetwork.DyadicBlocks
import OrionNetwork.Merkle
import OrionNetwork.MerklePaths
import OrionNetwork.FreeList
import OrionNetwork.FreeListSearch
import OrionNetwork.RawCells
import OrionNetwork.CompactStorage
import OrionNetwork.ProfileStore
import OrionNetwork.ProfileRestore
import OrionNetwork.MailQueue
import OrionNetwork.RecordFiles
import OrionNetwork.DeletedScan
import OrionNetwork.DiskPool
import OrionNetwork.DiskPush
import OrionNetwork.DeletedRecords
import OrionNetwork.ClientMail
import OrionNetwork.ClientNode
import OrionNetwork.ClientIsolation
import OrionNetwork.FixedNames
import OrionNetwork.NoisyEquations
import OrionNetwork.KyberTransforms
import OrionNetwork.KyberBytes
import OrionNetwork.KyberNoise
import OrionNetwork.KyberDecryption
import OrionNetwork.KyberKem
import OrionNetwork.ClientSending
import OrionNetwork.ClientWorld
import OrionNetwork.EncryptedStream
import OrionNetwork.ClientConnections
import OrionNetwork.BitStreams
import OrionNetwork.FalconCodec
