import Sharding.Lib.Codec
import Sharding.Lib.Heap
import Sharding.Lib.Run
import Sharding.Lib.Progress
import Sharding.Lib.Refine
import Sharding.Lib.Arena
import Sharding.Lib.Mutex
import Sharding.Lib.Proto3
import Sharding.Lib.HashChain
import Sharding.Lib.TreeHash
import Sharding.Lib.LazyBuffer
import Sharding.Lib.PairCode
import Sharding.Lib.CText
import Sharding.Lib.ParallelFor
import Sharding.Lib.Blocks
import Sharding.Lib.Residues
import Sharding.Lib.CInt
import Sharding.Lib.Lottery
import Sharding.Crypto
import Sharding.Blake3.Compress
import Sharding.Blake3
import Sharding.Blake3.Chunk
import Sharding.Blake3.Tree
import Sharding.Blake3.Digest
import Sharding.Blake3.Keyed
import Sharding.Blake3.Stack
import Sharding.Blake3.Bounds
import Sharding.Blake3.Spec
import Sharding.Transaction
import Sharding.Hex
import Sharding.Wallet
import Sharding.WalletFile
import Sharding.WalletRoundTrip
import Sharding.Addressing
import Sharding.Block
import Sharding.Mempool
import Sharding.SharedPool
import Sharding.Assigner
import Sharding.Dispatcher
import Sharding.Wire
import Sharding.Election
import Sharding.Winners
import Sharding.Receiver
import Sharding.Custody
import Sharding.Memory
import Sharding.Elections
import Sharding.Worker
import Sharding.Summary
import Sharding.Leader
import Sharding.Cluster
import Sharding.Honest
import Sharding.Agreement
import Sharding.Commitment
import Sharding.Moves
import Sharding.Progress
import Sharding.Finality
import Sharding.Generator
import Sharding.Balance
import Sharding.Outline
import Sharding.Submission
import Sharding.Startup
import Sharding.Pairing
import Sharding.Delivery
import Sharding.System
import Sharding.Provenance
import Sharding.CodeHash
import Sharding.Liveness
import Sharding.Fate
import Sharding.Receive
import Sharding.Service
import Sharding.Announcement
import Sharding.Sockets
