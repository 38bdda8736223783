import Sharding.Transaction

/-! # Messages between the assigner and the shards

The structures of `block.h` as they travel over the sockets. The receivers tell
the kinds apart by the size of the message alone, so the layouts and their sizes
are part of the protocol.
-/

namespace Sharding

/-- `TxWithPubkey` -/
structure TxWithPubkey where
  tx : Transaction
  pubkey : PublicKey
deriving DecidableEq

/-- `DispatchHeader` -/
structure DispatchHeader where
  roundStartMs : UInt64
  roundNumber : UInt32
  numShards : UInt32
deriving DecidableEq

/-- `DispatchDone`; the duration is a `double`, carried as its bits. -/
structure DispatchDone where
  roundNumber : UInt32
  dispatchDurationMs : UInt64
deriving DecidableEq

/-- `RoundEnd` -/
structure RoundEnd where
  roundNumber : UInt32
  txCount : UInt32
deriving DecidableEq

/-- `ShardSummary` -/
structure ShardSummary where
  shardId : UInt32
  txCount : UInt32
  totalFees : UInt64
  merkleRoot : Digest
deriving DecidableEq

/-- `Block`, without its timing fields. -/
structure Block where
  blockNumber : UInt32
  numShards : UInt32
  totalTxCount : UInt32
  totalFees : UInt64
  merkleRoot : Digest
deriving DecidableEq

def TxWithPubkey.codec : Codec TxWithPubkey :=
  (Transaction.codec.seq (Codec.bytes 32)).map (fun (t, k) => ⟨t, k⟩)
    (fun m => (m.tx, m.pubkey)) (fun _ => rfl)

def DispatchHeader.codec : Codec DispatchHeader :=
  (Codec.u64.seq (Codec.u32.seq Codec.u32)).map (fun (s, r, n) => ⟨s, r, n⟩)
    (fun h => (h.roundStartMs, h.roundNumber, h.numShards)) (fun _ => rfl)

/-- The `double` is aligned to 8 bytes. -/
def DispatchDone.codec : Codec DispatchDone :=
  (Codec.u32.seq ((Codec.pad 4).seq Codec.u64)).map (fun (r, _, d) => ⟨r, d⟩)
    (fun m => (m.roundNumber, (), m.dispatchDurationMs)) (fun _ => rfl)

def RoundEnd.codec : Codec RoundEnd :=
  (Codec.u32.seq Codec.u32).map (fun (r, c) => ⟨r, c⟩)
    (fun m => (m.roundNumber, m.txCount)) (fun _ => rfl)

def ShardSummary.codec : Codec ShardSummary :=
  (Codec.u32.seq (Codec.u32.seq (Codec.u64.seq (Codec.bytes 32)))).map
    (fun (i, c, f, m) => ⟨i, c, f, m⟩)
    (fun s => (s.shardId, s.txCount, s.totalFees, s.merkleRoot)) (fun _ => rfl)

/-! The sizes the receivers test for: 160, 16, 16, 8 and 48. A `RoundEnd` is as
long as the bare `uint64_t` of an older assigner. -/

@[simp] theorem TxWithPubkey.codec_size : TxWithPubkey.codec.size = 160 := rfl

@[simp] theorem DispatchHeader.codec_size : DispatchHeader.codec.size = 16 := rfl

@[simp] theorem DispatchDone.codec_size : DispatchDone.codec.size = 16 := rfl

@[simp] theorem RoundEnd.codec_size : RoundEnd.codec.size = 8 := rfl

@[simp] theorem ShardSummary.codec_size : ShardSummary.codec.size = 48 := rfl

end Sharding
