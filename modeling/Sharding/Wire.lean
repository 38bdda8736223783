import Sharding.Lib.Proto3
import Sharding.Assigner

/-! # Transactions on the wire

The messages of `blockchain.proto`, the two encoders (the generator's batch
packing and `transaction_serialize_pb`) and the two decoders (the receiver's
`pb_to_tx` and `transaction_deserialize_pb`). The encoders leave an all-zero
signature out, and proto3 leaves out zero scalars; the decoders start from a
zeroed structure, which is what makes the round trips exact. Messages of other
senders can tell the decoders apart (`decoders_agree_iff`).
-/

namespace Sharding

open Proto3 (Field Message scalar)

/-- `Blockchain__Transaction`; a bytes field without data is empty. -/
structure PbTransaction where
  nonce : UInt64
  expiryBlock : UInt32
  sourceAddress : Bytes
  destAddress : Bytes
  value : UInt64
  fee : UInt32
  signature : Bytes
  publicKey : Bytes
deriving DecidableEq

/-- `Blockchain__TransactionBatch` -/
structure PbBatch where
  transactions : List PbTransaction
  count : UInt32
deriving DecidableEq

/-! ## The schema -/

/-- A field read off the wire: the last one wins, a known field with the wrong
wire type fails the message, an unknown field is skipped. -/
def PbTransaction.merge (m : PbTransaction) (f : Field) : Option PbTransaction :=
  match f.number, f.payload with
  | 1, .varint n => some { m with nonce := UInt64.ofNat n }
  | 2, .varint n => some { m with expiryBlock := UInt32.ofNat n }
  | 3, .len b => some { m with sourceAddress := b }
  | 4, .len b => some { m with destAddress := b }
  | 5, .varint n => some { m with value := UInt64.ofNat n }
  | 6, .varint n => some { m with fee := UInt32.ofNat n }
  | 7, .len b => some { m with signature := b }
  | 8, .len b => some { m with publicKey := b }
  | k, _ => if k ≤ 8 then none else some m

/-- `message Transaction` -/
def PbTransaction.message : Message PbTransaction where
  init := ⟨0, 0, [], [], 0, 0, [], []⟩
  fields m :=
    scalar 1 m.nonce.toNat ++ scalar 2 m.expiryBlock.toNat ++
      Proto3.bytes 3 m.sourceAddress ++ Proto3.bytes 4 m.destAddress ++
      scalar 5 m.value.toNat ++ scalar 6 m.fee.toNat ++
      Proto3.bytes 7 m.signature ++ Proto3.bytes 8 m.publicKey
  merge := PbTransaction.merge

def PbBatch.merge (m : PbBatch) (f : Field) : Option PbBatch :=
  match f.number, f.payload with
  | 1, .len b =>
      match PbTransaction.message.unpack b with
      | some t => some { m with transactions := m.transactions ++ [t] }
      | none => none
  | 2, .varint n => some { m with count := UInt32.ofNat n }
  | k, _ => if k ≤ 2 then none else some m

/-- `message TransactionBatch` -/
def PbBatch.message : Message PbBatch where
  init := ⟨[], 0⟩
  fields m :=
    (m.transactions.map fun t => ⟨1, .len (PbTransaction.message.pack t)⟩) ++
      scalar 2 m.count.toNat
  merge := PbBatch.merge

/-! ## Encoders -/

/-- How the generator fills a message: an all-zero signature stays empty. -/
def generatorPb (tx : Transaction) (pubkey : PublicKey) : PbTransaction where
  nonce := tx.nonce
  expiryBlock := tx.expiryBlock
  sourceAddress := tx.sourceAddress.toList
  destAddress := tx.destAddress.toList
  value := tx.value
  fee := tx.fee
  signature := if !isZero tx.signature.toList then tx.signature.toList else []
  publicKey := pubkey.toList

/-- `SUBMIT_BATCH_PB_PREFIX`: "SUBMIT_BATCH_PB:" -/
def submitBatchPbPrefix : Bytes :=
  [83, 85, 66, 77, 73, 84, 95, 66, 65, 84, 67, 72, 95, 80, 66, 58]

/-- The batch the generator packs. -/
def generatorBatch (rawTxs : List Transaction) (pubkey : PublicKey) : PbBatch :=
  ⟨rawTxs.map fun tx => generatorPb tx pubkey, UInt32.ofNat rawTxs.length⟩

/-- The message the generator sends for a batch. -/
def batchMessage (rawTxs : List Transaction) (pubkey : PublicKey) : Bytes :=
  submitBatchPbPrefix ++ PbBatch.message.pack (generatorBatch rawTxs pubkey)

/-- `transaction_serialize_pb`: no public key. -/
def transactionSerializePb (tx : Transaction) : Bytes :=
  PbTransaction.message.pack
    { nonce := tx.nonce
      expiryBlock := tx.expiryBlock
      sourceAddress := tx.sourceAddress.toList
      destAddress := tx.destAddress.toList
      value := tx.value
      fee := tx.fee
      signature := if !isZero tx.signature.toList then tx.signature.toList else []
      publicKey := [] }

/-! ## Decoders -/

/-- Copy `n` bytes out of a field that has that many, else keep the zeros. -/
def copyField (n : Nat) (data : Bytes) : Vector UInt8 n :=
  if data.length ≥ n then Codec.takeVec n data else zeros n

/-- `pb_to_tx`: a short signature is copied as far as it goes. -/
def pbToTx (pt : PbTransaction) : Transaction where
  nonce := pt.nonce
  expiryBlock := pt.expiryBlock
  sourceAddress := copyField 20 pt.sourceAddress
  destAddress := copyField 20 pt.destAddress
  value := pt.value
  fee := pt.fee
  signature :=
    if pt.signature.length ≥ 64 then Codec.takeVec 64 pt.signature
    else if pt.signature.length > 0 then Codec.takeVec 64 pt.signature
    else zeros 64

/-- The public key the receiver copies out of a message. -/
def pubkeyOf (pt : PbTransaction) : PublicKey := copyField 32 pt.publicKey

/-- `transaction_deserialize_pb`: `none` is the null pointer. -/
def transactionDeserializePb (data : Bytes) : Option Transaction :=
  if data.length = 0 then none
  else
    match PbTransaction.message.unpack data with
    | none => none
    | some pt => some
        { nonce := pt.nonce
          expiryBlock := pt.expiryBlock
          sourceAddress := copyField 20 pt.sourceAddress
          destAddress := copyField 20 pt.destAddress
          value := pt.value
          fee := pt.fee
          signature := copyField 64 pt.signature }

/-- `RECV_BUF_SIZE` -/
def recvBufSize : Nat := 2 * 1024 * 1024

/-- What the receiver makes of a message. -/
inductive Incoming where
  | unknown
  | batch (b : Option PbBatch)

/-- The receive site of the receiver: `zmq_recv` stores what fits and returns the
full length, which then goes to the unpacker. -/
def parseMessage (msg : Bytes) : Except Fault Incoming :=
  let size := msg.length
  let buf := msg.take (recvBufSize - 1)
  if size > 16 ∧ buf.take 16 = submitBatchPbPrefix then
    -- `size - 16` bytes behind the prefix are parsed
    if size ≤ buf.length then .ok (.batch (PbBatch.message.unpack (buf.drop 16)))
    else .error .overread
  else .ok .unknown

/-! ## Round trips of the messages -/

theorem message_fields_valid {m : PbTransaction} (hsource : m.sourceAddress.length < 2 ^ 31)
    (hdest : m.destAddress.length < 2 ^ 31) (hsig : m.signature.length < 2 ^ 31)
    (hkey : m.publicKey.length < 2 ^ 31) :
    ∀ f ∈ PbTransaction.message.fields m, f.Valid := by
  have h32 : ∀ x : UInt32, x.toNat < 2 ^ 64 := fun x => Nat.lt_trans x.toNat_lt (by decide)
  intro f hf
  simp only [PbTransaction.message, List.mem_append] at hf
  rcases hf with ((((((hf | hf) | hf) | hf) | hf) | hf) | hf) | hf
  · exact Proto3.scalar_valid (by decide) m.nonce.toNat_lt f hf
  · exact Proto3.scalar_valid (by decide) (h32 _) f hf
  · exact Proto3.bytes_valid (by decide) hsource f hf
  · exact Proto3.bytes_valid (by decide) hdest f hf
  · exact Proto3.scalar_valid (by decide) m.value.toNat_lt f hf
  · exact Proto3.scalar_valid (by decide) (h32 _) f hf
  · exact Proto3.bytes_valid (by decide) hsig f hf
  · exact Proto3.bytes_valid (by decide) hkey f hf

/-- The message with its first `k` fields filled in. -/
def PbTransaction.filled (m : PbTransaction) (k : Nat) : PbTransaction where
  nonce := if 1 ≤ k then m.nonce else 0
  expiryBlock := if 2 ≤ k then m.expiryBlock else 0
  sourceAddress := if 3 ≤ k then m.sourceAddress else []
  destAddress := if 4 ≤ k then m.destAddress else []
  value := if 5 ≤ k then m.value else 0
  fee := if 6 ≤ k then m.fee else 0
  signature := if 7 ≤ k then m.signature else []
  publicKey := if 8 ≤ k then m.publicKey else []

theorem message_rebuilds (m : PbTransaction) :
    (PbTransaction.message.fields m).foldlM PbTransaction.message.merge
      PbTransaction.message.init = some m := by
  have h64 : ∀ x : UInt64, x.toNat = 0 → x = 0 := fun x h => UInt64.toNat_inj.mp h
  have h32 : ∀ x : UInt32, x.toNat = 0 → x = 0 := fun x h => UInt32.toNat_inj.mp h
  -- one field after the other
  have h1 : (scalar 1 m.nonce.toNat).foldlM PbTransaction.merge (m.filled 0) =
      some (m.filled 1) :=
    Proto3.foldlM_scalar (fun h => by simp [PbTransaction.filled, h64 _ h])
      (by simp [PbTransaction.merge, PbTransaction.filled])
  have h2 : (scalar 2 m.expiryBlock.toNat).foldlM PbTransaction.merge (m.filled 1) =
      some (m.filled 2) :=
    Proto3.foldlM_scalar (fun h => by simp [PbTransaction.filled, h32 _ h])
      (by simp [PbTransaction.merge, PbTransaction.filled])
  have h3 : (Proto3.bytes 3 m.sourceAddress).foldlM PbTransaction.merge (m.filled 2) =
      some (m.filled 3) :=
    Proto3.foldlM_bytes (fun h => by simp [PbTransaction.filled, h]) rfl
  have h4 : (Proto3.bytes 4 m.destAddress).foldlM PbTransaction.merge (m.filled 3) =
      some (m.filled 4) :=
    Proto3.foldlM_bytes (fun h => by simp [PbTransaction.filled, h]) rfl
  have h5 : (scalar 5 m.value.toNat).foldlM PbTransaction.merge (m.filled 4) =
      some (m.filled 5) :=
    Proto3.foldlM_scalar (fun h => by simp [PbTransaction.filled, h64 _ h])
      (by simp [PbTransaction.merge, PbTransaction.filled])
  have h6 : (scalar 6 m.fee.toNat).foldlM PbTransaction.merge (m.filled 5) =
      some (m.filled 6) :=
    Proto3.foldlM_scalar (fun h => by simp [PbTransaction.filled, h32 _ h])
      (by simp [PbTransaction.merge, PbTransaction.filled])
  have h7 : (Proto3.bytes 7 m.signature).foldlM PbTransaction.merge (m.filled 6) =
      some (m.filled 7) :=
    Proto3.foldlM_bytes (fun h => by simp [PbTransaction.filled, h]) rfl
  have h8 : (Proto3.bytes 8 m.publicKey).foldlM PbTransaction.merge (m.filled 7) =
      some (m.filled 8) :=
    Proto3.foldlM_bytes (fun h => by simp [PbTransaction.filled, h]) rfl
  show List.foldlM PbTransaction.merge (m.filled 0) _ = some (m.filled 8)
  simp only [PbTransaction.message, List.foldlM_append, h1, h2, h3, h4, h5, h6, h7, h8,
    Option.bind_eq_bind, Option.bind_some]

/-- A transaction message survives packing and unpacking. -/
theorem unpack_pack_message {m : PbTransaction} (hsource : m.sourceAddress.length < 2 ^ 31)
    (hdest : m.destAddress.length < 2 ^ 31) (hsig : m.signature.length < 2 ^ 31)
    (hkey : m.publicKey.length < 2 ^ 31) :
    PbTransaction.message.unpack (PbTransaction.message.pack m) = some m :=
  Message.unpack_pack _ _ (message_fields_valid hsource hdest hsig hkey) (message_rebuilds m)

theorem message_pack_length_le (m : PbTransaction) :
    (PbTransaction.message.pack m).length ≤
      100 + m.sourceAddress.length + m.destAddress.length + m.signature.length +
        m.publicKey.length := by
  have h1 := Proto3.scalar_length_le 1 m.nonce.toNat
  have h2 := Proto3.scalar_length_le 2 m.expiryBlock.toNat
  have h3 := Proto3.bytes_length_le 3 m.sourceAddress
  have h4 := Proto3.bytes_length_le 4 m.destAddress
  have h5 := Proto3.scalar_length_le 5 m.value.toNat
  have h6 := Proto3.scalar_length_le 6 m.fee.toNat
  have h7 := Proto3.bytes_length_le 7 m.signature
  have h8 := Proto3.bytes_length_le 8 m.publicKey
  simp only [Message.pack, PbTransaction.message, List.flatMap_append, List.length_append]
  omega

/-- The transactions of a batch that unpack one by one unpack together. -/
theorem batch_rebuilds (ts acc : List PbTransaction)
    (h : ∀ t ∈ ts, PbTransaction.message.unpack (PbTransaction.message.pack t) = some t) :
    (ts.map fun t => (⟨1, .len (PbTransaction.message.pack t)⟩ : Field)).foldlM PbBatch.merge
      ⟨acc, 0⟩ = some ⟨acc ++ ts, 0⟩ := by
  induction ts generalizing acc with
  | nil => simp
  | cons t ts ih =>
      have ht := h t List.mem_cons_self
      have hts := ih (acc ++ [t]) fun u hu => h u (List.mem_cons_of_mem _ hu)
      have hstep : PbBatch.merge ⟨acc, 0⟩ ⟨1, .len (PbTransaction.message.pack t)⟩ =
          some ⟨acc ++ [t], 0⟩ := by
        simp [PbBatch.merge, ht]
      rw [List.map_cons, List.foldlM_cons, hstep]
      simpa using hts

theorem unpack_pack_batch {b : PbBatch}
    (hfit : ∀ t ∈ b.transactions, (PbTransaction.message.pack t).length < 2 ^ 31)
    (h : ∀ t ∈ b.transactions,
      PbTransaction.message.unpack (PbTransaction.message.pack t) = some t) :
    PbBatch.message.unpack (PbBatch.message.pack b) = some b := by
  apply Message.unpack_pack
  · intro f hf
    simp only [PbBatch.message, List.mem_append, List.mem_map] at hf
    rcases hf with ⟨t, ht, rfl⟩ | hf
    · exact ⟨Nat.one_pos, show 1 < 2 ^ 29 by decide, hfit t ht⟩
    · exact Proto3.scalar_valid (by decide) (Nat.lt_trans b.count.toNat_lt (by decide)) f hf
  · have hcount : (scalar 2 b.count.toNat).foldlM PbBatch.merge ⟨b.transactions, 0⟩ = some b :=
      Proto3.foldlM_scalar
        (fun hz => by
          have hzero : b.count = 0 := UInt32.toNat_inj.mp hz
          rw [← hzero])
        (by simp [PbBatch.merge])
    show List.foldlM PbBatch.merge ⟨[], 0⟩ _ = some b
    simp only [PbBatch.message, List.foldlM_append, batch_rebuilds _ _ h, List.nil_append,
      Option.bind_eq_bind, Option.bind_some, hcount]

/-! ## Round trips of the transactions -/

theorem copyField_toList {n : Nat} (v : Vector UInt8 n) : copyField n v.toList = v := by
  rw [copyField, if_pos (by simp), Codec.takeVec_toList]

/-- An omitted signature and a copied one both come back. -/
theorem signature_copied (sig : Signature) :
    let field := if !isZero sig.toList then sig.toList else []
    copyField 64 field = sig ∧
      (if field.length ≥ 64 then Codec.takeVec 64 field
        else if field.length > 0 then Codec.takeVec 64 field else zeros 64) = sig := by
  cases hzero : isZero sig.toList with
  | true =>
      have heq := eq_zeros_of_isZero hzero
      exact ⟨heq.symm, heq.symm⟩
  | false =>
      have hlen : sig.toList.length ≥ 64 := by simp
      refine ⟨copyField_toList sig, ?_⟩
      show (if sig.toList.length ≥ 64 then Codec.takeVec 64 sig.toList else _) = sig
      rw [if_pos hlen, Codec.takeVec_toList]

theorem pbToTx_generatorPb (tx : Transaction) (pubkey : PublicKey) :
    pbToTx (generatorPb tx pubkey) = tx := by
  have hsig := (signature_copied tx.signature).2
  cases tx
  simp only [pbToTx, generatorPb, copyField_toList] at hsig ⊢
  rw [hsig]

theorem pubkeyOf_generatorPb (tx : Transaction) (pubkey : PublicKey) :
    pubkeyOf (generatorPb tx pubkey) = pubkey := copyField_toList pubkey

/-- A field holding an omitted or a copied signature is at most 64 bytes long. -/
theorem signature_field_length_le (sig : Signature) :
    (if !isZero sig.toList then sig.toList else []).length ≤ 64 := by
  split <;> simp

theorem generatorPb_pack_length_le (tx : Transaction) (pubkey : PublicKey) :
    (PbTransaction.message.pack (generatorPb tx pubkey)).length ≤ 236 := by
  have hpack := message_pack_length_le (generatorPb tx pubkey)
  have hsig := signature_field_length_le tx.signature
  simp only [generatorPb, Vector.length_toList] at hpack hsig ⊢
  omega

theorem unpack_generatorPb (tx : Transaction) (pubkey : PublicKey) :
    PbTransaction.message.unpack (PbTransaction.message.pack (generatorPb tx pubkey)) =
      some (generatorPb tx pubkey) := by
  have hsig := signature_field_length_le tx.signature
  apply unpack_pack_message
  · simp [generatorPb]
  · simp [generatorPb]
  · exact Nat.lt_of_le_of_lt hsig (by decide)
  · simp [generatorPb]

/-- Up to 256 transactions fit the receive buffer with room to spare. -/
theorem batchMessage_length_le {rawTxs : List Transaction} (pubkey : PublicKey)
    (h : rawTxs.length ≤ 256) : (batchMessage rawTxs pubkey).length ≤ recvBufSize - 1 := by
  have hfields : ∀ txs : List Transaction,
      ((txs.map fun tx =>
        (⟨1, .len (PbTransaction.message.pack (generatorPb tx pubkey))⟩ : Field)).flatMap
          Field.enc).length ≤ 246 * txs.length := by
    intro txs
    induction txs with
    | nil => simp
    | cons tx txs ih =>
        have hpack := generatorPb_pack_length_le tx pubkey
        have htag := Proto3.putVarint_length_le 5 (1 * 8 + 2)
        have hlen := Proto3.putVarint_length_le 5
          (PbTransaction.message.pack (generatorPb tx pubkey)).length
        simp only [List.map_cons, List.flatMap_cons, List.length_append, Field.enc,
          Proto3.Payload.enc, Proto3.Payload.wireType, List.length_cons] at ih ⊢
        omega
  have hcount := Proto3.scalar_length_le 2 (UInt32.ofNat rawTxs.length).toNat
  have htxs := hfields rawTxs
  simp only [batchMessage, generatorBatch, Message.pack, PbBatch.message, List.map_map, List.flatMap_append,
    List.length_append, submitBatchPbPrefix, List.length_cons, List.length_nil, recvBufSize,
    Function.comp_def] at htxs hcount ⊢
  omega

/-- What the receiver makes of a generator's message. -/
theorem parseMessage_batchMessage {rawTxs : List Transaction} (pubkey : PublicKey)
    (hne : 1 ≤ rawTxs.length) (hle : rawTxs.length ≤ 256) :
    parseMessage (batchMessage rawTxs pubkey) =
      .ok (.batch (some (generatorBatch rawTxs pubkey))) := by
  have hfit := batchMessage_length_le pubkey hle
  have hprefix : submitBatchPbPrefix.length = 16 := rfl
  -- at least one field follows the prefix
  have hpos : 0 < (PbBatch.message.pack (generatorBatch rawTxs pubkey)).length := by
    have hfields := Proto3.length_le_flatMap_enc
      (PbBatch.message.fields (generatorBatch rawTxs pubkey))
    simp only [PbBatch.message, generatorBatch, List.length_append, List.length_map] at hfields
    show 0 < (List.flatMap Field.enc _).length
    simp only [PbBatch.message, generatorBatch]
    omega
  have hmsg : batchMessage rawTxs pubkey =
      submitBatchPbPrefix ++ PbBatch.message.pack (generatorBatch rawTxs pubkey) := rfl
  have hunpack : PbBatch.message.unpack (PbBatch.message.pack (generatorBatch rawTxs pubkey)) =
      some (generatorBatch rawTxs pubkey) := by
    apply unpack_pack_batch
    · intro t ht
      rcases List.mem_map.mp ht with ⟨tx, -, rfl⟩
      exact Nat.lt_of_le_of_lt (generatorPb_pack_length_le tx pubkey) (by decide)
    · intro t ht
      rcases List.mem_map.mp ht with ⟨tx, -, rfl⟩
      exact unpack_generatorPb tx pubkey
  have hlen : (batchMessage rawTxs pubkey).length > 16 := by
    rw [hmsg, List.length_append, hprefix]
    omega
  have hhead : (batchMessage rawTxs pubkey).take 16 = submitBatchPbPrefix :=
    List.take_left' hprefix
  have htail : (batchMessage rawTxs pubkey).drop 16 =
      PbBatch.message.pack (generatorBatch rawTxs pubkey) := List.drop_left' hprefix
  unfold parseMessage
  rw [List.take_of_length_le hfit]
  simp only [if_pos (le_refl _)]
  rw [hhead, htail, hunpack, if_pos ⟨hlen, rfl⟩]

/-- `transaction_deserialize_pb` undoes `transaction_serialize_pb`. -/
theorem deserialize_serialize (tx : Transaction) :
    transactionDeserializePb (transactionSerializePb tx) = some tx := by
  have hsig := signature_field_length_le tx.signature
  have hunpack : PbTransaction.message.unpack (transactionSerializePb tx) = some _ :=
    unpack_pack_message (by simp) (by simp) (Nat.lt_of_le_of_lt hsig (by decide)) (by simp)
  -- the source address is always written, so the message is not empty
  have hne : (transactionSerializePb tx).length ≠ 0 := by
    have hfields := Proto3.length_le_flatMap_enc (PbTransaction.message.fields
      ⟨tx.nonce, tx.expiryBlock, tx.sourceAddress.toList, tx.destAddress.toList, tx.value, tx.fee,
        if !isZero tx.signature.toList then tx.signature.toList else [], []⟩)
    have hsource : tx.sourceAddress.toList ≠ [] := by
      intro h
      have hlen := congrArg List.length h
      simp at hlen
    have hone : (Proto3.bytes 3 tx.sourceAddress.toList).length = 1 := by
      simp [Proto3.bytes, hsource]
    simp only [PbTransaction.message, List.length_append, hone] at hfields
    show (List.flatMap Field.enc _).length ≠ 0
    simp only [PbTransaction.message]
    omega
  have hcopied := (signature_copied tx.signature).1
  rw [transactionDeserializePb, if_neg hne, hunpack]
  cases tx
  simp only [copyField_toList] at hcopied ⊢
  rw [hcopied]

/-- Both encoders are undone by their decoders: a batch of the generator reaches
the receiver transaction by transaction, with its key, and a serialized
transaction deserializes to itself. -/
theorem wire_round_trip (pubkey : PublicKey) (rawTxs : List Transaction)
    (hne : 1 ≤ rawTxs.length) (hle : rawTxs.length ≤ 256) :
    (∃ b, parseMessage (batchMessage rawTxs pubkey) = .ok (.batch (some b)) ∧
      b.transactions.map (fun pt => (pbToTx pt, pubkeyOf pt)) =
        rawTxs.map fun tx => (tx, pubkey)) ∧
    ∀ tx : Transaction, transactionDeserializePb (transactionSerializePb tx) = some tx := by
  refine ⟨⟨_, parseMessage_batchMessage pubkey hne hle, ?_⟩, deserialize_serialize⟩
  rw [generatorBatch, List.map_map]
  apply List.map_congr_left
  intro tx _
  show (pbToTx (generatorPb tx pubkey), pubkeyOf (generatorPb tx pubkey)) = (tx, pubkey)
  rw [pbToTx_generatorPb, pubkeyOf_generatorPb]

/-- The largest nonce, zero scalars, zero addresses and no signature. -/
theorem wire_round_trip_edge :
    ∃ b, parseMessage (batchMessage
        [⟨18446744073709551615, 0, zeros 20, zeros 20, 0, 0, zeros 64⟩] (zeros 32)) =
          .ok (.batch (some b)) ∧
      b.transactions.map (fun pt => (pbToTx pt, pubkeyOf pt)) =
        [(⟨18446744073709551615, 0, zeros 20, zeros 20, 0, 0, zeros 64⟩, zeros 32)] :=
  (wire_round_trip (zeros 32)
    [⟨18446744073709551615, 0, zeros 20, zeros 20, 0, 0, zeros 64⟩] (by decide) (by decide)).1

/-! ## Signatures as they come in

A client may leave the signature out, cut it short or fill it with zeros. -/

/-- A field that is copied as far as it goes comes out as zeros only if what is copied is. -/
theorem takeVec_eq_zeros_iff {n : Nat} {data : Bytes} :
    Codec.takeVec n data = zeros n ↔ isZero (data.take n) = true := by
  have hbytes := Codec.toList_takeVec (List.length_take_le n data)
  rw [Codec.takeVec_take] at hbytes
  rw [isZero_iff]
  constructor
  · intro hzeros b hb
    rw [hzeros, zeros, Vector.toList_replicate] at hbytes
    have hmem : b ∈ List.replicate n (0 : UInt8) := hbytes ▸ List.mem_append_left _ hb
    exact List.eq_of_mem_replicate hmem
  · intro hall
    apply eq_zeros_of_isZero
    rw [isZero_iff, hbytes]
    intro b hb
    rcases List.mem_append.mp hb with hb | hb
    · exact hall b hb
    · exact List.eq_of_mem_replicate hb

/-- Of the signature as many of its first 64 bytes are copied as there are. -/
theorem pbToTx_signature (pt : PbTransaction) :
    (pbToTx pt).signature = Codec.takeVec 64 pt.signature := by
  have hnone : pt.signature = [] → zeros 64 = Codec.takeVec 64 pt.signature := by
    intro hempty
    rw [hempty]
    exact (takeVec_eq_zeros_iff.mpr rfl).symm
  rw [pbToTx]
  show (if _ then _ else _) = _
  split
  · rfl
  split
  · rfl
  · apply hnone
    apply List.eq_nil_of_length_eq_zero
    omega

/-! ## The two decoders

They read all fields alike but the signature: `transaction_deserialize_pb` has no case
for a short one. -/

/-- Where the two decoders read the same signature. -/
theorem signature_agrees_iff (sig : Bytes) :
    copyField 64 sig =
        (if sig.length ≥ 64 then Codec.takeVec 64 sig
          else if sig.length > 0 then Codec.takeVec 64 sig else zeros 64) ↔
      sig.length = 0 ∨ 64 ≤ sig.length ∨ isZero sig = true := by
  rw [copyField]
  by_cases hfull : sig.length ≥ 64
  · rw [if_pos hfull, if_pos hfull]
    exact ⟨fun _ => Or.inr (Or.inl hfull), fun _ => rfl⟩
  · rw [if_neg hfull, if_neg hfull]
    by_cases hsome : sig.length > 0
    · -- a short signature: copied by one, left zero by the other
      rw [if_pos hsome, eq_comm, takeVec_eq_zeros_iff, List.take_of_length_le (by omega)]
      constructor
      · intro hzero
        exact Or.inr (Or.inr hzero)
      · rintro (hempty | hlong | hzero)
        · omega
        · omega
        · exact hzero
    · rw [if_neg hsome]
      exact ⟨fun _ => Or.inl (by omega), fun _ => rfl⟩

/-- What `transaction_deserialize_pb` returns, beside `pb_to_tx`. -/
theorem transactionDeserializePb_eq {data : Bytes} {pt : PbTransaction} (hne : data ≠ [])
    (hunpack : PbTransaction.message.unpack data = some pt) :
    transactionDeserializePb data =
      some { pbToTx pt with signature := copyField 64 pt.signature } := by
  have hlen : data.length ≠ 0 := fun h => hne (List.length_eq_zero_iff.mp h)
  rw [transactionDeserializePb, if_neg hlen, hunpack]
  rfl

/-- The two decoders give the same 128 bytes exactly when the signature field is empty,
has at least 64 bytes, or is all zeros. -/
theorem decoders_agree_iff {data : Bytes} {pt : PbTransaction} (hne : data ≠ [])
    (hunpack : PbTransaction.message.unpack data = some pt) :
    (transactionDeserializePb data).map Transaction.codec.enc =
        some (Transaction.codec.enc (pbToTx pt)) ↔
      pt.signature.length = 0 ∨ 64 ≤ pt.signature.length ∨ isZero pt.signature = true := by
  rw [transactionDeserializePb_eq hne hunpack, Option.map_some, ← signature_agrees_iff]
  constructor
  · intro h
    have htx := Transaction.codec.enc_injective (Option.some.inj h)
    exact congrArg Transaction.signature htx
  · intro h
    rw [h]
    rfl

/-- A message with a nonce alone. -/
theorem decoders_agree_iff_nonce :
    (transactionDeserializePb [8, 1]).map Transaction.codec.enc =
        some (Transaction.codec.enc (pbToTx ⟨1, 0, [], [], 0, 0, [], []⟩)) ↔
      ([] : Bytes).length = 0 ∨ 64 ≤ ([] : Bytes).length ∨ isZero [] = true :=
  decoders_agree_iff (by decide) (by decide)

/-- A message with a signature of one byte, and with nothing else. -/
theorem short_signature_disagrees :
    ¬ ∀ (data : Bytes) (pt : PbTransaction), data ≠ [] →
      PbTransaction.message.unpack data = some pt →
      (transactionDeserializePb data).map Transaction.codec.enc =
        some (Transaction.codec.enc (pbToTx pt)) := by
  intro h
  have hunpack : PbTransaction.message.unpack [58, 1, 7] =
      some ⟨0, 0, [], [], 0, 0, [7], []⟩ := by decide
  have hagree := h [58, 1, 7] _ (by decide) hunpack
  rw [transactionDeserializePb_eq (by decide) hunpack, Option.map_some] at hagree
  have htx := Transaction.codec.enc_injective (Option.some.inj hagree)
  have hsig := (signature_agrees_iff [7]).mp (congrArg Transaction.signature htx)
  revert hsig
  decide

end Sharding
