import Sharding.Crypto

/-! # Transactions

The 128-byte transaction of `transaction.h`, its hash, and the two checks of
`transaction.c`: `transaction_verify`, which only asks for a non-zero signature,
and `transaction_verify_ed25519`, which binds a public key to the sender and
verifies the signature over the hash. Both let the coinbase address pass.
-/

namespace Sharding

/-- `Transaction` -/
structure Transaction where
  nonce : UInt64
  expiryBlock : UInt32
  sourceAddress : Address
  destAddress : Address
  value : UInt64
  fee : UInt32
  signature : Signature
deriving DecidableEq

namespace Transaction

/-- The packed layout of the structure. -/
def codec : Codec Transaction :=
  (Codec.u64.seq (Codec.u32.seq ((Codec.bytes 20).seq ((Codec.bytes 20).seq
    (Codec.u64.seq (Codec.u32.seq (Codec.bytes 64))))))).map
    (fun (n, e, s, d, v, f, g) => ⟨n, e, s, d, v, f, g⟩)
    (fun tx => (tx.nonce, tx.expiryBlock, tx.sourceAddress, tx.destAddress, tx.value,
      tx.fee, tx.signature))
    (fun _ => rfl)

/-- `sizeof(Transaction) == 128` -/
theorem codec_size : codec.size = 128 := rfl

end Transaction

/-- `COINBASE_ADDRESS`: "COINBASE" and twelve zero bytes. -/
def coinbaseAddress : Address :=
  #v[67, 79, 73, 78, 66, 65, 83, 69, 0, 0, 0, 0, 0, 0, 0, 0, 0, 0, 0, 0]

/-- `TX_IS_COINBASE` -/
def txIsCoinbase (tx : Transaction) : Bool := tx.sourceAddress == coinbaseAddress

/-! ## The hash -/

/-- The 64-byte buffer `transaction_compute_hash` fills: every field but the signature. -/
def hashBuffer (tx : Transaction) : Bytes :=
  Codec.u64.enc tx.nonce ++ (Codec.u32.enc tx.expiryBlock ++ ((Codec.bytes 20).enc tx.sourceAddress ++
    ((Codec.bytes 20).enc tx.destAddress ++ (Codec.u64.enc tx.value ++ Codec.u32.enc tx.fee))))

/-- `transaction_compute_hash` -/
def transactionComputeHash (crypto : Crypto) (tx : Transaction) : TxHash :=
  crypto.blake3HashTruncated (hashBuffer tx) 28

/-- The fields a transaction hash covers. -/
structure SameContent (a b : Transaction) : Prop where
  nonce : a.nonce = b.nonce
  expiryBlock : a.expiryBlock = b.expiryBlock
  sourceAddress : a.sourceAddress = b.sourceAddress
  destAddress : a.destAddress = b.destAddress
  value : a.value = b.value
  fee : a.fee = b.fee

/-- The buffer determines the fields: every field has a fixed width. -/
theorem sameContent_of_hashBuffer {a b : Transaction} (h : hashBuffer a = hashBuffer b) :
    SameContent a b := by
  rcases Codec.enc_append_inj _ h with ⟨hnonce, h⟩
  rcases Codec.enc_append_inj _ h with ⟨hexpiry, h⟩
  rcases Codec.enc_append_inj _ h with ⟨hsource, h⟩
  rcases Codec.enc_append_inj _ h with ⟨hdest, h⟩
  rcases Codec.enc_append_inj _ h with ⟨hvalue, h⟩
  exact ⟨hnonce, hexpiry, hsource, hdest, hvalue, Codec.enc_injective _ h⟩

/-! ## The checks -/

/-- `pubkey_to_address` -/
def pubkeyToAddress (crypto : Crypto) (pubkey : PublicKey) : Address :=
  Codec.takeVec 20 (crypto.blake3Hash pubkey.toList).toList

/-- `wallet_verify` -/
def walletVerify (crypto : Crypto) (pubkey : PublicKey) (message : Bytes) (sig : Signature) : Bool :=
  crypto.ed25519Verify pubkey message sig

/-- `transaction_verify` -/
def transactionVerify (tx : Transaction) : Bool :=
  if txIsCoinbase tx then true else !isZero tx.signature.toList

/-- `transaction_verify_ed25519` -/
def transactionVerifyEd25519 (crypto : Crypto) (tx : Transaction) (pubkey : PublicKey) : Bool :=
  if txIsCoinbase tx then true
  else if isZero pubkey.toList || isZero tx.signature.toList then false
  else if pubkeyToAddress crypto pubkey != tx.sourceAddress then false
  else walletVerify crypto pubkey (transactionComputeHash crypto tx).toList tx.signature

/-- The check the receiver and the workers make: the full one when a public key
came along, the basic one when it is all zeros. -/
def checkTx (crypto : Crypto) (tx : Transaction) (pubkey : PublicKey) : Bool :=
  if !isZero pubkey.toList then transactionVerifyEd25519 crypto tx pubkey else transactionVerify tx

/-- The signature of `tx` is accepted under `pubkey`, and `pubkey` belongs to the sender. -/
structure SignedBySender (crypto : Crypto) (tx : Transaction) (pubkey : PublicKey) : Prop where
  address : pubkeyToAddress crypto pubkey = tx.sourceAddress
  verified : walletVerify crypto pubkey (transactionComputeHash crypto tx).toList tx.signature = true

/-- What the full check establishes about a transaction that is no coinbase. -/
theorem signedBySender_of_verify {crypto : Crypto} {tx : Transaction} {pubkey : PublicKey}
    (hcb : txIsCoinbase tx = false) (h : transactionVerifyEd25519 crypto tx pubkey = true) :
    SignedBySender crypto tx pubkey := by
  rw [transactionVerifyEd25519, hcb, if_neg Bool.false_ne_true] at h
  split at h
  · cases h
  split at h
  · cases h
  · rename_i haddr
    exact ⟨by simpa using haddr, h⟩

/-- What a passed check means: coinbase, or no key and some signature, or a
signature by the sender. -/
theorem checkTx_cases {crypto : Crypto} {tx : Transaction} {pubkey : PublicKey}
    (h : checkTx crypto tx pubkey = true) :
    txIsCoinbase tx = true ∨
      (isZero pubkey.toList = true ∧ isZero tx.signature.toList = false) ∨
      SignedBySender crypto tx pubkey := by
  cases hcb : txIsCoinbase tx with
  | true => exact Or.inl rfl
  | false =>
      right
      -- which of the two checks was made
      cases hkey : isZero pubkey.toList with
      | true =>
          left
          refine ⟨rfl, ?_⟩
          simpa [checkTx, hkey, transactionVerify, hcb] using h
      | false =>
          right
          have hfull : transactionVerifyEd25519 crypto tx pubkey = true := by
            simpa [checkTx, hkey] using h
          exact signedBySender_of_verify hcb hfull

end Sharding
