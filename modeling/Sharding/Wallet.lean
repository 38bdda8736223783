import Sharding.Transaction

/-! # Wallets and signing

What creating a transaction takes from a wallet: its address, its public key and,
if it has one, its signing key; and how the two constructors come by them.
-/

namespace Sharding

/-- `Wallet` -/
structure Wallet where
  address : Address
  publicKey : PublicKey
  evpKey : Option EvpKey

/-- `wallet_sign`: the signature, `none` when there is no key or signing fails. -/
def walletSign (crypto : Crypto) (wallet : Wallet) (message : Bytes) : Option Signature :=
  match wallet.evpKey with
  | some key => crypto.ed25519Sign key message
  | none => none

/-- `transaction_sign`: a signature that could not be made stays as it was with a
key, and is cleared without one. -/
def transactionSign (crypto : Crypto) (tx : Transaction) (wallet : Wallet) : Transaction × Bool :=
  match wallet.evpKey with
  | some _ =>
      match walletSign crypto wallet (transactionComputeHash crypto tx).toList with
      | some sig => ({ tx with signature := sig }, true)
      | none => (tx, false)
  | none => ({ tx with signature := zeros 64 }, false)

/-- `transaction_create`: the verdict of the signing is not used. -/
def transactionCreate (crypto : Crypto) (wallet : Wallet) (destAddress : Address) (value : UInt64)
    (fee : UInt32) (nonce : UInt64) (expiryBlock : UInt32) : Transaction :=
  let tx : Transaction := ⟨nonce, expiryBlock, wallet.address, destAddress, value, fee, zeros 64⟩
  (transactionSign crypto tx wallet).1

/-! ## Creation -/

/-- Ed25519 keys of OpenSSL: the handle of a raw private key and the raw public key of
a handle. Both may fail. -/
structure KeyApi where
  newRawPrivateKey : Digest → Option EvpKey
  getRawPublicKey : EvpKey → Option PublicKey

/-- `wallet_derive_address` -/
def walletDeriveAddress (crypto : Crypto) (pubkey : PublicKey) : Address :=
  Codec.takeVec 20 (crypto.blake3Hash pubkey.toList).toList

/-- What both constructors make of the handle they got; `none` is the null pointer. -/
def walletOfKey (crypto : Crypto) (keys : KeyApi) : Option EvpKey → Option Wallet
  | none => none
  | some evpKey =>
      match keys.getRawPublicKey evpKey with
      | none => none
      | some publicKey => some ⟨walletDeriveAddress crypto publicKey, publicKey, some evpKey⟩

/-- `wallet_create`; `generated` is what `EVP_PKEY_keygen` gave. -/
def walletCreate (crypto : Crypto) (keys : KeyApi) (generated : Option EvpKey) : Option Wallet :=
  walletOfKey crypto keys generated

/-- `wallet_create_named`: the seed is the hash of the name. -/
def walletCreateNamed (crypto : Crypto) (keys : KeyApi) (name : Bytes) : Option Wallet :=
  walletOfKey crypto keys (keys.newRawPrivateKey (crypto.blake3Hash name))

/-! ## What signing leaves alone -/

/-- Signing changes the signature only. -/
theorem transactionSign_sameContent (crypto : Crypto) (tx : Transaction) (wallet : Wallet) :
    SameContent (transactionSign crypto tx wallet).1 tx := by
  unfold transactionSign
  cases wallet.evpKey with
  | none => exact ⟨rfl, rfl, rfl, rfl, rfl, rfl⟩
  | some key =>
      cases walletSign crypto wallet (transactionComputeHash crypto tx).toList with
      | none => exact ⟨rfl, rfl, rfl, rfl, rfl, rfl⟩
      | some sig => exact ⟨rfl, rfl, rfl, rfl, rfl, rfl⟩

@[simp] theorem transactionCreate_nonce (crypto : Crypto) (wallet : Wallet) (destAddress : Address)
    (value : UInt64) (fee : UInt32) (nonce : UInt64) (expiryBlock : UInt32) :
    (transactionCreate crypto wallet destAddress value fee nonce expiryBlock).nonce = nonce :=
  (transactionSign_sameContent crypto _ wallet).nonce

end Sharding
