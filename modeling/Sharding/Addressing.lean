import Sharding.Hex
import Sharding.WalletRoundTrip

/-! # Names and addresses

The recipient of a payment is given as an address in hex or as the name of a wallet,
and a name is resolved by deriving the key of its wallet again. What looks like an
address is never taken for a name, so a wallet with such a name is only found by its
address.
-/

namespace Sharding

open CText

/-- `wallet_name_to_address`: without a key the address is cut out of the seed. -/
def walletNameToAddress (crypto : Crypto) (keys : KeyApi) (name : Bytes) : Address :=
  let seed := crypto.blake3Hash name
  match keys.newRawPrivateKey seed with
  | none => Codec.takeVec 20 seed.toList
  | some pkey =>
      match keys.getRawPublicKey pkey with
      | none => Codec.takeVec 20 seed.toList
      | some pubkey => walletDeriveAddress crypto pubkey

/-- `wallet_parse_address` -/
def walletParseAddress (crypto : Crypto) (keys : KeyApi) (str : Bytes) (address : Address) :
    Bool × Address :=
  if walletIsHexAddress str then hexToAddress str address
  else (true, walletNameToAddress crypto keys str)

/-- The address of the wallet that would be created under this name. -/
theorem walletNameToAddress_named {crypto : Crypto} {keys : KeyApi} {pem : PemApi} {name : CString}
    {w : WalletRecord} (h : walletCreateNamedRecord crypto keys pem name = some w) :
    walletNameToAddress crypto keys name.val = w.address := by
  unfold walletCreateNamedRecord at h
  unfold walletNameToAddress
  cases hkey : keys.newRawPrivateKey (crypto.blake3Hash name.val) with
  | none =>
      rw [hkey] at h
      cases h
  | some pkey =>
      rw [hkey, walletRecordOfKey] at h
      cases hpublic : keys.getRawPublicKey pkey with
      | none =>
          rw [hpublic] at h
          cases h
      | some pubkey =>
          rw [hpublic] at h
          obtain rfl := Option.some.inj h
          simp only [hkey, hpublic]

/-- A string of 40 digits gives the address it spells, in whatever case. -/
theorem hexToAddress_spells {str : Bytes} (hhex : walletIsHexAddress str = true)
    (address a : Address) :
    hexToAddress str address = (true, a) ↔ str.map lower = addressToHex a := by
  rcases (walletIsHexAddress_iff str).mp hhex with ⟨hlen, hdigits⟩
  have hgood : (hexToBytesBuf str address).1 = true :=
    (hexToBytesBuf_isSome (n := 20) hlen address).mpr hdigits
  have hread := hexToBytesBuf_eq (n := 20) hlen address
  rw [if_pos hgood] at hread
  have hspelled : addressToHex (hexToBytesBuf str address).2 = str.map lower :=
    PairCode.write_read hread.symm
  rw [hexToAddress, if_neg (not_not_intro hlen), ← hspelled]
  constructor
  · intro h
    rw [h]
  · intro h
    -- the digits of an address determine it
    have hback := hexToAddress_addressToHex (hexToBytesBuf str address).2 address
    rw [h, hexToAddress_addressToHex] at hback
    exact Prod.ext hgood (Prod.mk.inj hback).2.symm

/-- Whoever pays to the hex address of a named wallet pays to this wallet; whoever pays to
its name does, exactly unless the name itself spells another address. -/
theorem address_resolves_iff (crypto : Crypto) (keys : KeyApi) (pem : PemApi) (name : CString)
    (w : WalletRecord) (h : walletCreateNamedRecord crypto keys pem name = some w)
    (address : Address) :
    walletParseAddress crypto keys w.addressHex.chars address = (true, w.address) ∧
      (walletParseAddress crypto keys name.val address = (true, w.address) ↔
        (walletIsHexAddress name.val = true → name.val.map lower = w.addressHex.chars)) := by
  rcases walletRecordOfKey_fromKey h w.nonce with ⟨-, key, -, hfrom⟩
  have hchars : w.addressHex.chars = addressToHex w.address := hfrom.addressHex_chars
  rw [hchars]
  constructor
  · have hhex : walletIsHexAddress (addressToHex w.address) = true :=
      (walletIsHexAddress_iff _).mpr ⟨addressToHex_length _, addressToHex_digits _⟩
    rw [walletParseAddress, if_pos hhex, hexToAddress_addressToHex]
  · unfold walletParseAddress
    by_cases hhex : walletIsHexAddress name.val = true
    · rw [if_pos hhex, hexToAddress_spells hhex]
      exact ⟨fun hspells _ => hspells, fun hspells => hspells hhex⟩
    · rw [if_neg hhex, walletNameToAddress_named h]
      exact ⟨fun _ hno => absurd hno hhex, fun _ => rfl⟩

/-- " a" is no address, so it is looked up as the name it is. -/
theorem address_resolves_iff_spaced :
    ∃ w, walletCreateNamedRecord spacedCrypto spacedKeys spacedPemApi spacedName = some w ∧
      walletParseAddress spacedCrypto spacedKeys w.addressHex.chars (zeros 20) = (true, w.address) ∧
      walletParseAddress spacedCrypto spacedKeys spacedName.val (zeros 20) = (true, w.address) := by
  rcases spaced_create_named with ⟨w, hw, -⟩
  have h := address_resolves_iff spacedCrypto spacedKeys spacedPemApi spacedName w hw (zeros 20)
  refine ⟨w, hw, h.1, h.2.mpr ?_⟩
  intro hhex
  exact absurd hhex (by decide)

end Sharding
