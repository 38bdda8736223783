import Sharding.Lib.Codec

/-! # Byte arrays and cryptographic primitives

The fixed-size byte arrays of the program, the byte helpers of `common.c`, and
the primitives it calls. The primitives are parameters: SHA-256 and Ed25519
belong to OpenSSL, and every result below that mentions BLAKE3 holds for an
arbitrary hash function in its place.
-/

namespace Sharding

abbrev Bytes := List UInt8

/-- A 20-byte account address. -/
abbrev Address := Vector UInt8 20

/-- A raw Ed25519 public key. -/
abbrev PublicKey := Vector UInt8 32

/-- An Ed25519 signature. -/
abbrev Signature := Vector UInt8 64

/-- A 28-byte transaction hash (`TX_HASH_SIZE`). -/
abbrev TxHash := Vector UInt8 28

/-- A 32-byte digest. -/
abbrev Digest := Vector UInt8 32

/-- An OpenSSL handle of an Ed25519 private key, by its raw seed. -/
abbrev EvpKey := Vector UInt8 32

/-- The primitives the program calls: `sha256`, `blake3_hash`,
`blake3_hash_truncated`, and Ed25519 signing and verification behind
`wallet_sign` and `wallet_verify`. Signing may fail. -/
structure Crypto where
  sha256 : Bytes → Digest
  blake3Hash : Bytes → Digest
  blake3HashTruncated : Bytes → (n : Nat) → Vector UInt8 n
  ed25519Sign : EvpKey → Bytes → Option Signature
  ed25519Verify : PublicKey → Bytes → Signature → Bool

/-- `n` zero bytes. -/
def zeros (n : Nat) : Vector UInt8 n := Vector.replicate n 0

/-- Primitives that accept no signature and hash everything to zeros. -/
def Crypto.rejecting : Crypto where
  sha256 _ := zeros 32
  blake3Hash _ := zeros 32
  blake3HashTruncated _ n := zeros n
  ed25519Sign _ _ := none
  ed25519Verify _ _ _ := false

/-- `is_zero` -/
def isZero (data : Bytes) : Bool := data.all (· == 0)

theorem isZero_iff {data : Bytes} : isZero data = true ↔ ∀ b ∈ data, b = 0 := by
  simp [isZero]

/-- The only all-zero array of `n` bytes is `zeros n`. -/
theorem eq_zeros_of_isZero {n : Nat} {v : Vector UInt8 n} (h : isZero v.toList = true) :
    v = zeros n := by
  rw [isZero_iff] at h
  ext i hi
  have hmem : v[i] ∈ v.toList := by simp
  have h0 : v[i] = 0 := h _ hmem
  simp [zeros, h0]

end Sharding
