import Mathlib.Data.List.GetD
import Sharding.Lib.LazyBuffer
import Sharding.Lib.PairCode
import Sharding.Transaction

/-! # Hex strings

The conversions of `common.c`, and what transactions and addresses make of them. A
string is the list of its characters, without the terminating zero. Nothing is said
about the empty one where `malloc(0)` may be null.
-/

namespace Sharding

/-! ## The conversions -/

/-- `hex_chars`: "0123456789abcdef" -/
def hexChars : Bytes := [48, 49, 50, 51, 52, 53, 54, 55, 56, 57, 97, 98, 99, 100, 101, 102]

/-- The character of a nibble. -/
def hexChar (x : UInt8) : UInt8 := hexChars.getD x.toNat 0

/-- `bytes_to_hex` -/
def bytesToHex (bytes : Bytes) : Bytes :=
  bytes.flatMap fun b : UInt8 => [hexChar (b >>> 4 &&& 0x0F), hexChar (b &&& 0x0F)]

/-- `bytes_to_hex_buf`: the same into the caller's buffer. -/
def bytesToHexBuf (bytes : Bytes) : Bytes := bytesToHex bytes

/-- `hex_char_value`: `none` is -1. -/
def hexCharValue (c : UInt8) : Option UInt8 :=
  if c ≥ 48 ∧ c ≤ 57 then some (c - 48)
  else if c ≥ 97 ∧ c ≤ 102 then some (c - 97 + 10)
  else if c ≥ 65 ∧ c ≤ 70 then some (c - 65 + 10)
  else none

/-- The byte of the digits `2 * i` and `2 * i + 1`. -/
def hexByte (hex : Bytes) (i : Nat) : Option UInt8 :=
  match hexCharValue (hex.getD (i * 2) 0), hexCharValue (hex.getD (i * 2 + 1) 0) with
  | some high, some low => some (high <<< 4 ||| low)
  | _, _ => none

/-- The reading loop, `n` bytes from the byte `i` on: whether all digits were good, and
the bytes written before the first bad one. -/
def hexBytes (hex : Bytes) (i : Nat) : Nat → Bool × Bytes
  | 0 => (true, [])
  | n + 1 =>
      match hexByte hex i with
      -- the rest of the buffer is left as it was
      | none => (false, [])
      | some b => ((hexBytes hex (i + 1) n).1, b :: (hexBytes hex (i + 1) n).2)

theorem hexBytes_length_le (hex : Bytes) (i n : Nat) : (hexBytes hex i n).2.length ≤ n := by
  induction n generalizing i with
  | zero => exact Nat.le_refl 0
  | succ n ih =>
      rw [hexBytes]
      cases hexByte hex i with
      | none => exact Nat.zero_le _
      | some b => exact Nat.succ_le_succ (ih (i + 1))

/-- `hex_to_bytes` -/
def hexToBytes (hex : Bytes) : Option Bytes :=
  if hex.length % 2 ≠ 0 then none
  else
    let r := hexBytes hex 0 (hex.length / 2)
    if r.1 then some r.2 else none

/-- `hex_to_bytes_buf`: the bytes before a bad digit are written. -/
def hexToBytesBuf {n : Nat} (hex : Bytes) (bytes : Vector UInt8 n) : Bool × Vector UInt8 n :=
  ((hexBytes hex 0 n).1, memcpy bytes 0 (hexBytes hex 0 n).2 (by
    rw [Nat.zero_add]
    exact hexBytes_length_le hex 0 n))

/-! ## Transactions and addresses -/

/-- `transaction_serialize` -/
def transactionSerialize (tx : Transaction) : Bytes := bytesToHex (Transaction.codec.enc tx)

/-- `transaction_deserialize`: the structure is only returned once it has been filled. -/
def transactionDeserialize (hexData : Bytes) : Option Transaction :=
  if hexData.length ≠ 256 then none
  else
    let r := hexToBytesBuf hexData (zeros 128)
    if r.1 then some (Transaction.codec.dec r.2.toList) else none

/-- `wallet_is_hex_address` -/
def walletIsHexAddress (str : Bytes) : Bool :=
  if str.length ≠ 40 then false
  else (List.range 40).all fun i =>
    let c := str.getD i 0
    (c ≥ 48 && c ≤ 57) || (c ≥ 97 && c ≤ 102) || (c ≥ 65 && c ≤ 70)

/-- `address_to_hex` -/
def addressToHex (address : Address) : Bytes := bytesToHexBuf address.toList

/-- `hex_to_address` -/
def hexToAddress (hex : Bytes) (address : Address) : Bool × Address :=
  if hex.length ≠ 40 then (false, address) else hexToBytesBuf hex address

/-! ## The code of nibbles -/

/-- The characters 0-9, a-f and A-F. -/
def IsHexDigit (c : UInt8) : Prop :=
  (48 ≤ c ∧ c ≤ 57) ∨ (97 ≤ c ∧ c ≤ 102) ∨ (65 ≤ c ∧ c ≤ 70)

/-- `c` in lower case. -/
def lower (c : UInt8) : UInt8 := if 65 ≤ c ∧ c ≤ 90 then c + 32 else c

instance (c : UInt8) : Decidable (IsHexDigit c) :=
  inferInstanceAs (Decidable ((48 ≤ c ∧ c ≤ 57) ∨ (97 ≤ c ∧ c ≤ 102) ∨ (65 ≤ c ∧ c ≤ 70)))

/-- What holds of the 256 bytes holds of all. -/
theorem forall_byte {P : UInt8 → Prop} (h : ∀ n : Fin 256, P (UInt8.ofFin n)) (b : UInt8) : P b :=
  h b.toFin

theorem hexCharValue_lt (c : UInt8) : ∀ x ∈ hexCharValue c, x < 16 :=
  forall_byte (P := fun c => ∀ x ∈ hexCharValue c, x < 16) (by decide +kernel) c

/-- Two nibbles are found again in their byte. -/
theorem nibbles_join {x y : UInt8} (hx : x < 16) (hy : y < 16) :
    (x <<< 4 ||| y) >>> 4 &&& 0x0F = x ∧ (x <<< 4 ||| y) &&& 0x0F = y := by
  have hall : ∀ m n : Fin 16,
      (UInt8.ofNat m <<< 4 ||| UInt8.ofNat n) >>> 4 &&& 0x0F = UInt8.ofNat m ∧
        (UInt8.ofNat m <<< 4 ||| UInt8.ofNat n) &&& 0x0F = UInt8.ofNat n := by decide +kernel
  have hx' : x.toNat < 16 := UInt8.lt_iff_toNat_lt.mp hx
  have hy' : y.toNat < 16 := UInt8.lt_iff_toNat_lt.mp hy
  have hpair := hall ⟨x.toNat, hx'⟩ ⟨y.toNat, hy'⟩
  simpa only [UInt8.ofNat_toNat] using hpair

/-- The code of the hex strings. -/
def nibbles : PairCode UInt8 UInt8 UInt8 where
  high b := b >>> 4 &&& 0x0F
  low b := b &&& 0x0F
  join x y := x <<< 4 ||| y
  digit := hexChar
  value := hexCharValue
  norm := lower
  join_split := forall_byte (by decide +kernel)
  value_high := forall_byte (by decide +kernel)
  value_low := forall_byte (by decide +kernel)
  split_join d e _ _ hx hy := nibbles_join (hexCharValue_lt d _ hx) (hexCharValue_lt e _ hy)
  digit_value d x hx :=
    forall_byte (P := fun d => ∀ x ∈ hexCharValue d, hexChar x = lower d) (by decide +kernel) d x hx

/-- The digits with a value. -/
theorem hexCharValue_isSome_iff (c : UInt8) : (hexCharValue c).isSome ↔ IsHexDigit c :=
  forall_byte (P := fun c => (hexCharValue c).isSome ↔ IsHexDigit c) (by decide +kernel) c

theorem bytesToHex_eq (bytes : Bytes) : bytesToHex bytes = nibbles.write bytes := rfl

/-- A hex string has no zero inside. -/
theorem zero_not_mem_bytesToHex (bytes : Bytes) : 0 ∉ bytesToHex bytes := by
  have hchar : ∀ x : UInt8, x < 16 → hexChar x ≠ 0 :=
    forall_byte (P := fun x => x < 16 → hexChar x ≠ 0) (by decide +kernel)
  have hhigh : ∀ b : UInt8, b >>> 4 &&& 0x0F < 16 := forall_byte (by decide +kernel)
  have hlow : ∀ b : UInt8, b &&& 0x0F < 16 := forall_byte (by decide +kernel)
  intro hmem
  rcases List.mem_flatMap.mp hmem with ⟨b, -, hb⟩
  rcases List.mem_cons.mp hb with hb | hb
  · exact hchar _ (hhigh b) hb.symm
  · exact hchar _ (hlow b) (List.mem_singleton.mp hb).symm

/-! ## The loop reads the code -/

theorem hexByte_eq (hex : Bytes) (i : Nat) :
    hexByte hex i = nibbles.pair (hex.getD (i * 2) 0) (hex.getD (i * 2 + 1) 0) := by
  have hvalue : ∀ c, nibbles.value c = hexCharValue c := fun _ => rfl
  rw [hexByte, PairCode.pair, hvalue, hvalue]
  cases hexCharValue (hex.getD (i * 2) 0) with
  | none => rfl
  | some x =>
      cases hexCharValue (hex.getD (i * 2 + 1) 0) with
      | none => rfl
      | some y => rfl

/-- Without a bad digit all bytes are written. -/
theorem hexBytes_length {hex : Bytes} {i n : Nat} (h : (hexBytes hex i n).1 = true) :
    (hexBytes hex i n).2.length = n := by
  induction n generalizing i with
  | zero => rfl
  | succ n ih =>
      rw [hexBytes] at h ⊢
      cases hbyte : hexByte hex i with
      | none =>
          rw [hbyte] at h
          cases h
      | some b =>
          rw [hbyte] at h
          exact congrArg Nat.succ (ih h)

/-- From the byte `i` to the end. -/
theorem hexBytes_eq (hex : Bytes) (i n : Nat) (h : hex.length = (i + n) * 2) :
    (if (hexBytes hex i n).1 then some (hexBytes hex i n).2 else none) =
      nibbles.read (hex.drop (i * 2)) := by
  induction n generalizing i with
  | zero =>
      rw [List.drop_eq_nil_of_le (by omega)]
      rfl
  | succ n ih =>
      have hrest := ih (i + 1) (by omega)
      -- the two digits of this byte, and the digits of the others
      have hd : i * 2 < hex.length := by omega
      have he : i * 2 + 1 < hex.length := by omega
      have hdrop : hex.drop (i * 2) =
          hex.getD (i * 2) 0 :: hex.getD (i * 2 + 1) 0 :: hex.drop ((i + 1) * 2) := by
        rw [List.drop_eq_getElem_cons hd, List.drop_eq_getElem_cons he, List.getD_eq_getElem _ _ hd,
          List.getD_eq_getElem _ _ he]
        congr 3
        omega
      rw [hdrop, PairCode.read, ← hexByte_eq, ← hrest, hexBytes]
      cases hexByte hex i with
      | none => rfl
      | some b =>
          cases hloop : hexBytes hex (i + 1) n with
          | mk good bytes =>
              cases good with
              | true => rfl
              | false => rfl

theorem hexToBytes_eq (hex : Bytes) : hexToBytes hex = nibbles.read hex := by
  rw [hexToBytes]
  split
  · rename_i hodd
    -- an odd number of digits is no text of the code
    cases hread : nibbles.read hex with
    | none => rfl
    | some l =>
        have heven := (PairCode.read_isSome_iff hex).mp (by rw [hread]; rfl)
        exact absurd heven.1 hodd
  · rename_i heven
    exact hexBytes_eq hex 0 (hex.length / 2) (by omega)

/-- A buffer of half the size is filled with what the code says, or stays incomplete. -/
theorem hexToBytesBuf_eq {n : Nat} {hex : Bytes} (h : hex.length = n * 2) (bytes : Vector UInt8 n) :
    (if (hexToBytesBuf hex bytes).1 then some (hexToBytesBuf hex bytes).2.toList else none) =
      nibbles.read hex := by
  have hloop := hexBytes_eq hex 0 n (by omega)
  rw [Nat.zero_mul, List.drop_zero] at hloop
  rw [← hloop]
  have hgood : (hexToBytesBuf hex bytes).1 = (hexBytes hex 0 n).1 := rfl
  rw [hgood]
  split
  · rename_i hall
    have hlen := hexBytes_length hall
    rw [hexToBytesBuf, memcpy_toList, List.take_zero, List.nil_append,
      List.drop_eq_nil_of_le (by rw [Vector.length_toList]; omega), List.append_nil]
  · rfl

theorem hexToBytesBuf_isSome {n : Nat} {hex : Bytes} (h : hex.length = n * 2)
    (bytes : Vector UInt8 n) :
    (hexToBytesBuf hex bytes).1 = true ↔ ∀ c ∈ hex, IsHexDigit c := by
  have hread := congrArg Option.isSome (hexToBytesBuf_eq h bytes)
  have hgrammar := PairCode.read_isSome_iff (C := nibbles) hex
  rw [← hread] at hgrammar
  have heven : hex.length % 2 = 0 := by omega
  have hdigits : (∀ c ∈ hex, (nibbles.value c).isSome) ↔ ∀ c ∈ hex, IsHexDigit c :=
    forall₂_congr fun c _ => hexCharValue_isSome_iff c
  rw [← hdigits]
  cases hgood : (hexToBytesBuf hex bytes).1 with
  | true => simpa [hgood, heven] using hgrammar
  | false => simpa [hgood, heven] using hgrammar

/-- What was written is read back, whatever is in the buffer before. -/
theorem hexToBytesBuf_bytesToHex {n : Nat} {bytes : Bytes} (h : bytes.length = n)
    (buf : Vector UInt8 n) :
    (hexToBytesBuf (bytesToHex bytes) buf).1 = true ∧
      (hexToBytesBuf (bytesToHex bytes) buf).2.toList = bytes := by
  have hlen : (bytesToHex bytes).length = n * 2 := by
    rw [bytesToHex_eq, PairCode.write_length, h, Nat.mul_comm]
  have hread := hexToBytesBuf_eq hlen buf
  rw [bytesToHex_eq, PairCode.read_write, ← bytesToHex_eq] at hread
  split at hread
  · rename_i hgood
    exact ⟨hgood, Option.some.inj hread⟩
  · cases hread

/-! ## Strings of the program -/

/-- A check of the length in front of another one. -/
theorem checked_length_iff {β : Type} {s : Bytes} {n : Nat} {bad good : β} (ok : β → Bool) {P : Prop}
    (hbad : ok bad = false) (hgood : s.length = n → (ok good = true ↔ P)) :
    ok (if s.length ≠ n then bad else good) = true ↔ s.length = n ∧ P := by
  by_cases hlen : s.length = n
  · rw [if_neg (not_not_intro hlen), hgood hlen]
    exact ⟨fun h => ⟨hlen, h⟩, fun h => h.2⟩
  · rw [if_pos hlen, hbad]
    exact ⟨fun h => absurd h Bool.false_ne_true, fun h => absurd h.1 hlen⟩

theorem hexToBytes_isSome_iff (s : Bytes) :
    (hexToBytes s).isSome ↔ s.length % 2 = 0 ∧ ∀ c ∈ s, IsHexDigit c := by
  have hdigits : (∀ c ∈ s, (nibbles.value c).isSome) ↔ ∀ c ∈ s, IsHexDigit c :=
    forall₂_congr fun c _ => hexCharValue_isSome_iff c
  rw [hexToBytes_eq, PairCode.read_isSome_iff, hdigits]

/-- `transaction_deserialize` undoes `transaction_serialize`. -/
theorem transactionDeserialize_serialize (tx : Transaction) :
    transactionDeserialize (transactionSerialize tx) = some tx := by
  have hcode : (Transaction.codec.enc tx).length = 128 := Transaction.codec.enc_length tx
  have hlen : (transactionSerialize tx).length = 256 := by
    rw [transactionSerialize, bytesToHex_eq, PairCode.write_length, hcode]
  rcases hexToBytesBuf_bytesToHex hcode (zeros 128) with ⟨hgood, hbytes⟩
  rw [transactionDeserialize, if_neg (not_not_intro hlen), transactionSerialize]
  simp only [hgood, if_true, hbytes, Transaction.codec.dec_enc_self]

theorem transactionDeserialize_isSome_iff (s : Bytes) :
    (transactionDeserialize s).isSome ↔ s.length = 256 ∧ ∀ c ∈ s, IsHexDigit c := by
  rw [transactionDeserialize]
  apply checked_length_iff Option.isSome rfl
  intro hlen
  have hgood := hexToBytesBuf_isSome (n := 128) hlen (zeros 128)
  cases hbuf : (hexToBytesBuf s (zeros 128)).1 with
  | true => simpa [hbuf] using hgood
  | false => simpa [hbuf] using hgood

theorem walletIsHexAddress_iff (s : Bytes) :
    walletIsHexAddress s = true ↔ s.length = 40 ∧ ∀ c ∈ s, IsHexDigit c := by
  rw [walletIsHexAddress]
  apply checked_length_iff id rfl
  intro hlen
  -- the loop over 40 indices looks at every character
  have hall : (∀ i < 40, IsHexDigit (s.getD i 0)) ↔ ∀ c ∈ s, IsHexDigit c := by
    constructor
    · intro h c hc
      rcases List.getElem_of_mem hc with ⟨i, hi, rfl⟩
      have hdigit := h i (by omega)
      rwa [List.getD_eq_getElem _ _ hi] at hdigit
    · intro h i hi
      rw [List.getD_eq_getElem _ _ (by omega)]
      exact h _ (List.getElem_mem _)
  rw [← hall]
  simp [IsHexDigit, or_assoc]

theorem hexToAddress_iff (s : Bytes) (address : Address) :
    (hexToAddress s address).1 = true ↔ s.length = 40 ∧ ∀ c ∈ s, IsHexDigit c := by
  rw [hexToAddress]
  apply checked_length_iff Prod.fst rfl
  intro hlen
  exact hexToBytesBuf_isSome (n := 20) hlen address

theorem addressToHex_length (a : Address) : (addressToHex a).length = 40 := by
  rw [addressToHex, bytesToHexBuf, bytesToHex_eq, PairCode.write_length, Vector.length_toList]

/-- `hex_to_address` undoes `address_to_hex`, whatever is in the address before. -/
theorem hexToAddress_addressToHex (a address : Address) :
    hexToAddress (addressToHex a) address = (true, a) := by
  rcases hexToBytesBuf_bytesToHex a.length_toList address with ⟨hgood, hbytes⟩
  rw [hexToAddress, if_neg (not_not_intro (addressToHex_length a))]
  exact Prod.ext hgood (Vector.toList_inj.mp hbytes)

theorem addressToHex_digits (a : Address) : ∀ c ∈ addressToHex a, IsHexDigit c := by
  have hgood : (hexToAddress (addressToHex a) a).1 = true := by rw [hexToAddress_addressToHex]
  exact ((hexToAddress_iff _ a).mp hgood).2

/-- Hex strings are read back as the bytes they were written from. What is accepted is an
even number of digits, the string of the bytes in some mixture of cases: 256 digits for a
transaction, 40 for an address. -/
theorem hex_exact :
    (∀ b : Bytes, b ≠ [] → 0 ∉ bytesToHex b ∧ hexToBytes (bytesToHex b) = some b) ∧
    (∀ s : Bytes, s ≠ [] →
      ((hexToBytes s).isSome ↔ s.length % 2 = 0 ∧ ∀ c ∈ s, IsHexDigit c) ∧
      ∀ b, hexToBytes s = some b → bytesToHex b = s.map lower) ∧
    (∀ tx, transactionDeserialize (transactionSerialize tx) = some tx) ∧
    (∀ s, (transactionDeserialize s).isSome ↔ s.length = 256 ∧ ∀ c ∈ s, IsHexDigit c) ∧
    (∀ s address, (walletIsHexAddress s = true ↔ s.length = 40 ∧ ∀ c ∈ s, IsHexDigit c) ∧
      (hexToAddress s address).1 = walletIsHexAddress s) ∧
    ∀ a address, walletIsHexAddress (addressToHex a) = true ∧
      hexToAddress (addressToHex a) address = (true, a) := by
  have hsame : ∀ s address, (hexToAddress s address).1 = walletIsHexAddress s := by
    intro s address
    rw [Bool.eq_iff_iff, hexToAddress_iff, walletIsHexAddress_iff]
  refine ⟨?_, ?_, transactionDeserialize_serialize, transactionDeserialize_isSome_iff,
    fun s address => ⟨walletIsHexAddress_iff s, hsame s address⟩, ?_⟩
  · intro b _
    refine ⟨zero_not_mem_bytesToHex b, ?_⟩
    rw [hexToBytes_eq, bytesToHex_eq, PairCode.read_write]
  · intro s _
    refine ⟨hexToBytes_isSome_iff s, ?_⟩
    intro b hread
    rw [hexToBytes_eq] at hread
    exact PairCode.write_read hread
  · intro a address
    have hread := hexToAddress_addressToHex a address
    refine ⟨?_, hread⟩
    rw [← hsame _ address, hread]

/-- A byte with a letter in each half, and spellings of it. -/
theorem hex_exact_letters :
    hexToBytes (bytesToHex [0xab]) = some [0xab] ∧ (hexToBytes [65, 98]).isSome ∧
      (hexToBytes [97, 66]).isSome ∧ bytesToHex [0xab] = [65, 66].map lower :=
  ⟨(hex_exact.1 [0xab] (by decide)).2,
    (hex_exact.2.1 [65, 98] (by decide)).1.mpr (by simp [IsHexDigit]),
    (hex_exact.2.1 [97, 66] (by decide)).1.mpr (by simp [IsHexDigit]),
    (hex_exact.2.1 [65, 66] (by decide)).2 [0xab] (by decide)⟩

end Sharding
