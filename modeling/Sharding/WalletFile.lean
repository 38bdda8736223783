import Sharding.Hex
import Sharding.Lib.CText
import Sharding.Lib.Run
import Sharding.Wallet

/-! # Wallet files

A wallet is saved as four labelled lines, the last label followed by the PEM text of
its key. `wallet_load` reads any file line by line: labels set fields, and behind the
label of the key all lines are collected in a buffer, up to one with the end marker.
Whether the lines fit the buffer is nowhere checked.
-/

namespace Sharding

open CText

/-- A string of any length. -/
abbrev CString := { s : Bytes // 0 ∉ s }

/-- `Wallet` with all its fields. -/
structure WalletRecord extends Wallet where
  name : CStr 64
  addressHex : CStr 41
  privateKeyPem : CStr 2048
  nonce : UInt64

/-- PEM texts of private keys: what `PEM_write_bio_PrivateKey` writes, nothing if it fails,
and what `PEM_read_bio_PrivateKey` makes of a text. -/
structure PemApi where
  writePrivateKey : EvpKey → Bytes
  readPrivateKey : Bytes → Option EvpKey

/-- `safe_strcpy`; the array has one character more than `n`. -/
def safeStrcpy (n : Nat) (src : Bytes) : CStr (n + 1) := CStr.copy n src

/-! ## Creation -/

/-- What both constructors make of the handle they got, the name being set already. -/
def walletRecordOfKey (crypto : Crypto) (keys : KeyApi) (pem : PemApi) (name : CStr 64) :
    Option EvpKey → Option WalletRecord
  | none => none
  | some evpKey =>
      match keys.getRawPublicKey evpKey with
      | none => none
      | some publicKey =>
          let address := walletDeriveAddress crypto publicKey
          some {
            address := address
            publicKey := publicKey
            evpKey := some evpKey
            name := name
            addressHex := CStr.copy 40 (addressToHex address)
            -- `BIO_read` of up to 2047 bytes, terminated
            privateKeyPem := CStr.copy 2047 (pem.writePrivateKey evpKey)
            nonce := 0 }

/-- `wallet_create`, with all fields -/
def walletCreateRecord (crypto : Crypto) (keys : KeyApi) (pem : PemApi)
    (generated : Option EvpKey) : Option WalletRecord :=
  walletRecordOfKey crypto keys pem CStr.empty generated

/-- `wallet_create_named`, with all fields -/
def walletCreateNamedRecord (crypto : Crypto) (keys : KeyApi) (pem : PemApi) (name : CString) :
    Option WalletRecord :=
  walletRecordOfKey crypto keys pem (safeStrcpy 63 name.val)
    (keys.newRawPrivateKey (crypto.blake3Hash name.val))

/-- `wallet_set_nonce` -/
def walletSetNonce (wallet : WalletRecord) (nonce : UInt64) : WalletRecord :=
  { wallet with nonce := nonce }

/-- The fields that signing uses are those of the constructors above. -/
theorem walletRecordOfKey_toWallet (crypto : Crypto) (keys : KeyApi) (pem : PemApi)
    (name : CStr 64) (key : Option EvpKey) :
    (walletRecordOfKey crypto keys pem name key).map WalletRecord.toWallet =
      walletOfKey crypto keys key := by
  cases key with
  | none => rfl
  | some evpKey =>
      rw [walletRecordOfKey, walletOfKey]
      cases keys.getRawPublicKey evpKey with
      | none => rfl
      | some publicKey => rfl

/-! ## The file -/

/-- "NAME:" -/
def nameLabel : Bytes := [78, 65, 77, 69, 58]

/-- "ADDRESS:" -/
def addressLabel : Bytes := [65, 68, 68, 82, 69, 83, 83, 58]

/-- "NONCE:" -/
def nonceLabel : Bytes := [78, 79, 78, 67, 69, 58]

/-- "PRIVATE_KEY:" -/
def keyLabel : Bytes := [80, 82, 73, 86, 65, 84, 69, 95, 75, 69, 89, 58]

/-- "-----END" -/
def pemEnd : Bytes := [45, 45, 45, 45, 45, 69, 78, 68]

/-- `wallet_save`: what is in the file. -/
def walletSave (wallet : WalletRecord) : Bytes :=
  nameLabel ++ wallet.name.chars ++ [newline] ++
  (addressLabel ++ wallet.addressHex.chars ++ [newline]) ++
  (nonceLabel ++ decimal wallet.nonce.toNat ++ [newline]) ++
  (keyLabel ++ [newline] ++ wallet.privateKeyPem.chars)

/-- What `trim` skips. -/
def isBlank (c : UInt8) : Bool := c == 32 || c == 9 || c == 10

/-- `trim` -/
def trim (str : Bytes) : Bytes := strip isBlank str

/-- What reading a file could do wrong: write behind `pem_buffer`. -/
inductive LoadFault where
  | pemBuffer
deriving DecidableEq

/-- The variables of the reading loop. -/
structure Loading where
  wallet : WalletRecord
  readingKey : Bool
  pemBuffer : CStr 2048

/-- The body of the loop; `line` is what `fgets` put in front of the terminating zero. -/
def loadLine (l : Loading) (line : Bytes) : Except LoadFault Loading :=
  let str := cstr line
  -- whatever the line begins with, it belongs to the key
  if l.readingKey then
    match l.pemBuffer.strcat line with
    | none => .error .pemBuffer
    | some pemBuffer => .ok { l with
        pemBuffer := pemBuffer
        readingKey := if strstr pemEnd str then false else l.readingKey }
  else if nameLabel.isPrefixOf str then
    .ok { l with wallet := { l.wallet with name := safeStrcpy 63 (trim (str.drop 5)) } }
  else if addressLabel.isPrefixOf str then
    let v := trim (str.drop 8)
    -- the verdict of `hex_to_address` is not used
    .ok { l with wallet := { l.wallet with
      addressHex := safeStrcpy 40 v
      address := (hexToAddress v l.wallet.address).2 } }
  else if nonceLabel.isPrefixOf str then
    .ok { l with wallet := { l.wallet with nonce := strtoull (str.drop 6) } }
  else if keyLabel.isPrefixOf str then .ok { l with readingKey := true }
  else .ok l

/-- A cleared wallet and empty variables. -/
def startLoading : Loading where
  wallet :=
    { address := zeros 20
      publicKey := zeros 32
      evpKey := none
      name := CStr.empty
      addressHex := CStr.empty
      privateKeyPem := CStr.empty
      nonce := 0 }
  readingKey := false
  pemBuffer := CStr.empty

/-- What is done with the collected key. -/
def finishLoading (keys : KeyApi) (pem : PemApi) (l : Loading) : WalletRecord :=
  if l.pemBuffer.chars.length > 0 then
    let evpKey := pem.readPrivateKey l.pemBuffer.chars
    { l.wallet with
      privateKeyPem := safeStrcpy 2047 l.pemBuffer.chars
      evpKey := evpKey
      -- the verdict of `EVP_PKEY_get_raw_public_key` is not used
      publicKey := (evpKey.bind keys.getRawPublicKey).getD l.wallet.publicKey }
  else l.wallet

/-- `wallet_load`: without a file there is no wallet. -/
def walletLoad (keys : KeyApi) (pem : PemApi) : Option Bytes → Except LoadFault (Option WalletRecord)
  | none => .ok none
  | some file =>
      Run.run loadLine startLoading (pieces 2047 file) >>= fun l =>
        .ok (some (finishLoading keys pem l))

/-! ## The bounds of the key buffer -/

/-- The lines of the key sections: what is read behind the label of the key, up to a line
with the end marker. -/
def keyLines : Bool → List Bytes → List Bytes
  | _, [] => []
  | true, line :: lines => line :: keyLines (!strstr pemEnd (cstr line)) lines
  | false, line :: lines => keyLines (keyLabel.isPrefixOf (cstr line)) lines

/-- How many characters are in the key sections of a file. -/
def keyLength (file : Bytes) : Nat :=
  ((keyLines false (pieces 2047 file)).map fun line => (cstr line).length).sum

/-- Two labels of one line begin alike. -/
theorem label_head {a b : UInt8} {label label' str : Bytes}
    (h : (a :: label).isPrefixOf str = true) (h' : (b :: label').isPrefixOf str = true) : a = b := by
  rcases List.isPrefixOf_iff_prefix.mp h with ⟨t, ht⟩
  rcases List.isPrefixOf_iff_prefix.mp h' with ⟨t', ht'⟩
  exact (List.cons.inj (ht.trans ht'.symm)).1

/-- Outside the key a line never faults: the buffer stays, and the label of the key is
looked for. -/
theorem loadLine_idle {l : Loading} (h : l.readingKey = false) (line : Bytes) :
    ∃ l', loadLine l line = .ok l' ∧ l'.pemBuffer = l.pemBuffer ∧
      l'.readingKey = keyLabel.isPrefixOf (cstr line) := by
  -- no other label begins with a P
  have hother : ∀ {a : UInt8} {label : Bytes}, (a :: label).isPrefixOf (cstr line) = true → a ≠ 80 →
      false = keyLabel.isPrefixOf (cstr line) := by
    intro a label hlabel hne
    cases hkey : keyLabel.isPrefixOf (cstr line) with
    | false => rfl
    | true => exact absurd (label_head hlabel hkey) hne
  rw [loadLine, h, if_neg Bool.false_ne_true]
  split
  · rename_i hlabel
    exact ⟨_, rfl, rfl, hother hlabel (by decide)⟩
  split
  · rename_i hlabel
    exact ⟨_, rfl, rfl, hother hlabel (by decide)⟩
  split
  · rename_i hlabel
    exact ⟨_, rfl, rfl, hother hlabel (by decide)⟩
  split
  · rename_i hlabel
    exact ⟨_, rfl, rfl, hlabel.symm⟩
  · rename_i hlabel
    refine ⟨_, rfl, rfl, ?_⟩
    rw [h]
    exact (Bool.eq_false_of_not_eq_true hlabel).symm

/-- Inside the key a line is appended, if it fits. -/
theorem loadLine_reading {l : Loading} (h : l.readingKey = true) (line : Bytes) :
    loadLine l line =
      match l.pemBuffer.strcat line with
      | none => .error .pemBuffer
      | some pemBuffer => .ok { l with
          pemBuffer := pemBuffer
          readingKey := !strstr pemEnd (cstr line) } := by
  rw [loadLine, if_pos h]
  cases l.pemBuffer.strcat line with
  | none => rfl
  | some pemBuffer =>
      cases strstr pemEnd (cstr line) with
      | true => rfl
      | false => rw [h]; rfl

/-- The loop stays in the buffer exactly when the rest of the key sections fits. -/
theorem run_fits_iff (lines : List Bytes) (l : Loading) :
    (∃ l', Run.run loadLine l lines = .ok l') ↔
      l.pemBuffer.chars.length +
        ((keyLines l.readingKey lines).map fun line => (cstr line).length).sum < 2048 := by
  induction lines generalizing l with
  | nil =>
      -- what is in the buffer fits already
      have hfits := l.pemBuffer.fits
      rw [keyLines]
      exact ⟨fun _ => hfits, fun _ => ⟨l, rfl⟩⟩
  | cons line lines ih =>
      rw [Run.run]
      cases hreading : l.readingKey with
      | false =>
          rcases loadLine_idle hreading line with ⟨l', hok, hbuffer, hkey⟩
          rw [hok, keyLines, ← hkey, ← hbuffer]
          exact ih l'
      | true =>
          have hroom := l.pemBuffer.strcat_isSome_iff line
          rw [loadLine_reading hreading, keyLines, List.map_cons, List.sum_cons]
          cases hcat : l.pemBuffer.strcat line with
          | none =>
              -- this line is too much already
              rw [hcat] at hroom
              constructor
              · rintro ⟨l', hrun⟩
                cases hrun
              · intro hlt
                have hsome := hroom.mpr (by omega)
                cases hsome
          | some pemBuffer =>
              have hchars := congrArg List.length (CStr.strcat_chars hcat)
              rw [List.length_append] at hchars
              rw [← Nat.add_assoc, ← hchars]
              exact ih { l with
                pemBuffer := pemBuffer
                readingKey := !strstr pemEnd (cstr line) }

theorem startLoading_fits_iff (file : Bytes) :
    (∃ l, Run.run loadLine startLoading (pieces 2047 file) = .ok l) ↔ keyLength file < 2048 := by
  have hzero : startLoading.pemBuffer.chars.length = 0 := rfl
  have hrun := run_fits_iff (pieces 2047 file) startLoading
  rwa [hzero, Nat.zero_add] at hrun

/-- Reading a file goes through exactly when its key sections fit. -/
theorem walletLoad_ok_iff (keys : KeyApi) (pem : PemApi) (file : Bytes) :
    (∃ wallet, walletLoad keys pem (some file) = .ok wallet) ↔ keyLength file < 2048 := by
  refine Iff.trans ?_ (startLoading_fits_iff file)
  constructor
  · rintro ⟨wallet, hload⟩
    rcases Run.bind_eq_ok hload with ⟨l, hl, -⟩
    exact ⟨l, hl⟩
  · rintro ⟨l, hl⟩
    refine ⟨some (finishLoading keys pem l), ?_⟩
    rw [walletLoad, hl]
    rfl

/-- In every iteration of the loop what is in `pem_buffer` fits with its terminating zero:
exactly if the key sections of the file have at most 2047 characters in all. -/
theorem key_buffer_fits_iff (file : Bytes) :
    Run.Always loadLine (fun l => l.pemBuffer.chars.length + 1 ≤ 2048) startLoading
      (pieces 2047 file) ↔ keyLength file ≤ 2047 := by
  rw [Run.always_iff_run fun l => l.pemBuffer.fits, startLoading_fits_iff, Nat.lt_succ_iff]

/-- The label of the key and 2048 letters. -/
def longKeyFile : Bytes := keyLabel ++ newline :: List.replicate 2048 97

theorem longKeyFile_length : keyLength longKeyFile = 2048 := by
  have hletters : ∀ n, newline ∉ List.replicate n (97 : UInt8) := by
    intro n hmem
    exact absurd (List.eq_of_mem_replicate hmem) (by decide)
  have hsome : ∀ n, List.replicate (n + 1) (97 : UInt8) ≠ [] := fun n => List.cons_ne_nil _ _
  have hstring : ∀ n, (cstr (List.replicate n 97)).length = n := by
    intro n
    rw [cstr_eq_self, List.length_replicate]
    intro hmem
    exact absurd (List.eq_of_mem_replicate hmem) (by decide)
  -- the letters have no end marker
  have hend : strstr pemEnd (cstr (List.replicate 2047 97)) = false := by
    rw [Bool.eq_false_iff]
    intro hmarker
    have hmem : 45 ∈ cstr (List.replicate 2047 97) :=
      ((strstr_iff _ _).mp hmarker).mem List.mem_cons_self
    have hletter := List.eq_of_mem_replicate ((List.takeWhile_prefix _).mem hmem)
    exact absurd hletter (by decide)
  have hlabel : newline ∉ keyLabel := by decide
  have hpieces : pieces 2047 longKeyFile =
      [keyLabel ++ [newline], List.replicate 2047 97, List.replicate 1 97] := by
    rw [longKeyFile, pieces_line hlabel (by decide), pieces_take (hletters _) (hsome 2047) (by decide),
      List.take_replicate, List.drop_replicate, pieces_take (hletters _) (hsome 0) (by decide),
      List.take_replicate, List.drop_replicate]
    exact congrArg (_ :: _ :: _ :: ·) (pieces_nil 2047)
  have hkey : keyLabel.isPrefixOf (cstr (keyLabel ++ [newline])) = true := by decide
  rw [keyLength, hpieces, keyLines, hkey, keyLines, hend]
  simp only [Bool.not_false, keyLines, List.map_cons, List.map_nil, List.sum_cons, List.sum_nil,
    hstring, Nat.reduceAdd]

/-- The second piece of the letters does not fit. -/
theorem long_key_overflows :
    ¬ ∀ file : Bytes, Run.Always loadLine (fun l => l.pemBuffer.chars.length + 1 ≤ 2048) startLoading
      (pieces 2047 file) := by
  intro h
  have hfits := (Run.always_iff_run (fun l => l.pemBuffer.fits) _ _).mp (h longKeyFile)
  rw [startLoading_fits_iff, longKeyFile_length] at hfits
  exact absurd hfits (Nat.lt_irrefl _)

end Sharding
