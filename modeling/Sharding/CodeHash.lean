import Sharding.Blake3.Digest
import Sharding.Commitment
import Sharding.Honest
import Sharding.Provenance

/-! # The hash under the system

Everything above took BLAKE3 as it comes. Here it is the one of `blake3.c`: what the
workers hash and what an address is made of goes through its hasher, chunk by chunk, so
a failure of either is a collision of the compression function, among calls that the
program made.
-/

namespace Sharding

open Blake3

/-! ## BLAKE3 as the program calls it -/

/-- `blake3_hash` and `blake3_hash_truncated` of `common.c` in front of `blake3.c`. -/
def Crypto.withBlake3 (crypto : Crypto) : Crypto :=
  { crypto with
    blake3Hash := fun data => codeHash data 32
    blake3HashTruncated := codeHash }

/-- What `compress` is called with for the hash of `data`. -/
def compressions (data : Bytes) : List CompressArgs :=
  match blake3 compress data with
  | .ok o => o.calls
  | .error _ => []

/-- The first `n` bytes of a chaining value. -/
def shortCv (n : Nat) (args : CompressArgs) : Bytes :=
  (wordsCodec.enc (cvOf compress args)).take n

/-- The calls for the tree of a message, and the one for the output. -/
theorem compressions_eq (data : Bytes) :
    (messageTree data).inputs (hashing compress 0) ⊆ compressions data ∧
      rootArgs ((messageTree data).digest (hashing compress 0)) 0 ∈ compressions data := by
  rcases blake3Truncated_ok compress data 32 with ⟨calls, hok, hinputs⟩
  have hcalls : compressions data =
      calls ++ [rootArgs ((messageTree data).digest (hashing compress 0)) 0] := by
    rw [compressions, blake3, hok]
  rw [hcalls]
  exact ⟨fun x hx => List.mem_append_left _ (hinputs hx), List.mem_concat_self⟩

theorem enc_firstWords (w : Vector UInt32 16) :
    wordsCodec.enc (firstWords w) = ((Codec.u32.array 16).enc w).take 32 := by
  have hfirst : (firstWords w).toList = w.toList.take 8 := by
    apply List.ext_getElem
    · simp
    · intro i hi hi'
      simp [firstWords]
  show (firstWords w).toList.flatMap Codec.u32.enc = (w.toList.flatMap Codec.u32.enc).take 32
  have hsplit := List.take_append_drop 8 w.toList
  have hlen : ((w.toList.take 8).flatMap Codec.u32.enc).length = 32 := by
    simp [List.length_flatMap, Codec.u32]
  rw [hfirst]
  conv_rhs => rw [← hsplit, List.flatMap_append]
  rw [← hlen, List.take_left]

/-- A hash of up to 32 bytes is the beginning of the chaining value of its last call. -/
theorem codeHash_toList (data : Bytes) {n : Nat} (hn : n ≤ 32) :
    (codeHash data n).toList =
      shortCv n (rootArgs ((messageTree data).digest (hashing compress 0)) 0) := by
  rcases blake3Truncated_ok compress data n with ⟨calls, hok, -⟩
  have hout := outBytes_short (w := compress
    (rootArgs ((messageTree data).digest (hashing compress 0)) 0)) hn
  have hlen : (((Codec.u32.array 16).enc (compress
      (rootArgs ((messageTree data).digest (hashing compress 0)) 0))).take n).length = n := by
    rw [List.length_take, Codec.enc_length]
    exact Nat.min_eq_left (Nat.le_trans hn (by decide))
  unfold outBytes at hout
  rw [codeHash, hok]
  simp only
  rw [hout, Codec.toList_takeVec (Nat.le_of_eq hlen), hlen, Nat.sub_self, List.replicate_zero,
    List.append_nil, shortCv, cvOf, enc_firstWords, List.take_take, Nat.min_eq_left hn]

/-- Messages with equal hashes, or equal beginnings of them, show a collision of the
chaining values, as far as the beginnings go. -/
theorem codeHash_binding {n k : Nat} (hnk : n ≤ k) (hk : k ≤ 32) {m m' : Bytes} (hne : m ≠ m')
    (heq : (codeHash m k).toList.take n = (codeHash m' k).toList.take n) :
    HashChain.Collision (shortCv n) (compressions m ++ compressions m') := by
  rcases compressions_eq m with ⟨hinputs, hroot⟩
  rcases compressions_eq m' with ⟨hinputs', hroot'⟩
  rw [codeHash_toList m hk, codeHash_toList m' hk, shortCv, shortCv, List.take_take,
    List.take_take, Nat.min_eq_left hnk] at heq
  by_cases hsame : rootArgs ((messageTree m).digest (hashing compress 0)) 0 =
      rootArgs ((messageTree m').digest (hashing compress 0)) 0
  · rcases HashTree.digest_binding (hashing_binding compress (Or.inl rfl)) _ _ (rootArgs_inj hsame) with
      hleaves | hcol
    · exfalso
      apply hne
      rw [← messageTree_bytes m, ← messageTree_bytes m', List.flatMap, List.flatMap, hleaves]
    · -- whole chaining values collide, so their beginnings do
      rcases hcol with ⟨x, hx, y, hy, hxy, hcv⟩
      have hsub : (messageTree m).inputs (hashing compress 0) ++
          (messageTree m').inputs (hashing compress 0) ⊆ compressions m ++ compressions m' := by
        intro z hz
        rcases List.mem_append.mp hz with hz | hz
        · exact List.mem_append_left _ (hinputs hz)
        · exact List.mem_append_right _ (hinputs' hz)
      refine ⟨x, hsub hx, y, hsub hy, hxy, ?_⟩
      have hcv' : cvOf compress x = cvOf compress y := hcv
      rw [shortCv, shortCv, hcv']
  · exact ⟨_, List.mem_append_left _ hroot, _, List.mem_append_right _ hroot', hsame, heq⟩

/-! ## Blocks -/

/-- `sha256` fails the inputs `folded`, or the compression function fails what the
truncated hash made of the inputs `hashed`. -/
inductive Failed (crypto : Crypto) (folded hashed : List Bytes) : Prop where
  | sha256 (h : HashChain.Collision crypto.sha256 folded)
  | start (h : ∃ x ∈ folded, crypto.sha256 x = zeros 32)
  | compress (h : HashChain.Collision (shortCv 28) (hashed.flatMap compressions))

theorem Broken.failed {crypto : Crypto} {folded hashed : List Bytes}
    (h : Broken crypto.withBlake3 folded hashed) : Failed crypto folded hashed := by
  cases h with
  | sha256 h => exact .sha256 h
  | start h => exact .start h
  | blake3 h =>
      rcases h with ⟨x, hx, y, hy, hne, heq⟩
      have hhash : codeHash x 28 = codeHash y 28 := heq
      have hcol := codeHash_binding (Nat.le_refl 28) (by decide) hne (by rw [hhash])
      refine .compress (hcol.mono ?_)
      intro args hargs
      rcases List.mem_append.mp hargs with h | h
      · exact List.mem_flatMap.mpr ⟨x, hx, h⟩
      · exact List.mem_flatMap.mpr ⟨y, hy, h⟩

/-- In any two runs of systems with as many shards, with the BLAKE3 of the repository:
blocks with the same root come from rounds that sent every shard the same contents in
the same order, or `sha256` or the compression function failed an input of the two. -/
theorem system_commits (cfg₁ cfg₂ : Config) (hsame : cfg₁.numShards = cfg₂.numShards)
    (hshards : cfg₁.numShards ≤ maxShards) (crypto : Crypto) (rand₁ rand₂ : Rand)
    (labels₁ labels₂ : List System.Label) :
    ∃ r₁ r₂ s₁ s₂, receiverInit cfg₁ rand₁ = .ok r₁ ∧ receiverInit cfg₂ rand₂ = .ok r₂ ∧
      Run.run (System.step cfg₁ crypto.withBlake3) (System.start cfg₁ r₁) labels₁ = .ok s₁ ∧
      Run.run (System.step cfg₂ crypto.withBlake3) (System.start cfg₂ r₂) labels₂ = .ok s₂ ∧
      ∀ k₁ (h₁ : k₁ < s₁.cluster.blocks.length) k₂ (h₂ : k₂ < s₂.cluster.blocks.length),
        s₁.cluster.blocks[k₁].block.merkleRoot = s₂.cluster.blocks[k₂].block.merkleRoot →
        ∃ round₁ round₂, s₁.cluster.dispatcher.rounds[k₁]? = some round₁ ∧
          s₂.cluster.dispatcher.rounds[k₂]? = some round₂ ∧
          (SameRound cfg₁.numShards round₁ round₂ ∨
            Failed crypto
              (blockInputs crypto.withBlake3 cfg₁.numShards round₁ s₁.cluster.blocks[k₁] ++
                blockInputs crypto.withBlake3 cfg₁.numShards round₂ s₂.cluster.blocks[k₂])
              (roundHashes cfg₁.numShards round₁ ++ roundHashes cfg₁.numShards round₂)) := by
  rcases system_run crypto.withBlake3 hshards rand₁ labels₁ with ⟨r₁, s₁, hinit₁, hrun₁, hinv₁, -⟩
  rcases system_run crypto.withBlake3 (hsame ▸ hshards) rand₂ labels₂ with
    ⟨r₂, s₂, hinit₂, hrun₂, hinv₂, -⟩
  have hcluster₁ := hinv₁.cluster
  have hcluster₂ := hinv₂.cluster
  rw [← hsame] at hcluster₂
  refine ⟨r₁, r₂, s₁, s₂, hinit₁, hinit₂, hrun₁, hrun₂, ?_⟩
  intro k₁ h₁ k₂ h₂ hroot
  have hblock₁ := hcluster₁.blocks k₁ h₁
  have hblock₂ := hcluster₂.blocks k₂ h₂
  refine ⟨_, _, List.getElem?_eq_getElem hblock₁.lt, List.getElem?_eq_getElem hblock₂.lt, ?_⟩
  rcases hblock₁.commits hblock₂ hcluster₁.core hcluster₂.core hblock₁.lt hblock₂.lt hroot with
    hrounds | hbroken
  · exact Or.inl hrounds
  · exact Or.inr hbroken.failed

theorem system_commits_solo :
    ∃ r₁ r₂ s₁ s₂, receiverInit soloConfig ⟨fun _ => 0, 0⟩ = .ok r₁ ∧
      receiverInit soloVerifyConfig ⟨fun _ => 7, 0⟩ = .ok r₂ ∧
      Run.run (System.step soloConfig Crypto.rejecting.withBlake3) (System.start soloConfig r₁)
        soloRound = .ok s₁ ∧
      Run.run (System.step soloVerifyConfig Crypto.rejecting.withBlake3)
        (System.start soloVerifyConfig r₂) verifiedRound = .ok s₂ ∧
      ∀ k₁ (h₁ : k₁ < s₁.cluster.blocks.length) k₂ (h₂ : k₂ < s₂.cluster.blocks.length),
        s₁.cluster.blocks[k₁].block.merkleRoot = s₂.cluster.blocks[k₂].block.merkleRoot →
        ∃ round₁ round₂, s₁.cluster.dispatcher.rounds[k₁]? = some round₁ ∧
          s₂.cluster.dispatcher.rounds[k₂]? = some round₂ ∧
          (SameRound soloConfig.numShards round₁ round₂ ∨
            Failed Crypto.rejecting
              (blockInputs Crypto.rejecting.withBlake3 soloConfig.numShards round₁
                  s₁.cluster.blocks[k₁] ++
                blockInputs Crypto.rejecting.withBlake3 soloConfig.numShards round₂
                  s₂.cluster.blocks[k₂])
              (roundHashes soloConfig.numShards round₁ ++ roundHashes soloConfig.numShards round₂)) :=
  system_commits soloConfig soloVerifyConfig rfl (by decide) Crypto.rejecting ⟨fun _ => 0, 0⟩
    ⟨fun _ => 7, 0⟩ soloRound verifiedRound

/-! ## Addresses -/

/-- An address is the beginning of the hash of a key. -/
theorem pubkeyToAddress_toList (crypto : Crypto) (pubkey : PublicKey) :
    (pubkeyToAddress crypto.withBlake3 pubkey).toList =
      (codeHash pubkey.toList 32).toList.take 20 := by
  have hlen : ((codeHash pubkey.toList 32).toList.take 20).length = 20 := by simp
  show (Codec.takeVec 20 (codeHash pubkey.toList 32).toList).toList = _
  rw [← Codec.takeVec_take, Codec.toList_takeVec (Nat.le_of_eq hlen), hlen]
  exact List.append_nil _

/-- How a transaction in the name of the address of `pubkey` gets into a round. -/
inductive Spent (crypto : Crypto) (pubkey : PublicKey) (m : TxWithPubkey) : Prop where
  /-- The address is that of the coinbase, for which nothing is checked. -/
  | coinbase (h : txIsCoinbase m.tx = true)
  /-- It carries no key but zeros: then some signature will do. -/
  | keyless (hkey : isZero m.pubkey.toList = true) (hsig : isZero m.tx.signature.toList = false)
  | owner (hkey : m.pubkey = pubkey)
      (hsigned : walletVerify crypto pubkey
        (transactionComputeHash crypto.withBlake3 m.tx).toList m.tx.signature = true)
  /-- Two keys share the address. -/
  | collision (h : HashChain.Collision (shortCv 20)
      (compressions m.pubkey.toList ++ compressions pubkey.toList))

theorem spent_of_check {crypto : Crypto} {m : TxWithPubkey} {pubkey : PublicKey}
    (hcheck : checkTx crypto.withBlake3 m.tx m.pubkey = true)
    (hsource : m.tx.sourceAddress = pubkeyToAddress crypto.withBlake3 pubkey) :
    Spent crypto pubkey m := by
  rcases checkTx_cases hcheck with hcoinbase | ⟨hkey, hsig⟩ | hsigned
  · exact .coinbase hcoinbase
  · exact .keyless hkey hsig
  · by_cases hkey : m.pubkey = pubkey
    · exact .owner hkey (hkey ▸ hsigned.verified)
    · -- both keys have the address of the sender
      have haddress := hsigned.address.trans hsource
      apply Spent.collision
      apply codeHash_binding (n := 20) (k := 32) (by decide) (by decide)
      · intro heq
        exact hkey (Vector.toList_inj.mp heq)
      · rw [← pubkeyToAddress_toList crypto, ← pubkeyToAddress_toList crypto, haddress]

/-- With `--verify`, in any interleaving of everybody: whatever a shard is sent in the
name of the address of a key is signed under this key, or carries no key, or is in the
name of the coinbase, or two keys show a collision of the compression function. -/
theorem spends_authorised (cfg : Config) (hverify : cfg.verify = true)
    (hshards : cfg.numShards ≤ maxShards) (crypto : Crypto) (rand : Rand)
    (labels : List System.Label) :
    ∃ r s, receiverInit cfg rand = .ok r ∧
      Run.run (System.step cfg crypto.withBlake3) (System.start cfg r) labels = .ok s ∧
      ∀ round ∈ s.cluster.dispatcher.rounds, ∀ i < cfg.numShards,
        ∀ m ∈ sentTo i round.pushes, ∀ pubkey,
          m.tx.sourceAddress = pubkeyToAddress crypto.withBlake3 pubkey →
            Spent crypto pubkey m := by
  rcases system_checked hverify hshards crypto.withBlake3 rand labels with
    ⟨r, s, hinit, hrun, hinv, hchecked⟩
  refine ⟨r, s, hinit, hrun, ?_⟩
  intro round hround i hi m hm pubkey hsource
  exact spent_of_check (sentTo_checked hinv hchecked hround hi hm) hsource

/-- The batch of an honest client. -/
def signedBatch : TxBatch where
  rawTxs := [someTx]
  publicKey := somePublicKey
  nonempty := Nat.le_refl 1
  length_le := Nat.le_of_ble_eq_true rfl

/-- It is verified, pooled and sent. -/
def signedRound : List System.Label := [.send 0 signedBatch, .serve 0 true 0 0]

theorem spends_authorised_signed :
    ∃ r s, receiverInit soloVerifyConfig ⟨fun _ => 0, 0⟩ = .ok r ∧
      Run.run (System.step soloVerifyConfig someCrypto.withBlake3)
        (System.start soloVerifyConfig r) signedRound = .ok s ∧
      ∀ round ∈ s.cluster.dispatcher.rounds, ∀ i < soloVerifyConfig.numShards,
        ∀ m ∈ sentTo i round.pushes, ∀ pubkey,
          m.tx.sourceAddress = pubkeyToAddress someCrypto.withBlake3 pubkey →
            Spent someCrypto pubkey m :=
  spends_authorised soloVerifyConfig rfl (by decide) someCrypto ⟨fun _ => 0, 0⟩ signedRound

example : (receiverInit soloVerifyConfig ⟨fun _ => 0, 0⟩).toOption.bind (fun r =>
    (Run.run (System.step soloVerifyConfig someCrypto.withBlake3)
      (System.start soloVerifyConfig r) signedRound).toOption.map fun s =>
        s.cluster.dispatcher.rounds.map fun round =>
          (sentTo 0 round.pushes).map TxWithPubkey.pubkey) =
    some [[somePublicKey]] := by decide +kernel

end Sharding
