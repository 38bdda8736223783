import Sharding.Blake3
import Sharding.Cluster
import Sharding.Receiver
import Sharding.Wallet

/-! # Honest transactions verify

A transaction signed with a wallet's own key is verified three times: by whoever
asks, by the receiver under `--verify`, and by the worker of its shard. In between it
is packed, parsed, pooled, copied and buffered. Hash and address are computed anew
each time, so all of this must leave its bytes and the key it travels with alone.
-/

namespace Sharding

open ParallelFor

/-! ## At the wallet -/

/-- A wallet that one of the constructors returned. -/
inductive Created (crypto : Crypto) (keys : KeyApi) : Wallet → Prop where
  | random (generated : Option EvpKey) (wallet : Wallet)
      (h : walletCreate crypto keys generated = some wallet) : Created crypto keys wallet
  | named (name : Bytes) (wallet : Wallet)
      (h : walletCreateNamed crypto keys name = some wallet) : Created crypto keys wallet

/-- Under the public key of a key verifies what the key signs. -/
def Ed25519Correct (crypto : Crypto) (keys : KeyApi) : Prop :=
  ∀ key publicKey message sig, keys.getRawPublicKey key = some publicKey →
    crypto.ed25519Sign key message = some sig →
    crypto.ed25519Verify publicKey message sig = true

variable {crypto : Crypto} {keys : KeyApi} {wallet : Wallet}

/-- What ties the fields of a wallet together. -/
structure KeyedWallet (crypto : Crypto) (keys : KeyApi) (wallet : Wallet) (key : EvpKey) : Prop where
  evpKey : wallet.evpKey = some key
  publicKey : keys.getRawPublicKey key = some wallet.publicKey
  address : pubkeyToAddress crypto wallet.publicKey = wallet.address

theorem walletOfKey_keyed {handle : Option EvpKey} (h : walletOfKey crypto keys handle = some wallet) :
    ∃ key, KeyedWallet crypto keys wallet key := by
  cases handle with
  | none => cases h
  | some key =>
      cases hpublic : keys.getRawPublicKey key with
      | none =>
          rw [walletOfKey, hpublic] at h
          cases h
      | some publicKey =>
          rw [walletOfKey, hpublic] at h
          obtain rfl := Option.some.inj h
          exact ⟨key, rfl, hpublic, rfl⟩

theorem Created.keyed (h : Created crypto keys wallet) : ∃ key, KeyedWallet crypto keys wallet key := by
  cases h with
  | random generated _ h => exact walletOfKey_keyed h
  | named name _ h => exact walletOfKey_keyed h

/-- The hash does not cover the signature. -/
theorem computeHash_congr {a b : Transaction} (h : SameContent a b) :
    transactionComputeHash crypto a = transactionComputeHash crypto b := by
  have hbuffer : hashBuffer a = hashBuffer b := by
    rw [hashBuffer, hashBuffer, h.nonce, h.expiryBlock, h.sourceAddress, h.destAddress, h.value, h.fee]
  rw [transactionComputeHash, transactionComputeHash, hbuffer]

theorem create_sameContent (destAddress : Address) (value : UInt64) (fee : UInt32) (nonce : UInt64)
    (expiryBlock : UInt32) :
    SameContent (transactionCreate crypto wallet destAddress value fee nonce expiryBlock)
      ⟨nonce, expiryBlock, wallet.address, destAddress, value, fee, zeros 64⟩ :=
  transactionSign_sameContent crypto _ wallet

/-- With a key that signs, a new transaction carries the signature. -/
theorem create_signature {destAddress : Address} {value : UInt64} {fee : UInt32} {nonce : UInt64}
    {expiryBlock : UInt32} {tx : Transaction}
    (htx : tx = transactionCreate crypto wallet destAddress value fee nonce expiryBlock) {key : EvpKey}
    (hkey : wallet.evpKey = some key) {sig : Signature}
    (hsign : walletSign crypto wallet (transactionComputeHash crypto tx).toList = some sig) :
    tx.signature = sig := by
  subst htx
  rw [computeHash_congr (create_sameContent destAddress value fee nonce expiryBlock)] at hsign
  rw [transactionCreate, transactionSign]
  simp only [hkey, hsign]

/-- A signed transaction verifies under the wallet's key. -/
theorem create_verifies (hcreated : Created crypto keys wallet) (hcorrect : Ed25519Correct crypto keys)
    {destAddress : Address} {value : UInt64} {fee : UInt32} {nonce : UInt64} {expiryBlock : UInt32}
    {tx : Transaction}
    (htx : tx = transactionCreate crypto wallet destAddress value fee nonce expiryBlock)
    (hsign : (walletSign crypto wallet (transactionComputeHash crypto tx).toList).isSome = true)
    (hkey : isZero wallet.publicKey.toList = false) (hsig : isZero tx.signature.toList = false) :
    transactionVerifyEd25519 crypto tx wallet.publicKey = true := by
  rcases hcreated.keyed with ⟨key, hkeyed⟩
  rcases Option.isSome_iff_exists.mp hsign with ⟨sig, hsigned⟩
  have hsource : tx.sourceAddress = wallet.address := by
    rw [htx]
    exact (create_sameContent destAddress value fee nonce expiryBlock).sourceAddress
  have hsignature := create_signature htx hkeyed.evpKey hsigned
  have hverify : walletVerify crypto wallet.publicKey (transactionComputeHash crypto tx).toList
      tx.signature = true := by
    rw [walletSign, hkeyed.evpKey] at hsigned
    rw [hsignature]
    exact hcorrect _ _ _ _ hkeyed.publicKey hsigned
  have haddress : (pubkeyToAddress crypto wallet.publicKey != tx.sourceAddress) = false := by
    rw [hkeyed.address, hsource]
    exact bne_self_eq_false _
  rw [transactionVerifyEd25519, hkey, hsig, haddress, hverify]
  simp

/-! ## At the receiver -/

/-- The receiver takes `tx` out of any batch as it was put in, verifies it, and pools it
with its key while there is room. -/
def ReceiverAccepts (crypto : Crypto) (tx : Transaction) (pubkey : PublicKey) : Prop :=
  ∀ before after : List Transaction, (before ++ tx :: after).length ≤ 256 →
    ∃ b pts pt pts', parseMessage (batchMessage (before ++ tx :: after) pubkey) =
        .ok (.batch (some b)) ∧
      b.transactions = pts ++ pt :: pts' ∧ pts.length = before.length ∧
      transactionVerifyEd25519 crypto (pbToTx pt) (pubkeyOf pt) = true ∧
      ∀ (core : Dispatcher) (tally : Tally),
        (admitTx crypto true (core, tally) pt).2.rejected = tally.rejected ∧
          (core.pool.count < core.pool.capacity →
            (admitTx crypto true (core, tally) pt).2.accepted = tally.accepted + 1 ∧
              (admitTx crypto true (core, tally) pt).1.pool.held =
                core.pool.held ++ [⟨⟨core.adds, tx⟩, pubkey⟩])

/-- What verifies at the wallet verifies at the receiver. -/
theorem receiver_accepts {tx : Transaction} {pubkey : PublicKey} (hkey : isZero pubkey.toList = false)
    (h : transactionVerifyEd25519 crypto tx pubkey = true) : ReceiverAccepts crypto tx pubkey := by
  intro before after hle
  have hpos : 1 ≤ (before ++ tx :: after).length := by
    rw [List.length_append, List.length_cons]
    omega
  have htx := pbToTx_generatorPb tx pubkey
  have hpk := pubkeyOf_generatorPb tx pubkey
  have hpass : passes crypto true (generatorPb tx pubkey) = true := by
    rw [passes, htx, hpk, checkTx, hkey, h]
    rfl
  refine ⟨_, before.map (generatorPb · pubkey), generatorPb tx pubkey,
    after.map (generatorPb · pubkey), parseMessage_batchMessage pubkey hpos hle, ?_,
    List.length_map _, ?_, ?_⟩
  · rw [generatorBatch, List.map_append, List.map_cons]
  · rw [htx, hpk]
    exact h
  · intro core tally
    rw [admit_passed hpass, htx, hpk]
    constructor
    · split <;> rfl
    · intro hroom
      rcases add_room tx (some pubkey) hroom with ⟨pool, hadd, hheld, -⟩
      rw [hadd]
      exact ⟨rfl, hheld⟩

/-! ## At the worker -/

/-- The transactions of a share, whatever else is in front of it. -/
theorem txsOf_share {front : List Frame} (htxs : txsOf front = []) (number : UInt32)
    (msgs : List TxWithPubkey) : txsOf (front ++ shareFrames number msgs) = msgs := by
  rw [txsOf_append, htxs, List.nil_append, txsOf_shareFrames]

/-- A share behind frames that carry no part of a round. -/
def shareRound (front : List Frame) (htxs : txsOf front = []) (hends : endsOf front = [])
    (number : UInt32) (msgs : List TxWithPubkey) (hsmall : msgs.length < 2 ^ 32) : RoundFrames where
  before := front ++ msgs.map .tx
  last := .roundEnd ⟨number, UInt32.ofNat msgs.length⟩
  marker := ⟨number, UInt32.ofNat msgs.length⟩
  isMessage := rfl
  ends := by
    rw [List.append_assoc, endsOf_append, hends]
    exact endsOf_shareFrames number msgs
  counted := by
    have hmsgs := txsOf_share htxs number msgs
    rw [shareFrames] at hmsgs
    rw [List.append_assoc, hmsgs]
    exact UInt32.toNat_ofNat_of_lt' hsmall

theorem shareRound_events {front : List Frame} (htxs : txsOf front = []) (hends : endsOf front = [])
    (number : UInt32) {msgs : List TxWithPubkey} (hsmall : msgs.length < 2 ^ 32) :
    (shareRound front htxs hends number msgs hsmall).events =
        front.map Frame.event ++ (shareFrames number msgs).map Frame.event ∧
      (shareRound front htxs hends number msgs hsmall).msgs = msgs := by
  have hframes : (shareRound front htxs hends number msgs hsmall).before ++
      [(shareRound front htxs hends number msgs hsmall).last] = front ++ shareFrames number msgs :=
    List.append_assoc front _ _
  constructor
  · rw [RoundFrames.events, hframes, List.map_append]
  · rw [RoundFrames.msgs, hframes, txsOf_share htxs]

/-- The header is neither a transaction nor a marker, by its size. -/
def headerFrame (header : DispatchHeader) : Frame :=
  .other (DispatchHeader.codec.enc header)
    (by rw [DispatchHeader.codec.enc_length]; decide)
    (by rw [DispatchHeader.codec.enc_length]; decide)

/-- What a dispatch sends to a shard is a complete round. -/
theorem roundBytes_complete {numShards i k : Nat} {round : Dispatch} (hi : i < numShards)
    (hround : RoundOk numShards k round) (hbound : round.drained.length ≤ mempoolMaxSize) :
    ∃ r : RoundFrames, r.events = (roundBytes i round).map some ∧ r.msgs.length < 2 ^ 31 := by
  rcases roundBytes_eq hi hround with ⟨roundStartMs, hbytes⟩
  have hfew : ((shareList numShards i round.drained).map Entry.message).length < 2 ^ 31 := by
    have hshare : (shareList numShards i round.drained).length ≤ round.drained.length :=
      List.length_filter_le _ _
    rw [List.length_map]
    unfold mempoolMaxSize at hbound
    omega
  have hsmall := Nat.lt_trans hfew (show 2 ^ 31 < 2 ^ 32 by decide)
  have hfront : ∀ front : List Frame, txsOf front = [] → endsOf front = [] →
      (roundBytes i round).map some = front.map Frame.event ++
        (shareFrames (UInt32.ofNat (k + 1))
          ((shareList numShards i round.drained).map Entry.message)).map Frame.event →
      ∃ r : RoundFrames, r.events = (roundBytes i round).map some ∧ r.msgs.length < 2 ^ 31 := by
    intro front htxs hends hfront
    rcases shareRound_events htxs hends (UInt32.ofNat (k + 1)) hsmall with ⟨hevents, hmsgs⟩
    exact ⟨_, hevents.trans hfront.symm, by rw [hmsgs]; exact hfew⟩
  by_cases h0 : i = 0
  · rw [if_pos h0] at hbytes
    exact hfront [headerFrame ⟨roundStartMs, UInt32.ofNat (k + 1), UInt32.ofNat numShards⟩]
      rfl rfl hbytes
  · rw [if_neg h0] at hbytes
    exact hfront [] rfl rfl hbytes

/-- In a worker that receives `events` and then `rest`, the loop ends behind `events`, the
summary comes out, and some thread has an iteration in which it loads `tx` and `pubkey`
from the buffers and the full check of the one under the other passes. -/
def VerifiedAmong (crypto : Crypto) (tx : Transaction) (pubkey : PublicKey)
    (events : List (Option Bytes)) : Prop :=
  ∀ (shardId : UInt32) (schedule : (k : Nat) → Schedule k) (rest : List (Option Bytes)),
    ∃ st summary, recvLoop (events ++ rest) recvInit = .ok (st, rest) ∧
      processTransactions crypto shardId schedule (events ++ rest) = .ok (summary, rest) ∧
      ∃ thread i, (thread, i) ∈ (schedule (loopBound st.bufCount)).steps ∧
        st.txBuf.load i = some tx ∧ st.pubkeyBuf.load i = some pubkey ∧
        checkBuffered crypto st i = .ok (tx, transactionVerifyEd25519 crypto tx pubkey) ∧
        checkBuffered crypto st i = .ok (tx, true)

/-- A pooled `tx` that is dispatched is pushed to its shard with its key, in a complete
round; and a worker verifies it under this key in every complete round that carries
these bytes. -/
def WorkerAccepts (crypto : Crypto) (tx : Transaction) (pubkey : PublicKey) : Prop :=
  ∀ (sa : ShardAssigner) (pool : Mempool) (roundStartMs : UInt64) (blockSize : Nat)
    (durationMs : UInt64) (e : Entry),
    e ∈ pool.held.take (roundSize blockSize sa.numShards) → e.ptr.tx = tx → e.pubkey = pubkey →
    (∃ sa' pool' round,
        shardAssignerDispatch sa pool roundStartMs blockSize durationMs = .ok (sa', pool', round) ∧
        ⟨shardOf sa.numShards e, .tx e⟩ ∈ round.pushes ∧
        VerifiedAmong crypto tx pubkey ((roundBytes (shardOf sa.numShards e) round).map some)) ∧
      ∀ r : RoundFrames, r.msgs.length < 2 ^ 31 → some (PushMsg.tx e).bytes ∈ r.events →
        VerifiedAmong crypto tx pubkey r.events

/-- A transaction on the wire is among those of its round. -/
theorem mem_msgs {r : RoundFrames} {m : TxWithPubkey}
    (h : some (TxWithPubkey.codec.enc m) ∈ r.events) : m ∈ r.msgs := by
  have hlen : (TxWithPubkey.codec.enc m).length = 160 := TxWithPubkey.codec.enc_length m
  rw [RoundFrames.msgs, ← received_frames, received, List.mem_filterMap]
  refine ⟨_, h, ?_⟩
  simp [hlen, Codec.dec_enc_self]

/-- Every message of a round is buffered, and some thread checks what is buffered. -/
theorem round_verified {tx : Transaction} {pubkey : PublicKey} (hkey : isZero pubkey.toList = false)
    (h : transactionVerifyEd25519 crypto tx pubkey = true) {r : RoundFrames}
    (hsmall : r.msgs.length < 2 ^ 31) (hmem : ⟨tx, pubkey⟩ ∈ r.msgs) :
    VerifiedAmong crypto tx pubkey r.events := by
  intro shardId schedule rest
  rcases recvLoop_round r hsmall rest with ⟨st, hrecv, hcount, htxs, hkeys⟩
  refine ⟨st, _, hrecv, processTransactions_round crypto shardId schedule r rest hsmall, ?_⟩
  -- its place in the round is its place in both buffers
  rcases List.getElem_of_mem hmem with ⟨i, hi, hget⟩
  have htx : st.txBuf.load i = some tx := by
    rw [htxs.load i (by rwa [List.length_map]), List.getElem_map, hget]
  have hpubkey : st.pubkeyBuf.load i = some pubkey := by
    rw [hkeys.load i (by rwa [List.length_map]), List.getElem_map, hget]
  have hcheck : checkBuffered crypto st i = .ok (tx, transactionVerifyEd25519 crypto tx pubkey) := by
    simp [checkBuffered, htx, hpubkey, checkTx, hkey]
  -- the loop covers all that is buffered
  have hbound : loopBound st.bufCount = r.msgs.length := by
    rw [loopBound, if_pos (by omega), hcount]
  have hvisited : i ∈ (schedule (loopBound st.bufCount)).steps.map Prod.snd := by
    apply (schedule (loopBound st.bufCount)).indices.symm.subset
    rw [hbound]
    exact List.mem_range.mpr hi
  rcases List.mem_map.mp hvisited with ⟨⟨thread, j⟩, hstep, rfl⟩
  exact ⟨thread, j, hstep, htx, hpubkey, hcheck, by rw [hcheck, h]⟩

theorem worker_accepts {tx : Transaction} {pubkey : PublicKey} (hkey : isZero pubkey.toList = false)
    (h : transactionVerifyEd25519 crypto tx pubkey = true) : WorkerAccepts crypto tx pubkey := by
  rintro sa pool roundStartMs blockSize durationMs e he rfl rfl
  have hcarried : ∀ r : RoundFrames, r.msgs.length < 2 ^ 31 →
      some (PushMsg.tx e).bytes ∈ r.events → VerifiedAmong crypto e.ptr.tx e.pubkey r.events :=
    fun r hsmall hmem => round_verified hkey h hsmall (mem_msgs hmem)
  refine ⟨?_, hcarried⟩
  obtain ⟨sa', pool', round, hdispatch, hdrained, hpushes⟩ : ∃ sa' pool' round,
      shardAssignerDispatch sa pool roundStartMs blockSize durationMs = .ok (sa', pool', round) ∧
        round.drained = pool.held.take (roundSize blockSize sa.numShards) ∧
        round.pushes = pushesOf sa.numShards roundStartMs (sa.roundNumber + 1) round.drained :=
    ⟨_, _, _, shardAssignerDispatch_eq sa pool roundStartMs blockSize durationMs, rfl, rfl⟩
  have hpushed : ⟨shardOf sa.numShards e, .tx e⟩ ∈ round.pushes := by
    rw [hpushes, tx_mem_pushesOf, hdrained]
    exact ⟨he, rfl⟩
  refine ⟨sa', pool', round, hdispatch, hpushed, ?_⟩
  have hround : RoundOk sa.numShards sa.roundNumber.toNat round := by
    refine ⟨roundStartMs, ?_⟩
    rw [UInt32.ofNat_add, UInt32.ofNat_toNat]
    exact hpushes
  have hbound : round.drained.length ≤ mempoolMaxSize := by
    rw [hdrained]
    exact Nat.le_trans (List.length_take_le' _ _) pool.held_length_le
  rcases roundBytes_complete (shardOf_lt sa.numShards_pos e) hround hbound with
    ⟨r, hevents, hsmall⟩
  rw [← hevents]
  apply hcarried r hsmall
  -- the push is one of the bytes sent to this shard
  rw [hevents]
  apply List.mem_map_of_mem
  apply List.mem_map_of_mem
  exact List.mem_map.mpr ⟨_, List.mem_filter.mpr ⟨hpushed, beq_self_eq_true _⟩, rfl⟩

/-! ## Everywhere -/

/-- A transaction of a wallet verifies at the wallet, at the receiver and at its worker. -/
theorem honest_verifies (hcreated : Created crypto keys wallet) (hcorrect : Ed25519Correct crypto keys)
    (destAddress : Address) (value : UInt64) (fee : UInt32) (nonce : UInt64) (expiryBlock : UInt32)
    {tx : Transaction}
    (htx : tx = transactionCreate crypto wallet destAddress value fee nonce expiryBlock)
    (hsign : (walletSign crypto wallet (transactionComputeHash crypto tx).toList).isSome = true)
    (hkey : isZero wallet.publicKey.toList = false) (hsig : isZero tx.signature.toList = false) :
    transactionVerifyEd25519 crypto tx wallet.publicKey = true ∧
      ReceiverAccepts crypto tx wallet.publicKey ∧ WorkerAccepts crypto tx wallet.publicKey := by
  have hverify := create_verifies hcreated hcorrect htx hsign hkey hsig
  exact ⟨hverify, receiver_accepts hkey hverify, worker_accepts hkey hverify⟩

/-! ## One key -/

/-- The hash of the code, with its own compression function. -/
def codeHash (data : Bytes) (n : Nat) : Vector UInt8 n :=
  match Blake3.blake3Truncated Blake3.compress data n with
  | .ok o => Codec.takeVec n o.out
  | .error _ => zeros n

/-- An Ed25519 private key. -/
def someKey : EvpKey :=
  #v[157, 97, 177, 157, 239, 253, 90, 96, 186, 132, 74, 244, 146, 236, 44, 196, 68, 73, 197, 105,
    123, 50, 105, 25, 112, 59, 172, 3, 28, 174, 127, 96]

/-- Its public key. -/
def somePublicKey : PublicKey :=
  #v[215, 90, 152, 1, 130, 177, 10, 183, 213, 75, 254, 211, 201, 100, 7, 58, 14, 225, 114, 243,
    218, 166, 35, 37, 175, 2, 26, 104, 247, 7, 81, 26]

/-- What it signs the hash of `someTx` with. -/
def someSignature : Signature :=
  #v[89, 95, 96, 159, 22, 35, 215, 138, 190, 187, 67, 126, 126, 36, 108, 60, 77, 249, 178, 110,
    189, 113, 76, 100, 182, 107, 211, 31, 165, 74, 128, 241, 42, 56, 242, 190, 60, 64, 136, 21,
    28, 242, 139, 217, 212, 69, 11, 96, 42, 112, 21, 17, 123, 60, 89, 12, 248, 71, 222, 190, 78,
    42, 146, 15]

/-- The hash of the code, and Ed25519 as far as one key and one signature go. -/
def someCrypto : Crypto where
  sha256 _ := zeros 32
  blake3Hash data := codeHash data 32
  blake3HashTruncated data n := codeHash data n
  ed25519Sign key _ := if key = someKey then some someSignature else none
  ed25519Verify pubkey _ sig := pubkey == somePublicKey && sig == someSignature

def someKeys : KeyApi where
  newRawPrivateKey seed := some seed
  getRawPublicKey key := if key = someKey then some somePublicKey else none

/-- The wallet of the key. -/
def someWallet : Wallet :=
  ⟨walletDeriveAddress someCrypto somePublicKey, somePublicKey, some someKey⟩

/-- Five units to the zero address. -/
def someTx : Transaction := transactionCreate someCrypto someWallet (zeros 20) 5 1 0 1000

theorem honest_verifies_some :
    transactionVerifyEd25519 someCrypto someTx somePublicKey = true ∧
      ReceiverAccepts someCrypto someTx somePublicKey ∧
      WorkerAccepts someCrypto someTx somePublicKey := by
  have hcreated : Created someCrypto someKeys someWallet := by
    apply Created.random (some someKey)
    simp [walletCreate, walletOfKey, someKeys, someWallet]
  have hcorrect : Ed25519Correct someCrypto someKeys := by
    intro key publicKey message sig hpublic hsign
    simp only [someKeys, someCrypto] at hpublic hsign ⊢
    split at hpublic
    · rename_i hkey
      rw [if_pos hkey] at hsign
      rw [← Option.some.inj hpublic, ← Option.some.inj hsign, beq_self_eq_true, beq_self_eq_true]
      rfl
    · cases hpublic
  have hsignature : someTx.signature = someSignature :=
    create_signature rfl rfl (by simp [walletSign, someCrypto, someWallet])
  refine honest_verifies hcreated hcorrect (zeros 20) 5 1 0 1000 rfl ?_ (by decide) ?_
  · simp [walletSign, someCrypto, someWallet]
  · rw [hsignature]
    decide

end Sharding
