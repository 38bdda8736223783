import Sharding.Receiver

/-! # What happens to a transaction on its way through the receiver

Two questions about whole runs of the receiver. Is an admitted transaction ever
lost? A dispatch drains at most `roundSize` transactions and then empties the
pool, so nothing is lost exactly as long as no batch lifts the pool beyond that.
And what does `--verify` promise about the transactions that got in? Each of
them passed `checkTx`, which lets coinbase transactions and transactions without
a key through on less than a signature by the sender.
-/

namespace Sharding

/-! ## Start-up -/

theorem setupNodes_ok {is : List Nat} (his : ∀ i ∈ is, i < maxNodes) :
    ∀ s : List Node × Rand, ∃ s', Run.run setupNode s is = .ok s' ∧
      s'.1.length = s.1.length + is.length := by
  induction is with
  | nil =>
      intro s
      exact ⟨s, rfl, rfl⟩
  | cons i is ih =>
      intro s
      have hi : i < maxNodes := his i List.mem_cons_self
      rcases ih (fun j hj => his j (List.mem_cons_of_mem i hj))
        (s.1 ++ [nodeCreate (UInt32.ofNat i) (100 + s.2.next.1 % 900)], s.2.next.2) with
        ⟨s', hrun, hlen⟩
      have hone : setupNode s i =
          .ok (s.1 ++ [nodeCreate (UInt32.ofNat i) (100 + s.2.next.1 % 900)], s.2.next.2) := by
        unfold setupNode
        exact if_pos hi
      refine ⟨s', ?_, ?_⟩
      · rw [Run.run, hone]
        exact hrun
      · simp only [List.length_append, List.length_cons, List.length_nil] at hlen ⊢
        omega

/-- The loop starts with an empty pool and a node for every shard. -/
theorem receiverInit_ok (cfg : Config) (rand : Rand) :
    ∃ r, receiverInit cfg rand = .ok r ∧
      r.core = Dispatcher.create mempoolMaxSize cfg.numShards ∧
      r.nodes.length = cfg.numShards := by
  have hrange : ∀ i ∈ List.range cfg.numShards, i < maxNodes := by
    intro i hi
    exact Nat.lt_of_lt_of_le (List.mem_range.mp hi) cfg.numShards_le
  rcases setupNodes_ok hrange ([], rand) with ⟨⟨nodes, rand'⟩, hrun, hlen⟩
  refine ⟨⟨_, nodes, rand', 0⟩, ?_, rfl, ?_⟩
  · unfold receiverInit setupNodes
    rw [hrun]
    rfl
  · rw [hlen, List.length_range, List.length_nil, Nat.zero_add]

theorem receiverInit_inv (cfg : Config) (hshards : cfg.numShards ≤ maxShards) (rand : Rand) :
    ∃ r, receiverInit cfg rand = .ok r ∧
      r.core = Dispatcher.create mempoolMaxSize cfg.numShards ∧
      ReceiverInv cfg r ∧ Kept cfg.numShards r.core := by
  rcases receiverInit_ok cfg rand with ⟨r, hinit, hcore, hnodes⟩
  refine ⟨r, hinit, hcore, ⟨?_, hnodes, ?_⟩, ?_⟩
  · rw [hcore]
    exact create_inv mempoolMaxSize cfg.numShards_pos hshards
  · rw [hcore]
    exact cfg.blockSize_pos
  · rw [hcore]
    exact create_kept mempoolMaxSize cfg.numShards

/-! ## Loss -/

/-- How full the pool is once the transactions of `a` have been admitted. -/
def pooled (cfg : Config) (crypto : Crypto) (r : Receiver) (a : Arrival) : Nat :=
  min (r.core.pool.count + a.incoming.txs.countP (passes crypto cfg.verify)) r.core.pool.capacity

/-- If the message makes a block due, the pool does not hold more than one round. -/
def NoOvershoot (cfg : Config) (crypto : Crypto) (r : Receiver) (a : Arrival) : Prop :=
  cfg.blockSize ≤ pooled cfg crypto r a →
    pooled cfg crypto r a ≤ roundSize cfg.blockSize cfg.numShards

theorem admitBatch_count {cfg : Config} {crypto : Crypto} {r : Receiver} {a : Arrival}
    {batch : Option PbBatch} (hin : a.incoming = .batch batch) :
    (admitBatch crypto cfg.verify r.core batch).1.pool.count = pooled cfg crypto r a := by
  rw [admitBatch_eq, pooled, hin]
  exact (admitAll_counted crypto cfg.verify _ (r.core, ⟨0, 0⟩)).count

theorem admitBatch_kept {cfg : Config} {core : Dispatcher} (hkept : Kept cfg.numShards core)
    (crypto : Crypto) (batch : Option PbBatch) :
    Kept cfg.numShards (admitBatch crypto cfg.verify core batch).1 := by
  rw [admitBatch_eq]
  apply admitAll_induct (Kept cfg.numShards)
  · intro d pt _ hd
    exact add_kept hd _ _
  · exact hkept

/-- One message loses nothing exactly when it does not overshoot. -/
theorem receiverStep_kept_iff {cfg : Config} {r : Receiver} (hinv : ReceiverInv cfg r)
    (hkept : Kept cfg.numShards r.core) (crypto : Crypto) (a : Arrival) :
    ∃ r', receiverStep cfg crypto r a = .ok r' ∧ ReceiverInv cfg r' ∧
      (Kept cfg.numShards r'.core ↔ NoOvershoot cfg crypto r a) := by
  rcases receive_ok hinv crypto a with ⟨r', reply, hok, hinv', hhandled⟩
  refine ⟨r', ?_, hinv', ?_⟩
  · rw [receiverStep, hok]
    rfl
  -- below the block size no dispatch is due, so nothing can overshoot
  have hsmall : ∀ n < cfg.blockSize, n = pooled cfg crypto r a → NoOvershoot cfg crypto r a := by
    intro n hlt heq hdue
    omega
  cases hhandled with
  | unknown hin =>
      have hcount : r.core.pool.count = pooled cfg crypto r a := by
        have hle := r.core.pool.count_le
        rw [pooled, hin]
        show r.core.pool.count = min (r.core.pool.count + 0) r.core.pool.capacity
        omega
      exact ⟨fun _ => hsmall _ hinv.waiting hcount, fun _ => hkept⟩
  | waits batch hin r' hcore hcount =>
      have hkept' : Kept cfg.numShards r'.core := by
        rw [hcore]
        exact admitBatch_kept hkept crypto batch
      have hpooled : r'.core.pool.count = pooled cfg crypto r a := by
        rw [hcore]
        exact admitBatch_count hin
      exact ⟨fun _ => hsmall _ hcount hpooled, fun _ => hkept'⟩
  | dispatches batch hin r' hdue hdispatch =>
      rw [dispatch_kept_iff (admitBatch_inv hinv.core crypto batch)
        (admitBatch_kept hkept crypto batch) hdispatch, admitBatch_count hin]
      rw [admitBatch_count hin] at hdue
      exact ⟨fun h _ => h, fun h => h hdue⟩

/-- Every admitted transaction is in the pool or with its shard, in all states
between two messages, if and only if no message overshoots. -/
theorem kept_iff_no_overshoot (cfg : Config) (hshards : cfg.numShards ≤ maxShards)
    (crypto : Crypto) (rand : Rand) (arrivals : List Arrival) :
    ∃ r, receiverInit cfg rand = .ok r ∧
      (Run.Always (receiverStep cfg crypto) (fun r => Kept cfg.numShards r.core) r arrivals ↔
        Run.EachStep (receiverStep cfg crypto) (NoOvershoot cfg crypto) r arrivals) := by
  rcases receiverInit_inv cfg hshards rand with ⟨r, hinit, -, hinv, hkept⟩
  refine ⟨r, hinit, ?_⟩
  apply Run.always_iff_eachStep (ReceiverInv cfg) (fun r => Kept cfg.numShards r.core)
  · intro s a hs hks hfits
    rcases receiverStep_kept_iff hs hks crypto a with ⟨s', hok, hs', hiff⟩
    exact ⟨s', hok, hs', hiff.mpr hfits⟩
  · intro s a s' hs hks hok hks'
    rcases receiverStep_kept_iff hs hks crypto a with ⟨t, hok', -, hiff⟩
    obtain rfl : s' = t := Except.ok.inj (hok.symm.trans hok')
    exact hiff.mp hks'
  · exact hinv
  · exact hkept

/-- The receiver without options. -/
def defaultConfig : Config :=
  ⟨48, 256, false, by decide, by decide, by decide, by decide⟩

/-- A batch of 256 transactions, as many as the block size. -/
def fullBatch : Arrival :=
  ⟨.batch (some ⟨List.replicate 256 ⟨0, 0, [], [], 0, 0, [], []⟩, 256⟩), 0, 0⟩

theorem kept_iff_no_overshoot_default :
    ∃ r, receiverInit defaultConfig ⟨fun _ => 0, 0⟩ = .ok r ∧
      (Run.Always (receiverStep defaultConfig Crypto.rejecting)
          (fun r => Kept defaultConfig.numShards r.core) r [fullBatch] ↔
        Run.EachStep (receiverStep defaultConfig Crypto.rejecting)
          (NoOvershoot defaultConfig Crypto.rejecting) r [fullBatch]) :=
  kept_iff_no_overshoot defaultConfig (by decide) Crypto.rejecting ⟨fun _ => 0, 0⟩ [fullBatch]

/-- With the default options a batch of 256 loses transactions: 48 shards take 240. -/
theorem full_batch_loses :
    ¬ ∀ (cfg : Config), cfg.numShards ≤ maxShards →
      ∀ (crypto : Crypto) (rand : Rand) (arrivals : List Arrival),
        ∃ r, receiverInit cfg rand = .ok r ∧
          Run.Always (receiverStep cfg crypto) (fun r => Kept cfg.numShards r.core) r arrivals := by
  intro hclaim
  rcases hclaim defaultConfig (by decide) Crypto.rejecting ⟨fun _ => 0, 0⟩ [fullBatch] with
    ⟨r, hinit, -, r', hok, hkept'⟩
  rcases receiverInit_inv defaultConfig (by decide) ⟨fun _ => 0, 0⟩ with
    ⟨r₁, hinit₁, hcore, hinv, hkept⟩
  obtain rfl : r = r₁ := Except.ok.inj (hinit.symm.trans hinit₁)
  rcases receiverStep_kept_iff hinv hkept Crypto.rejecting fullBatch with ⟨r₂, hok₂, -, hiff⟩
  obtain rfl : r' = r₂ := Except.ok.inj (hok.symm.trans hok₂)
  have hpooled : pooled defaultConfig Crypto.rejecting r fullBatch = 256 := by
    have htxs : fullBatch.incoming.txs = List.replicate 256 ⟨0, 0, [], [], 0, 0, [], []⟩ := rfl
    rw [pooled, hcore, htxs, List.countP_replicate]
    rfl
  have hround : roundSize defaultConfig.blockSize defaultConfig.numShards = 240 := by decide
  have hfits := hiff.mp hkept'
  rw [NoOvershoot, hpooled, hround] at hfits
  exact absurd (hfits (by decide)) (by decide)

/-! ## Verification on admission -/

/-- No key: the field is missing or cut short, or its first 32 bytes are zero. -/
def NoKey (pt : PbTransaction) : Prop :=
  pt.publicKey.length < 32 ∨ isZero (pt.publicKey.take 32) = true

/-- Whether the receiver finds the key all zero. -/
theorem pubkeyOf_isZero_iff (pt : PbTransaction) :
    isZero (pubkeyOf pt).toList = true ↔ NoKey pt := by
  have hzeros : isZero (zeros 32).toList = true := by decide
  rw [pubkeyOf, copyField, NoKey]
  by_cases hlong : pt.publicKey.length ≥ 32
  · have hshort : ¬ pt.publicKey.length < 32 := Nat.not_lt.mpr hlong
    rw [if_pos hlong, ← takeVec_eq_zeros_iff]
    constructor
    · intro hzero
      exact Or.inr (eq_zeros_of_isZero hzero)
    · rintro (hlt | heq)
      · exact absurd hlt hshort
      · rw [heq]
        exact hzeros
  · rw [if_neg hlong]
    exact ⟨fun _ => Or.inl (Nat.not_le.mp hlong), fun _ => hzeros⟩

/-- A key that came along is the one that is used. -/
theorem pubkeyOf_eq {pt : PbTransaction} (h : ¬ NoKey pt) :
    32 ≤ pt.publicKey.length ∧ pubkeyOf pt = Codec.takeVec 32 pt.publicKey := by
  have hlong : 32 ≤ pt.publicKey.length := by
    by_contra hshort
    exact h (Or.inl (Nat.not_le.mp hshort))
  exact ⟨hlong, if_pos hlong⟩

/-- What `--verify` establishes about a transaction, in terms of the message that brought
it: it is in the name of the coinbase, or came with no key and some byte of a signature
that is not zero, or is signed by its sender under the key it came with. -/
inductive Admissible (crypto : Crypto) (pt : PbTransaction) : Prop where
  | coinbase (h : (pbToTx pt).sourceAddress = coinbaseAddress) : Admissible crypto pt
  | keyless (hkey : NoKey pt) (hsig : isZero (pt.signature.take 64) = false) :
      Admissible crypto pt
  | signed (hkey : 32 ≤ pt.publicKey.length)
      (h : SignedBySender crypto (pbToTx pt) (Codec.takeVec 32 pt.publicKey)) :
      Admissible crypto pt

/-- The basic check of `tx`, made on what came with a message. -/
theorem signature_of_transactionVerify {pt : PbTransaction} (hcb : txIsCoinbase (pbToTx pt) = false)
    (h : transactionVerify (pbToTx pt) = true) : isZero (pt.signature.take 64) = false := by
  rw [transactionVerify, hcb, if_neg Bool.false_ne_true, pbToTx_signature] at h
  rw [← Bool.not_eq_true]
  intro hzero
  rw [takeVec_eq_zeros_iff.mpr hzero] at h
  revert h
  decide

theorem admissible_of_check {crypto : Crypto} {pt : PbTransaction}
    (h : checkTx crypto (pbToTx pt) (pubkeyOf pt) = true) : Admissible crypto pt := by
  cases hcb : txIsCoinbase (pbToTx pt) with
  | true => exact .coinbase (beq_iff_eq.mp hcb)
  | false =>
      by_cases hkey : NoKey pt
      · -- the receiver finds no key and makes the basic check
        rw [checkTx, (pubkeyOf_isZero_iff pt).mpr hkey] at h
        exact .keyless hkey (signature_of_transactionVerify hcb h)
      · have hnonzero : isZero (pubkeyOf pt).toList = false := by
          rw [← Bool.not_eq_true, pubkeyOf_isZero_iff]
          exact hkey
        rcases pubkeyOf_eq hkey with ⟨hlong, hpubkey⟩
        rw [checkTx, hnonzero] at h
        have hsigned := signedBySender_of_verify hcb h
        rw [hpubkey] at hsigned
        exact .signed hlong hsigned

/-- One of the messages brought the transaction and the key of an entry, and what it
brought is admissible. -/
def BroughtBy (crypto : Crypto) (arrivals : List Arrival) (e : Entry) : Prop :=
  ∃ a ∈ arrivals, ∃ pt ∈ a.incoming.txs,
    e.ptr.tx = pbToTx pt ∧ e.pubkey = pubkeyOf pt ∧ Admissible crypto pt

/-- Everything in the pool was admitted, and everything admitted was brought by a message
and passed the check. -/
structure Screened (crypto : Crypto) (arrivals : List Arrival) (d : Dispatcher) : Prop where
  held : ∀ e ∈ d.pool.held, e ∈ d.admitted
  brought : ∀ e ∈ d.admitted, BroughtBy crypto arrivals e

theorem add_screened {crypto : Crypto} {arrivals : List Arrival} {d : Dispatcher}
    (h : Screened crypto arrivals d) {a : Arrival} (ha : a ∈ arrivals) {pt : PbTransaction}
    (hpt : pt ∈ a.incoming.txs) (hcheck : checkTx crypto (pbToTx pt) (pubkeyOf pt) = true) :
    Screened crypto arrivals (d.add (pbToTx pt) (some (pubkeyOf pt))).2 := by
  rcases Nat.lt_or_ge d.pool.count d.pool.capacity with hroom | hfull
  · rcases add_room (pbToTx pt) (some (pubkeyOf pt)) hroom with ⟨pool, hadd, hheld, -⟩
    rw [hadd]
    constructor
    · intro e he
      have he' : e ∈ pool.held := he
      rw [hheld] at he'
      rcases List.mem_append.mp he' with hold | hnew
      · exact List.mem_append_left _ (h.held e hold)
      · exact List.mem_append_right _ hnew
    · intro e he
      rcases List.mem_append.mp he with hold | hnew
      · exact h.brought e hold
      · rw [List.mem_singleton.mp hnew]
        exact ⟨a, ha, pt, hpt, rfl, rfl, admissible_of_check hcheck⟩
  · -- a full pool takes nothing
    rw [add_full (pbToTx pt) (some (pubkeyOf pt)) hfull]
    exact ⟨h.held, h.brought⟩

theorem dispatch_screened {crypto : Crypto} {arrivals : List Arrival} {d d' : Dispatcher}
    (h : Screened crypto arrivals d) {roundStartMs : UInt64} {blockSize : Nat}
    {durationMs : UInt64} (hok : d.dispatch roundStartMs blockSize durationMs = .ok d') :
    Screened crypto arrivals d' := by
  unfold Dispatcher.dispatch at hok
  cases hsa : d.assigner with
  | none =>
      rw [hsa] at hok
      cases hok
  | some sa =>
      rw [hsa] at hok
      simp only [shardAssignerDispatch_eq, Run.ok_bind] at hok
      obtain rfl := Except.ok.inj hok
      refine ⟨?_, h.brought⟩
      -- the pool was emptied
      intro e he
      cases he

theorem receiverStep_screened {cfg : Config} (hverify : cfg.verify = true) {crypto : Crypto}
    {arrivals : List Arrival} {r r' : Receiver} {a : Arrival} (ha : a ∈ arrivals)
    (h : Screened crypto arrivals r.core) (hok : receiverStep cfg crypto r a = .ok r') :
    Screened crypto arrivals r'.core := by
  rcases Run.bind_eq_ok hok with ⟨⟨r₁, reply⟩, hreceive, hr⟩
  obtain rfl : r₁ = r' := Except.ok.inj hr
  unfold receive at hreceive
  cases hin : a.incoming with
  | unknown =>
      rw [hin] at hreceive
      rcases Prod.mk.inj (Except.ok.inj hreceive) with ⟨rfl, -⟩
      exact h
  | batch batch =>
      rw [hin] at hreceive
      have hbatch : Screened crypto arrivals (admitBatch crypto cfg.verify r.core batch).1 := by
        rw [admitBatch_eq, ← hin]
        apply admitAll_induct_mem (Screened crypto arrivals)
        · intro d pt hpt hpass hd
          have hcheck : checkTx crypto (pbToTx pt) (pubkeyOf pt) = true := by
            simpa [passes, hverify] using hpass
          exact add_screened hd ha hpt hcheck
        · exact h
      simp only at hreceive
      split at hreceive
      · rcases Run.bind_eq_ok hreceive with ⟨r₂, hrun, hr₂⟩
        rcases Prod.mk.inj (Except.ok.inj hr₂) with ⟨rfl, -⟩
        -- the election leaves the pool alone
        rcases Run.bind_eq_ok hrun with ⟨nodes, -, hrun⟩
        rcases Run.bind_eq_ok hrun with ⟨winners, -, hrun⟩
        cases winners with
        | none =>
            -- no winners: nothing is dispatched, and the pool keeps growing
            obtain rfl := Except.ok.inj hrun
            exact hbatch
        | some el =>
            rcases Run.bind_eq_ok hrun with ⟨core, hdispatch, hrun⟩
            obtain rfl := Except.ok.inj hrun
            exact dispatch_screened hbatch hdispatch
      · rcases Prod.mk.inj (Except.ok.inj hreceive) with ⟨rfl, -⟩
        exact hbatch

/-- Under `--verify`, in every state the loop reaches, what is in the pool was admitted,
and each transaction ever admitted was brought, with its key, by one of the messages
that arrived: in the name of the coinbase, or with no key but with some signature, or
signed by its sender under the key it came with. -/
theorem verified_admission (cfg : Config) (hverify : cfg.verify = true) (crypto : Crypto)
    (rand : Rand) (arrivals : List Arrival) :
    ∃ r₀, receiverInit cfg rand = .ok r₀ ∧
      ∀ r, Run.run (receiverStep cfg crypto) r₀ arrivals = .ok r →
        (∀ e ∈ r.core.pool.held, e ∈ r.core.admitted) ∧
          ∀ e ∈ r.core.admitted, BroughtBy crypto arrivals e := by
  rcases receiverInit_ok cfg rand with ⟨r₀, hinit, hcore, -⟩
  refine ⟨r₀, hinit, ?_⟩
  intro r hrun
  have hstart : Screened crypto arrivals r₀.core := by
    rw [hcore]
    constructor
    · intro e he
      cases he
    · intro e he
      cases he
  have hend : Screened crypto arrivals r.core :=
    Run.run_preserves_mem (fun r => Screened crypto arrivals r.core) arrivals
      (fun _ _ ha _ h hok => receiverStep_screened hverify ha h hok) r₀ r hstart hrun
  exact ⟨hend.held, hend.brought⟩

/-- The receiver with `--verify`. -/
def verifyConfig : Config :=
  ⟨48, 256, true, by decide, by decide, by decide, by decide⟩

/-- Two unsigned transactions: one in the name of the coinbase, one without a
key and with a single byte for a signature. -/
def unsignedBatch : Arrival :=
  ⟨.batch (some ⟨[⟨0, 0, coinbaseAddress.toList, [], 5, 0, [], []⟩, ⟨0, 0, [], [], 7, 0, [1], []⟩],
    2⟩), 0, 0⟩

theorem verified_admission_unsigned :
    ∃ r₀, receiverInit verifyConfig ⟨fun _ => 0, 0⟩ = .ok r₀ ∧
      ∀ r, Run.run (receiverStep verifyConfig Crypto.rejecting) r₀ [unsignedBatch] = .ok r →
        (∀ e ∈ r.core.pool.held, e ∈ r.core.admitted) ∧
          ∀ e ∈ r.core.admitted, BroughtBy Crypto.rejecting [unsignedBatch] e :=
  verified_admission verifyConfig rfl Crypto.rejecting ⟨fun _ => 0, 0⟩ [unsignedBatch]

/-- Both get in under `--verify`, although no signature is accepted at all. -/
theorem unsigned_admitted :
    ∃ r₀ r, receiverInit verifyConfig ⟨fun _ => 0, 0⟩ = .ok r₀ ∧
      Run.run (receiverStep verifyConfig Crypto.rejecting) r₀ [unsignedBatch] = .ok r ∧
      r.core.pool.held.map (fun e => (e.ptr.tx.sourceAddress, e.ptr.tx.value)) =
        [(coinbaseAddress, 5), (zeros 20, 7)] ∧
      ∀ e ∈ r.core.pool.held, ∀ pubkey, ¬ SignedBySender Crypto.rejecting e.ptr.tx pubkey := by
  rcases receiverInit_inv verifyConfig (by decide) ⟨fun _ => 0, 0⟩ with ⟨r₀, hinit, hcore, hinv, -⟩
  rcases receive_ok hinv Crypto.rejecting unsignedBatch with ⟨r, reply, hok, -, hhandled⟩
  refine ⟨r₀, r, hinit, ?_, ?_, ?_⟩
  · simp only [Run.run, receiverStep, hok, Run.ok_bind]
  · cases hhandled with
    | unknown hin => cases hin
    | waits batch hin _ hcore' _ =>
        obtain rfl := Incoming.batch.inj hin
        rw [hcore', hcore]
        decide
    | dispatches batch hin _ hdue _ =>
        obtain rfl := Incoming.batch.inj hin
        rw [hcore] at hdue
        exact absurd hdue (by decide)
  · intro e _ pubkey hsigned
    cases hsigned.verified

end Sharding
