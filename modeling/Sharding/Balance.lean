import Sharding.Custody
import Sharding.Generator
import Sharding.Lib.Residues

/-! # What a round sends, and to whom

A dispatch round consists of the transactions at the front of the pool, and the
shard of a transaction is its nonce modulo the number of shards. So what the
shards get depends on the order in which the batches arrive. `cutRounds` is the
receiver reduced to that: slices of nonces come in, rounds of nonces go out.
`run_slices` says that the receiver is such a machine; the bound on a round and
the condition for its being even are then facts about lists of numbers.
-/

namespace Sharding

open ParallelFor

/-! ## Cutting rounds -/

/-- A slice goes behind what is held, as far as there is room; once `due` are held
the first `size` of them make up a round, and nothing is kept. -/
def cutRounds (capacity due size : Nat) : List Nat → List (List Nat) → List (List Nat)
  | _, [] => []
  | held, slice :: slices =>
      let pooled := (held ++ slice).take capacity
      if due ≤ pooled.length then pooled.take size :: cutRounds capacity due size [] slices
      else cutRounds capacity due size pooled slices

theorem cutRounds_length_le (capacity due size : Nat) (slices : List (List Nat)) :
    ∀ held, ∀ round ∈ cutRounds capacity due size held slices, round.length ≤ size := by
  induction slices with
  | nil =>
      intro held round hround
      cases hround
  | cons slice slices ih =>
      intro held round hround
      rw [cutRounds] at hround
      split at hround
      · rcases List.mem_cons.mp hround with rfl | hlater
        · exact List.length_take_le _ _
        · exact ih [] round hlater
      · exact ih _ round hround

/-- Slices that are tiled make rounds that are. The end of the pool does not
matter: it is cut off only behind the round that is due then. -/
theorem cutRounds_tiled {n capacity due size : Nat} (hsize : n ∣ size)
    (hroom : due ≤ capacity → size ≤ capacity) (slices : List (List Nat)) :
    (∀ slice ∈ slices, Residues.Tiled n slice) →
      ∀ held, (due ≤ capacity → Residues.Tiled n held) →
        ∀ round ∈ cutRounds capacity due size held slices, Residues.Tiled n round := by
  induction slices with
  | nil =>
      intro _ held _ round hround
      cases hround
  | cons slice slices ih =>
      intro hslices held hheld round hround
      have hrest := ih fun s hs => hslices s (List.mem_cons_of_mem slice hs)
      have hpooled : due ≤ capacity → Residues.Tiled n (held ++ slice) := fun hdue =>
        (hheld hdue).append (hslices slice List.mem_cons_self)
      rw [cutRounds] at hround
      split at hround
      · rename_i hfull
        have hle := List.length_take_le capacity (held ++ slice)
        have hdue : due ≤ capacity := Nat.le_trans hfull hle
        rcases List.mem_cons.mp hround with rfl | hlater
        · rw [List.take_take, Nat.min_eq_left (hroom hdue)]
          exact (hpooled hdue).take hsize
        · exact hrest [] (fun _ => Residues.tiled_nil n) round hlater
      · rename_i hwait
        refine hrest _ ?_ round hround
        intro hdue
        -- too few for a round, so everything fitted
        rw [List.length_take] at hwait
        rw [List.take_of_length_le (by omega)]
        exact hpooled hdue

/-! ## The receiver cuts rounds -/

/-- The number that decides about the shard. -/
def nonceOf (e : Entry) : Nat := e.ptr.tx.nonce.toNat

/-- The nonces in the pool. -/
def heldNonces (d : Dispatcher) : List Nat := d.pool.held.map nonceOf

/-- The nonces a round sends, in order. -/
def roundNonces (round : Dispatch) : List Nat := (sentEntries round.pushes).map nonceOf

/-- How many transactions a round sends on push socket `i`. -/
def txsTo (i : Nat) (round : Dispatch) : Nat :=
  (sentEntries (round.pushes.filter fun p => p.shard == i)).length

/-- The same number of transactions for every shard. -/
def EvenRound (numShards : Nat) (round : Dispatch) : Prop :=
  ∀ i < numShards, ∀ j < numShards, txsTo i round = txsTo j round

/-- The nonces a message offers: those of the transactions that pass. -/
def offered (cfg : Config) (crypto : Crypto) (a : Arrival) : List Nat :=
  (a.incoming.txs.filter (passes crypto cfg.verify)).map fun pt => (pbToTx pt).nonce.toNat

theorem txsTo_eq {numShards k : Nat} {round : Dispatch} (hround : RoundOk numShards k round)
    (i : Nat) : txsTo i round = Residues.share numShards i (roundNonces round) := by
  rcases hround with ⟨roundStartMs, hpushes⟩
  have hfilter : sentEntries (round.pushes.filter fun p => p.shard == i) =
      shareList numShards i round.drained := by
    rw [hpushes]
    simp only [sentEntries, pushesOf, shareList, List.filter_cons, List.filter_append,
      List.filter_map, Function.comp_def]
    -- the header and the markers are no transactions
    split <;> simp [List.filterMap_append, List.filterMap_map]
  have hnonces : roundNonces round = round.drained.map nonceOf := by
    rw [roundNonces, hpushes, sentEntries_pushesOf]
  rw [txsTo, hfilter, hnonces, shareList_length, shareOf, Residues.share, List.countP_map]
  rfl

theorem evenRound_iff {numShards k : Nat} {round : Dispatch} (hround : RoundOk numShards k round) :
    EvenRound numShards round ↔ Residues.Even numShards (roundNonces round) := by
  simp only [EvenRound, Residues.Even, txsTo_eq hround]

theorem heldNonces_length (d : Dispatcher) : (heldNonces d).length = d.pool.count := by
  rw [heldNonces, List.length_map, d.pool.count_eq]

/-- What a batch adds to the pool: as many of the offered nonces as there is room for. -/
theorem admitAll_nonces (crypto : Crypto) (verify : Bool) (pts : List PbTransaction) :
    ∀ s : Dispatcher × Tally,
      heldNonces (pts.foldl (admitTx crypto verify) s).1 =
        (heldNonces s.1 ++ (pts.filter (passes crypto verify)).map fun pt =>
          (pbToTx pt).nonce.toNat).take s.1.pool.capacity := by
  induction pts with
  | nil =>
      intro s
      have hle := s.1.pool.count_le
      rw [List.filter_nil, List.map_nil, List.append_nil, List.take_of_length_le]
      · rfl
      · rw [heldNonces_length]
        exact hle
  | cons pt pts ih =>
      intro s
      rcases s with ⟨core, tally⟩
      rw [List.foldl_cons, ih]
      cases hpass : passes crypto verify pt with
      | false =>
          rw [admit_rejected hpass, List.filter_cons_of_neg (by simp [hpass])]
      | true =>
          rw [admit_passed hpass, List.filter_cons_of_pos hpass, List.map_cons]
          rcases Nat.lt_or_ge core.pool.count core.pool.capacity with hroom | hfull
          · rcases add_room (pbToTx pt) (some (pubkeyOf pt)) hroom with ⟨pool, hadd, hheld, hcap⟩
            have hnew : heldNonces (core.add (pbToTx pt) (some (pubkeyOf pt))).2 =
                heldNonces core ++ [(pbToTx pt).nonce.toNat] := by
              rw [hadd, heldNonces, hheld, List.map_append]
              rfl
            rw [hnew, hadd, hcap, List.append_assoc]
            rfl
          · -- the pool was full before
            have hheld : core.pool.capacity ≤ (heldNonces core).length := by
              rw [heldNonces_length]
              exact hfull
            rw [add_full (pbToTx pt) (some (pubkeyOf pt)) hfull]
            show List.take core.pool.capacity (heldNonces core ++ _) = _
            rw [List.take_append_of_le_length hheld, List.take_append_of_le_length hheld]

theorem admitBatch_nonces (cfg : Config) (crypto : Crypto) (r : Receiver) {a : Arrival}
    {batch : Option PbBatch} (hin : a.incoming = .batch batch) :
    heldNonces (admitBatch crypto cfg.verify r.core batch).1 =
      (heldNonces r.core ++ offered cfg crypto a).take r.core.pool.capacity := by
  rw [admitBatch_eq, offered, hin]
  exact admitAll_nonces crypto cfg.verify _ (r.core, ⟨0, 0⟩)

/-- A dispatch turns the front of the pool into a round. -/
theorem dispatch_nonces {numShards : Nat} {d d' : Dispatcher} (hinv : DispatcherInv numShards d)
    {roundStartMs : UInt64} {blockSize : Nat} {durationMs : UInt64}
    (hok : d.dispatch roundStartMs blockSize durationMs = .ok d') :
    heldNonces d' = [] ∧ d'.pool.capacity = d.pool.capacity ∧
      d'.rounds.map roundNonces =
        d.rounds.map roundNonces ++ [(heldNonces d).take (roundSize blockSize numShards)] := by
  rcases dispatch_ok hinv roundStartMs blockSize durationMs with
    ⟨d₁, round, hok₁, hrounds, hdrained, hpushes, hpool, -, -, -⟩
  obtain rfl : d₁ = d' := Except.ok.inj (hok₁.symm.trans hok)
  have hnonces : roundNonces round = (heldNonces d).take (roundSize blockSize numShards) := by
    rw [roundNonces, hpushes, sentEntries_pushesOf, hdrained, List.map_take]
    rfl
  refine ⟨?_, ?_, ?_⟩
  · rw [heldNonces, hpool]
    rfl
  · rw [hpool]
    rfl
  · rw [hrounds, List.map_append, ← hnonces]
    rfl

/-- One message is one slice. -/
theorem receiverStep_slice {cfg : Config} {r : Receiver} (hinv : ReceiverInv cfg r)
    (crypto : Crypto) (a : Arrival) (slices : List (List Nat)) :
    ∃ r', receiverStep cfg crypto r a = .ok r' ∧ ReceiverInv cfg r' ∧
      r'.core.pool.capacity = r.core.pool.capacity ∧
      r.core.rounds.map roundNonces ++ cutRounds r.core.pool.capacity cfg.blockSize
          (roundSize cfg.blockSize cfg.numShards) (heldNonces r.core)
          (offered cfg crypto a :: slices) =
        r'.core.rounds.map roundNonces ++ cutRounds r.core.pool.capacity cfg.blockSize
          (roundSize cfg.blockSize cfg.numShards) (heldNonces r'.core) slices := by
  rcases receive_ok hinv crypto a with ⟨r', reply, hok, hinv', hhandled⟩
  refine ⟨r', ?_, hinv', ?_⟩
  · rw [receiverStep, hok]
    rfl
  rw [cutRounds]
  cases hhandled with
  | unknown hin =>
      -- an empty slice: still too few for a round
      have hnone : offered cfg crypto a = [] := by
        rw [offered, hin]
        rfl
      have hwait := hinv.waiting
      have hle := r.core.pool.count_le
      have hheld : (heldNonces r.core).take r.core.pool.capacity = heldNonces r.core :=
        List.take_of_length_le (by rw [heldNonces_length]; exact hle)
      refine ⟨rfl, ?_⟩
      rw [hnone, List.append_nil, hheld, heldNonces_length, if_neg (by omega)]
  | waits batch hin r' hcore hcount =>
      have hheld := admitBatch_nonces cfg crypto r hin
      have hrounds := admitBatch_rounds crypto cfg.verify r.core batch
      have hcap := admitBatch_capacity crypto cfg.verify r.core batch
      rw [← hcore] at hheld hrounds hcap
      refine ⟨hcap, ?_⟩
      rw [← hheld, heldNonces_length, if_neg (by omega), hrounds]
  | dispatches batch hin r' hdue hdispatch =>
      have hheld := admitBatch_nonces cfg crypto r hin
      rcases dispatch_nonces (admitBatch_inv hinv.core crypto batch) hdispatch with
        ⟨hempty, hcap, hrounds⟩
      rw [admitBatch_rounds] at hrounds
      refine ⟨hcap.trans (admitBatch_capacity crypto cfg.verify r.core batch), ?_⟩
      rw [← hheld, heldNonces_length, if_pos hdue, hempty, hrounds, List.append_assoc]
      rfl

/-- The rounds of a run are cut from the slices its messages offer. -/
theorem run_slices {cfg : Config} (crypto : Crypto) (arrivals : List Arrival) :
    ∀ r, ReceiverInv cfg r →
      ∃ r', Run.run (receiverStep cfg crypto) r arrivals = .ok r' ∧ ReceiverInv cfg r' ∧
        r'.core.rounds.map roundNonces = r.core.rounds.map roundNonces ++
          cutRounds r.core.pool.capacity cfg.blockSize (roundSize cfg.blockSize cfg.numShards)
            (heldNonces r.core) (arrivals.map (offered cfg crypto)) := by
  induction arrivals with
  | nil =>
      intro r hinv
      exact ⟨r, rfl, hinv, (List.append_nil _).symm⟩
  | cons a arrivals ih =>
      intro r hinv
      rcases receiverStep_slice hinv crypto a (arrivals.map (offered cfg crypto)) with
        ⟨r₁, hone, hinv₁, hcap, hslice⟩
      rcases ih r₁ hinv₁ with ⟨r', hrun, hinv', hrounds⟩
      refine ⟨r', ?_, hinv', ?_⟩
      · rw [Run.run, hone]
        exact hrun
      · rw [hrounds, hcap, ← hslice, List.map_cons]

/-! ## The size of a round -/

theorem dvd_roundSize (blockSize numShards : Nat) : numShards ∣ roundSize blockSize numShards := by
  unfold roundSize
  split
  · exact dvd_refl numShards
  · exact dvd_mul_left numShards _

/-- The block size, unless it is smaller than the number of shards. -/
theorem roundSize_le (blockSize numShards : Nat) :
    roundSize blockSize numShards ≤ if numShards ≤ blockSize then blockSize else numShards := by
  have hle : blockSize / numShards * numShards ≤ blockSize := Nat.div_mul_le_self _ _
  unfold roundSize
  split
  · rename_i hzero
    split
    · assumption
    · exact le_refl numShards
  · rename_i hpos
    split
    · exact hle
    · omega

/-! ## The batches of a generator -/

/-- What arrives are the messages of a run of the generator, each once, in some order. -/
def ArrivesFrom (crypto : Crypto) (args : GeneratorArgs) (wallet : Wallet)
    (schedule : (k : Nat) → Schedule k) (arrivals : List Arrival) : Prop :=
  ∃ batches order : List (List Transaction),
    generate crypto args wallet schedule = .ok batches ∧ order.Perm batches ∧
    arrivals.map (fun a => Except.ok a.incoming) =
      order.map fun rawTxs => parseMessage (batchMessage rawTxs wallet.publicKey)

/-- Every batch is a multiple of the shards, and the nonces do not pass 0 on the way. -/
structure Aligned (numShards : Nat) (args : GeneratorArgs) : Prop where
  batch : (numShards : Int) ∣ clampBatchSize args.batchSize
  count : (numShards : Int) ∣ args.totalCount
  nowrap : 0 ≤ args.baseNonce ∨ args.baseNonce + args.totalCount ≤ 0

/-- Then the nonces count on from the first, also as `uint64_t`. -/
theorem nonceAt_toNat {args : GeneratorArgs} (hfit : NoncesFit args)
    (hnowrap : 0 ≤ args.baseNonce ∨ args.baseNonce + args.totalCount ≤ 0) {i : Nat}
    (hi : (i : Int) < args.totalCount) :
    (nonceAt args i).toNat = (args.baseNonce % 2 ^ 64).toNat + i := by
  have hbase := hfit.base
  have hlast := hfit.last
  have hmod : ((args.baseNonce + i) % 2 ^ 64).toNat = (args.baseNonce % 2 ^ 64).toNat + i := by
    omega
  have hlt : ((args.baseNonce + i) % 2 ^ 64).toNat < 2 ^ 64 := by omega
  rw [nonceAt, UInt64.ofInt, UInt64.toNat_ofNat_of_lt' hlt, hmod]

/-- A block of a range that is a multiple of `n`, in blocks that are, is tiled. -/
theorem block_tiled {n total size : Nat} (htotal : n ∣ total) (hsize : n ∣ size) (first b : Nat) :
    Residues.Tiled n ((Blocks.block total size b).map (first + ·)) := by
  rw [Blocks.block, List.map_add_range']
  apply Residues.tiled_range'
  have hstart : n ∣ b * size := hsize.mul_left b
  have hend : n ∣ Blocks.blockEnd total size b := by
    rw [Blocks.blockEnd]
    rcases Nat.le_total (b * size + size) total with hle | hge
    · rw [Nat.min_eq_left hle]
      exact Nat.dvd_add hstart hsize
    · rw [Nat.min_eq_right hge]
      exact htotal
  exact Nat.dvd_sub hend hstart

/-- A message that arrives holds a block. -/
theorem arrives_block {crypto : Crypto} {args : GeneratorArgs} {wallet : Wallet}
    (hfit : NoncesFit args) {schedule : (k : Nat) → Schedule k}
    (hthreads : ∀ k, ∀ s ∈ (schedule k).steps, s.1 < (clampThreads args.numThreads).toNat)
    {arrivals : List Arrival} (harrive : ArrivesFrom crypto args wallet schedule arrivals)
    {total size : Nat} (htotal : args.totalCount = total)
    (hsize : clampBatchSize args.batchSize = size) {a : Arrival} (ha : a ∈ arrivals) :
    ∃ b < Blocks.blockCount total size, a.incoming.txs =
      (Blocks.block total size b).map fun i =>
        generatorPb (txAt crypto args wallet i) wallet.publicKey := by
  rcases harrive with ⟨batches, order, hgen, horder, hmessages⟩
  have hmem : Except.ok a.incoming ∈ order.map fun rawTxs =>
      parseMessage (batchMessage rawTxs wallet.publicKey) := by
    rw [← hmessages]
    exact List.mem_map_of_mem ha
  rcases List.mem_map.mp hmem with ⟨rawTxs, hraw, hparse⟩
  have hbatch := horder.subset hraw
  rcases generate_sized crypto hfit wallet hthreads hgen rawTxs hbatch with ⟨hne, hle⟩
  rw [parseMessage_batchMessage wallet.publicKey hne hle] at hparse
  have hin := Except.ok.inj hparse
  rcases generate_blocks crypto hfit wallet hthreads hgen htotal hsize rawTxs hbatch with
    ⟨b, hb, rfl⟩
  refine ⟨b, hb, ?_⟩
  rw [← hin]
  exact List.map_map

/-- Aligned batches that are all admitted offer tiled slices. -/
theorem offered_tiled {cfg : Config} {crypto : Crypto} {args : GeneratorArgs} {wallet : Wallet}
    (hfit : NoncesFit args) {schedule : (k : Nat) → Schedule k}
    (hthreads : ∀ k, ∀ s ∈ (schedule k).steps, s.1 < (clampThreads args.numThreads).toNat)
    (haligned : Aligned cfg.numShards args) {arrivals : List Arrival}
    (harrive : ArrivesFrom crypto args wallet schedule arrivals)
    (hpass : ∀ a ∈ arrivals, ∀ pt ∈ a.incoming.txs, passes crypto cfg.verify pt = true) :
    ∀ a ∈ arrivals, Residues.Tiled cfg.numShards (offered cfg crypto a) := by
  intro a ha
  have hbounds := clampBatchSize_bounds args.batchSize
  have hcount := hfit.count
  have htotal : args.totalCount = args.totalCount.toNat := by omega
  have hsize : clampBatchSize args.batchSize = (clampBatchSize args.batchSize).toNat := by omega
  rcases arrives_block hfit hthreads harrive htotal hsize ha with ⟨b, hb, htxs⟩
  have hoffered : offered cfg crypto a = (Blocks.block args.totalCount.toNat
      (clampBatchSize args.batchSize).toNat b).map ((args.baseNonce % 2 ^ 64).toNat + ·) := by
    rw [offered, List.filter_eq_self.mpr (hpass a ha), htxs, List.map_map]
    apply List.map_congr_left
    intro i hi
    have hlt := (List.mem_range'_1.mp hi).2
    have hend : Blocks.blockEnd args.totalCount.toNat (clampBatchSize args.batchSize).toNat b ≤
        args.totalCount.toNat := Nat.min_le_right _ _
    have hstart := Blocks.start_lt (by omega) hb
    rw [Function.comp_apply, pbToTx_generatorPb, txAt, transactionCreate_nonce]
    exact nonceAt_toNat hfit haligned.nowrap (by omega)
  rw [hoffered]
  apply block_tiled
  · have hdvd := haligned.count
    rw [htotal] at hdvd
    exact Int.natCast_dvd_natCast.mp hdvd
  · have hdvd := haligned.batch
    rw [hsize] at hdvd
    exact Int.natCast_dvd_natCast.mp hdvd

/-! ## Bounded rounds, and even ones -/

/-- From the start: the rounds, and that each is framed as one. -/
theorem start_slices (cfg : Config) (hshards : cfg.numShards ≤ maxShards) (crypto : Crypto)
    (rand : Rand) (arrivals : List Arrival) :
    ∃ r₀ r, receiverInit cfg rand = .ok r₀ ∧
      Run.run (receiverStep cfg crypto) r₀ arrivals = .ok r ∧
      r.core.rounds.map roundNonces =
        cutRounds mempoolMaxSize cfg.blockSize (roundSize cfg.blockSize cfg.numShards) []
          (arrivals.map (offered cfg crypto)) ∧
      ∀ round ∈ r.core.rounds, ∃ k, RoundOk cfg.numShards k round := by
  rcases receiverInit_inv cfg hshards rand with ⟨r₀, hinit, hcore, hinv₀, -⟩
  rcases run_slices crypto arrivals r₀ hinv₀ with ⟨r, hrun, hinv, hrounds⟩
  refine ⟨r₀, r, hinit, hrun, ?_, ?_⟩
  · rw [hrounds, hcore]
    rfl
  · intro round hmem
    rcases List.getElem_of_mem hmem with ⟨k, hk, rfl⟩
    exact ⟨k, hinv.core.rounds k hk⟩

/-- In whatever order the batches arrive, the rounds are cut from the slices of nonces
they offer. A round is no larger than the block, or the number of shards if that is
larger. It is even exactly when, however its nonces are cut into pieces of consecutive
ones, as many pieces begin at each residue as end before it; and it is even in any
order if the batches are aligned and admitted. -/
theorem rounds_bounded_even_iff (cfg : Config) (hshards : cfg.numShards ≤ maxShards)
    (crypto : Crypto) (rand : Rand) (args : GeneratorArgs) (wallet : Wallet)
    (hfit : NoncesFit args) (schedule : (k : Nat) → Schedule k)
    (hthreads : ∀ k, ∀ s ∈ (schedule k).steps, s.1 < (clampThreads args.numThreads).toNat)
    (arrivals : List Arrival) (harrive : ArrivesFrom crypto args wallet schedule arrivals) :
    ∃ r₀ r, receiverInit cfg rand = .ok r₀ ∧
      Run.run (receiverStep cfg crypto) r₀ arrivals = .ok r ∧
      r.core.rounds.map roundNonces =
        cutRounds mempoolMaxSize cfg.blockSize (roundSize cfg.blockSize cfg.numShards) []
          (arrivals.map (offered cfg crypto)) ∧
      ∀ round ∈ r.core.rounds,
        (sentEntries round.pushes).length ≤
            (if cfg.numShards ≤ cfg.blockSize then cfg.blockSize else cfg.numShards) ∧
          (∀ pieces, roundNonces round = Residues.numbers pieces →
            (EvenRound cfg.numShards round ↔ Residues.Balanced cfg.numShards pieces)) ∧
          (Aligned cfg.numShards args →
            (∀ a ∈ arrivals, ∀ pt ∈ a.incoming.txs, passes crypto cfg.verify pt = true) →
              EvenRound cfg.numShards round) := by
  rcases start_slices cfg hshards crypto rand arrivals with ⟨r₀, r, hinit, hrun, hrounds, hframed⟩
  refine ⟨r₀, r, hinit, hrun, hrounds, ?_⟩
  intro round hmem
  rcases hframed round hmem with ⟨k, hround⟩
  have hcut : roundNonces round ∈ cutRounds mempoolMaxSize cfg.blockSize
      (roundSize cfg.blockSize cfg.numShards) [] (arrivals.map (offered cfg crypto)) := by
    rw [← hrounds]
    exact List.mem_map_of_mem hmem
  refine ⟨?_, ?_, ?_⟩
  · have hlen := cutRounds_length_le _ _ _ _ [] _ hcut
    rw [roundNonces, List.length_map] at hlen
    exact Nat.le_trans hlen (roundSize_le _ _)
  · intro pieces hpieces
    rw [evenRound_iff hround, hpieces, Residues.even_iff_balanced cfg.numShards_pos]
  · intro haligned hpass
    rw [evenRound_iff hround]
    apply Residues.Tiled.even cfg.numShards_pos
    have hsize := roundSize_le cfg.blockSize cfg.numShards
    have hpool : mempoolMaxSize = 1048576 := rfl
    have hshards' : maxShards = 64 := rfl
    refine cutRounds_tiled (dvd_roundSize _ _) ?_ _ ?_ [] (fun _ => Residues.tiled_nil _) _ hcut
    · intro hdue
      split at hsize <;> omega
    · intro slice hslice
      rcases List.mem_map.mp hslice with ⟨a, ha, rfl⟩
      exact offered_tiled hfit hthreads haligned harrive hpass a ha

/-- The message of a batch, as it arrives. -/
def deliver (pubkey : PublicKey) (rawTxs : List Transaction) : Arrival :=
  ⟨.batch (some (generatorBatch rawTxs pubkey)), 0, 0⟩

theorem deliver_arrives {crypto : Crypto} {args : GeneratorArgs} {wallet : Wallet}
    (hfit : NoncesFit args) {schedule : (k : Nat) → Schedule k}
    (hthreads : ∀ k, ∀ s ∈ (schedule k).steps, s.1 < (clampThreads args.numThreads).toNat)
    {batches order : List (List Transaction)}
    (hgen : generate crypto args wallet schedule = .ok batches) (horder : order.Perm batches) :
    ArrivesFrom crypto args wallet schedule (order.map (deliver wallet.publicKey)) := by
  refine ⟨batches, order, hgen, horder, ?_⟩
  rw [List.map_map]
  apply List.map_congr_left
  intro rawTxs hraw
  rcases generate_sized crypto hfit wallet hthreads hgen rawTxs (horder.subset hraw) with ⟨hne, hle⟩
  rw [parseMessage_batchMessage wallet.publicKey hne hle]
  rfl

theorem offered_deliver {cfg : Config} (hverify : cfg.verify = false) (crypto : Crypto)
    (pubkey : PublicKey) (rawTxs : List Transaction) :
    offered cfg crypto (deliver pubkey rawTxs) = rawTxs.map fun tx => tx.nonce.toNat := by
  have htxs : (deliver pubkey rawTxs).incoming.txs =
      rawTxs.map fun tx => generatorPb tx pubkey := rfl
  have hall : ∀ pt ∈ (deliver pubkey rawTxs).incoming.txs,
      passes crypto cfg.verify pt = true := by
    intro pt _
    rw [passes, hverify]
    rfl
  rw [offered, List.filter_eq_self.mpr hall, htxs, List.map_map]
  apply List.map_congr_left
  intro tx _
  rw [Function.comp_apply, pbToTx_generatorPb]

/-- Two shards and blocks of two. -/
def twoByTwo : Config := ⟨2, 2, false, by decide, by decide, by decide, by decide⟩

/-- Three shards, but blocks of two. -/
def threeByTwo : Config := ⟨3, 2, false, by decide, by decide, by decide, by decide⟩

/-- Three transactions in batches of two. -/
def pairs : GeneratorArgs := ⟨zeros 20, 1, 3, 1, 2, 0⟩

/-- The batches of `pairs`. -/
def pairsBatches : List (List Transaction) :=
  [[0, 1], [2]].map fun block => block.map (txAt Crypto.rejecting pairs unkeyed)

/-- The short batch overtakes the full one. -/
def overtaken : List Arrival := pairsBatches.reverse.map (deliver unkeyed.publicKey)

theorem pairs_fit : NoncesFit pairs := ⟨by decide, by decide, by decide, by decide⟩

theorem pairs_threads : ∀ k, ∀ s ∈ (Schedule.sequential k).steps,
    s.1 < (clampThreads pairs.numThreads).toNat := by
  simp [Schedule.sequential, pairs, clampThreads, maxThreads]

theorem overtaken_arrives :
    ArrivesFrom Crypto.rejecting pairs unkeyed Schedule.sequential overtaken := by
  have hgen : generate Crypto.rejecting pairs unkeyed Schedule.sequential = .ok pairsBatches :=
    generate_ok Crypto.rejecting pairs_fit unkeyed pairs_threads
      (show pairs.totalCount = (3 : Nat) from rfl)
      (show clampBatchSize pairs.batchSize = (2 : Nat) from rfl) (by decide) (by decide)
  exact deliver_arrives pairs_fit pairs_threads hgen pairsBatches.reverse_perm

theorem rounds_bounded_even_iff_overtaken :
    ∃ r₀ r, receiverInit twoByTwo ⟨fun _ => 0, 0⟩ = .ok r₀ ∧
      Run.run (receiverStep twoByTwo Crypto.rejecting) r₀ overtaken = .ok r ∧
      r.core.rounds.map roundNonces =
        cutRounds mempoolMaxSize twoByTwo.blockSize
          (roundSize twoByTwo.blockSize twoByTwo.numShards) []
          (overtaken.map (offered twoByTwo Crypto.rejecting)) ∧
      ∀ round ∈ r.core.rounds,
        (sentEntries round.pushes).length ≤
            (if twoByTwo.numShards ≤ twoByTwo.blockSize then twoByTwo.blockSize
              else twoByTwo.numShards) ∧
          (∀ pieces, roundNonces round = Residues.numbers pieces →
            (EvenRound twoByTwo.numShards round ↔ Residues.Balanced twoByTwo.numShards pieces)) ∧
          (Aligned twoByTwo.numShards pairs →
            (∀ a ∈ overtaken, ∀ pt ∈ a.incoming.txs,
              passes Crypto.rejecting twoByTwo.verify pt = true) →
              EvenRound twoByTwo.numShards round) :=
  rounds_bounded_even_iff twoByTwo (by decide) Crypto.rejecting ⟨fun _ => 0, 0⟩ pairs unkeyed
    pairs_fit Schedule.sequential pairs_threads overtaken overtaken_arrives

/-- `P` of every round, in whatever order the batches of a generator arrive. -/
def EveryRound (P : Config → Dispatch → Prop) : Prop :=
  ∀ (cfg : Config), cfg.numShards ≤ maxShards →
    ∀ (crypto : Crypto) (rand : Rand) (args : GeneratorArgs) (wallet : Wallet), NoncesFit args →
      ∀ schedule : (k : Nat) → Schedule k,
        (∀ k, ∀ s ∈ (schedule k).steps, s.1 < (clampThreads args.numThreads).toNat) →
          ∀ arrivals, ArrivesFrom crypto args wallet schedule arrivals →
            ∃ r₀ r, receiverInit cfg rand = .ok r₀ ∧
              Run.run (receiverStep cfg crypto) r₀ arrivals = .ok r ∧
              ∀ round ∈ r.core.rounds, P cfg round

/-- The rounds when the short batch comes first. -/
theorem everyRound_overtaken {P : Config → Dispatch → Prop} (hevery : EveryRound P) (cfg : Config)
    (hshards : cfg.numShards ≤ maxShards) (hverify : cfg.verify = false) :
    ∀ nonces ∈ cutRounds mempoolMaxSize cfg.blockSize (roundSize cfg.blockSize cfg.numShards) []
        [[2], [0, 1]],
      ∃ k round, RoundOk cfg.numShards k round ∧ roundNonces round = nonces ∧ P cfg round := by
  rcases hevery cfg hshards Crypto.rejecting ⟨fun _ => 0, 0⟩ pairs unkeyed pairs_fit
    Schedule.sequential pairs_threads overtaken overtaken_arrives with ⟨r₀, r, hinit, hrun, hP⟩
  rcases start_slices cfg hshards Crypto.rejecting ⟨fun _ => 0, 0⟩ overtaken with
    ⟨r₁, r', hinit', hrun', hrounds, hframed⟩
  obtain rfl : r₀ = r₁ := Except.ok.inj (hinit.symm.trans hinit')
  obtain rfl : r = r' := Except.ok.inj (hrun.symm.trans hrun')
  have hoffered : overtaken.map (offered cfg Crypto.rejecting) = [[2], [0, 1]] := by
    rw [overtaken, List.map_map]
    simp only [pairsBatches, Function.comp_def, offered_deliver hverify, List.map_cons, List.map_nil,
      List.reverse_cons, List.reverse_nil, List.nil_append, List.cons_append, txAt,
      transactionCreate_nonce]
    decide
  intro nonces hnonces
  rw [← hoffered, ← hrounds] at hnonces
  rcases List.mem_map.mp hnonces with ⟨round, hmem, rfl⟩
  rcases hframed round hmem with ⟨k, hround⟩
  exact ⟨k, round, hround, rfl, hP round hmem⟩

/-- Neither holds: three shards get a round of three where two are due, and with two
shards the nonces 2 and 0 of a round go to the same one. -/
theorem rounds_oversized_uneven :
    (¬ EveryRound fun cfg round => (sentEntries round.pushes).length ≤ cfg.blockSize) ∧
      ¬ EveryRound fun cfg round => EvenRound cfg.numShards round := by
  constructor
  · intro hevery
    rcases everyRound_overtaken hevery threeByTwo (by decide) rfl [2, 0, 1] (by decide) with
      ⟨k, round, -, hnonces, hle⟩
    have hlen : (sentEntries round.pushes).length = 3 := by
      rw [← List.length_map, ← roundNonces, hnonces]
      rfl
    rw [hlen] at hle
    exact absurd hle (by decide)
  · intro hevery
    rcases everyRound_overtaken hevery twoByTwo (by decide) rfl [2, 0] (by decide) with
      ⟨k, round, hround, hnonces, heven⟩
    rw [evenRound_iff hround, hnonces] at heven
    exact absurd (heven 0 (by decide) 1 (by decide)) (by decide)

end Sharding
