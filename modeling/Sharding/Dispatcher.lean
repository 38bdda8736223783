import Mathlib.Data.List.Nodup
import Sharding.Assigner

/-! # The pool and the assigner together

What the receiver does with its two components is a sequence of `mempool_add`
and `shard_assigner_dispatch` calls. The state keeps, besides the components, the
history of both: the entries for which `mempool_add` returned 1, and what each
dispatch drained and sent. `DispatcherInv` ties the histories to the pool: what
was sent and what is held appear in the admitted entries, in order and at most
once. `Recorded` ties all of it to a ledger of the calls alone, and `framing_exact`
reads off the two what every shard sees.
-/

namespace Sharding

/-- The pool, the assigner (`none` is the null pointer) and their history. -/
structure Dispatcher where
  pool : Mempool
  assigner : Option ShardAssigner
  /-- Calls of `mempool_add` so far: every call brings a freshly allocated transaction. -/
  adds : Nat
  /-- The entries `mempool_add` took, in order. -/
  admitted : List Entry
  /-- The dispatches, in order. -/
  rounds : List Dispatch

namespace Dispatcher

/-- Before the first call. -/
def create (capacity numShards : Nat) : Dispatcher :=
  ⟨mempoolCreate capacity, shardAssignerCreate numShards, 0, [], []⟩

/-- `mempool_add` of a new transaction: whether it was taken, and the state afterwards. -/
def add (d : Dispatcher) (tx : Transaction) (pubkey : Option PublicKey) : Bool × Dispatcher :=
  match mempoolAdd d.pool ⟨d.adds, tx⟩ pubkey with
  | (true, pool) =>
      (true, { d with
        pool := pool
        adds := d.adds + 1
        admitted := d.admitted ++ [⟨⟨d.adds, tx⟩, storedKey pubkey⟩] })
  | (false, pool) => (false, { d with pool := pool, adds := d.adds + 1 })

/-- `shard_assigner_dispatch` on the two components. -/
def dispatch (d : Dispatcher) (roundStartMs : UInt64) (blockSize : Nat) (durationMs : UInt64) :
    Except Fault Dispatcher :=
  match d.assigner with
  | none => .error .nullAssigner
  | some sa => do
      let (sa, pool, round) ← shardAssignerDispatch sa d.pool roundStartMs blockSize durationMs
      .ok { d with pool := pool, assigner := some sa, rounds := d.rounds ++ [round] }

/-- The calls, with their arguments and the clock readings of a dispatch. -/
inductive Call where
  | add (tx : Transaction) (pubkey : Option PublicKey)
  | dispatch (roundStartMs : UInt64) (blockSize : Nat) (durationMs : UInt64)

def step (d : Dispatcher) : Call → Except Fault Dispatcher
  | .add tx pubkey => .ok (d.add tx pubkey).2
  | .dispatch roundStartMs blockSize durationMs => d.dispatch roundStartMs blockSize durationMs

/-- Everything pushed so far. -/
def pushes (d : Dispatcher) : List Push := d.rounds.flatMap Dispatch.pushes

/-- The transactions sent so far. -/
def sent (d : Dispatcher) : List Entry := d.rounds.flatMap Dispatch.drained

end Dispatcher

/-! ## The invariant -/

/-- Round `k` (counted from 0) is the dispatch of what it drained, under number `k + 1`. -/
def RoundOk (numShards k : Nat) (round : Dispatch) : Prop :=
  ∃ roundStartMs, round.pushes =
    pushesOf numShards roundStartMs (UInt32.ofNat (k + 1)) round.drained

structure DispatcherInv (numShards : Nat) (d : Dispatcher) : Prop where
  assigner : ∃ sa, d.assigner = some sa ∧ sa.numShards = numShards ∧
    sa.roundNumber = UInt32.ofNat d.rounds.length
  rounds : ∀ k (h : k < d.rounds.length), RoundOk numShards k d.rounds[k]
  bounded : ∀ round ∈ d.rounds, round.drained.length ≤ mempoolMaxSize
  /-- Nothing is sent or held that was not admitted, nor twice, nor out of order. -/
  accounted : (d.sent ++ d.pool.held).Sublist d.admitted
  fresh : ∀ e ∈ d.admitted, e.ptr.handle < d.adds
  distinct : (d.admitted.map fun e => e.ptr.handle).Nodup

theorem create_inv {numShards : Nat} (capacity : Nat) (hpos : 0 < numShards)
    (hle : numShards ≤ maxShards) : DispatcherInv numShards (Dispatcher.create capacity numShards) := by
  have hok : ¬ (numShards = 0 ∨ numShards > maxShards) := by omega
  constructor
  · simp [Dispatcher.create, shardAssignerCreate, hok]
  · intro k hk
    exact absurd hk (Nat.not_lt_zero k)
  · intro round hround
    simp [Dispatcher.create] at hround
  · exact List.Sublist.refl []
  · intro e he
    simp [Dispatcher.create] at he
  · exact List.nodup_nil

/-- What `add` does, without and with room. -/
theorem add_full {d : Dispatcher} (tx : Transaction) (pubkey : Option PublicKey)
    (h : d.pool.capacity ≤ d.pool.count) :
    d.add tx pubkey = (false, { d with adds := d.adds + 1 }) := by
  unfold Dispatcher.add
  rw [mempoolAdd_full ⟨d.adds, tx⟩ pubkey h]

theorem add_room {d : Dispatcher} (tx : Transaction) (pubkey : Option PublicKey)
    (h : d.pool.count < d.pool.capacity) :
    ∃ pool, d.add tx pubkey = (true, { d with
        pool := pool
        adds := d.adds + 1
        admitted := d.admitted ++ [⟨⟨d.adds, tx⟩, storedKey pubkey⟩] }) ∧
      pool.held = d.pool.held ++ [⟨⟨d.adds, tx⟩, storedKey pubkey⟩] ∧
      pool.capacity = d.pool.capacity := by
  rcases mempoolAdd_room ⟨d.adds, tx⟩ pubkey h with ⟨hret, hheld, hcap⟩
  refine ⟨(mempoolAdd d.pool ⟨d.adds, tx⟩ pubkey).2, ?_, hheld, hcap⟩
  unfold Dispatcher.add
  rcases hadd : mempoolAdd d.pool ⟨d.adds, tx⟩ pubkey with ⟨ret, pool⟩
  rw [hadd] at hret
  subst hret
  rfl

/-- An addition dispatches nothing. -/
@[simp] theorem add_rounds (d : Dispatcher) (tx : Transaction) (pubkey : Option PublicKey) :
    (d.add tx pubkey).2.rounds = d.rounds := by
  rcases Nat.lt_or_ge d.pool.count d.pool.capacity with hroom | hfull
  · rcases add_room tx pubkey hroom with ⟨pool, hadd, -⟩
    rw [hadd]
  · rw [add_full tx pubkey hfull]

theorem add_inv {numShards : Nat} {d : Dispatcher} (hinv : DispatcherInv numShards d)
    (tx : Transaction) (pubkey : Option PublicKey) :
    DispatcherInv numShards (d.add tx pubkey).2 := by
  have hgrow : ∀ e ∈ d.admitted, e.ptr.handle < d.adds + 1 :=
    fun e he => Nat.lt_succ_of_lt (hinv.fresh e he)
  rcases Nat.lt_or_ge d.pool.count d.pool.capacity with hroom | hfull
  · rcases add_room tx pubkey hroom with ⟨pool, hadd, hheld, -⟩
    rw [hadd]
    refine ⟨hinv.assigner, hinv.rounds, hinv.bounded, ?_, ?_, ?_⟩
    · -- the new entry goes to the end of both sides
      show (d.sent ++ pool.held).Sublist _
      rw [hheld, ← List.append_assoc]
      exact hinv.accounted.append (List.Sublist.refl _)
    · intro e he
      rcases List.mem_append.mp he with hold | hnew
      · exact hgrow e hold
      · rw [List.mem_singleton.mp hnew]
        exact Nat.lt_succ_self _
    · -- the handle is fresh: those in use are below `adds`
      rw [List.map_append, List.nodup_append]
      refine ⟨hinv.distinct, List.nodup_singleton _, ?_⟩
      intro a ha b hb hab
      rcases List.mem_map.mp ha with ⟨e, he, rfl⟩
      have hb' : b = d.adds := by simpa using hb
      have hlt := hinv.fresh e he
      omega
  · rw [add_full tx pubkey hfull]
    exact ⟨hinv.assigner, hinv.rounds, hinv.bounded, hinv.accounted, hgrow, hinv.distinct⟩

/-- A dispatch succeeds, appends its round, and leaves an empty pool. -/
theorem dispatch_ok {numShards : Nat} {d : Dispatcher} (hinv : DispatcherInv numShards d)
    (roundStartMs : UInt64) (blockSize : Nat) (durationMs : UInt64) :
    ∃ d' round, d.dispatch roundStartMs blockSize durationMs = .ok d' ∧
      d'.rounds = d.rounds ++ [round] ∧
      round.drained = d.pool.held.take (roundSize blockSize numShards) ∧
      round.pushes = pushesOf numShards roundStartMs (UInt32.ofNat (d.rounds.length + 1))
        round.drained ∧
      d'.pool = d.pool.reset ∧ d'.adds = d.adds ∧ d'.admitted = d.admitted ∧
      DispatcherInv numShards d' := by
  rcases hinv.assigner with ⟨sa, hsa, hnum, hround⟩
  have hnext : sa.roundNumber + 1 = UInt32.ofNat (d.rounds.length + 1) := by
    rw [hround, UInt32.ofNat_add]
    rfl
  subst hnum
  rw [Dispatcher.dispatch, hsa]
  simp only [shardAssignerDispatch_eq, Run.ok_bind, hnext]
  refine ⟨_, _, rfl, rfl, rfl, rfl, rfl, rfl, rfl, ?_⟩
  constructor
  · refine ⟨_, rfl, rfl, ?_⟩
    rw [List.length_append, List.length_singleton]
  · intro k hk
    rw [List.length_append, List.length_singleton] at hk
    rcases Nat.lt_or_ge k d.rounds.length with hlt | hge
    · have hold := hinv.rounds k hlt
      simpa only [List.getElem_append_left hlt] using hold
    · have hlast : k = d.rounds.length := by omega
      subst hlast
      simp only [List.getElem_concat_length]
      exact ⟨roundStartMs, rfl⟩
  · intro round hmem
    rcases List.mem_append.mp hmem with hold | hnew
    · exact hinv.bounded round hold
    · rw [List.mem_singleton.mp hnew]
      exact Nat.le_trans (List.length_take_le' _ _) d.pool.held_length_le
  · -- the drained entries move from the pool to the log; the rest of the pool is gone
    have hsub : (d.sent ++ d.pool.held.take (roundSize blockSize sa.numShards)).Sublist
        (d.sent ++ d.pool.held) :=
      (List.Sublist.refl _).append (List.take_sublist _ _)
    simpa [Dispatcher.sent, Mempool.reset, List.flatMap_append] using hsub.trans hinv.accounted
  · exact hinv.fresh
  · exact hinv.distinct

theorem step_inv {numShards : Nat} (d : Dispatcher) (c : Dispatcher.Call)
    (hinv : DispatcherInv numShards d) :
    ∃ d', d.step c = .ok d' ∧ DispatcherInv numShards d' := by
  cases c with
  | add tx pubkey => exact ⟨_, rfl, add_inv hinv tx pubkey⟩
  | dispatch roundStartMs blockSize durationMs =>
      rcases dispatch_ok hinv roundStartMs blockSize durationMs with
        ⟨d', round, hok, -, -, -, -, -, -, hinv'⟩
      exact ⟨d', hok, hinv'⟩

/-! ## What the shards see -/

/-- Round `k` (counted from 0) of a run as its shards see it, if its dispatch is called
at `roundStartMs` and finds `msgs` to send: under one round number, `k + 1` as long as
that fits, every shard gets its share of what was drained, in order, and a marker that
counts it; shard 0 gets the header in front. -/
structure RoundFramed (numShards k : Nat) (roundStartMs : UInt64) (msgs : List TxWithPubkey)
    (round : Dispatch) : Prop where
  drained : round.drained.map Entry.message = msgs
  framing : ∃ number : UInt32, (k + 1 < 2 ^ 32 → number.toNat = k + 1) ∧
    ∀ i < numShards, ∃ txCount : UInt32,
      messagesTo i round.pushes =
        (if i = 0 then [.header ⟨roundStartMs, number, UInt32.ofNat numShards⟩] else []) ++
          (shareList numShards i round.drained).map .tx ++ [.roundEnd ⟨number, txCount⟩] ∧
        txCount.toNat = (shareList numShards i round.drained).length
  shards : ∀ p ∈ round.pushes, p.shard < numShards

theorem pushesOf_shard_lt {numShards : Nat} (hpos : 0 < numShards) (roundStartMs : UInt64)
    (round : UInt32) (drained : List Entry) :
    ∀ p ∈ pushesOf numShards roundStartMs round drained, p.shard < numShards := by
  intro p hp
  rcases List.mem_cons.mp hp with rfl | hp
  · exact hpos
  rcases List.mem_append.mp hp with htx | hend
  · rcases List.mem_map.mp htx with ⟨e, -, rfl⟩
    exact shardOf_lt hpos e
  · rcases List.mem_map.mp hend with ⟨i, hi, rfl⟩
    exact List.mem_range.mp hi

theorem pushesOf_framed {numShards k : Nat} {roundStartMs : UInt64} {round : Dispatch}
    (hpos : 0 < numShards)
    (hpushes : round.pushes = pushesOf numShards roundStartMs (UInt32.ofNat (k + 1)) round.drained)
    (hbound : round.drained.length ≤ mempoolMaxSize) :
    RoundFramed numShards k roundStartMs (round.drained.map Entry.message) round := by
  refine ⟨rfl, ⟨UInt32.ofNat (k + 1), ?_, ?_⟩, ?_⟩
  · intro hk
    exact UInt32.toNat_ofNat_of_lt' hk
  · intro i hi
    refine ⟨UInt32.ofNat (shareOf numShards i round.drained), ?_, ?_⟩
    · rw [hpushes]
      exact messagesTo_pushesOf hi roundStartMs (UInt32.ofNat (k + 1)) round.drained
    · -- a share is no longer than the pool, so its count fits
      have hshare : (shareList numShards i round.drained).length ≤ round.drained.length :=
        List.length_filter_le _ _
      have hfit : shareOf numShards i round.drained < 2 ^ 32 := by
        rw [← shareList_length]
        unfold mempoolMaxSize at hbound
        omega
      rw [shareList_length]
      exact UInt32.toNat_ofNat_of_lt' hfit
  · rw [hpushes]
    exact pushesOf_shard_lt hpos _ _ _

/-- The transactions on the wire are those the log calls sent. -/
theorem sentEntries_pushes {numShards : Nat} {d : Dispatcher} (hinv : DispatcherInv numShards d) :
    sentEntries d.pushes = d.sent := by
  have hround : ∀ round ∈ d.rounds, sentEntries round.pushes = round.drained := by
    intro round hmem
    rcases List.getElem_of_mem hmem with ⟨k, hk, rfl⟩
    rcases hinv.rounds k hk with ⟨roundStartMs, hpushes⟩
    rw [hpushes, sentEntries_pushesOf]
  unfold Dispatcher.pushes Dispatcher.sent
  rw [sentEntries, List.filterMap_flatMap]
  exact List.flatMap_congr hround

/-- A transaction goes nowhere but to the shard its nonce selects. -/
theorem shard_of_mem_pushes {numShards : Nat} {d : Dispatcher} (hinv : DispatcherInv numShards d)
    {i : Nat} {e : Entry} (hmem : ⟨i, .tx e⟩ ∈ d.pushes) : i = shardOf numShards e := by
  rcases List.mem_flatMap.mp hmem with ⟨round, hround, hpush⟩
  rcases List.getElem_of_mem hround with ⟨k, hk, rfl⟩
  rcases hinv.rounds k hk with ⟨roundStartMs, hpushes⟩
  rw [hpushes] at hpush
  exact (tx_mem_pushesOf.mp hpush).2

/-! ## The calls on paper

What the calls come to when they are only written down: no arrays, no counters, no
handles, and nothing is sent. -/

/-- The transactions waiting, all that were ever taken, and for each dispatch when it
was called and what it had to send; every transaction with its key. -/
structure Ledger where
  waiting : List TxWithPubkey
  taken : List TxWithPubkey
  rounds : List (UInt64 × List TxWithPubkey)

/-- An addition is taken while there is room, under the zero key when none was given; a
dispatch sends from the front of what is waiting and forgets the rest. -/
def Ledger.record (capacity numShards : Nat) (l : Ledger) : Dispatcher.Call → Ledger
  | .add tx pubkey =>
      if l.waiting.length < capacity then
        { l with
          waiting := l.waiting ++ [⟨tx, pubkey.getD (zeros 32)⟩]
          taken := l.taken ++ [⟨tx, pubkey.getD (zeros 32)⟩] }
      else l
  | .dispatch roundStartMs blockSize _ =>
      { l with
        waiting := []
        rounds := l.rounds ++ [(roundStartMs, l.waiting.take (roundSize blockSize numShards))] }

/-- The ledger of a sequence of calls. -/
def Ledger.ofCalls (capacity numShards : Nat) (calls : List Dispatcher.Call) : Ledger :=
  calls.foldl (Ledger.record capacity numShards) ⟨[], [], []⟩

theorem Ledger.ofCalls_append (capacity numShards : Nat) (calls : List Dispatcher.Call)
    (c : Dispatcher.Call) :
    Ledger.ofCalls capacity numShards (calls ++ [c]) =
      (Ledger.ofCalls capacity numShards calls).record capacity numShards c := by
  rw [Ledger.ofCalls, List.foldl_append]
  rfl

/-- The pool and the logs say what the ledger says. -/
structure Recorded (capacity numShards : Nat) (l : Ledger) (d : Dispatcher) : Prop where
  capacity : d.pool.capacity = capacity
  waiting : d.pool.held.map Entry.message = l.waiting
  taken : d.admitted.map Entry.message = l.taken
  length : d.rounds.length = l.rounds.length
  rounds : ∀ k (h : k < d.rounds.length) (h' : k < l.rounds.length),
    d.rounds[k].drained.map Entry.message = l.rounds[k].2 ∧
      d.rounds[k].pushes =
        pushesOf numShards l.rounds[k].1 (UInt32.ofNat (k + 1)) d.rounds[k].drained

theorem create_recorded (capacity numShards : Nat) :
    Recorded (mempoolCreate capacity).capacity numShards ⟨[], [], []⟩
      (Dispatcher.create capacity numShards) :=
  ⟨rfl, rfl, rfl, rfl, fun k hk => absurd hk (Nat.not_lt_zero k)⟩

/-- As many transactions are in the pool as are waiting on paper. -/
theorem Recorded.count {capacity numShards : Nat} {l : Ledger} {d : Dispatcher}
    (h : Recorded capacity numShards l d) : d.pool.count = l.waiting.length := by
  rw [← h.waiting, List.length_map, d.pool.count_eq]

theorem add_recorded {capacity numShards : Nat} {l : Ledger} {d : Dispatcher}
    (h : Recorded capacity numShards l d) (tx : Transaction) (pubkey : Option PublicKey) :
    (d.add tx pubkey).1 = decide (l.waiting.length < capacity) ∧
      Recorded capacity numShards (l.record capacity numShards (.add tx pubkey))
        (d.add tx pubkey).2 := by
  obtain rfl := h.capacity
  rw [Ledger.record, ← h.count]
  rcases Nat.lt_or_ge d.pool.count d.pool.capacity with hroom | hfull
  · rcases add_room tx pubkey hroom with ⟨pool, hadd, hheld, hcap⟩
    rw [hadd, if_pos hroom, decide_eq_true hroom]
    refine ⟨rfl, hcap, ?_, ?_, h.length, h.rounds⟩
    · show pool.held.map Entry.message = _
      rw [hheld, List.map_append, h.waiting]
      rfl
    · show (d.admitted ++ _).map Entry.message = _
      rw [List.map_append, h.taken]
      rfl
  · have hnot := Nat.not_lt.mpr hfull
    rw [add_full tx pubkey hfull, if_neg hnot, decide_eq_false hnot]
    exact ⟨rfl, rfl, h.waiting, h.taken, h.length, h.rounds⟩

theorem dispatch_recorded {capacity numShards : Nat} {l : Ledger} {d d' : Dispatcher}
    (hinv : DispatcherInv numShards d) (h : Recorded capacity numShards l d)
    {roundStartMs : UInt64} {blockSize : Nat} {durationMs : UInt64}
    (hok : d.dispatch roundStartMs blockSize durationMs = .ok d') :
    Recorded capacity numShards
      (l.record capacity numShards (.dispatch roundStartMs blockSize durationMs)) d' := by
  rcases dispatch_ok hinv roundStartMs blockSize durationMs with
    ⟨d₁, round, hok₁, hrounds, hdrained, hpushes, hpool, -, hadmitted, -⟩
  obtain rfl : d₁ = d' := Except.ok.inj (hok₁.symm.trans hok)
  have hmsgs : round.drained.map Entry.message =
      l.waiting.take (roundSize blockSize numShards) := by
    rw [hdrained, List.map_take, h.waiting]
  constructor
  · rw [hpool]
    exact h.capacity
  · rw [hpool]
    rfl
  · rw [hadmitted]
    exact h.taken
  · show _ = (l.rounds ++ [_]).length
    rw [hrounds, List.length_append, List.length_append, h.length]
    rfl
  · intro k hk hk'
    simp only [Ledger.record, hrounds, List.length_append, List.length_singleton] at hk hk' ⊢
    rcases Nat.lt_or_ge k d.rounds.length with hlt | hge
    · have hlt' : k < l.rounds.length := by
        rw [← h.length]
        exact hlt
      simpa only [List.getElem_append_left hlt, List.getElem_append_left hlt'] using
        h.rounds k hlt hlt'
    · -- the last round is the one just sent
      have hlast : k = d.rounds.length := by omega
      have hlast' : k = l.rounds.length := by
        rw [← h.length]
        exact hlast
      rw [List.getElem_append_right (Nat.le_of_eq hlast.symm),
        List.getElem_append_right (Nat.le_of_eq hlast'.symm), List.getElem_singleton,
        List.getElem_singleton, hlast]
      exact ⟨hmsgs, hpushes⟩

theorem step_recorded {capacity numShards : Nat} {l : Ledger} {d : Dispatcher}
    (hinv : DispatcherInv numShards d) (h : Recorded capacity numShards l d)
    (c : Dispatcher.Call) :
    ∃ d', d.step c = .ok d' ∧ DispatcherInv numShards d' ∧
      Recorded capacity numShards (l.record capacity numShards c) d' := by
  rcases step_inv d c hinv with ⟨d', hok, hinv'⟩
  refine ⟨d', hok, hinv', ?_⟩
  cases c with
  | add tx pubkey =>
      obtain rfl : (d.add tx pubkey).2 = d' := Except.ok.inj hok
      exact (add_recorded h tx pubkey).2
  | dispatch roundStartMs blockSize durationMs => exact dispatch_recorded hinv h hok

/-! ## Exact framing -/

/-- The pool takes, holds and sends what the ledger says: `mempool_add` returns 1 exactly
while there is room, and each dispatch sends one round, framed exactly, of what the
ledger has for it. -/
structure Dispatcher.Follows (capacity numShards : Nat) (l : Ledger) (d : Dispatcher) : Prop where
  returns : ∀ tx pubkey, (d.add tx pubkey).1 = decide (l.waiting.length < capacity)
  taken : d.admitted.map Entry.message = l.taken
  waiting : d.pool.held.map Entry.message = l.waiting
  length : d.rounds.length = l.rounds.length
  rounds : ∀ k (h : k < d.rounds.length) (h' : k < l.rounds.length),
    RoundFramed numShards k l.rounds[k].1 l.rounds[k].2 d.rounds[k]

/-- Any interleaving of additions and dispatches runs through and follows the ledger of
its calls. Over the whole run the transactions on the wire are admitted entries, keys
included, in admission order, none of them twice, each on the socket of the shard its
nonce selects. -/
theorem framing_exact (capacity numShards : Nat) (hpos : 0 < numShards)
    (hle : numShards ≤ maxShards) (calls : List Dispatcher.Call) :
    ∃ d, Run.run Dispatcher.step (Dispatcher.create capacity numShards) calls = .ok d ∧
      d.Follows (mempoolCreate capacity).capacity numShards
        (Ledger.ofCalls (mempoolCreate capacity).capacity numShards calls) ∧
      (sentEntries d.pushes).Sublist d.admitted ∧
      (d.admitted.map fun e => e.ptr.handle).Nodup ∧
      (∀ i e, ⟨i, .tx e⟩ ∈ d.pushes → i = e.ptr.tx.nonce.toNat % numShards) := by
  have hstep : ∀ before d c,
      DispatcherInv numShards d ∧ Recorded (mempoolCreate capacity).capacity numShards
        (Ledger.ofCalls (mempoolCreate capacity).capacity numShards before) d →
      ∃ d', d.step c = .ok d' ∧ DispatcherInv numShards d' ∧
        Recorded (mempoolCreate capacity).capacity numShards
          (Ledger.ofCalls (mempoolCreate capacity).capacity numShards (before ++ [c])) d' := by
    rintro before d c ⟨hinv, hrec⟩
    rw [Ledger.ofCalls_append]
    exact step_recorded hinv hrec c
  rcases Run.run_history _ hstep calls [] _
    ⟨create_inv capacity hpos hle, create_recorded capacity numShards⟩ with
    ⟨d, hrun, hinv, hrec⟩
  rw [List.nil_append] at hrec
  refine ⟨d, hrun, ⟨?_, hrec.taken, hrec.waiting, hrec.length, ?_⟩, ?_, hinv.distinct, ?_⟩
  · intro tx pubkey
    exact (add_recorded hrec tx pubkey).1
  · intro k hk hk'
    rcases hrec.rounds k hk hk' with ⟨hmsgs, hpushes⟩
    rw [← hmsgs]
    exact pushesOf_framed hpos hpushes (hinv.bounded _ (List.getElem_mem hk))
  · rw [sentEntries_pushes hinv]
    exact (List.sublist_append_left _ _).trans hinv.accounted
  · intro i e hmem
    exact shard_of_mem_pushes hinv hmem

/-- Two transactions, one without a key and one with, a dispatch and an empty one. -/
def twoShardCalls : List Dispatcher.Call :=
  [.add ⟨7, 0, zeros 20, zeros 20, 0, 0, zeros 64⟩ none,
    .add ⟨4, 0, zeros 20, zeros 20, 0, 0, zeros 64⟩ (some (Vector.replicate 32 1)),
    .dispatch 5 2 0, .dispatch 9 3 0]

theorem framing_exact_two_shards :
    ∃ d, Run.run Dispatcher.step (Dispatcher.create 4 2) twoShardCalls = .ok d ∧
      d.Follows 4 2 (Ledger.ofCalls 4 2 twoShardCalls) ∧
      (sentEntries d.pushes).Sublist d.admitted ∧
      (d.admitted.map fun e => e.ptr.handle).Nodup ∧
      (∀ i e, ⟨i, .tx e⟩ ∈ d.pushes → i = e.ptr.tx.nonce.toNat % 2) :=
  framing_exact 4 2 (by decide) (by decide) twoShardCalls

/-! ## What is lost -/

/-- Every admitted transaction is in the pool or went to its shard. -/
def Kept (numShards : Nat) (d : Dispatcher) : Prop :=
  ∀ e ∈ d.admitted, e ∈ d.pool.held ∨ ⟨shardOf numShards e, .tx e⟩ ∈ d.pushes

theorem create_kept (capacity numShards : Nat) :
    Kept numShards (Dispatcher.create capacity numShards) := by
  intro e he
  simp [Dispatcher.create] at he

/-- An addition loses nothing: what does not fit was never admitted. -/
theorem add_kept {numShards : Nat} {d : Dispatcher} (hkept : Kept numShards d)
    (tx : Transaction) (pubkey : Option PublicKey) : Kept numShards (d.add tx pubkey).2 := by
  rcases Nat.lt_or_ge d.pool.count d.pool.capacity with hroom | hfull
  · rcases add_room tx pubkey hroom with ⟨pool, hadd, hheld, -⟩
    rw [hadd]
    intro e he
    show e ∈ pool.held ∨ _
    rw [hheld]
    rcases List.mem_append.mp he with hold | hnew
    · rcases hkept e hold with hpool | hpushed
      · exact Or.inl (List.mem_append_left _ hpool)
      · exact Or.inr hpushed
    · exact Or.inl (List.mem_append_right _ hnew)
  · rw [add_full tx pubkey hfull]
    exact hkept

/-- No entry is sent twice, held twice, or both. -/
theorem accounted_nodup {numShards : Nat} {d : Dispatcher} (hinv : DispatcherInv numShards d) :
    (d.sent ++ d.pool.held).Nodup :=
  hinv.accounted.nodup (List.Nodup.of_map _ hinv.distinct)

/-- Nothing is lost exactly if the rounds and the pool hold all that was admitted. -/
theorem kept_iff_accounted {numShards : Nat} {d : Dispatcher} (hinv : DispatcherInv numShards d) :
    Kept numShards d ↔ d.sent.length + d.pool.count = d.admitted.length := by
  have hheld : d.pool.count = d.pool.held.length := d.pool.count_eq
  have hsent : ∀ e, e ∈ d.sent ↔ ⟨shardOf numShards e, .tx e⟩ ∈ d.pushes := by
    intro e
    rw [← sentEntries_pushes hinv]
    constructor
    · intro he
      rcases List.mem_filterMap.mp he with ⟨⟨i, msg⟩, hp, hmsg⟩
      cases msg with
      | tx e' =>
          obtain rfl := Option.some.inj hmsg
          rwa [shard_of_mem_pushes hinv hp] at hp
      | header h => cases hmsg
      | roundEnd m => cases hmsg
    · intro hp
      exact List.mem_filterMap.mpr ⟨_, hp, rfl⟩
  constructor
  · intro hkept
    have hall : d.admitted ⊆ d.sent ++ d.pool.held := by
      intro e he
      rcases hkept e he with hpool | hpushed
      · exact List.mem_append_right _ hpool
      · exact List.mem_append_left _ ((hsent e).mpr hpushed)
    have hdistinct : d.admitted.Nodup := List.Nodup.of_map _ hinv.distinct
    have hle := (hdistinct.subperm hall).length_le
    have hge := hinv.accounted.length_le
    rw [List.length_append] at hle hge
    omega
  · intro hcount e he
    have hsame : d.sent ++ d.pool.held = d.admitted := by
      apply hinv.accounted.eq_of_length
      rw [List.length_append]
      omega
    rw [← hsame] at he
    rcases List.mem_append.mp he with hs | hp
    · exact Or.inr ((hsent e).mp hs)
    · exact Or.inl hp

/-- A dispatch keeps everything exactly when it drains the whole pool: what is
left behind is neither held nor sent. -/
theorem dispatch_kept_iff {numShards : Nat} {d d' : Dispatcher} (hinv : DispatcherInv numShards d)
    (hkept : Kept numShards d) {roundStartMs : UInt64} {blockSize : Nat} {durationMs : UInt64}
    (hok : d.dispatch roundStartMs blockSize durationMs = .ok d') :
    Kept numShards d' ↔ d.pool.count ≤ roundSize blockSize numShards := by
  rcases dispatch_ok hinv roundStartMs blockSize durationMs with
    ⟨d₁, round, hok₁, hrounds, hdrained, hpushes, hpool, -, hadmitted, -⟩
  obtain rfl : d₁ = d' := Except.ok.inj (hok₁.symm.trans hok)
  have hlog : d₁.pushes = d.pushes ++ round.pushes := by
    simp [Dispatcher.pushes, hrounds]
  have hempty : d₁.pool.held = [] := by
    rw [hpool]
    rfl
  have hcount := d.pool.count_eq
  constructor
  · intro hkept'
    by_contra hmore
    -- the first entry that was not drained
    have hlt : roundSize blockSize numShards < d.pool.held.length := by omega
    have hmem : d.pool.held[roundSize blockSize numShards] ∈ d.pool.held := List.getElem_mem hlt
    rcases List.nodup_append.mp (accounted_nodup hinv) with ⟨-, hheld, hapart⟩
    have hadm : d.pool.held[roundSize blockSize numShards] ∈ d₁.admitted := by
      rw [hadmitted]
      exact hinv.accounted.subset (List.mem_append_right _ hmem)
    rcases hkept' _ hadm with hpool' | hpushed
    · rw [hempty] at hpool'
      cases hpool'
    rw [hlog] at hpushed
    rcases List.mem_append.mp hpushed with hbefore | hnow
    · have hsent : d.pool.held[roundSize blockSize numShards] ∈ d.sent := by
        rw [← sentEntries_pushes hinv]
        exact List.mem_filterMap.mpr ⟨_, hbefore, rfl⟩
      exact hapart _ hsent _ hmem rfl
    · rw [hpushes, tx_mem_pushesOf, hdrained] at hnow
      rcases List.getElem_of_mem hnow.1 with ⟨j, hj, heq⟩
      rw [List.length_take] at hj
      rw [List.getElem_take, hheld.getElem_inj_iff] at heq
      omega
  · intro hfits e he
    rw [hadmitted] at he
    right
    rw [hlog]
    rcases hkept e he with hheld | hpushed
    · apply List.mem_append_right
      rw [hpushes, tx_mem_pushesOf, hdrained, List.take_of_length_le (by omega)]
      exact ⟨hheld, rfl⟩
    · exact List.mem_append_left _ hpushed

end Sharding
