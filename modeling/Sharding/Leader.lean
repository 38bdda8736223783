import Sharding.Lib.Heap
import Sharding.Lib.Run
import Sharding.Worker

/-! # Assembling a block in the leader

`run_leader` of `shard_worker.c`, from the leader's own summary on: the summaries
of the followers are stored in the order in which they arrive, counts and fees
are added up, and the roots are concatenated in that order and hashed. The
totals do not depend on the order, the root does.
-/

namespace Sharding

/-- The array `summaries` and `results_received`. -/
structure CollectState where
  summaries : HeapBlock ShardSummary
  resultsReceived : Nat

/-- `summaries[0] = own` in a fresh array. -/
def collectStart (numShards : Nat) (own : ShardSummary) : Except Stuck CollectState :=
  match (HeapBlock.malloc numShards).store 0 own with
  | some summaries => .ok ⟨summaries, 0⟩
  | none => .error .undefined

/-- One receive on the result socket; only messages of the right size count. -/
def collectResult (st : CollectState) : Option Bytes → Except Stuck CollectState
  | none => .ok st
  | some raw =>
      if raw.length ≠ ShardSummary.codec.size then .ok st
      else
        match st.summaries.store (1 + st.resultsReceived) (ShardSummary.codec.dec raw) with
        | some summaries => .ok ⟨summaries, st.resultsReceived + 1⟩
        | none => .error .undefined

/-- The collecting loop, until `followers` results are in. -/
def collectResults (followers : Nat) :
    List (Option Bytes) → CollectState → Except Stuck (CollectState × List (Option Bytes))
  | [], st => if st.resultsReceived < followers then .error .blocked else .ok (st, [])
  | ev :: evs, st =>
      if st.resultsReceived < followers then do
        let st ← collectResult st ev
        collectResults followers evs st
      else .ok (st, ev :: evs)

/-- The loop that adds up counts and fees. -/
def sumSummaries (summaries : HeapBlock ShardSummary) :
    List Nat → UInt32 × UInt64 → Except Stuck (UInt32 × UInt64)
  | [], totals => .ok totals
  | i :: is, (totalTxCount, totalFees) =>
      match summaries.load i with
      | some s => sumSummaries summaries is (totalTxCount + s.txCount, totalFees + s.totalFees)
      | none => .error .undefined

/-- The loop that copies the roots, each to `all_roots + i * 32`; the offset is
computed as an `int`. -/
def concatRoots (summaries : HeapBlock ShardSummary) : List Nat → Except Stuck Bytes
  | [] => .ok []
  | i :: is =>
      -- the offset is an `int`
      if i * 32 < 2 ^ 31 then
        match summaries.load i with
        | some s => do
            let rest ← concatRoots summaries is
            .ok (s.merkleRoot.toList ++ rest)
        | none => .error .undefined
      else .error .undefined

/-- The block, from the filled array. -/
def assembleBlock (crypto : Crypto) (round : UInt32) (numShards : Nat)
    (summaries : HeapBlock ShardSummary) : Except Stuck Block := do
  let (totalTxCount, totalFees) ← sumSummaries summaries (List.range numShards) (0, 0)
  let allRoots ← concatRoots summaries (List.range numShards)
  .ok ⟨round, UInt32.ofNat numShards, totalTxCount, totalFees, crypto.sha256 allRoots⟩

/-- From the leader's own summary to the block, and what is left in the result socket. -/
def leaderBlock (crypto : Crypto) (round : UInt32) (numShards : Nat) (own : ShardSummary)
    (events : List (Option Bytes)) : Except Stuck (Block × List (Option Bytes)) := do
  let st ← collectStart numShards own
  let (st, rest) ← collectResults (numShards - 1) events st
  let block ← assembleBlock crypto round numShards st.summaries
  .ok (block, rest)

/-! ## The array as a list -/

/-- The array has room for `numShards` summaries and starts with `l`. -/
structure Filled (numShards : Nat) (st : CollectState) (l : List ShardSummary) : Prop where
  cap : st.summaries.cap = numShards
  holds : st.summaries.Holds l
  received : 1 + st.resultsReceived = l.length

theorem collectStart_filled {numShards : Nat} (hpos : 0 < numShards) (own : ShardSummary) :
    ∃ st, collectStart numShards own = .ok st ∧ Filled numShards st [own] := by
  have hcap : 0 < (HeapBlock.malloc numShards : HeapBlock ShardSummary).cap := hpos
  refine ⟨⟨(HeapBlock.malloc numShards).put 0 own, 0⟩, ?_, rfl, ?_, rfl⟩
  · unfold collectStart HeapBlock.store
    rw [if_pos hcap]
  · exact (HeapBlock.holds_nil _).put own hcap

/-- A summary is stored behind the others while there is room. -/
theorem collectResult_filled {numShards : Nat} {st : CollectState} {l : List ShardSummary}
    (h : Filled numShards st l) (hroom : l.length < numShards) (s : ShardSummary) :
    ∃ st', collectResult st (some (ShardSummary.codec.enc s)) = .ok st' ∧
      Filled numShards st' (l ++ [s]) := by
  have hlen : (ShardSummary.codec.enc s).length = ShardSummary.codec.size :=
    ShardSummary.codec.enc_length s
  have hcap : l.length < st.summaries.cap := by
    rw [h.cap]
    exact hroom
  have hreceived := h.received
  refine ⟨⟨st.summaries.put l.length s, st.resultsReceived + 1⟩, ?_, h.cap, h.holds.put s hcap, ?_⟩
  · unfold collectResult HeapBlock.store
    simp only [hlen, ne_eq, not_true_eq_false, if_false, ShardSummary.codec.dec_enc_self, hreceived,
      if_pos hcap]
  · rw [List.length_append, List.length_singleton]
    show 1 + (st.resultsReceived + 1) = l.length + 1
    omega

theorem collectResults_filled {numShards : Nat} (arrivals : List ShardSummary) :
    ∀ {st : CollectState} {l : List ShardSummary}, Filled numShards st l →
      l.length + arrivals.length = numShards →
      ∃ st', collectResults (numShards - 1)
          (arrivals.map fun s => some (ShardSummary.codec.enc s)) st = .ok (st', []) ∧
        Filled numShards st' (l ++ arrivals) := by
  induction arrivals with
  | nil =>
      intro st l h hlen
      have hreceived := h.received
      -- all followers have reported
      have hstop : ¬ st.resultsReceived < numShards - 1 := by
        rw [List.length_nil] at hlen
        omega
      refine ⟨st, ?_, ?_⟩
      · rw [List.map_nil, collectResults, if_neg hstop]
      · rw [List.append_nil]
        exact h
  | cons s arrivals ih =>
      intro st l h hlen
      rw [List.length_cons] at hlen
      have hreceived := h.received
      have hgo : st.resultsReceived < numShards - 1 := by omega
      rcases collectResult_filled h (by omega) s with ⟨st₁, hone, h₁⟩
      have hlen₁ : (l ++ [s]).length + arrivals.length = numShards := by
        rw [List.length_append, List.length_singleton]
        omega
      rcases ih h₁ hlen₁ with ⟨st', hrest, h'⟩
      refine ⟨st', ?_, ?_⟩
      · rw [List.map_cons, collectResults, if_pos hgo, hone, Run.ok_bind]
        exact hrest
      · rwa [List.append_assoc, List.singleton_append] at h'

/-- The two loops over a full array. -/
theorem sumSummaries_holds {summaries : HeapBlock ShardSummary} (f : Nat → ShardSummary)
    (is : List Nat) (hload : ∀ i ∈ is, summaries.load i = some (f i)) (totals : UInt32 × UInt64) :
    sumSummaries summaries is totals =
      .ok (totals.1 + (is.map fun i => (f i).txCount).sum,
        totals.2 + (is.map fun i => (f i).totalFees).sum) := by
  induction is generalizing totals with
  | nil => simp [sumSummaries]
  | cons i is ih =>
      rcases totals with ⟨totalTxCount, totalFees⟩
      have hrest : ∀ j ∈ is, summaries.load j = some (f j) :=
        fun j hj => hload j (List.mem_cons_of_mem i hj)
      rw [sumSummaries, hload i List.mem_cons_self]
      simp only [ih hrest, List.map_cons, List.sum_cons, add_assoc]

theorem concatRoots_holds {summaries : HeapBlock ShardSummary} (f : Nat → ShardSummary)
    (is : List Nat) (hload : ∀ i ∈ is, summaries.load i = some (f i))
    (hoffset : ∀ i ∈ is, i * 32 < 2 ^ 31) :
    concatRoots summaries is = .ok (is.flatMap fun i => (f i).merkleRoot.toList) := by
  induction is with
  | nil => rfl
  | cons i is ih =>
      have hrest : ∀ j ∈ is, summaries.load j = some (f j) :=
        fun j hj => hload j (List.mem_cons_of_mem i hj)
      have hoffsets : ∀ j ∈ is, j * 32 < 2 ^ 31 := fun j hj => hoffset j (List.mem_cons_of_mem i hj)
      rw [concatRoots, if_pos (hoffset i List.mem_cons_self), hload i List.mem_cons_self,
        ih hrest hoffsets]
      rfl

/-- The block of the summaries `l`, in this order. -/
def blockOf (crypto : Crypto) (round : UInt32) (l : List ShardSummary) : Block where
  blockNumber := round
  numShards := UInt32.ofNat l.length
  totalTxCount := (l.map ShardSummary.txCount).sum
  totalFees := (l.map ShardSummary.totalFees).sum
  merkleRoot := crypto.sha256 (l.flatMap fun s => s.merkleRoot.toList)

/-- The offset of the last root is an `int` up to `2^26` shards. -/
theorem assembleBlock_eq (crypto : Crypto) (round : UInt32) {summaries : HeapBlock ShardSummary}
    {l : List ShardSummary} (h : summaries.Holds l) (hsmall : l.length ≤ 2 ^ 26) :
    assembleBlock crypto round l.length summaries = .ok (blockOf crypto round l) := by
  have hload : ∀ i ∈ List.range l.length, summaries.load i =
      some (l.getD i ⟨0, 0, 0, zeros 32⟩) := by
    intro i hi
    have hlt := List.mem_range.mp hi
    rw [h.load i hlt, List.getElem_eq_getD ⟨0, 0, 0, zeros 32⟩]
  have hoffset : ∀ i ∈ List.range l.length, i * 32 < 2 ^ 31 := by
    intro i hi
    have hlt := List.mem_range.mp hi
    omega
  have hget : ∀ {α : Type} (g : ShardSummary → α),
      (List.range l.length).map (fun i => g (l.getD i ⟨0, 0, 0, zeros 32⟩)) = l.map g := by
    intro α g
    apply map_range_eq
    intro i hi
    rw [List.getElem_eq_getD ⟨0, 0, 0, zeros 32⟩]
  unfold assembleBlock blockOf
  simp only [sumSummaries_holds _ _ hload, concatRoots_holds _ _ hload hoffset, Run.ok_bind,
    List.flatMap_def, hget ShardSummary.txCount, hget ShardSummary.totalFees,
    hget fun s => s.merkleRoot.toList, zero_add]

theorem sumSummaries_not_blocked (summaries : HeapBlock ShardSummary) (is : List Nat)
    (totals : UInt32 × UInt64) : sumSummaries summaries is totals ≠ .error .blocked := by
  induction is generalizing totals with
  | nil =>
      intro h
      cases h
  | cons i is ih =>
      rcases totals with ⟨totalTxCount, totalFees⟩
      rw [sumSummaries]
      cases summaries.load i with
      | none =>
          intro h
          cases h
      | some s => exact ih _

/-- Beyond `2^26` shards an offset overflows. -/
theorem concatRoots_overflow (summaries : HeapBlock ShardSummary) (is : List Nat)
    (h : ∃ i ∈ is, ¬ i * 32 < 2 ^ 31) : concatRoots summaries is = .error .undefined := by
  induction is with
  | nil =>
      rcases h with ⟨i, hi, -⟩
      cases hi
  | cons j is ih =>
      rw [concatRoots]
      by_cases hj : j * 32 < 2 ^ 31
      · have hrest : ∃ i ∈ is, ¬ i * 32 < 2 ^ 31 := by
          rcases h with ⟨i, hi, hbig⟩
          rcases List.mem_cons.mp hi with rfl | hi
          · exact absurd hj hbig
          · exact ⟨i, hi, hbig⟩
        rw [if_pos hj, ih hrest]
        cases summaries.load j with
        | none => rfl
        | some s => rfl
      · rw [if_neg hj]

/-! ## The order of arrival -/

/-- Follower summaries as they come out of the result socket. -/
def resultEvents (arrivals : List ShardSummary) : List (Option Bytes) :=
  arrivals.map fun s => some (ShardSummary.codec.enc s)

/-- Own summary first, the others as they arrive. -/
theorem leaderBlock_eq (crypto : Crypto) (round : UInt32) (own : ShardSummary)
    (arrivals : List ShardSummary) :
    leaderBlock crypto round (arrivals.length + 1) own (resultEvents arrivals) =
      if arrivals.length + 1 ≤ 2 ^ 26 then .ok (blockOf crypto round (own :: arrivals), [])
      else .error .undefined := by
  rcases collectStart_filled (Nat.succ_pos arrivals.length) own with ⟨st₀, hstart, h₀⟩
  have hlen : [own].length + arrivals.length = arrivals.length + 1 := Nat.add_comm 1 _
  rcases collectResults_filled arrivals h₀ hlen with ⟨st, hcollect, h⟩
  unfold leaderBlock resultEvents
  simp only [hstart, hcollect, Run.ok_bind]
  by_cases hsmall : arrivals.length + 1 ≤ 2 ^ 26
  · have hblock : assembleBlock crypto round (arrivals.length + 1) st.summaries =
        .ok (blockOf crypto round (own :: arrivals)) :=
      assembleBlock_eq crypto round h.holds hsmall
    rw [hblock, if_pos hsmall]
    rfl
  · have hbig : ∃ i ∈ List.range (arrivals.length + 1), ¬ i * 32 < 2 ^ 31 := by
      refine ⟨2 ^ 26, List.mem_range.mpr (by omega), by decide⟩
    -- the totals go through, the offset of shard `2 ^ 26` does not
    have hfail : assembleBlock crypto round (arrivals.length + 1) st.summaries =
        .error .undefined := by
      unfold assembleBlock
      rw [concatRoots_overflow st.summaries _ hbig]
      cases hsum : sumSummaries st.summaries (List.range (arrivals.length + 1)) (0, 0) with
      | ok totals => rfl
      | error e =>
          cases e with
          | blocked => exact absurd hsum (sumSummaries_not_blocked _ _ _)
          | undefined => rfl
    rw [hfail, if_neg hsmall]
    rfl

/-- The totals are the same in every order. -/
theorem blockOf_totals (crypto : Crypto) (round : UInt32) {l l' : List ShardSummary}
    (h : l.Perm l') :
    (blockOf crypto round l).totalTxCount = (blockOf crypto round l').totalTxCount ∧
      (blockOf crypto round l).totalFees = (blockOf crypto round l').totalFees :=
  ⟨(h.map ShardSummary.txCount).sum_eq, (h.map ShardSummary.totalFees).sum_eq⟩

/-- The concatenation determines the roots. -/
theorem roots_inj {l l' : List ShardSummary} (hlen : l.length = l'.length)
    (h : (l.flatMap fun s => s.merkleRoot.toList) = l'.flatMap fun s => s.merkleRoot.toList) :
    l.map ShardSummary.merkleRoot = l'.map ShardSummary.merkleRoot := by
  induction l generalizing l' with
  | nil =>
      have hnil : l' = [] := List.eq_nil_of_length_eq_zero hlen.symm
      rw [hnil]
  | cons s l ih =>
      cases l' with
      | nil => cases hlen
      | cons s' l' =>
          rcases Codec.enc_append_inj (Codec.bytes 32) h with ⟨hhead, htail⟩
          have hlen' : l.length = l'.length := Nat.succ.inj hlen
          rw [List.map_cons, List.map_cons, hhead, ih hlen' htail]

/-- What two blocks of the same round should agree on. -/
structure SameBlock (b b' : Block) : Prop where
  totalTxCount : b.totalTxCount = b'.totalTxCount
  totalFees : b.totalFees = b'.totalFees
  merkleRoot : b.merkleRoot = b'.merkleRoot

/-- A hash function that recognises the concatenation of `l`'s roots. -/
def recognising (l : List ShardSummary) : Crypto :=
  { Crypto.rejecting with
    sha256 := fun b =>
      if b = l.flatMap fun s => s.merkleRoot.toList then zeros 32 else Vector.replicate 32 1 }

/-- Its outputs tell whether two concatenations are the same. -/
theorem recognising_inj {l l' : List ShardSummary} (hlen : l.length = l'.length)
    (h : (recognising l).sha256 (l.flatMap fun s => s.merkleRoot.toList) =
      (recognising l).sha256 (l'.flatMap fun s => s.merkleRoot.toList)) :
    l.map ShardSummary.merkleRoot = l'.map ShardSummary.merkleRoot := by
  by_cases heq : (l'.flatMap fun s => s.merkleRoot.toList) =
      l.flatMap fun s => s.merkleRoot.toList
  · exact roots_inj hlen heq.symm
  · simp only [recognising, if_true, if_neg heq] at h
    exact absurd h (by decide)

/-- With whatever hash function, two orders of arrival give the same block if and
only if the roots arrive in the same sequence (and the offsets fit). -/
theorem block_order_iff (round : UInt32) (own : ShardSummary) (arrivals₁ arrivals₂ : List ShardSummary)
    (hperm : arrivals₁.Perm arrivals₂) :
    (∀ crypto : Crypto, ∃ b₁ b₂,
        leaderBlock crypto round (arrivals₁.length + 1) own (resultEvents arrivals₁) = .ok (b₁, []) ∧
        leaderBlock crypto round (arrivals₁.length + 1) own (resultEvents arrivals₂) = .ok (b₂, []) ∧
        SameBlock b₁ b₂) ↔
      arrivals₁.length + 1 ≤ 2 ^ 26 ∧
        arrivals₁.map ShardSummary.merkleRoot = arrivals₂.map ShardSummary.merkleRoot := by
  have hlen : arrivals₂.length = arrivals₁.length := hperm.length_eq.symm
  have hblock₂ := fun crypto => leaderBlock_eq crypto round own arrivals₂
  rw [hlen] at hblock₂
  constructor
  · intro h
    by_cases hsmall : arrivals₁.length + 1 ≤ 2 ^ 26
    · -- a hash that recognises the first order shows a difference in the second
      refine ⟨hsmall, ?_⟩
      rcases h (recognising (own :: arrivals₁)) with ⟨b₁, b₂, hb₁, hb₂, hsame⟩
      rw [leaderBlock_eq, if_pos hsmall] at hb₁
      rw [hblock₂, if_pos hsmall] at hb₂
      rcases Prod.mk.inj (Except.ok.inj hb₁) with ⟨rfl, -⟩
      rcases Prod.mk.inj (Except.ok.inj hb₂) with ⟨rfl, -⟩
      have hlists := recognising_inj (by rw [List.length_cons, List.length_cons, hlen])
        hsame.merkleRoot
      exact (List.cons.inj hlists).2
    · -- with an offset that overflows there is no block
      rcases h Crypto.rejecting with ⟨b₁, b₂, hb₁, -⟩
      rw [leaderBlock_eq, if_neg hsmall] at hb₁
      cases hb₁
  · rintro ⟨hsmall, hroots⟩ crypto
    have htotals := blockOf_totals crypto round (hperm.cons own)
    refine ⟨blockOf crypto round (own :: arrivals₁), blockOf crypto round (own :: arrivals₂),
      ?_, ?_, htotals.1, htotals.2, ?_⟩
    · rw [leaderBlock_eq, if_pos hsmall]
    · rw [hblock₂, if_pos hsmall]
    · have hflat : ∀ l : List ShardSummary, (l.flatMap fun s => s.merkleRoot.toList) =
          (l.map ShardSummary.merkleRoot).flatMap Vector.toList := by
        intro l
        rw [List.flatMap_map]
      unfold blockOf
      simp only [hflat, List.map_cons, hroots]

/-- Three summaries, the followers' with different roots. -/
def leaderOwn : ShardSummary := ⟨0, 1, 1, zeros 32⟩

def followerA : ShardSummary := ⟨1, 1, 1, zeros 32⟩

def followerB : ShardSummary := ⟨2, 1, 1, Vector.replicate 32 1⟩

theorem block_order_iff_two_followers :
    (∀ crypto : Crypto, ∃ b₁ b₂,
        leaderBlock crypto 1 3 leaderOwn (resultEvents [followerA, followerB]) = .ok (b₁, []) ∧
        leaderBlock crypto 1 3 leaderOwn (resultEvents [followerB, followerA]) = .ok (b₂, []) ∧
        SameBlock b₁ b₂) ↔
      3 ≤ 2 ^ 26 ∧ [followerA, followerB].map ShardSummary.merkleRoot =
        [followerB, followerA].map ShardSummary.merkleRoot :=
  block_order_iff 1 leaderOwn [followerA, followerB] [followerB, followerA] (List.Perm.swap _ _ _)

/-- A hash function that keeps the root in the second place. -/
def secondRoot : Crypto :=
  { Crypto.rejecting with sha256 := fun b => Codec.takeVec 32 (b.drop 32) }

/-- The root of the block tells which of them was faster. -/
theorem faster_follower_shows :
    ¬ ∀ (crypto : Crypto) (round : UInt32) (own : ShardSummary)
      (arrivals₁ arrivals₂ : List ShardSummary), arrivals₁.Perm arrivals₂ →
        ∃ b₁ b₂,
          leaderBlock crypto round (arrivals₁.length + 1) own (resultEvents arrivals₁) =
            .ok (b₁, []) ∧
          leaderBlock crypto round (arrivals₁.length + 1) own (resultEvents arrivals₂) =
            .ok (b₂, []) ∧
          SameBlock b₁ b₂ := by
  intro hclaim
  rcases hclaim secondRoot 1 leaderOwn [followerA, followerB] [followerB, followerA]
    (List.Perm.swap _ _ _) with ⟨b₁, b₂, hb₁, hb₂, hsame⟩
  have h₁ := leaderBlock_eq secondRoot 1 leaderOwn [followerA, followerB]
  have h₂ := leaderBlock_eq secondRoot 1 leaderOwn [followerB, followerA]
  rw [if_pos (by decide)] at h₁ h₂
  rcases Prod.mk.inj (Except.ok.inj (h₁.symm.trans hb₁)) with ⟨rfl, -⟩
  rcases Prod.mk.inj (Except.ok.inj (h₂.symm.trans hb₂)) with ⟨rfl, -⟩
  exact absurd hsame.merkleRoot (by decide)

end Sharding
