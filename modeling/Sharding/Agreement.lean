import Sharding.Cluster

/-! # Round agreement

A summary carries no round number, the leader checks neither its origin nor
whether it came before, and announcements may get lost. That blocks are right
all the same rests on counting: the leader waits for as many results as there
are followers, a follower answers an announcement once, so while round `k` is
open a follower has missed it, has it queued, works on it, or has reported on
it, and nothing else. `PhaseAt` says so for every state of the leader.
-/

namespace Sharding

open ParallelFor

/-! ## Positions in the stream of a shard -/

/-- Shard `i` has the frames `frames` ahead, and then the rounds from `k` on. -/
structure At (i : Nat) (rounds : List Dispatch) (k : Nat) (frames : List Frame)
    (ahead : List Bytes) : Prop where
  le : k ≤ rounds.length
  stream : ahead.map some =
    frames.map Frame.event ++ ((rounds.drop k).flatMap (roundBytes i)).map some

/-- A new round comes behind everything else. -/
theorem At.extend {i : Nat} {rounds : List Dispatch} {k : Nat} {frames : List Frame}
    {ahead : List Bytes} (h : At i rounds k frames ahead) (x : Dispatch) :
    At i (rounds ++ [x]) k frames (ahead ++ roundBytes i x) := by
  constructor
  · rw [List.length_append]
    exact Nat.le_trans h.le (Nat.le_add_right _ _)
  · rw [List.map_append, h.stream, List.drop_append_of_le_length h.le, List.flatMap_append,
      List.map_append, List.append_assoc]
    simp

theorem At.next {i : Nat} {rounds : List Dispatch} {k : Nat} {f : Frame} {frames : List Frame}
    {raw : Bytes} {ahead : List Bytes} (h : At i rounds k (f :: frames) (raw :: ahead)) :
    f.event = some raw ∧ At i rounds k frames ahead := by
  have hstream := h.stream
  rw [List.map_cons, List.map_cons, List.cons_append] at hstream
  rcases List.cons.inj hstream with ⟨hraw, hrest⟩
  exact ⟨hraw.symm, h.le, hrest⟩

theorem drop_flatMap {i k : Nat} {rounds : List Dispatch} (hk : k < rounds.length) :
    (rounds.drop k).flatMap (roundBytes i) =
      roundBytes i rounds[k] ++ (rounds.drop (k + 1)).flatMap (roundBytes i) := by
  rw [List.drop_eq_getElem_cons hk, List.flatMap_cons]

theorem shareAt_eq {numShards i k : Nat} {rounds : List Dispatch} (hk : k < rounds.length) :
    shareAt numShards i rounds k =
      (shareList numShards i rounds[k].drained).map Entry.message := by
  rw [shareAt, List.getElem?_eq_getElem hk]

theorem shareAt_extend {numShards i k : Nat} {rounds : List Dispatch} (hk : k < rounds.length)
    (x : Dispatch) : shareAt numShards i (rounds ++ [x]) k = shareAt numShards i rounds k := by
  rw [shareAt, shareAt, List.getElem?_append_left hk]

/-- A share is no longer than the pool. -/
theorem shareAt_length_le {numShards : Nat} {d : Dispatcher} (hinv : DispatcherInv numShards d)
    (i k : Nat) : (shareAt numShards i d.rounds k).length ≤ mempoolMaxSize := by
  by_cases hk : k < d.rounds.length
  · rw [shareAt_eq hk, List.length_map]
    exact Nat.le_trans (List.length_filter_le _ _) (hinv.bounded _ (List.getElem_mem hk))
  · rw [shareAt, List.getElem?_eq_none (Nat.not_lt.mp hk)]
    exact Nat.zero_le _

/-- A follower that begins round `k` has its share ahead. -/
theorem At.enter {numShards i k : Nat} {d : Dispatcher} (hinv : DispatcherInv numShards d)
    (hpos : 1 ≤ i) (hi : i < numShards) {ahead : List Bytes} (h : At i d.rounds k [] ahead)
    (hk : k < d.rounds.length) :
    At i d.rounds (k + 1)
      (shareFrames (UInt32.ofNat (k + 1)) (shareAt numShards i d.rounds k)) ahead := by
  rcases roundBytes_eq hi (hinv.rounds k hk) with ⟨roundStartMs, hbytes⟩
  have hne : i ≠ 0 := by omega
  refine ⟨hk, ?_⟩
  rw [h.stream, drop_flatMap hk, List.map_append, hbytes, if_neg hne, shareAt_eq hk]
  rfl

/-- Between two rounds the leader finds a header, and its share behind it. -/
theorem At.header {numShards k : Nat} {d : Dispatcher} (hinv : DispatcherInv numShards d)
    (hpos : 0 < numShards) {raw : Bytes} {ahead : List Bytes}
    (h : At 0 d.rounds k [] (raw :: ahead)) :
    ∃ roundStartMs, raw = DispatchHeader.codec.enc
        ⟨roundStartMs, UInt32.ofNat (k + 1), UInt32.ofNat numShards⟩ ∧
      At 0 d.rounds (k + 1)
        (shareFrames (UInt32.ofNat (k + 1)) (shareAt numShards 0 d.rounds k)) ahead := by
  have hstream := h.stream
  -- with no round left there would be nothing ahead
  have hk : k < d.rounds.length := by
    by_contra hge
    rw [List.drop_eq_nil_of_le (Nat.not_lt.mp hge)] at hstream
    cases hstream
  rcases roundBytes_eq hpos (hinv.rounds k hk) with ⟨roundStartMs, hbytes⟩
  rw [drop_flatMap hk, List.map_append, hbytes, if_pos rfl] at hstream
  rcases List.cons.inj hstream with ⟨hraw, hrest⟩
  refine ⟨roundStartMs, Option.some.inj hraw, hk, ?_⟩
  rw [hrest, shareAt_eq hk]
  rfl

/-! ## A worker inside a round -/

/-- The worker of shard `i` is inside round `k`: what it has gathered and what is
still ahead make up its share. -/
def Working (numShards i : Nat) (rounds : List Dispatch) (k : Nat) (st : RecvState)
    (ahead : List Bytes) : Prop :=
  ∃ c frames, Holding st c ∧ Pending (shareAt numShards i rounds k).length c frames ∧
    c.msgs ++ txsOf frames = shareAt numShards i rounds k ∧ At i rounds (k + 1) frames ahead

theorem Working.extend {numShards i k : Nat} {rounds : List Dispatch} {st : RecvState}
    {ahead : List Bytes} (h : Working numShards i rounds k st ahead) (x : Dispatch) :
    Working numShards i (rounds ++ [x]) k st (ahead ++ roundBytes i x) := by
  rcases h with ⟨c, frames, hholding, hpending, hshare, hat⟩
  refine ⟨c, frames, hholding, ?_, ?_, hat.extend x⟩
  · rwa [shareAt_extend hat.le x]
  · rwa [shareAt_extend hat.le x]

theorem Working.begin {numShards i k : Nat} {d : Dispatcher} (hinv : DispatcherInv numShards d)
    {number : UInt32} {ahead : List Bytes}
    (h : At i d.rounds (k + 1) (shareFrames number (shareAt numShards i d.rounds k)) ahead) :
    Working numShards i d.rounds k recvInit ahead := by
  have hle := shareAt_length_le hinv i k
  unfold mempoolMaxSize at hle
  refine ⟨⟨[], 0, false⟩, _, recvInit_holding, shareFrames_pending number (by omega), ?_, h⟩
  exact txsOf_shareFrames number _

/-- A message is taken in while the loop runs. -/
theorem Working.recv {numShards i k : Nat} {d : Dispatcher} (hinv : DispatcherInv numShards d)
    {st : RecvState} {raw : Bytes} {ahead : List Bytes}
    (h : Working numShards i d.rounds k st (raw :: ahead)) (hgo : ¬ st.done = true) :
    ∃ st', recvEvent st (some raw) = .ok st' ∧ Working numShards i d.rounds k st' ahead := by
  rcases h with ⟨c, frames, hholding, hpending, hshare, hat⟩
  cases frames with
  | nil =>
      -- nothing pending: the loop would have stopped
      rw [hholding.done] at hgo
      exact absurd hpending.done hgo
  | cons f frames =>
      have hle := shareAt_length_le hinv i k
      unfold mempoolMaxSize at hle
      rcases hat.next with ⟨hraw, hat'⟩
      rcases hpending.step (by omega) with ⟨c', hone, hmsgs, hpending'⟩
      rw [hraw] at hone
      rcases recvEvent_collect hholding (some raw) with ⟨-, hundef⟩ | ⟨st', c₁, hok, hc₁, hholding'⟩
      · rw [hone] at hundef
        cases hundef
      · obtain rfl : c' = c₁ := Except.ok.inj (hone.symm.trans hc₁)
        refine ⟨st', hok, c', frames, hholding', hpending', ?_, hat'⟩
        rw [hmsgs, List.append_assoc, ← txsOf_cons f frames, hshare]

/-- When the loop stops the summary is that of the whole share, and the next
round is ahead. -/
theorem Working.finish {numShards i k : Nat} {d : Dispatcher} (hinv : DispatcherInv numShards d)
    {st : RecvState} {ahead : List Bytes} (h : Working numShards i d.rounds k st ahead)
    (hstop : st.done = true) (crypto : Crypto) (shardId : UInt32)
    (schedule : (k : Nat) → Schedule k) :
    finishRound crypto shardId schedule st =
        .ok (summarise crypto shardId (shareAt numShards i d.rounds k)) ∧
      At i d.rounds (k + 1) [] ahead := by
  rcases h with ⟨c, frames, hholding, hpending, hshare, hat⟩
  cases frames with
  | cons f frames =>
      -- something pending: the loop would go on
      rw [hholding.done, hpending.not_done] at hstop
      cases hstop
  | nil =>
      have hle := shareAt_length_le hinv i k
      unfold mempoolMaxSize at hle
      have hall : c.msgs = shareAt numShards i d.rounds k := by
        rw [← hshare]
        exact (List.append_nil c.msgs).symm
      refine ⟨?_, hat⟩
      rw [finishRound_eq crypto shardId schedule hholding, hall, if_pos (by omega)]

/-! ## A follower while a round is open -/

/-- The summary of shard `i` for round `k`. -/
def summaryAt (crypto : Crypto) (numShards : Nat) (rounds : List Dispatch) (k i : Nat) :
    ShardSummary :=
  summarise crypto (UInt32.ofNat i) (shareAt numShards i rounds k)

/-- A follower, its announcements, its results on the way, and its stream. -/
structure View where
  state : FollowerState
  sub : List UInt32
  results : List Bytes
  ahead : List Bytes

def Cluster.view (s : Cluster) (i : Nat) : View := ⟨s.follower i, s.sub i, s.results i, s.ahead i⟩

def View.extend (v : View) (i : Nat) (x : Dispatch) : View :=
  { v with ahead := v.ahead ++ roundBytes i x }

/-- A follower between rounds: it has processed `k`, and nobody waits for it. -/
structure Resting (i : Nat) (rounds : List Dispatch) (k : Nat) (v : View) : Prop where
  state : v.state = .idle
  sub : v.sub = []
  results : v.results = []
  position : At i rounds k [] v.ahead

/-- A follower while the leader has announced round `k` and not received its result. -/
inductive FollowerAt (crypto : Crypto) (numShards i : Nat) (rounds : List Dispatch) (k : Nat) :
    View → Prop where
  /-- The announcement got lost. -/
  | missed (ahead : List Bytes) (h : At i rounds k [] ahead) :
      FollowerAt crypto numShards i rounds k ⟨.idle, [], [], ahead⟩
  | announced (number : UInt32) (ahead : List Bytes) (h : At i rounds k [] ahead) :
      FollowerAt crypto numShards i rounds k ⟨.idle, [number], [], ahead⟩
  | working (st : RecvState) (ahead : List Bytes) (h : Working numShards i rounds k st ahead) :
      FollowerAt crypto numShards i rounds k ⟨.processing st, [], [], ahead⟩
  | reported (ahead : List Bytes) (h : At i rounds (k + 1) [] ahead) :
      FollowerAt crypto numShards i rounds k
        ⟨.idle, [], [ShardSummary.codec.enc (summaryAt crypto numShards rounds k i)], ahead⟩

theorem Resting.extend {i k : Nat} {rounds : List Dispatch} {v : View} (h : Resting i rounds k v)
    (x : Dispatch) : Resting i (rounds ++ [x]) k (v.extend i x) :=
  ⟨h.state, h.sub, h.results, h.position.extend x⟩

theorem FollowerAt.extend {crypto : Crypto} {numShards i k : Nat} {rounds : List Dispatch}
    {v : View} (h : FollowerAt crypto numShards i rounds k v) (x : Dispatch) :
    FollowerAt crypto numShards i (rounds ++ [x]) k (v.extend i x) := by
  cases h with
  | missed ahead h => exact .missed _ (h.extend x)
  | announced number ahead h => exact .announced number _ (h.extend x)
  | working st ahead h => exact .working st _ (h.extend x)
  | reported ahead h =>
      have hsame : summaryAt crypto numShards (rounds ++ [x]) k i =
          summaryAt crypto numShards rounds k i := by
        unfold summaryAt
        rw [shareAt_extend h.le x]
      unfold View.extend
      rw [← hsame]
      exact .reported _ (h.extend x)

/-- A result on its way is that of the open round, and its follower is done. -/
theorem FollowerAt.result {crypto : Crypto} {numShards i k : Nat} {rounds : List Dispatch}
    {v : View} (h : FollowerAt crypto numShards i rounds k v) {raw : Bytes} {rest : List Bytes}
    (hres : v.results = raw :: rest) :
    raw = ShardSummary.codec.enc (summaryAt crypto numShards rounds k i) ∧ rest = [] ∧
      v.state = .idle ∧ v.sub = [] ∧ At i rounds (k + 1) [] v.ahead := by
  cases h with
  | missed ahead h => cases hres
  | announced number ahead h => cases hres
  | working st ahead h => cases hres
  | reported ahead h =>
      rcases List.cons.inj hres with ⟨rfl, rfl⟩
      exact ⟨rfl, rfl, rfl, rfl, h⟩

/-- What a step of follower `i` leaves alone. -/
structure FollowerFrame (i : Nat) (s s' : Cluster) : Prop where
  dispatcher : s'.dispatcher = s.dispatcher
  round : s'.round = s.round
  leader : s'.leader = s.leader
  legacy : s'.legacy = s.legacy
  blocks : s'.blocks = s.blocks
  others : ∀ j, j ≠ i → s'.view j = s.view j

/-- The follower that moved and the others are where they should be. -/
theorem FollowerFrame.followerAt {i : Nat} {s s' : Cluster} (hframe : FollowerFrame i s s')
    {crypto : Crypto} {numShards : Nat} {rounds : List Dispatch} {k : Nat}
    (hi : FollowerAt crypto numShards i rounds k (s'.view i)) {j : Nat}
    (hj : FollowerAt crypto numShards j rounds k (s.view j)) :
    FollowerAt crypto numShards j rounds k (s'.view j) := by
  by_cases hji : j = i
  · subst hji
    exact hi
  · rw [hframe.others j hji]
    exact hj

theorem followerStep_resting {i k : Nat} {s : Cluster}
    (h : Resting i s.dispatcher.rounds k (s.view i)) (crypto : Crypto)
    (schedule : (k : Nat) → Schedule k) : s.followerStep crypto i schedule = .ok s := by
  have hstate : s.follower i = .idle := h.state
  have hsub : s.sub i = [] := h.sub
  unfold Cluster.followerStep
  simp only [hstate, hsub]

/-- A step of a follower takes it from one of the four positions to another. -/
theorem followerStep_at {numShards i k : Nat} {s : Cluster}
    (hinv : DispatcherInv numShards s.dispatcher) (hpos : 1 ≤ i) (hi : i < numShards)
    (hk : k < s.dispatcher.rounds.length) {crypto : Crypto}
    (h : FollowerAt crypto numShards i s.dispatcher.rounds k (s.view i))
    (schedule : (k : Nat) → Schedule k) :
    ∃ s', s.followerStep crypto i schedule = .ok s' ∧ FollowerFrame i s s' ∧
      FollowerAt crypto numShards i s.dispatcher.rounds k (s'.view i) := by
  have hstay : FollowerFrame i s s := ⟨rfl, rfl, rfl, rfl, rfl, fun _ _ => rfl⟩
  have hkeep := h
  generalize hv : s.view i = v at h
  unfold Cluster.followerStep
  cases h with
  | missed ahead h =>
      rcases View.mk.inj hv with ⟨hstate, hsub, -, -⟩
      simp only [hstate, hsub]
      exact ⟨s, rfl, hstay, hkeep⟩
  | reported ahead h =>
      rcases View.mk.inj hv with ⟨hstate, hsub, -, -⟩
      simp only [hstate, hsub]
      exact ⟨s, rfl, hstay, hkeep⟩
  | announced number ahead h =>
      rcases View.mk.inj hv with ⟨hstate, hsub, hresults, hahead⟩
      unfold Cluster.ahead at hahead
      simp only [hstate, hsub]
      refine ⟨_, rfl, ⟨rfl, rfl, rfl, rfl, rfl, ?_⟩, ?_⟩
      · intro j hj
        simp only [Cluster.view, Cluster.ahead, Function.update_of_ne hj]
      · have hview : FollowerAt crypto numShards i s.dispatcher.rounds k
            ⟨.processing recvInit, [], [], ahead⟩ :=
          .working recvInit ahead (Working.begin hinv (h.enter hinv hpos hi hk))
        simpa only [Cluster.view, Cluster.ahead, Function.update_self, hresults, hahead] using hview
  | working st ahead h =>
      rcases View.mk.inj hv with ⟨hstate, hsub, hresults, hahead⟩
      unfold Cluster.ahead at hahead
      simp only [hstate]
      by_cases hstop : st.done = true
      · -- its share is complete: it reports
        rcases h.finish hinv hstop crypto (UInt32.ofNat i) schedule with ⟨hfinish, hat⟩
        rw [if_pos hstop, hfinish]
        refine ⟨_, rfl, ⟨rfl, rfl, rfl, rfl, rfl, ?_⟩, ?_⟩
        · intro j hj
          simp only [Cluster.view, Cluster.ahead, Function.update_of_ne hj]
        · have hview : FollowerAt crypto numShards i s.dispatcher.rounds k
              ⟨.idle, [], [ShardSummary.codec.enc
                (summaryAt crypto numShards s.dispatcher.rounds k i)], ahead⟩ :=
            .reported ahead hat
          unfold summaryAt at hview
          simpa only [Cluster.view, Cluster.ahead, Function.update_self, hsub, hresults,
            List.nil_append, hahead] using hview
      · -- it takes the next message, if there is one
        rw [if_neg hstop]
        cases htx : s.tx i with
        | nil => exact ⟨s, rfl, hstay, hkeep⟩
        | cons raw rest =>
            have hsplit : ahead = raw :: (rest ++ outTo i s.outbox) := by
              rw [← hahead, htx]
              rfl
            rw [hsplit] at h
            rcases h.recv hinv hstop with ⟨st', hok, h'⟩
            simp only [hok, Run.ok_bind]
            refine ⟨_, rfl, ⟨rfl, rfl, rfl, rfl, rfl, ?_⟩, ?_⟩
            · intro j hj
              simp only [Cluster.view, Cluster.ahead, Function.update_of_ne hj]
            · have hview : FollowerAt crypto numShards i s.dispatcher.rounds k
                  ⟨.processing st', [], [], rest ++ outTo i s.outbox⟩ := .working st' _ h'
              simpa only [Cluster.view, Cluster.ahead, Function.update_self, hsub, hresults]
                using hview

/-! ## The leader -/

/-- The leader has opened round `k`, and nobody has heard of it. -/
structure Opened (numShards : Nat) (rounds : List Dispatch) (round : UInt32) (views : Nat → View)
    (k : Nat) : Prop where
  round : round = UInt32.ofNat (k + 1)
  leader : At 0 rounds (k + 1)
    (shareFrames (UInt32.ofNat (k + 1)) (shareAt numShards 0 rounds k)) (views 0).ahead
  followers : ∀ i, 1 ≤ i → i < numShards → Resting i rounds k (views i)

/-- What holds of everybody in each state of the leader, after `k` blocks. -/
inductive PhaseAt (crypto : Crypto) (numShards : Nat) (rounds : List Dispatch) (round : UInt32)
    (views : Nat → View) (k : Nat) : LeaderState → Prop where
  | waiting (hleader : At 0 rounds k [] (views 0).ahead)
      (hfollowers : ∀ i, 1 ≤ i → i < numShards → Resting i rounds k (views i)) :
      PhaseAt crypto numShards rounds round views k .waiting
  | waitDone (h : Opened numShards rounds round views k) :
      PhaseAt crypto numShards rounds round views k .waitDone
  | announcing (h : Opened numShards rounds round views k) :
      PhaseAt crypto numShards rounds round views k .announcing
  | processing (st : RecvState) (hround : round = UInt32.ofNat (k + 1))
      (hleader : Working numShards 0 rounds k st (views 0).ahead)
      (hfollowers : ∀ i, 1 ≤ i → i < numShards →
        FollowerAt crypto numShards i rounds k (views i)) :
      PhaseAt crypto numShards rounds round views k (.processing st)
  /-- The results of the followers `ids` are in, in this order. -/
  | collecting (st : CollectState) (ids : List Nat) (hround : round = UInt32.ofNat (k + 1))
      (hleader : At 0 rounds (k + 1) [] (views 0).ahead)
      (hfilled : Filled numShards st ((0 :: ids).map (summaryAt crypto numShards rounds k)))
      (hnodup : ids.Nodup) (hids : ∀ i ∈ ids, 1 ≤ i ∧ i < numShards)
      (hin : ∀ i ∈ ids, Resting i rounds (k + 1) (views i))
      (hout : ∀ i, 1 ≤ i → i < numShards → i ∉ ids →
        FollowerAt crypto numShards i rounds k (views i)) :
      PhaseAt crypto numShards rounds round views k (.collecting st)

/-- Block `r` (counted from 0) is assembled from one summary of round `r` per shard. -/
structure BlockOk (crypto : Crypto) (numShards : Nat) (rounds : List Dispatch) (r : Nat)
    (b : Assembled) : Prop where
  lt : r < rounds.length
  built : ∃ l, b.summaries.Holds l ∧
    l.Perm ((List.range numShards).map (summaryAt crypto numShards rounds r)) ∧
    b.block = blockOf crypto (UInt32.ofNat (r + 1)) l

structure ClusterInv (crypto : Crypto) (numShards : Nat) (s : Cluster) : Prop where
  core : DispatcherInv numShards s.dispatcher
  legacy : s.legacy = false
  /-- Only followers report. -/
  strangers : ∀ i, ¬ (1 ≤ i ∧ i < numShards) → s.results i = []
  blocks : ∀ r (h : r < s.blocks.length), BlockOk crypto numShards s.dispatcher.rounds r s.blocks[r]
  phase : PhaseAt crypto numShards s.dispatcher.rounds s.round s.view s.blocks.length s.leader

theorem clusterCreate_inv (crypto : Crypto) (capacity : Nat) {numShards : Nat}
    (hpos : 0 < numShards) (hle : numShards ≤ maxShards) :
    ClusterInv crypto numShards (Cluster.create capacity numShards) := by
  have hstart : ∀ i, At i [] 0 [] [] := fun i => ⟨Nat.zero_le _, rfl⟩
  refine ⟨create_inv capacity hpos hle, rfl, fun _ _ => rfl, ?_, ?_⟩
  · intro r hr
    cases hr
  · apply PhaseAt.waiting
    · exact hstart 0
    · intro i _ _
      exact ⟨rfl, rfl, rfl, hstart i⟩

theorem summaryAt_extend {crypto : Crypto} {numShards k : Nat} {rounds : List Dispatch}
    (hk : k < rounds.length) (x : Dispatch) :
    summaryAt crypto numShards (rounds ++ [x]) k = summaryAt crypto numShards rounds k := by
  funext i
  unfold summaryAt
  rw [shareAt_extend hk x]

/-- A further round in the log changes no phase. -/
theorem PhaseAt.extend {crypto : Crypto} {numShards : Nat} {rounds : List Dispatch}
    {round : UInt32} {views : Nat → View} {k : Nat} {leader : LeaderState}
    (h : PhaseAt crypto numShards rounds round views k leader) (x : Dispatch) :
    PhaseAt crypto numShards (rounds ++ [x]) round (fun i => (views i).extend i x) k leader := by
  have hopened : Opened numShards rounds round views k →
      Opened numShards (rounds ++ [x]) round (fun i => (views i).extend i x) k := by
    intro ho
    refine ⟨ho.round, ?_, fun i h1 hn => (ho.followers i h1 hn).extend x⟩
    rw [shareAt_extend ho.leader.le x]
    exact ho.leader.extend x
  cases h with
  | waiting hleader hfollowers =>
      exact .waiting (hleader.extend x) fun i h1 hn => (hfollowers i h1 hn).extend x
  | waitDone ho => exact .waitDone (hopened ho)
  | announcing ho => exact .announcing (hopened ho)
  | processing st hround hleader hfollowers =>
      exact .processing st hround (hleader.extend x) fun i h1 hn => (hfollowers i h1 hn).extend x
  | collecting st ids hround hleader hfilled hnodup hids hin hout =>
      refine .collecting st ids hround (hleader.extend x) ?_ hnodup hids
        (fun i hi => (hin i hi).extend x) fun i h1 hn hi => (hout i h1 hn hi).extend x
      rwa [summaryAt_extend hleader.le x]

theorem BlockOk.extend {crypto : Crypto} {numShards r : Nat} {rounds : List Dispatch}
    {b : Assembled} (h : BlockOk crypto numShards rounds r b) (x : Dispatch) :
    BlockOk crypto numShards (rounds ++ [x]) r b := by
  constructor
  · rw [List.length_append]
    exact Nat.lt_add_right _ h.lt
  · rw [summaryAt_extend h.lt x]
    exact h.built

/-! ## Every step keeps the invariant -/

section Steps

variable {crypto : Crypto} {numShards : Nat} {s : Cluster}

theorem step_add_inv (hinv : ClusterInv crypto numShards s) (tx : Transaction)
    (pubkey : Option PublicKey) :
    ClusterInv crypto numShards { s with dispatcher := (s.dispatcher.add tx pubkey).2 } := by
  have hrounds := add_rounds s.dispatcher tx pubkey
  refine ⟨add_inv hinv.core tx pubkey, hinv.legacy, hinv.strangers, ?_, ?_⟩
  · intro r hr
    rw [hrounds]
    exact hinv.blocks r hr
  · show PhaseAt crypto numShards (s.dispatcher.add tx pubkey).2.rounds _ _ _ _
    rw [hrounds]
    exact hinv.phase

theorem step_dispatch_inv (hinv : ClusterInv crypto numShards s) (roundStartMs : UInt64)
    (blockSize : Nat) (durationMs : UInt64) :
    ∃ s', s.dispatch roundStartMs blockSize durationMs = .ok s' ∧ ClusterInv crypto numShards s' := by
  unfold Cluster.dispatch
  cases hout : s.outbox with
  | cons o out => exact ⟨s, rfl, hinv⟩
  | nil =>
      rcases dispatch_ok hinv.core roundStartMs blockSize durationMs with
        ⟨d', x, hok, hrounds, -, -, -, -, -, hcore⟩
      have hnew : (d'.rounds.drop s.dispatcher.rounds.length).flatMap Cluster.outgoing =
          Cluster.outgoing x := by
        rw [hrounds, List.drop_left]
        simp
      simp only [hok, hnew]
      -- the new round is the last thing ahead of every shard
      have hview : ({ s with dispatcher := d', outbox := Cluster.outgoing x } : Cluster).view =
          fun i => (s.view i).extend i x := by
        funext i
        have hold : outTo i s.outbox = [] := by
          rw [hout]
          rfl
        simp only [Cluster.view, Cluster.ahead, View.extend, outTo_outgoing, hold, List.append_nil]
      refine ⟨_, rfl, hcore, hinv.legacy, hinv.strangers, ?_, ?_⟩
      · intro r hr
        rw [hrounds]
        exact (hinv.blocks r hr).extend x
      · rw [hrounds, hview]
        exact hinv.phase.extend x

/-- A send changes only the outbox and the queues of the assigner. -/
theorem send_frame (s : Cluster) :
    s.send.dispatcher = s.dispatcher ∧ s.send.round = s.round ∧ s.send.leader = s.leader ∧
      s.send.legacy = s.legacy ∧ s.send.blocks = s.blocks ∧ s.send.results = s.results ∧
      s.send.follower = s.follower ∧ s.send.sub = s.sub := by
  unfold Cluster.send
  split
  · exact ⟨rfl, rfl, rfl, rfl, rfl, rfl, rfl, rfl⟩
  · exact ⟨rfl, rfl, rfl, rfl, rfl, rfl, rfl, rfl⟩
  · exact ⟨rfl, rfl, rfl, rfl, rfl, rfl, rfl, rfl⟩

theorem send_view (s : Cluster) : s.send.view = s.view := by
  rcases send_frame s with ⟨-, -, -, -, -, hresults, hfollower, hsub⟩
  funext i
  simp only [Cluster.view, hresults, hfollower, hsub, send_ahead]

theorem step_send_inv (hinv : ClusterInv crypto numShards s) :
    ClusterInv crypto numShards s.send := by
  rcases send_frame s with ⟨hdispatcher, hround, hleader, hlegacy, hblocks, hresults, -, -⟩
  constructor
  · rw [hdispatcher]
    exact hinv.core
  · rw [hlegacy]
    exact hinv.legacy
  · rw [hresults]
    exact hinv.strangers
  · rw [hdispatcher, hblocks]
    exact hinv.blocks
  · rw [hdispatcher, hround, send_view, hblocks, hleader]
    exact hinv.phase

/-- A follower's move keeps the invariant, if it fits what the leader is doing. -/
theorem FollowerFrame.inv (hinv : ClusterInv crypto numShards s) {i : Nat} (hpos : 1 ≤ i)
    (hi : i < numShards) {s' : Cluster} (hframe : FollowerFrame i s s')
    (hphase : PhaseAt crypto numShards s.dispatcher.rounds s.round s'.view s.blocks.length s.leader) :
    ClusterInv crypto numShards s' := by
  constructor
  · rw [hframe.dispatcher]
    exact hinv.core
  · rw [hframe.legacy]
    exact hinv.legacy
  · intro j hj
    have hji : j ≠ i := by
      rintro rfl
      exact hj ⟨hpos, hi⟩
    have hsame : (s'.view j).results = (s.view j).results := by rw [hframe.others j hji]
    exact hsame.trans (hinv.strangers j hj)
  · rw [hframe.dispatcher, hframe.blocks]
    exact hinv.blocks
  · rw [hframe.dispatcher, hframe.round, hframe.blocks, hframe.leader]
    exact hphase

/-- What the leader has to wait for is not touched by a follower's step. -/
theorem step_follower_inv (hinv : ClusterInv crypto numShards s) {i : Nat} (hpos : 1 ≤ i)
    (hi : i < numShards) (schedule : (k : Nat) → Schedule k) :
    ∃ s', s.followerStep crypto i schedule = .ok s' ∧ ClusterInv crypto numShards s' := by
  have hi0 : 0 ≠ i := by omega
  have hphase := hinv.phase
  generalize hl : s.leader = l at hphase
  cases hphase with
  -- before the announcement no follower can move
  | waiting hleader hfollowers =>
      exact ⟨s, followerStep_resting (hfollowers i hpos hi) crypto schedule, hinv⟩
  | waitDone h => exact ⟨s, followerStep_resting (h.followers i hpos hi) crypto schedule, hinv⟩
  | announcing h => exact ⟨s, followerStep_resting (h.followers i hpos hi) crypto schedule, hinv⟩
  | processing st hround hleader hfollowers =>
      have hk : s.blocks.length < s.dispatcher.rounds.length := by
        rcases hleader with ⟨c, frames, -, -, -, hat⟩
        exact hat.le
      rcases followerStep_at hinv.core hpos hi hk (hfollowers i hpos hi) schedule
        with ⟨s', hok, hframe, hat'⟩
      refine ⟨s', hok, hframe.inv hinv hpos hi ?_⟩
      rw [hl]
      refine .processing st hround ?_ ?_
      · rw [hframe.others 0 hi0]
        exact hleader
      · intro j h1 hn
        exact hframe.followerAt hat' (hfollowers j h1 hn)
  | collecting st ids hround hleader hfilled hnodup hids hin hout =>
      by_cases hmem : i ∈ ids
      · -- its result is in: it waits for the next announcement
        exact ⟨s, followerStep_resting (hin i hmem) crypto schedule, hinv⟩
      · rcases followerStep_at hinv.core hpos hi hleader.le (hout i hpos hi hmem) schedule
          with ⟨s', hok, hframe, hat'⟩
        refine ⟨s', hok, hframe.inv hinv hpos hi ?_⟩
        rw [hl]
        refine .collecting st ids hround ?_ hfilled hnodup hids ?_ ?_
        · rw [hframe.others 0 hi0]
          exact hleader
        · intro j hj
          have hji : j ≠ i := by
            rintro rfl
            exact hmem hj
          rw [hframe.others j hji]
          exact hin j hj
        · intro j h1 hn hj
          exact hframe.followerAt hat' (hout j h1 hn hj)

/-- The outer receive finds a header: the first message behind a marker is one. -/
theorem leader_waiting_inv (hinv : ClusterInv crypto numShards s) (hpos : 0 < numShards)
    (hl : s.leader = .waiting)
    (hleader : At 0 s.dispatcher.rounds s.blocks.length [] (s.view 0).ahead)
    (hfollowers : ∀ i, 1 ≤ i → i < numShards →
      Resting i s.dispatcher.rounds s.blocks.length (s.view i))
    (drop : Nat → Bool) (source : Nat) (schedule : (k : Nat) → Schedule k) :
    ∃ s', s.leaderStep crypto numShards drop source schedule = .ok s' ∧
      ClusterInv crypto numShards s' := by
  unfold Cluster.leaderStep
  simp only [hl]
  cases htx : s.tx 0 with
  | nil => exact ⟨s, rfl, hinv⟩
  | cons raw rest =>
      have hahead : (s.view 0).ahead = raw :: (rest ++ outTo 0 s.outbox) := by
        show s.tx 0 ++ outTo 0 s.outbox = _
        rw [htx]
        rfl
      rw [hahead] at hleader
      rcases hleader.header hinv.core hpos with ⟨roundStartMs, hraw, hat⟩
      have hsize : raw.length = DispatchHeader.codec.size := by
        rw [hraw]
        exact DispatchHeader.codec.enc_length _
      have hnumber : (DispatchHeader.codec.dec raw).roundNumber =
          UInt32.ofNat (s.blocks.length + 1) := by
        rw [hraw, DispatchHeader.codec.dec_enc_self]
      -- so neither of the other two branches is taken
      simp only [if_pos hsize]
      refine ⟨_, rfl, hinv.core, hinv.legacy, hinv.strangers, hinv.blocks, ?_⟩
      apply PhaseAt.waitDone
      refine ⟨hnumber, ?_, ?_⟩
      · simpa only [Cluster.view, Cluster.ahead, Function.update_self] using hat
      · intro i h1 hn
        have hi0 : i ≠ 0 := by omega
        simpa only [Cluster.view, Cluster.ahead, Function.update_of_ne hi0] using hfollowers i h1 hn

theorem leader_waitDone_inv (hinv : ClusterInv crypto numShards s) (hl : s.leader = .waitDone)
    (h : Opened numShards s.dispatcher.rounds s.round s.view s.blocks.length)
    (drop : Nat → Bool) (source : Nat) (schedule : (k : Nat) → Schedule k) :
    ∃ s', s.leaderStep crypto numShards drop source schedule = .ok s' ∧
      ClusterInv crypto numShards s' := by
  unfold Cluster.leaderStep
  simp only [hl]
  cases hdone : s.done with
  | nil => exact ⟨s, rfl, hinv⟩
  | cons m rest =>
      exact ⟨_, rfl, hinv.core, hinv.legacy, hinv.strangers, hinv.blocks, .announcing h⟩

/-- The broadcast reaches a follower or misses it. -/
theorem leader_announcing_inv (hinv : ClusterInv crypto numShards s) (hl : s.leader = .announcing)
    (h : Opened numShards s.dispatcher.rounds s.round s.view s.blocks.length)
    (drop : Nat → Bool) (source : Nat) (schedule : (k : Nat) → Schedule k) :
    ∃ s', s.leaderStep crypto numShards drop source schedule = .ok s' ∧
      ClusterInv crypto numShards s' := by
  unfold Cluster.leaderStep
  simp only [hl]
  refine ⟨_, rfl, hinv.core, hinv.legacy, hinv.strangers, hinv.blocks, ?_⟩
  apply PhaseAt.processing
  · exact h.round
  · exact Working.begin hinv.core h.leader
  · intro i h1 hn
    have hrest := h.followers i h1 hn
    have hstate : s.follower i = .idle := hrest.state
    have hsub : s.sub i = [] := hrest.sub
    have hresults : s.results i = [] := hrest.results
    by_cases hdrop : drop i = false
    · -- the announcement is queued
      have hcond : 1 ≤ i ∧ i < numShards ∧ drop i = false := ⟨h1, hn, hdrop⟩
      have hview : FollowerAt crypto numShards i s.dispatcher.rounds s.blocks.length
          ⟨.idle, [s.round], [], s.ahead i⟩ := .announced s.round _ hrest.position
      simpa only [Cluster.view, Cluster.ahead, if_pos hcond, hstate, hsub, hresults,
        List.nil_append] using hview
    · -- it is lost
      have hcond : ¬ (1 ≤ i ∧ i < numShards ∧ drop i = false) := fun hc => hdrop hc.2.2
      have hview : FollowerAt crypto numShards i s.dispatcher.rounds s.blocks.length
          ⟨.idle, [], [], s.ahead i⟩ := .missed _ hrest.position
      simpa only [Cluster.view, Cluster.ahead, if_neg hcond, hstate, hsub, hresults] using hview

theorem leader_processing_inv (hinv : ClusterInv crypto numShards s) (hpos : 0 < numShards)
    {st : RecvState} (hl : s.leader = .processing st)
    (hround : s.round = UInt32.ofNat (s.blocks.length + 1))
    (hleader : Working numShards 0 s.dispatcher.rounds s.blocks.length st (s.view 0).ahead)
    (hfollowers : ∀ i, 1 ≤ i → i < numShards →
      FollowerAt crypto numShards i s.dispatcher.rounds s.blocks.length (s.view i))
    (drop : Nat → Bool) (source : Nat) (schedule : (k : Nat) → Schedule k) :
    ∃ s', s.leaderStep crypto numShards drop source schedule = .ok s' ∧
      ClusterInv crypto numShards s' := by
  unfold Cluster.leaderStep
  simp only [hl]
  by_cases hstop : st.done = true
  · -- its own share is complete: start collecting
    rcases hleader.finish hinv.core hstop crypto 0 schedule with ⟨hfinish, hat⟩
    rcases collectStart_filled hpos
      (summarise crypto 0 (shareAt numShards 0 s.dispatcher.rounds s.blocks.length))
      with ⟨st', hstart, hfilled⟩
    rw [if_pos hstop, hfinish, Run.ok_bind, hstart, Run.ok_bind]
    refine ⟨_, rfl, hinv.core, hinv.legacy, hinv.strangers, hinv.blocks, ?_⟩
    refine .collecting st' [] hround hat hfilled List.nodup_nil ?_ ?_ ?_
    · intro i hi
      cases hi
    · intro i hi
      cases hi
    · intro i h1 hn _
      exact hfollowers i h1 hn
  · -- still receiving: take the next message, if there is one
    rw [if_neg hstop]
    cases htx : s.tx 0 with
    | nil => exact ⟨s, rfl, hinv⟩
    | cons raw rest =>
        have hahead : (s.view 0).ahead = raw :: (rest ++ outTo 0 s.outbox) := by
          show s.tx 0 ++ outTo 0 s.outbox = _
          rw [htx]
          rfl
        rw [hahead] at hleader
        rcases hleader.recv hinv.core hstop with ⟨st', hok, hworking⟩
        simp only [hok, Run.ok_bind]
        refine ⟨_, rfl, hinv.core, hinv.legacy, hinv.strangers, hinv.blocks, ?_⟩
        apply PhaseAt.processing
        · exact hround
        · simpa only [Cluster.view, Cluster.ahead, Function.update_self] using hworking
        · intro i h1 hn
          have hi0 : i ≠ 0 := by omega
          simpa only [Cluster.view, Cluster.ahead, Function.update_of_ne hi0] using
            hfollowers i h1 hn

/-- With as many results as followers, every shard has reported once. -/
theorem ids_perm (hpos : 0 < numShards) {ids : List Nat} (hnodup : ids.Nodup)
    (hids : ∀ i ∈ ids, 1 ≤ i ∧ i < numShards) (hlen : numShards ≤ ids.length + 1) :
    (0 :: ids).Perm (List.range numShards) := by
  have hnodup' : (0 :: ids).Nodup := by
    apply List.nodup_cons.mpr
    refine ⟨?_, hnodup⟩
    intro h0
    have := (hids 0 h0).1
    omega
  have hsubset : 0 :: ids ⊆ List.range numShards := by
    intro i hi
    apply List.mem_range.mpr
    rcases List.mem_cons.mp hi with rfl | hi
    · exact hpos
    · exact (hids i hi).2
  apply (hnodup'.subperm hsubset).perm_of_length_le
  rw [List.length_range, List.length_cons]
  exact hlen

/-- A result on its way comes from a follower whose result is missing. -/
theorem source_missing (hinv : ClusterInv crypto numShards s) {ids : List Nat}
    (hin : ∀ i ∈ ids, Resting i s.dispatcher.rounds (s.blocks.length + 1) (s.view i))
    {source : Nat} {raw : Bytes} {rest : List Bytes} (hres : s.results source = raw :: rest) :
    (1 ≤ source ∧ source < numShards) ∧ source ∉ ids := by
  constructor
  · by_contra hstranger
    rw [hinv.strangers source hstranger] at hres
    cases hres
  · intro hmem
    have hnone : s.results source = [] := (hin source hmem).results
    rw [hnone] at hres
    cases hres

/-- Results are missing: the leader takes the next one of `source`, if it is there. -/
theorem leader_receiving_inv (hinv : ClusterInv crypto numShards s)
    {st : CollectState} (hl : s.leader = .collecting st) {ids : List Nat}
    (hround : s.round = UInt32.ofNat (s.blocks.length + 1))
    (hleader : At 0 s.dispatcher.rounds (s.blocks.length + 1) [] (s.view 0).ahead)
    (hfilled : Filled numShards st
      ((0 :: ids).map (summaryAt crypto numShards s.dispatcher.rounds s.blocks.length)))
    (hnodup : ids.Nodup) (hids : ∀ i ∈ ids, 1 ≤ i ∧ i < numShards)
    (hin : ∀ i ∈ ids, Resting i s.dispatcher.rounds (s.blocks.length + 1) (s.view i))
    (hout : ∀ i, 1 ≤ i → i < numShards → i ∉ ids →
      FollowerAt crypto numShards i s.dispatcher.rounds s.blocks.length (s.view i))
    (hmore : st.resultsReceived < numShards - 1)
    (drop : Nat → Bool) (source : Nat) (schedule : (k : Nat) → Schedule k) :
    ∃ s', s.leaderStep crypto numShards drop source schedule = .ok s' ∧
      ClusterInv crypto numShards s' := by
  have hreceived := hfilled.received
  rw [List.length_map, List.length_cons] at hreceived
  unfold Cluster.leaderStep
  simp only [hl]
  rw [if_pos hmore]
  cases hres : s.results source with
  | nil => exact ⟨s, rfl, hinv⟩
  | cons raw rest =>
      rcases source_missing hinv hin hres with ⟨hfollower, hnew⟩
      -- the only result on the way is that of this round
      have hat := hout source hfollower.1 hfollower.2 hnew
      rcases hat.result hres with ⟨hraw, hrest, hstate, hsub, hnext⟩
      subst hraw
      subst hrest
      have hroom : ((0 :: ids).map
          (summaryAt crypto numShards s.dispatcher.rounds s.blocks.length)).length <
            numShards := by
        rw [List.length_map, List.length_cons]
        omega
      rcases collectResult_filled hfilled hroom
        (summaryAt crypto numShards s.dispatcher.rounds s.blocks.length source)
        with ⟨st', hok, hfilled'⟩
      simp only [hok, Run.ok_bind]
      refine ⟨_, rfl, hinv.core, hinv.legacy, ?_, hinv.blocks, ?_⟩
      · intro i hi
        have hne : i ≠ source := by
          rintro rfl
          exact hi hfollower
        show Function.update s.results source [] i = []
        rw [Function.update_of_ne hne]
        exact hinv.strangers i hi
      · refine .collecting st' (ids ++ [source]) hround hleader ?_ ?_ ?_ ?_ ?_
        · simpa using hfilled'
        · exact hnodup.append (List.nodup_singleton source) (by simpa using hnew)
        · intro i hi
          rcases List.mem_append.mp hi with hold | hlast
          · exact hids i hold
          · rw [List.mem_singleton.mp hlast]
            exact hfollower
        · -- the follower whose result was taken rests, as those before it
          intro i hi
          by_cases hne : i = source
          · subst hne
            refine ⟨hstate, hsub, ?_, hnext⟩
            show Function.update s.results i [] i = []
            rw [Function.update_self]
          · have hold : i ∈ ids := by simpa [hne] using hi
            simpa only [Cluster.view, Cluster.ahead, Function.update_of_ne hne] using
              hin i hold
        · intro i h1 hn hi
          have hne : i ≠ source := by
            rintro rfl
            simp at hi
          have hold : i ∉ ids := fun hmem => hi (List.mem_append_left _ hmem)
          simpa only [Cluster.view, Cluster.ahead, Function.update_of_ne hne] using
            hout i h1 hn hold

/-- All results are in: the block is assembled. -/
theorem leader_assembling_inv (hinv : ClusterInv crypto numShards s) (hpos : 0 < numShards)
    (hle : numShards ≤ maxShards)
    {st : CollectState} (hl : s.leader = .collecting st) {ids : List Nat}
    (hround : s.round = UInt32.ofNat (s.blocks.length + 1))
    (hleader : At 0 s.dispatcher.rounds (s.blocks.length + 1) [] (s.view 0).ahead)
    (hfilled : Filled numShards st
      ((0 :: ids).map (summaryAt crypto numShards s.dispatcher.rounds s.blocks.length)))
    (hnodup : ids.Nodup) (hids : ∀ i ∈ ids, 1 ≤ i ∧ i < numShards)
    (hin : ∀ i ∈ ids, Resting i s.dispatcher.rounds (s.blocks.length + 1) (s.view i))
    (hmore : ¬ st.resultsReceived < numShards - 1)
    (drop : Nat → Bool) (source : Nat) (schedule : (k : Nat) → Schedule k) :
    ∃ s', s.leaderStep crypto numShards drop source schedule = .ok s' ∧
      ClusterInv crypto numShards s' := by
  have hreceived := hfilled.received
  rw [List.length_map, List.length_cons] at hreceived
  unfold Cluster.leaderStep
  simp only [hl]
  rw [if_neg hmore]
  have hperm := ids_perm hpos hnodup hids (by omega)
  have hlen : ((0 :: ids).map
      (summaryAt crypto numShards s.dispatcher.rounds s.blocks.length)).length = numShards := by
    rw [List.length_map, hperm.length_eq, List.length_range]
  have hsmall : ((0 :: ids).map
      (summaryAt crypto numShards s.dispatcher.rounds s.blocks.length)).length ≤ 2 ^ 26 := by
    rw [hlen]
    exact Nat.le_trans hle (by decide)
  have hblock := assembleBlock_eq crypto s.round hfilled.holds hsmall
  rw [hlen] at hblock
  rw [hblock, Run.ok_bind]
  have hall : ∀ i, 1 ≤ i → i < numShards → i ∈ ids := by
    intro i h1 hn
    have hmem : i ∈ 0 :: ids := hperm.symm.subset (List.mem_range.mpr hn)
    rcases List.mem_cons.mp hmem with h0 | hmem
    · omega
    · exact hmem
  refine ⟨_, rfl, hinv.core, hinv.legacy, hinv.strangers, ?_, ?_⟩
  · intro r hr
    simp only [List.length_append, List.length_singleton] at hr
    rcases Nat.lt_or_ge r s.blocks.length with hlt | hge
    · simpa only [List.getElem_append_left hlt] using hinv.blocks r hlt
    · -- the new block
      have hlast : r = s.blocks.length := by omega
      subst hlast
      simp only [List.getElem_concat_length]
      refine ⟨hleader.le, _, hfilled.holds, hperm.map _, ?_⟩
      rw [hround]
  · simp only [List.length_append, List.length_singleton]
    apply PhaseAt.waiting
    · exact hleader
    · intro i h1 hn
      exact hin i (hall i h1 hn)

theorem step_leader_inv (hinv : ClusterInv crypto numShards s) (hpos : 0 < numShards)
    (hle : numShards ≤ maxShards) (drop : Nat → Bool) (source : Nat)
    (schedule : (k : Nat) → Schedule k) :
    ∃ s', s.leaderStep crypto numShards drop source schedule = .ok s' ∧
      ClusterInv crypto numShards s' := by
  have hphase := hinv.phase
  generalize hl : s.leader = l at hphase
  cases hphase with
  | waiting hleader hfollowers =>
      exact leader_waiting_inv hinv hpos hl hleader hfollowers drop source schedule
  | waitDone h => exact leader_waitDone_inv hinv hl h drop source schedule
  | announcing h => exact leader_announcing_inv hinv hl h drop source schedule
  | processing st hround hleader hfollowers =>
      exact leader_processing_inv hinv hpos hl hround hleader hfollowers drop source schedule
  | collecting st ids hround hleader hfilled hnodup hids hin hout =>
      by_cases hmore : st.resultsReceived < numShards - 1
      · exact leader_receiving_inv hinv hl hround hleader hfilled hnodup hids hin hout hmore drop
          source schedule
      · exact leader_assembling_inv hinv hpos hle hl hround hleader hfilled hnodup hids hin hmore
          drop source schedule

theorem clusterStep_inv (hpos : 0 < numShards) (hle : numShards ≤ maxShards) (s : Cluster)
    (label : Cluster.Label) (hinv : ClusterInv crypto numShards s) :
    ∃ s', s.step crypto numShards label = .ok s' ∧ ClusterInv crypto numShards s' := by
  cases label with
  | add tx pubkey => exact ⟨_, rfl, step_add_inv hinv tx pubkey⟩
  | dispatch roundStartMs blockSize durationMs =>
      exact step_dispatch_inv hinv roundStartMs blockSize durationMs
  | send => exact ⟨_, rfl, step_send_inv hinv⟩
  | leader drop source schedule => exact step_leader_inv hinv hpos hle drop source schedule
  | follower i schedule =>
      by_cases hi : 1 ≤ i ∧ i < numShards
      · simp only [Cluster.step, if_pos hi]
        exact step_follower_inv hinv hi.1 hi.2 schedule
      · simp only [Cluster.step, if_neg hi]
        exact ⟨s, rfl, hinv⟩

end Steps

/-! ## What a block says about its round -/

/-- Whatever is summed up over all shares is summed up over the drained transactions. -/
theorem sum_shares {M : Type} [AddCommMonoid M] {numShards : Nat} (hpos : 0 < numShards)
    (f : Entry → M) (es : List Entry) :
    ((List.range numShards).map fun i => ((shareList numShards i es).map f).sum).sum =
      (es.map f).sum := by
  induction es with
  | nil => simp [shareList]
  | cons e es ih =>
      have hcopies : (fun i => ((shareList numShards i (e :: es)).map f).sum) =
          addTo (fun i => ((shareList numShards i es).map f).sum) (shardOf numShards e) (f e) := by
        funext i
        by_cases hi : shardOf numShards e = i
        · subst hi
          rw [addTo, Function.update_self]
          simp [shareList, add_comm]
        · have hne : i ≠ shardOf numShards e := fun h => hi h.symm
          rw [addTo, Function.update_of_ne hne]
          simp [shareList, hi]
      have hmem : shardOf numShards e ∈ List.range numShards :=
        List.mem_range.mpr (shardOf_lt hpos e)
      rw [hcopies, sum_addTo List.nodup_range hmem, ih, List.map_cons, List.sum_cons, add_comm]

theorem ofNat_length_eq_sum {α : Type} (l : List α) :
    UInt32.ofNat l.length = (l.map fun _ => (1 : UInt32)).sum := by
  induction l with
  | nil => rfl
  | cons a l ih =>
      rw [List.length_cons, UInt32.ofNat_add, ih, List.map_cons, List.sum_cons, add_comm]
      rfl

theorem summaryAt_txCount (crypto : Crypto) (numShards i : Nat) {rounds : List Dispatch} {k : Nat}
    (hk : k < rounds.length) :
    (summaryAt crypto numShards rounds k i).txCount =
      ((shareList numShards i rounds[k].drained).map fun _ => (1 : UInt32)).sum := by
  unfold summaryAt
  rw [shareAt_eq hk]
  show UInt32.ofNat _ = _
  rw [List.length_map, ofNat_length_eq_sum]

theorem summaryAt_totalFees (crypto : Crypto) (numShards i : Nat) {rounds : List Dispatch} {k : Nat}
    (hk : k < rounds.length) :
    (summaryAt crypto numShards rounds k i).totalFees =
      ((shareList numShards i rounds[k].drained).map fun e => e.ptr.tx.fee.toUInt64).sum := by
  unfold summaryAt
  rw [shareAt_eq hk]
  show (List.map _ (List.map _ _)).sum = _
  rw [List.map_map]
  rfl

/-- The headers among the pushes. -/
def headersOf (pushes : List Push) : List DispatchHeader :=
  pushes.filterMap fun p =>
    match p.msg with
    | .header h => some h
    | _ => none

/-- The transactions sent to shard `i`, with their keys. -/
def sentTo (i : Nat) (pushes : List Push) : List TxWithPubkey :=
  (messagesTo i pushes).filterMap fun m =>
    match m with
    | .tx e => some e.message
    | _ => none

theorem headersOf_pushesOf (numShards : Nat) (roundStartMs : UInt64) (number : UInt32)
    (drained : List Entry) :
    headersOf (pushesOf numShards roundStartMs number drained) =
      [⟨roundStartMs, number, UInt32.ofNat numShards⟩] := by
  simp [headersOf, pushesOf, List.filterMap_append, List.filterMap_map]

theorem sentTo_pushesOf {numShards i : Nat} (hi : i < numShards) (roundStartMs : UInt64)
    (number : UInt32) (drained : List Entry) :
    sentTo i (pushesOf numShards roundStartMs number drained) =
      (shareList numShards i drained).map Entry.message := by
  unfold sentTo
  rw [messagesTo_pushesOf hi]
  by_cases h0 : i = 0
  · simp [h0, List.filterMap_append, List.filterMap_map]
  · simp [h0, List.filterMap_append, List.filterMap_map]

/-- The header a round was announced with. -/
def announced (round : Dispatch) : DispatchHeader :=
  (headersOf round.pushes).headD ⟨0, 0, 0⟩

theorem headersOf_round {numShards k : Nat} {round : Dispatch} (hround : RoundOk numShards k round) :
    headersOf round.pushes = [announced round] ∧
      (announced round).roundNumber = UInt32.ofNat (k + 1) := by
  rcases hround with ⟨roundStartMs, hpushes⟩
  unfold announced
  rw [hpushes, headersOf_pushesOf]
  exact ⟨rfl, rfl⟩

/-- Header number `r` of the whole run is that of round `r`. -/
theorem headersOf_pushes {numShards : Nat} {d : Dispatcher} (hinv : DispatcherInv numShards d)
    {r : Nat} (hr : r < d.rounds.length) :
    (headersOf d.pushes)[r]? = some (announced d.rounds[r]) := by
  have hsingle : ∀ round ∈ d.rounds, headersOf round.pushes = [announced round] := by
    intro round hround
    rcases List.getElem_of_mem hround with ⟨k, hk, rfl⟩
    exact (headersOf_round (hinv.rounds k hk)).1
  have hall : headersOf d.pushes = d.rounds.map announced := by
    unfold Dispatcher.pushes headersOf
    rw [List.filterMap_flatMap, List.map_eq_flatMap]
    exact List.flatMap_congr hsingle
  rw [hall, List.getElem?_map, List.getElem?_eq_getElem hr, Option.map_some]

/-- Block `b` is that of the round `round` announced by `header`. -/
structure Agrees (crypto : Crypto) (numShards : Nat) (header : DispatchHeader) (round : Dispatch)
    (b : Assembled) : Prop where
  number : b.block.blockNumber = header.roundNumber
  /-- One summary per shard, of what was sent to it in this round. -/
  summaries : ∃ l, b.summaries.read numShards = some l ∧
    l.Perm ((List.range numShards).map fun i =>
      summarise crypto (UInt32.ofNat i) (sentTo i round.pushes)) ∧
    b.block = blockOf crypto header.roundNumber l
  totalTxCount : b.block.totalTxCount.toNat = (sentEntries round.pushes).length
  totalFees : b.block.totalFees.toNat =
    ((sentEntries round.pushes).map fun e => e.ptr.tx.fee.toNat).sum

theorem agrees_of_blockOk {crypto : Crypto} {numShards : Nat} (hpos : 0 < numShards)
    {d : Dispatcher} (hinv : DispatcherInv numShards d) {r : Nat} {b : Assembled}
    (hblock : BlockOk crypto numShards d.rounds r b) (hr : r < d.rounds.length)
    {header : DispatchHeader} (hheader : header.roundNumber = UInt32.ofNat (r + 1)) :
    Agrees crypto numShards header d.rounds[r] b := by
  rcases hblock.built with ⟨l, hholds, hperm, heq⟩
  rcases hinv.rounds r hr with ⟨roundStartMs, hpushes⟩
  have hbound := hinv.bounded _ (List.getElem_mem hr)
  unfold mempoolMaxSize at hbound
  have hlen : l.length = numShards := by
    rw [hperm.length_eq, List.length_map, List.length_range]
  have hsent : sentEntries d.rounds[r].pushes = d.rounds[r].drained := by
    rw [hpushes, sentEntries_pushesOf]
  constructor
  · rw [heq, hheader]
    rfl
  · refine ⟨l, ?_, ?_, ?_⟩
    · rw [← hlen]
      exact hholds.read
    · have hshares : (List.range numShards).map (summaryAt crypto numShards d.rounds r) =
          (List.range numShards).map fun i =>
            summarise crypto (UInt32.ofNat i) (sentTo i d.rounds[r].pushes) := by
        apply List.map_congr_left
        intro i hi
        rw [hpushes, sentTo_pushesOf (List.mem_range.mp hi)]
        unfold summaryAt
        rw [shareAt_eq hr]
      rwa [hshares] at hperm
    · rw [heq, hheader]
  · -- the counts of all shares add up to what was drained
    have htotal : b.block.totalTxCount = UInt32.ofNat d.rounds[r].drained.length := by
      rw [heq]
      show (l.map ShardSummary.txCount).sum = _
      rw [(hperm.map ShardSummary.txCount).sum_eq, List.map_map, ofNat_length_eq_sum,
        ← sum_shares hpos]
      refine congrArg List.sum (List.map_congr_left ?_)
      intro i _
      exact summaryAt_txCount crypto numShards i hr
    rw [htotal, hsent]
    exact UInt32.toNat_ofNat_of_lt' (by show _ < 2 ^ 32; omega)
  · have htotal : b.block.totalFees =
        (d.rounds[r].drained.map fun e => e.ptr.tx.fee.toUInt64).sum := by
      rw [heq]
      show (l.map ShardSummary.totalFees).sum = _
      rw [(hperm.map ShardSummary.totalFees).sum_eq, List.map_map, ← sum_shares hpos]
      refine congrArg List.sum (List.map_congr_left ?_)
      intro i _
      exact summaryAt_totalFees crypto numShards i hr
    have hexact := fees_exact (d.rounds[r].drained.map Entry.message)
      (by rw [List.length_map]; omega)
    rw [List.map_map, List.map_map] at hexact
    rw [htotal, hsent]
    exact hexact

/-- Every block agrees with its round. -/
theorem ClusterInv.agrees {crypto : Crypto} {numShards : Nat} {s : Cluster}
    (hinv : ClusterInv crypto numShards s) (hpos : 0 < numShards) {r : Nat}
    (hr : r < s.blocks.length) : ∃ header round,
      (headersOf s.dispatcher.pushes)[r]? = some header ∧ s.dispatcher.rounds[r]? = some round ∧
      Agrees crypto numShards header round s.blocks[r] := by
  have hblock := hinv.blocks r hr
  have hlt := hblock.lt
  exact ⟨_, _, headersOf_pushes hinv.core hlt, List.getElem?_eq_getElem hlt,
    agrees_of_blockOk hpos hinv.core hblock hlt (headersOf_round (hinv.core.rounds r hlt)).2⟩

/-- In every interleaving, with any announcements lost: block `r` carries the
number of header `r`, found by the branch for headers, is built from one summary
per shard of what that shard was sent in round `r`, and has the exact totals. -/
theorem round_agreement (crypto : Crypto) (capacity numShards : Nat) (hpos : 0 < numShards)
    (hle : numShards ≤ maxShards) (labels : List Cluster.Label) :
    ∃ s, Run.run (Cluster.step crypto numShards) (Cluster.create capacity numShards) labels =
        .ok s ∧
      s.legacy = false ∧
      ∀ r (h : r < s.blocks.length), ∃ header round,
        (headersOf s.dispatcher.pushes)[r]? = some header ∧
        s.dispatcher.rounds[r]? = some round ∧
        Agrees crypto numShards header round s.blocks[r] := by
  rcases Run.run_inv (ClusterInv crypto numShards)
    (fun s label => clusterStep_inv hpos hle s label) labels _
    (clusterCreate_inv crypto capacity hpos hle) with ⟨s, hrun, hinv⟩
  refine ⟨s, hrun, hinv.legacy, ?_⟩
  intro r hr
  have hblock := hinv.blocks r hr
  have hlt := hblock.lt
  refine ⟨announced s.dispatcher.rounds[r], s.dispatcher.rounds[r],
    headersOf_pushes hinv.core hlt, List.getElem?_eq_getElem hlt, ?_⟩
  exact agrees_of_blockOk hpos hinv.core hblock hlt (headersOf_round (hinv.core.rounds r hlt)).2

/-- A round of two shards with one transaction each, up to its block. -/
def twoShardRound : List Cluster.Label :=
  [.add ⟨0, 0, zeros 20, zeros 20, 5, 9, zeros 64⟩ none,
    .add ⟨1, 0, zeros 20, zeros 20, 5, 9, zeros 64⟩ none, .dispatch 0 2 0] ++
    List.replicate 6 .send ++
    List.replicate 7 (.leader (fun _ => false) 1 Schedule.sequential) ++
    List.replicate 4 (.follower 1 Schedule.sequential) ++
    List.replicate 2 (.leader (fun _ => false) 1 Schedule.sequential)

theorem round_agreement_two_shards :
    ∃ s, Run.run (Cluster.step Crypto.rejecting 2) (Cluster.create 4 2) twoShardRound = .ok s ∧
      s.legacy = false ∧
      ∀ r (h : r < s.blocks.length), ∃ header round,
        (headersOf s.dispatcher.pushes)[r]? = some header ∧
        s.dispatcher.rounds[r]? = some round ∧
        Agrees Crypto.rejecting 2 header round s.blocks[r] :=
  round_agreement Crypto.rejecting 4 2 (by decide) (by decide) twoShardRound

example : (Run.run (Cluster.step Crypto.rejecting 2) (Cluster.create 4 2) twoShardRound).toOption.map
    (fun s => s.blocks.length) = some 1 := by decide +kernel

end Sharding
