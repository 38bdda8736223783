import Sharding.Lib.Refine
import Sharding.Moves
import Sharding.Receive

/-! # Announcements as they are sent

The leader announces a round as a text, and a follower scans the number out of what it
received into `char msg[64]`. `TextCluster` has these texts in its queues, and the
variable each follower scans into. It runs like the machine whose announcements are
numbers: no text is too long for the buffer, and the number a follower goes by while it
processes is that of the round it processes.
-/

namespace Sharding

open CText ParallelFor

/-! ## The text -/

/-- "ROUND_START:" -/
def roundStartLabel : Bytes := [82, 79, 85, 78, 68, 95, 83, 84, 65, 82, 84, 58]

/-- What `snprintf` leaves in the leader's `char msg[64]`. -/
def roundStartText (round : UInt32) : Bytes :=
  (roundStartLabel ++ decimal round.toNat).take 63

/-- `sscanf` with "ROUND_START:%u" into a `round` that was 0. -/
def scanRound (msg : Bytes) : UInt32 :=
  if msg.take 12 = roundStartLabel then (strtoull (msg.drop 12)).toUInt32 else 0

theorem roundStart_length_le (round : UInt32) :
    (roundStartLabel ++ decimal round.toNat).length ≤ 22 := by
  have hlt : round.toNat < 10 ^ (9 + 1) := Nat.lt_trans round.toNat_lt (by decide)
  have hdigits := decimal_length_le hlt
  rw [List.length_append]
  show 12 + _ ≤ 22
  omega

theorem roundStartText_eq (round : UInt32) :
    roundStartText round = roundStartLabel ++ decimal round.toNat :=
  List.take_of_length_le (Nat.le_trans (roundStart_length_le round) (by decide))

/-- Scanning reads what was printed. -/
theorem scanRound_text (round : UInt32) : scanRound (roundStartText round) = round := by
  have hhead : (roundStartLabel ++ decimal round.toNat).take 12 = roundStartLabel :=
    List.take_left' rfl
  have hrest : (roundStartLabel ++ decimal round.toNat).drop 12 = decimal round.toNat :=
    List.drop_left' rfl
  have hwide : decimal round.toNat = decimal round.toUInt64.toNat := by
    rw [UInt32.toNat_toUInt64]
  have hread : strtoull (decimal round.toNat) = round.toUInt64 := by
    rw [hwide, ← List.append_nil (decimal round.toUInt64.toNat)]
    exact strtoull_decimal_append _ rfl
  rw [scanRound, roundStartText_eq, if_pos hhead, hrest, hread, UInt32.toUInt32_toUInt64]

/-- The follower's buffer takes the text, and nothing of it is lost. -/
theorem followerRecv_text (round : UInt32) :
    followerRecv (some (roundStartText round)) = .ok (some (roundStartText round)) := by
  have hlen : (roundStartText round).length < 64 := by
    have hle := roundStart_length_le round
    rw [roundStartText_eq]
    omega
  have hzero : 0 ∉ roundStartText round := by
    rw [roundStartText_eq, List.mem_append]
    rintro (hlabel | hdigit)
    · revert hlabel
      decide
    · exact not_mem_decimal (by decide) _ hdigit
  rw [followerRecv, recvText_ok hlen, cstr_eq_self hzero]
  rfl

/-! ## Steps that no announcement is part of -/

def Cluster.withSub (s : Cluster) (sub : Nat → List UInt32) : Cluster := { s with sub := sub }

section WithSub

variable (crypto : Crypto) (numShards : Nat) (s : Cluster) (sub : Nat → List UInt32)

@[simp] theorem withSub_dispatcher : (s.withSub sub).dispatcher = s.dispatcher := rfl

@[simp] theorem withSub_outbox : (s.withSub sub).outbox = s.outbox := rfl

@[simp] theorem withSub_tx : (s.withSub sub).tx = s.tx := rfl

@[simp] theorem withSub_done : (s.withSub sub).done = s.done := rfl

@[simp] theorem withSub_results : (s.withSub sub).results = s.results := rfl

@[simp] theorem withSub_leader : (s.withSub sub).leader = s.leader := rfl

@[simp] theorem withSub_follower : (s.withSub sub).follower = s.follower := rfl

theorem dispatch_withSub (roundStartMs : UInt64) (blockSize : Nat) (durationMs : UInt64) :
    (s.withSub sub).dispatch roundStartMs blockSize durationMs =
      (s.dispatch roundStartMs blockSize durationMs).map fun s => s.withSub sub := by
  unfold Cluster.dispatch
  cases hout : s.outbox with
  | cons o out =>
      simp only [withSub_outbox, hout]
      rfl
  | nil =>
      simp only [withSub_outbox, withSub_dispatcher, hout]
      cases s.dispatcher.dispatch roundStartMs blockSize durationMs with
      | error e => rfl
      | ok d => rfl

theorem send_withSub : (s.withSub sub).send = s.send.withSub sub := by
  unfold Cluster.send
  cases hout : s.outbox with
  | nil => simp only [withSub_outbox, hout]
  | cons o out =>
      cases o with
      | push p =>
          simp only [withSub_outbox, hout]
          rfl
      | done d =>
          simp only [withSub_outbox, hout]
          rfl

theorem leaderStep_withSub (hl : s.leader ≠ .announcing) (drop : Nat → Bool) (source : Nat)
    (schedule : (k : Nat) → Schedule k) :
    (s.withSub sub).leaderStep crypto numShards drop source schedule =
      (s.leaderStep crypto numShards drop source schedule).map fun s => s.withSub sub := by
  unfold Cluster.leaderStep
  cases hleader : s.leader with
  | waiting =>
      simp only [withSub_leader, hleader]
      cases htx : s.tx 0 with
      | nil =>
          simp only [withSub_tx, htx]
          rfl
      | cons raw rest =>
          simp only [withSub_tx, htx]
          split
          · rfl
          · split
            · rfl
            · rfl
  | waitDone =>
      simp only [withSub_leader, hleader]
      cases hdone : s.done with
      | nil =>
          simp only [withSub_done, hdone]
          rfl
      | cons raw rest =>
          simp only [withSub_done, hdone]
          rfl
  | announcing => exact absurd hleader hl
  | processing st =>
      simp only [withSub_leader, hleader]
      by_cases hstop : st.done = true
      · rw [if_pos hstop, if_pos hstop]
        refine Run.bind_map ?_ _
        intro own
        refine Run.bind_map ?_ _
        intro st
        rfl
      · rw [if_neg hstop, if_neg hstop]
        cases htx : s.tx 0 with
        | nil =>
            simp only [withSub_tx, htx]
            rfl
        | cons raw rest =>
            simp only [withSub_tx, htx]
            refine Run.bind_map ?_ _
            intro _
            rfl
  | collecting st =>
      simp only [withSub_leader, hleader]
      by_cases hmore : st.resultsReceived < numShards - 1
      · rw [if_pos hmore, if_pos hmore]
        cases hres : s.results source with
        | nil =>
            simp only [withSub_results, hres]
            rfl
        | cons raw rest =>
            simp only [withSub_results, hres]
            refine Run.bind_map ?_ _
            intro _
            rfl
      · rw [if_neg hmore, if_neg hmore]
        refine Run.bind_map ?_ _
        intro _
        rfl

theorem followerStep_withSub {i : Nat} {st : RecvState} (hstate : s.follower i = .processing st)
    (schedule : (k : Nat) → Schedule k) :
    (s.withSub sub).followerStep crypto i schedule =
      (s.followerStep crypto i schedule).map fun s => s.withSub sub := by
  unfold Cluster.followerStep
  simp only [withSub_follower, hstate]
  by_cases hstop : st.done = true
  · rw [if_pos hstop, if_pos hstop]
    refine Run.bind_map ?_ _
    intro _
    rfl
  · rw [if_neg hstop, if_neg hstop]
    cases htx : s.tx i with
    | nil =>
            simp only [withSub_tx, htx]
            rfl
    | cons raw rest =>
        simp only [withSub_tx, htx]
        refine Run.bind_map ?_ _
        intro _
        rfl

end WithSub

/-! ## The machine -/

structure TextCluster where
  cluster : Cluster
  /-- From the leader to each follower, in place of `sub`. -/
  texts : Nat → List Bytes
  /-- The `round` of each follower. -/
  heard : Nat → UInt32

namespace TextCluster

def create (capacity numShards : Nat) : TextCluster where
  cluster := Cluster.create capacity numShards
  texts _ := []
  heard _ := 0

/-- The next step of the leader: an announcement is printed and broadcast. -/
def leaderStep (crypto : Crypto) (numShards : Nat) (t : TextCluster) (drop : Nat → Bool)
    (source : Nat) (schedule : (k : Nat) → Schedule k) : Except Stuck TextCluster :=
  match t.cluster.leader with
  | .announcing => .ok { t with
      cluster := { t.cluster with leader := .processing recvInit }
      texts := fun i =>
        if 1 ≤ i ∧ i < numShards ∧ drop i = false then
          t.texts i ++ [roundStartText t.cluster.round]
        else t.texts i }
  | _ => do
      let cluster ← t.cluster.leaderStep crypto numShards drop source schedule
      .ok { t with cluster := cluster }

/-- The next step of follower `i`: an announcement is received and scanned. -/
def followerStep (crypto : Crypto) (t : TextCluster) (i : Nat)
    (schedule : (k : Nat) → Schedule k) : Except Stuck TextCluster :=
  match t.cluster.follower i with
  | .idle =>
      match t.texts i with
      | [] => .ok t
      | msg :: rest =>
          match followerRecv (some msg) with
          | .ok (some text) => .ok { t with
              cluster := { t.cluster with
                follower := Function.update t.cluster.follower i (.processing recvInit) }
              texts := Function.update t.texts i rest
              heard := Function.update t.heard i (scanRound text) }
          | _ => .error .undefined
  | .processing _ => do
      let cluster ← t.cluster.followerStep crypto i schedule
      .ok { t with cluster := cluster }

def step (crypto : Crypto) (numShards : Nat) (t : TextCluster) :
    Cluster.Label → Except Stuck TextCluster
  | .leader drop source schedule => t.leaderStep crypto numShards drop source schedule
  | .follower i schedule =>
      if 1 ≤ i ∧ i < numShards then t.followerStep crypto i schedule else .ok t
  | label => do
      let cluster ← t.cluster.step crypto numShards label
      .ok { t with cluster := cluster }

/-- The announcements as the numbers they are scanned as. -/
def numbered (t : TextCluster) : Cluster :=
  t.cluster.withSub fun i => (t.texts i).map scanRound

end TextCluster

/-! ## The same runs -/

/-- What is queued for a follower announces the open round, and so did what it went by. -/
def InRound (numShards : Nat) (s : Cluster) (t : TextCluster) : Prop :=
  ∀ i, 1 ≤ i → i < numShards →
    (∀ msg ∈ t.texts i, msg = roundStartText s.round) ∧
    ∀ st, s.follower i = .processing st → t.heard i = s.round

/-- The states that the two machines are in at the same time. -/
structure Reads (crypto : Crypto) (numShards : Nat) (s : Cluster) (t : TextCluster) : Prop where
  numbered : t.numbered = s
  inv : ClusterInv crypto numShards s
  inRound : InRound numShards s t

/-- A follower has `msgs` in its buffers, front to back; with those among `frames`, which
come next in its queue, they are its share of the round that the next block is for. -/
structure Gathers (numShards i : Nat) (s : Cluster) (st : RecvState) (msgs : List TxWithPubkey)
    (frames : List Frame) : Prop where
  count : st.bufCount.toNat = msgs.length
  txs : st.txBuf.Holds (msgs.map TxWithPubkey.tx)
  pubkeys : st.pubkeyBuf.Holds (msgs.map TxWithPubkey.pubkey)
  share : msgs ++ txsOf frames = shareAt numShards i s.dispatcher.rounds s.blocks.length
  ahead : At i s.dispatcher.rounds (s.blocks.length + 1) frames (s.ahead i)

section Reads

variable {crypto : Crypto} {numShards : Nat} {s s' : Cluster} {t : TextCluster}

/-- A step that begins neither a round nor the processing of one. -/
theorem InRound.keep (h : InRound numShards s t) (hround : s'.round = s.round)
    (hfollower : ∀ i st', s'.follower i = .processing st' → ∃ st, s.follower i = .processing st)
    (cluster : Cluster) : InRound numShards s' { t with cluster := cluster } := by
  intro i h1 hn
  rcases h i h1 hn with ⟨htexts, hheard⟩
  rw [hround]
  refine ⟨htexts, ?_⟩
  intro st' hst'
  rcases hfollower i st' hst' with ⟨st, hst⟩
  exact hheard st hst

/-- Before the announcement there is nothing queued, and nobody processes. -/
theorem Reads.resting (h : Reads crypto numShards s t) (hl : s.leader = .waiting) {i : Nat}
    (h1 : 1 ≤ i) (hn : i < numShards) : t.texts i = [] ∧ s.follower i = .idle := by
  have hphase := h.inv.phase
  rw [hl] at hphase
  cases hphase with
  | waiting hleader hfollowers =>
      have hrest := hfollowers i h1 hn
      have hsub : s.sub i = [] := hrest.sub
      rw [← h.numbered] at hsub
      exact ⟨List.map_eq_nil_iff.mp hsub, hrest.state⟩

theorem Reads.leader (h : Reads crypto numShards s t) (hl : s.leader ≠ .announcing)
    {drop : Nat → Bool} {source : Nat} (hmove : LeaderMove numShards drop source s s')
    (cluster : Cluster) : InRound numShards s' { t with cluster := cluster } := by
  cases hmove with
  | opens raw rest round legacy hwait htx =>
      intro i h1 hn
      rcases h.resting hwait h1 hn with ⟨hnone, hidle⟩
      constructor
      · intro msg hmsg
        rw [hnone] at hmsg
        cases hmsg
      · intro st hst
        rw [hidle] at hst
        cases hst
  | announces hann => exact absurd hann hl
  | blocked _ => exact h.inRound.keep rfl (fun _ st hst => ⟨st, hst⟩) cluster
  | dispatched => exact h.inRound.keep rfl (fun _ st hst => ⟨st, hst⟩) cluster
  | receives => exact h.inRound.keep rfl (fun _ st hst => ⟨st, hst⟩) cluster
  | completes => exact h.inRound.keep rfl (fun _ st hst => ⟨st, hst⟩) cluster
  | takes => exact h.inRound.keep rfl (fun _ st hst => ⟨st, hst⟩) cluster
  | assembles => exact h.inRound.keep rfl (fun _ st hst => ⟨st, hst⟩) cluster

theorem Reads.follower (h : Reads crypto numShards s t) {i : Nat} {st : RecvState}
    (hstate : s.follower i = .processing st) (hmove : FollowerMove i s s') (cluster : Cluster) :
    InRound numShards s' { t with cluster := cluster } := by
  have hframe := hmove.frame.1
  apply h.inRound.keep hframe.round
  intro j st' hst'
  by_cases hji : j = i
  · subst hji
    exact ⟨st, hstate⟩
  · have hview := hframe.others j hji
    have hsame : s'.follower j = s.follower j := congrArg View.state hview
    exact ⟨st', hsame.symm.trans hst'⟩

/-- The broadcast: each queue gets the text of the number that the other's gets. -/
theorem Reads.announce (h : Reads crypto numShards s t) (hl : s.leader = .announcing)
    (drop : Nat → Bool) (source : Nat) (schedule : (k : Nat) → Schedule k)
    (hok : s.leaderStep crypto numShards drop source schedule = .ok s')
    (hinv : ClusterInv crypto numShards s') :
    ∃ t', t.leaderStep crypto numShards drop source schedule = .ok t' ∧
      Reads crypto numShards s' t' := by
  have hleader : t.cluster.leader = .announcing := by
    rw [← hl, ← h.numbered]
    rfl
  have hround : t.cluster.round = s.round := by
    rw [← h.numbered]
    rfl
  unfold TextCluster.leaderStep
  unfold Cluster.leaderStep at hok
  simp only [hl, Except.ok.injEq] at hok
  simp only [hleader]
  refine ⟨_, rfl, ?_, hinv, ?_⟩
  · rw [← hok, ← h.numbered]
    unfold TextCluster.numbered Cluster.withSub
    simp only [Cluster.mk.injEq, true_and, and_true]
    funext i
    split
    · rw [List.map_append, List.map_singleton, scanRound_text]
    · rfl
  · intro i h1 hn
    rcases h.inRound i h1 hn with ⟨htexts, hheard⟩
    subst hok
    refine ⟨?_, hheard⟩
    intro msg hmsg
    simp only at hmsg
    split at hmsg
    · rcases List.mem_append.mp hmsg with hold | hnew
      · exact htexts msg hold
      · rw [List.mem_singleton.mp hnew, hround]
    · exact htexts msg hmsg

/-- An idle follower scans the number that the other machine hands it. -/
theorem Reads.hear (h : Reads crypto numShards s t) {i : Nat} (h1 : 1 ≤ i) (hn : i < numShards)
    (hidle : s.follower i = .idle) (schedule : (k : Nat) → Schedule k)
    (hok : s.followerStep crypto i schedule = .ok s') (hinv : ClusterInv crypto numShards s') :
    ∃ t', t.followerStep crypto i schedule = .ok t' ∧ Reads crypto numShards s' t' := by
  have hstate : t.cluster.follower i = .idle := by
    rw [← hidle, ← h.numbered]
    rfl
  have hsub : s.sub i = (t.texts i).map scanRound := by
    rw [← h.numbered]
    rfl
  rcases h.inRound i h1 hn with ⟨htexts, -⟩
  unfold TextCluster.followerStep
  unfold Cluster.followerStep at hok
  simp only [hidle] at hok
  simp only [hstate]
  cases hqueue : t.texts i with
  | nil =>
      simp only [hsub, hqueue, List.map_nil, Except.ok.injEq] at hok
      subst hok
      exact ⟨t, rfl, h⟩
  | cons msg rest =>
      have hmsg : msg = roundStartText s.round := by
        apply htexts
        rw [hqueue]
        exact List.mem_cons_self
      subst hmsg
      simp only [hsub, hqueue, List.map_cons, Except.ok.injEq] at hok
      simp only [followerRecv_text, scanRound_text]
      refine ⟨_, rfl, ?_, hinv, ?_⟩
      · rw [← hok, ← h.numbered]
        unfold TextCluster.numbered Cluster.withSub
        simp only [Cluster.mk.injEq, true_and, and_true]
        funext j
        by_cases hji : j = i
        · subst hji
          rw [Function.update_self, Function.update_self]
        · rw [Function.update_of_ne hji, Function.update_of_ne hji]
      · intro j hj1 hjn
        rcases h.inRound j hj1 hjn with ⟨hjtexts, hjheard⟩
        subst hok
        by_cases hji : j = i
        · subst hji
          simp only [Function.update_self]
          refine ⟨?_, fun _ _ => trivial⟩
          intro msg hmsg
          apply hjtexts
          rw [hqueue]
          exact List.mem_cons_of_mem _ hmsg
        · simp only [Function.update_of_ne hji]
          exact ⟨hjtexts, hjheard⟩

/-- Where no announcement is part of a step, it is taken as it is. -/
theorem Reads.plain (h : Reads crypto numShards s t) {label : Cluster.Label}
    {x : Except Stuck Cluster} (hok : s.step crypto numShards label = .ok s')
    (hinv : ClusterInv crypto numShards s')
    (hx : t.numbered.step crypto numShards label =
      x.map fun c => c.withSub fun i => (t.texts i).map scanRound)
    (hann : ∀ c, InRound numShards s' { t with cluster := c }) :
    ∃ t', (x >>= fun c => .ok { t with cluster := c }) = .ok t' ∧ Reads crypto numShards s' t' := by
  rw [h.numbered, hok] at hx
  rcases Run.map_eq_ok hx.symm with ⟨c, rfl, hc⟩
  exact ⟨_, rfl, hc, hinv, hann c⟩

theorem dispatch_round_follower {roundStartMs : UInt64} {blockSize : Nat} {durationMs : UInt64}
    (hok : s.dispatch roundStartMs blockSize durationMs = .ok s') :
    s'.round = s.round ∧ s'.follower = s.follower := by
  unfold Cluster.dispatch at hok
  split at hok
  · obtain rfl := Except.ok.inj hok
    exact ⟨rfl, rfl⟩
  · split at hok
    · cases hok
    · obtain rfl := Except.ok.inj hok
      exact ⟨rfl, rfl⟩

theorem Reads.step (hpos : 0 < numShards) (hle : numShards ≤ maxShards)
    (h : Reads crypto numShards s t) (label : Cluster.Label) :
    ∃ s' t', s.step crypto numShards label = .ok s' ∧ t.step crypto numShards label = .ok t' ∧
      Reads crypto numShards s' t' := by
  rcases clusterStep_inv hpos hle s label h.inv with ⟨s', hok, hinv⟩
  refine ⟨s', ?_⟩
  suffices hread : ∃ t', t.step crypto numShards label = .ok t' ∧ Reads crypto numShards s' t' by
    rcases hread with ⟨t', hok', h'⟩
    exact ⟨t', hok, hok', h'⟩
  cases label with
  | add tx pubkey =>
      refine h.plain hok hinv rfl fun c => h.inRound.keep ?_ ?_ c
      · rw [← Except.ok.inj hok]
      · intro i st hst
        rw [← Except.ok.inj hok] at hst
        exact ⟨st, hst⟩
  | dispatch roundStartMs blockSize durationMs =>
      rcases dispatch_round_follower hok with ⟨hround, hfollower⟩
      refine h.plain hok hinv (dispatch_withSub _ _ roundStartMs blockSize durationMs) fun c =>
        h.inRound.keep hround ?_ c
      intro i st hst
      rw [hfollower] at hst
      exact ⟨st, hst⟩
  | send =>
      rcases send_frame s with ⟨-, hround, -, -, -, -, hfollower, -⟩
      have hsend : t.numbered.send = t.cluster.send.withSub fun i => (t.texts i).map scanRound :=
        send_withSub _ _
      refine h.plain hok hinv (congrArg Except.ok hsend) fun c => h.inRound.keep ?_ ?_ c
      · rw [← Except.ok.inj hok, hround]
      · intro i st hst
        rw [← Except.ok.inj hok, hfollower] at hst
        exact ⟨st, hst⟩
  | leader drop source schedule =>
      by_cases hl : s.leader = .announcing
      · exact h.announce hl drop source schedule hok hinv
      · have hleader : t.cluster.leader ≠ .announcing := by
          rw [← h.numbered] at hl
          exact hl
        have hplain := h.plain hok hinv
          (leaderStep_withSub crypto numShards t.cluster _ hleader drop source schedule)
          (h.leader hl (leaderStep_move hok))
        show ∃ t', t.leaderStep crypto numShards drop source schedule = .ok t' ∧ _
        unfold TextCluster.leaderStep
        split
        · rename_i hann
          exact absurd hann hleader
        · exact hplain
  | follower i schedule =>
      by_cases hi : 1 ≤ i ∧ i < numShards
      · have hfollow : s.followerStep crypto i schedule = .ok s' := by
          simpa only [Cluster.step, if_pos hi] using hok
        simp only [TextCluster.step, if_pos hi]
        cases hstate : s.follower i with
        | idle => exact h.hear hi.1 hi.2 hstate schedule hfollow hinv
        | processing st =>
            have hfollower : t.cluster.follower i = .processing st := by
              rw [← h.numbered] at hstate
              exact hstate
            have hsame : t.numbered.step crypto numShards (.follower i schedule) =
                (t.cluster.followerStep crypto i schedule).map fun c =>
                  c.withSub fun i => (t.texts i).map scanRound := by
              simp only [Cluster.step, if_pos hi]
              exact followerStep_withSub crypto t.cluster _ hfollower schedule
            have hplain := h.plain hok hinv hsame (h.follower hstate (followerStep_move hfollow))
            unfold TextCluster.followerStep
            simp only [hfollower]
            exact hplain
      · have hstay : s = s' := by
          simpa only [Cluster.step, if_neg hi, Except.ok.injEq] using hok
        simp only [TextCluster.step, if_neg hi]
        exact ⟨t, rfl, hstay ▸ h⟩

/-- A follower that processes: the number it went by, and what it has gathered. -/
theorem Reads.processing (h : Reads crypto numShards s t) {i : Nat} (h1 : 1 ≤ i)
    (hn : i < numShards) {st : RecvState} (hstate : s.follower i = .processing st) :
    t.heard i = UInt32.ofNat (s.blocks.length + 1) ∧
      ∃ msgs frames, Gathers numShards i s st msgs frames := by
  have hheard := (h.inRound i h1 hn).2 st hstate
  -- a follower that processes is one the leader waits for
  have hbusy : ∀ {k : Nat}, ¬ Resting i s.dispatcher.rounds k (s.view i) := by
    intro k hrest
    have hidle : s.follower i = .idle := hrest.state
    rw [hidle] at hstate
    cases hstate
  have hworking : FollowerAt crypto numShards i s.dispatcher.rounds s.blocks.length (s.view i) →
      ∃ msgs frames, Gathers numShards i s st msgs frames := by
    intro hat
    generalize hv : s.view i = v at hat
    have hvs : v.state = .processing st := by
      rw [← hv]
      exact hstate
    cases hat with
    | working st' ahead hw =>
        obtain rfl := FollowerState.processing.inj hvs
        obtain rfl : s.ahead i = ahead := congrArg View.ahead hv
        rcases hw with ⟨c, frames, hholding, -, hshare, hat⟩
        exact ⟨c.msgs, frames, hholding.count, hholding.txs, hholding.pubkeys, hshare, hat⟩
    | missed => cases hvs
    | announced => cases hvs
    | reported => cases hvs
  have hphase := h.inv.phase
  rw [hheard]
  generalize hl : s.leader = l at hphase
  cases hphase with
  | waiting hleader hfollowers => exact absurd (hfollowers i h1 hn) hbusy
  | waitDone ho => exact absurd (ho.followers i h1 hn) hbusy
  | announcing ho => exact absurd (ho.followers i h1 hn) hbusy
  | processing st' hround hleader hfollowers => exact ⟨hround, hworking (hfollowers i h1 hn)⟩
  | collecting st' ids hround hleader hfilled hnodup hids hin hout =>
      refine ⟨hround, hworking (hout i h1 hn ?_)⟩
      intro hmem
      exact hbusy (hin i hmem)

end Reads

/-- Announcements as texts, printed and scanned, are as good as numbers: a run with texts
never overflows a follower's buffer and goes like the one with numbers, and a follower that
processes has scanned the number of the very round whose share it has in its buffers, as far
as the share is not still ahead of it. -/
theorem announcements_read {numShards : Nat} (hpos : 0 < numShards) (hle : numShards ≤ maxShards)
    (crypto : Crypto) (capacity : Nat) (labels : List Cluster.Label) :
    ∃ s t, Run.run (Cluster.step crypto numShards) (Cluster.create capacity numShards) labels =
        .ok s ∧
      Run.run (TextCluster.step crypto numShards) (TextCluster.create capacity numShards) labels =
        .ok t ∧
      t.numbered = s ∧
      ∀ i st, 1 ≤ i → i < numShards → t.cluster.follower i = .processing st →
        t.heard i = UInt32.ofNat (s.blocks.length + 1) ∧
        ∃ msgs frames, Gathers numShards i s st msgs frames := by
  have hstart : Reads crypto numShards (Cluster.create capacity numShards)
      (TextCluster.create capacity numShards) := by
    refine ⟨rfl, clusterCreate_inv crypto capacity hpos hle, ?_⟩
    intro i _ _
    constructor
    · intro msg hmsg
      cases hmsg
    · intro st hst
      cases hst
  rcases Run.run_lockstep (Reads crypto numShards)
    (fun s t label h => h.step hpos hle label) labels _ _ hstart with ⟨s, t, hs, ht, h⟩
  refine ⟨s, t, hs, ht, h.numbered, ?_⟩
  intro i st h1 hn hfollower
  apply h.processing h1 hn
  rw [← h.numbered]
  exact hfollower

theorem announcements_read_two_shards :
    ∃ s t, Run.run (Cluster.step Crypto.rejecting 2) (Cluster.create 4 2) twoShardRound = .ok s ∧
      Run.run (TextCluster.step Crypto.rejecting 2) (TextCluster.create 4 2) twoShardRound =
        .ok t ∧
      t.numbered = s ∧
      ∀ i st, 1 ≤ i → i < 2 → t.cluster.follower i = .processing st →
        t.heard i = UInt32.ofNat (s.blocks.length + 1) ∧
        ∃ msgs frames, Gathers 2 i s st msgs frames :=
  announcements_read (by decide) (by decide) Crypto.rejecting 4 twoShardRound

example : (Run.run (TextCluster.step Crypto.rejecting 2) (TextCluster.create 4 2)
    twoShardRound).toOption.map (fun t => (t.heard 1, t.cluster.blocks.length)) =
    some (1, 1) := by decide +kernel

end Sharding
