import Sharding.Dispatcher
import Sharding.Leader
import Sharding.Summary

/-! # Assigner, leader and followers together

The parties of a round as one machine: the assigner with its pool, the leader
(shard 0) and the followers (shards 1 to `numShards - 1`), each taking one
socket operation in a step, in any interleaving. PUSH/PULL sockets are FIFO
queues of byte strings, one per sender and receiver; a broadcast of the leader
may miss any follower. A step of a party that would block changes nothing.
-/

namespace Sharding

open ParallelFor

/-! ## The parties -/

/-- Where `run_leader` is in its loop. -/
inductive LeaderState where
  | waiting
  | waitDone
  | announcing
  | processing (st : RecvState)
  | collecting (st : CollectState)

/-- Where `run_follower` is in its loop. -/
inductive FollowerState where
  | idle
  | processing (st : RecvState)

/-- A send of `shard_assigner_dispatch`: on a push socket, or on `done_sock`. -/
inductive Outgoing where
  | push (p : Push)
  | done (d : DispatchDone)

/-- A finished block, with the array it was assembled from. -/
structure Assembled where
  block : Block
  summaries : HeapBlock ShardSummary

structure Cluster where
  dispatcher : Dispatcher
  /-- What the dispatch in progress has not sent yet. -/
  outbox : List Outgoing
  /-- From the assigner to each shard. -/
  tx : Nat → List Bytes
  /-- From the assigner's `done_sock` to the leader. -/
  done : List Bytes
  /-- From the leader to each follower: the round announced. -/
  sub : Nat → List UInt32
  /-- From each follower to the leader. -/
  results : Nat → List Bytes
  round : UInt32
  leader : LeaderState
  follower : Nat → FollowerState
  /-- Whether the leader ever took one of the branches for another message size. -/
  legacy : Bool
  blocks : List Assembled

namespace Cluster

def create (capacity numShards : Nat) : Cluster where
  dispatcher := Dispatcher.create capacity numShards
  outbox := []
  tx _ := []
  done := []
  sub _ := []
  results _ := []
  round := 0
  leader := .waiting
  follower _ := .idle
  legacy := false
  blocks := []

/-- What a dispatch sends, in order. -/
def outgoing (round : Dispatch) : List Outgoing :=
  round.pushes.map .push ++ [.done round.done]

/-- Begin a dispatch, once the last one has sent everything. -/
def dispatch (s : Cluster) (roundStartMs : UInt64) (blockSize : Nat) (durationMs : UInt64) :
    Except Stuck Cluster :=
  match s.outbox with
  | _ :: _ => .ok s
  | [] =>
      match s.dispatcher.dispatch roundStartMs blockSize durationMs with
      | .error _ => .error .undefined
      | .ok dispatcher => .ok { s with
          dispatcher := dispatcher
          outbox := (dispatcher.rounds.drop s.dispatcher.rounds.length).flatMap outgoing }

/-- The next send of the dispatch in progress. -/
def send (s : Cluster) : Cluster :=
  match s.outbox with
  | [] => s
  | .push p :: out => { s with
      outbox := out
      tx := Function.update s.tx p.shard (s.tx p.shard ++ [p.msg.bytes]) }
  | .done d :: out => { s with outbox := out, done := s.done ++ [DispatchDone.codec.enc d] }

/-- The next step of the leader; `drop` says whom a broadcast misses, `source`
whose result is received. -/
def leaderStep (crypto : Crypto) (numShards : Nat) (s : Cluster) (drop : Nat → Bool)
    (source : Nat) (schedule : (k : Nat) → Schedule k) : Except Stuck Cluster :=
  match s.leader with
  | .waiting =>
      match s.tx 0 with
      | [] => .ok s
      | raw :: rest =>
          let s := { s with tx := Function.update s.tx 0 rest, leader := .waitDone }
          if raw.length = DispatchHeader.codec.size then
            .ok { s with round := (DispatchHeader.codec.dec raw).roundNumber }
          else if raw.length = 8 then
            -- an older assigner: the bare start time
            .ok { s with round := s.round + 1, legacy := true }
          else .ok { s with round := s.round + 1, legacy := true }
  | .waitDone =>
      match s.done with
      | [] => .ok s
      | _ :: rest => .ok { s with done := rest, leader := .announcing }
  | .announcing => .ok { s with
      sub := fun i => if 1 ≤ i ∧ i < numShards ∧ drop i = false then s.sub i ++ [s.round] else s.sub i
      leader := .processing recvInit }
  | .processing st =>
      if st.done then do
        let own ← finishRound crypto 0 schedule st
        let st ← collectStart numShards own
        .ok { s with leader := .collecting st }
      else
        match s.tx 0 with
        | [] => .ok s
        | raw :: rest => do
            let st ← recvEvent st (some raw)
            .ok { s with tx := Function.update s.tx 0 rest, leader := .processing st }
  | .collecting st =>
      if st.resultsReceived < numShards - 1 then
        match s.results source with
        | [] => .ok s
        | raw :: rest => do
            let st ← collectResult st (some raw)
            .ok { s with results := Function.update s.results source rest, leader := .collecting st }
      else do
        let block ← assembleBlock crypto s.round numShards st.summaries
        .ok { s with leader := .waiting, blocks := s.blocks ++ [⟨block, st.summaries⟩] }

/-- The next step of follower `i`. -/
def followerStep (crypto : Crypto) (s : Cluster) (i : Nat) (schedule : (k : Nat) → Schedule k) :
    Except Stuck Cluster :=
  match s.follower i with
  | .idle =>
      match s.sub i with
      | [] => .ok s
      | _ :: rest => .ok { s with
          sub := Function.update s.sub i rest
          follower := Function.update s.follower i (.processing recvInit) }
  | .processing st =>
      if st.done then do
        let summary ← finishRound crypto (UInt32.ofNat i) schedule st
        .ok { s with
          results := Function.update s.results i (s.results i ++ [ShardSummary.codec.enc summary])
          follower := Function.update s.follower i .idle }
      else
        match s.tx i with
        | [] => .ok s
        | raw :: rest => do
            let st ← recvEvent st (some raw)
            .ok { s with
              tx := Function.update s.tx i rest
              follower := Function.update s.follower i (.processing st) }

/-- Who moves, and how what is not determined turns out. -/
inductive Label where
  | add (tx : Transaction) (pubkey : Option PublicKey)
  | dispatch (roundStartMs : UInt64) (blockSize : Nat) (durationMs : UInt64)
  | send
  | leader (drop : Nat → Bool) (source : Nat) (schedule : (k : Nat) → Schedule k)
  | follower (i : Nat) (schedule : (k : Nat) → Schedule k)

def step (crypto : Crypto) (numShards : Nat) (s : Cluster) : Label → Except Stuck Cluster
  | .add tx pubkey => .ok { s with dispatcher := (s.dispatcher.add tx pubkey).2 }
  | .dispatch roundStartMs blockSize durationMs => s.dispatch roundStartMs blockSize durationMs
  | .send => .ok s.send
  | .leader drop source schedule => s.leaderStep crypto numShards drop source schedule
  | .follower i schedule =>
      if 1 ≤ i ∧ i < numShards then s.followerStep crypto i schedule else .ok s

end Cluster

/-! ## What a shard has ahead -/

/-- The messages on their way to push socket `i` among the sends `out`. -/
def outTo (i : Nat) (out : List Outgoing) : List Bytes :=
  out.filterMap fun o =>
    match o with
    | .push p => if p.shard = i then some p.msg.bytes else none
    | .done _ => none

/-- What shard `i` will receive: what is queued, then what is not sent yet. -/
def Cluster.ahead (s : Cluster) (i : Nat) : List Bytes := s.tx i ++ outTo i s.outbox

/-- What round `round` sends to shard `i`. -/
def roundBytes (i : Nat) (round : Dispatch) : List Bytes :=
  (messagesTo i round.pushes).map PushMsg.bytes

theorem outTo_append (i : Nat) (out out' : List Outgoing) :
    outTo i (out ++ out') = outTo i out ++ outTo i out' := List.filterMap_append

theorem outTo_outgoing (i : Nat) (round : Dispatch) :
    outTo i (Cluster.outgoing round) = roundBytes i round := by
  have hpushes : ∀ ps : List Push,
      outTo i (ps.map .push) = (messagesTo i ps).map PushMsg.bytes := by
    intro ps
    induction ps with
    | nil => rfl
    | cons p ps ih =>
        have hcons : outTo i ((p :: ps).map .push) =
            outTo i [.push p] ++ outTo i (ps.map .push) := outTo_append i [.push p] _
        by_cases hp : p.shard = i
        · rw [hcons, ih]
          simp [outTo, messagesTo, hp]
        · rw [hcons, ih]
          simp [outTo, messagesTo, hp]
  unfold Cluster.outgoing
  rw [outTo_append, hpushes]
  simp [outTo, roundBytes]

/-- A send moves a message from the outbox to its queue. -/
theorem send_ahead (s : Cluster) (i : Nat) : s.send.ahead i = s.ahead i := by
  unfold Cluster.send Cluster.ahead
  cases hout : s.outbox with
  | nil => simp only [hout]
  | cons o out =>
      cases o with
      | done d => rfl
      | push p =>
          by_cases hp : p.shard = i
          · subst hp
            simp [outTo]
          · have hne : i ≠ p.shard := fun h => hp h.symm
            simp [outTo, hp, Function.update_of_ne hne]

/-! ## The frames of a round -/

/-- What shard `i` is to process in round `k` (counted from 0). -/
def shareAt (numShards i : Nat) (rounds : List Dispatch) (k : Nat) : List TxWithPubkey :=
  match rounds[k]? with
  | some round => (shareList numShards i round.drained).map Entry.message
  | none => []

/-- The frames of a share: its transactions and the marker that counts them. -/
def shareFrames (number : UInt32) (msgs : List TxWithPubkey) : List Frame :=
  msgs.map .tx ++ [.roundEnd ⟨number, UInt32.ofNat msgs.length⟩]

theorem txsOf_shareFrames (number : UInt32) (msgs : List TxWithPubkey) :
    txsOf (shareFrames number msgs) = msgs := by
  unfold txsOf shareFrames
  rw [List.filterMap_append, List.filterMap_map]
  simp

theorem endsOf_shareFrames (number : UInt32) (msgs : List TxWithPubkey) :
    endsOf (shareFrames number msgs) = [⟨number, UInt32.ofNat msgs.length⟩] := by
  unfold endsOf shareFrames
  rw [List.filterMap_append, List.filterMap_map]
  simp

/-- A worker that begins has the whole share ahead. -/
theorem shareFrames_pending (number : UInt32) {msgs : List TxWithPubkey}
    (hsmall : msgs.length < 2 ^ 32) :
    Pending msgs.length ⟨[], 0, false⟩ (shareFrames number msgs) := by
  refine ⟨?_, Or.inr ⟨rfl, _, endsOf_shareFrames number msgs, ?_⟩, ?_⟩
  · rw [txsOf_shareFrames]
    exact Nat.zero_add _
  · exact UInt32.toNat_ofNat_of_lt' hsmall
  · intro hne
    unfold shareFrames
    rw [List.getLast_concat]
    rfl

/-- A round as shard `i` receives it: the header for shard 0, then its share. -/
theorem roundBytes_eq {numShards i k : Nat} {round : Dispatch} (hi : i < numShards)
    (hround : RoundOk numShards k round) :
    ∃ roundStartMs, (roundBytes i round).map some =
      (if i = 0 then [some (DispatchHeader.codec.enc
          ⟨roundStartMs, UInt32.ofNat (k + 1), UInt32.ofNat numShards⟩)] else []) ++
        (shareFrames (UInt32.ofNat (k + 1))
          ((shareList numShards i round.drained).map Entry.message)).map Frame.event := by
  rcases hround with ⟨roundStartMs, hpushes⟩
  refine ⟨roundStartMs, ?_⟩
  unfold roundBytes shareFrames
  rw [hpushes, messagesTo_pushesOf hi]
  by_cases h0 : i = 0
  · simp [h0, PushMsg.bytes, Frame.event, endMarker, shareList_length, Entry.message]
  · simp [h0, PushMsg.bytes, Frame.event, endMarker, shareList_length, Entry.message]

end Sharding
