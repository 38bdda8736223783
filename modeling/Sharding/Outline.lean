import Sharding.Balance
import Sharding.Lib.Refine

/-! # What decides about the rounds

From outside, the receiver is a machine over nonces. Which replies it gives, how many
rounds there are, what is sent to which shard in which order and what the markers count
depends on nothing but the nonces of the transactions that pass the check, the number of
those that do not, and the clock: `Outline` is that machine, and `receiver_outlined` runs
the two in step. Addresses, values, fees, expiry and signatures decide nothing.
-/

namespace Sharding

/-! ## Rounds over nonces -/

/-- A push with its transaction reduced to the nonce. -/
inductive PushView where
  | header (h : DispatchHeader)
  | nonce (n : Nat)
  | roundEnd (e : RoundEnd)
deriving DecidableEq

def PushMsg.view : PushMsg → PushView
  | .header h => .header h
  | .tx e => .nonce (nonceOf e)
  | .roundEnd e => .roundEnd e

/-- What a round pushes on which socket, and its completion notice. -/
structure RoundView where
  pushes : List (Nat × PushView)
  done : DispatchDone
deriving DecidableEq

def Dispatch.view (round : Dispatch) : RoundView :=
  ⟨round.pushes.map fun p => (p.shard, p.msg.view), round.done⟩

/-- Round `k` over the nonces `nonces`. -/
def roundView (numShards k : Nat) (nonces : List Nat) (roundStartMs durationMs : UInt64) :
    RoundView where
  pushes := (0, .header ⟨roundStartMs, UInt32.ofNat k, UInt32.ofNat numShards⟩) ::
    ((nonces.map fun n => (n % numShards, .nonce n)) ++
      (List.range numShards).map fun i =>
        (i, .roundEnd ⟨UInt32.ofNat k, UInt32.ofNat (Residues.share numShards i nonces)⟩))
  done := ⟨UInt32.ofNat k, durationMs⟩

/-! ## The machine -/

/-- What the receiver makes of a message: the nonces that pass, and how many
transactions do not. -/
inductive Seen where
  | unknown
  | batch (nonces : List Nat) (rejected : Nat) (roundStartMs durationMs : UInt64)

def Arrival.seen (cfg : Config) (crypto : Crypto) (a : Arrival) : Seen :=
  match a.incoming with
  | .unknown => .unknown
  | .batch _ => .batch (offered cfg crypto a)
      (a.incoming.txs.countP fun pt => !passes crypto cfg.verify pt) a.roundStartMs a.durationMs

/-- The receiver over nonces: the pool, the rounds and the replies so far. -/
structure Outline where
  held : List Nat
  rounds : List RoundView
  replies : List Reply
deriving DecidableEq

namespace Outline

def start : Outline := ⟨[], [], []⟩

def step (cfg : Config) (o : Outline) : Seen → Outline
  | .unknown => { o with replies := o.replies ++ [.unknown] }
  | .batch nonces rejected roundStartMs durationMs =>
      let pooled := (o.held ++ nonces).take mempoolMaxSize
      let reply := Reply.ok ⟨pooled.length - o.held.length, rejected⟩
      if cfg.blockSize ≤ pooled.length then
        { held := []
          rounds := o.rounds ++ [roundView cfg.numShards (o.rounds.length + 1)
            (pooled.take (roundSize cfg.blockSize cfg.numShards)) roundStartMs durationMs]
          replies := o.replies ++ [reply] }
      else { o with held := pooled, replies := o.replies ++ [reply] }

end Outline

/-- The outline of a receiver that has given the replies `replies`. -/
def Receiver.outline (r : Receiver) (replies : List Reply) : Outline :=
  ⟨heldNonces r.core, r.core.rounds.map Dispatch.view, replies⟩

/-! ## In step -/

theorem pushesOf_view (numShards : Nat) (roundStartMs : UInt64) (k : Nat) (drained : List Entry) :
    (pushesOf numShards roundStartMs (UInt32.ofNat k) drained).map
        (fun p => (p.shard, p.msg.view)) =
      (roundView numShards k (drained.map nonceOf) roundStartMs 0).pushes := by
  have hends : ∀ i, (endMarker numShards (UInt32.ofNat k) drained i) =
      ⟨UInt32.ofNat k, UInt32.ofNat (Residues.share numShards i (drained.map nonceOf))⟩ := by
    intro i
    rw [endMarker, shareOf, Residues.share, List.countP_map]
    rfl
  simp only [pushesOf, roundView, List.map_cons, List.map_append, List.map_map, Function.comp_def,
    hends]
  rfl

/-- A dispatch in outline. -/
theorem dispatch_view {numShards : Nat} {d d' : Dispatcher} (hinv : DispatcherInv numShards d)
    {roundStartMs : UInt64} {blockSize : Nat} {durationMs : UInt64}
    (hok : d.dispatch roundStartMs blockSize durationMs = .ok d') :
    d'.rounds.map Dispatch.view = d.rounds.map Dispatch.view ++
      [roundView numShards (d.rounds.length + 1)
        ((heldNonces d).take (roundSize blockSize numShards)) roundStartMs durationMs] := by
  rcases hinv.assigner with ⟨sa, hsa, hnum, hround⟩
  have hnext : sa.roundNumber + 1 = UInt32.ofNat (d.rounds.length + 1) := by
    rw [hround, UInt32.ofNat_add]
    rfl
  subst hnum
  rw [Dispatcher.dispatch, hsa] at hok
  simp only [shardAssignerDispatch_eq, Run.ok_bind, hnext] at hok
  obtain rfl := Except.ok.inj hok
  rw [List.map_append, List.map_singleton]
  congr 2
  simp only [Dispatch.view, pushesOf_view, List.map_take]
  rfl

/-- What a batch does to the tally. -/
theorem admitBatch_tally (cfg : Config) (crypto : Crypto) (r : Receiver) {a : Arrival}
    {batch : Option PbBatch} (hin : a.incoming = .batch batch) :
    (admitBatch crypto cfg.verify r.core batch).2 =
      ⟨(heldNonces (admitBatch crypto cfg.verify r.core batch).1).length - (heldNonces r.core).length,
        a.incoming.txs.countP fun pt => !passes crypto cfg.verify pt⟩ := by
  have hsplit : a.incoming.txs.length = a.incoming.txs.countP (passes crypto cfg.verify) +
      a.incoming.txs.countP fun pt => !passes crypto cfg.verify pt := by
    rw [List.length_eq_countP_add_countP (passes crypto cfg.verify)]
    simp only [Bool.not_eq_true, Bool.decide_eq_false]
  have hcounted := admitAll_counted crypto cfg.verify a.incoming.txs (r.core, ⟨0, 0⟩)
  have heq := admitBatch_eq crypto cfg.verify r.core batch
  rw [← hin] at heq
  rw [← heq] at hcounted
  have haccepted := hcounted.accepted
  have hrejected := hcounted.rejected
  rw [heldNonces_length, heldNonces_length]
  generalize (admitBatch crypto cfg.verify r.core batch) = s at *
  rcases s with ⟨core, ⟨accepted, rejected⟩⟩
  simp only [Tally.mk.injEq] at *
  omega

theorem receive_outlined {cfg : Config} {r : Receiver} (hinv : ReceiverInv cfg r)
    (hcap : r.core.pool.capacity = mempoolMaxSize) (crypto : Crypto) (a : Arrival)
    (replies : List Reply) :
    ∃ r' reply, receive cfg crypto r a = .ok (r', reply) ∧ ReceiverInv cfg r' ∧
      r'.core.pool.capacity = mempoolMaxSize ∧
      r'.outline (replies ++ [reply]) = (r.outline replies).step cfg (a.seen cfg crypto) := by
  rcases receive_ok hinv crypto a with ⟨r', reply, hok, hinv', hhandled⟩
  refine ⟨r', reply, hok, hinv', ?_⟩
  cases hhandled with
  | unknown hin =>
      refine ⟨hcap, ?_⟩
      rw [Arrival.seen, hin]
      rfl
  | waits batch hin r' hcore hcount =>
      have hheld := admitBatch_nonces cfg crypto r hin
      have hrounds := admitBatch_rounds crypto cfg.verify r.core batch
      have hkept := admitBatch_capacity crypto cfg.verify r.core batch
      have htally := admitBatch_tally cfg crypto r hin
      rw [← hcore, hcap] at hheld
      rw [← hcore] at hrounds hkept htally
      refine ⟨hkept.trans hcap, ?_⟩
      have hwait : ¬ cfg.blockSize ≤ (heldNonces r'.core).length := by
        rw [heldNonces_length]
        exact Nat.not_le.mpr hcount
      rw [htally, Arrival.seen, hin, Receiver.outline, Receiver.outline, Outline.step]
      simp only [← hheld, if_neg hwait, hrounds]
  | dispatches batch hin r' hdue hdispatch =>
      have hheld := admitBatch_nonces cfg crypto r hin
      have hrounds := admitBatch_rounds crypto cfg.verify r.core batch
      have hkept := admitBatch_capacity crypto cfg.verify r.core batch
      have htally := admitBatch_tally cfg crypto r hin
      have hinv₁ := admitBatch_inv hinv.core crypto batch
      rcases dispatch_nonces hinv₁ hdispatch with ⟨hempty, hcap', -⟩
      have hview := dispatch_view hinv₁ hdispatch
      rw [hcap] at hheld
      rw [hrounds] at hview
      refine ⟨hcap'.trans (hkept.trans hcap), ?_⟩
      have hfull : cfg.blockSize ≤
          (heldNonces (admitBatch crypto cfg.verify r.core batch).1).length := by
        rw [heldNonces_length]
        exact hdue
      rw [htally, Arrival.seen, hin, Receiver.outline, Receiver.outline, Outline.step, hempty, hview]
      simp only [← hheld, if_pos hfull, List.length_map]

/-- In every run, whatever `rand()` gives: the pool, all that is sent and all replies are
those of the machine over nonces. -/
theorem receiver_outlined (cfg : Config) (hshards : cfg.numShards ≤ maxShards) (crypto : Crypto)
    (rand : Rand) (arrivals : List Arrival) :
    ∃ r s replies, receiverInit cfg rand = .ok r ∧
      Run.run (Run.answering (receive cfg crypto)) (r, []) arrivals = .ok (s, replies) ∧
      s.outline replies =
        (arrivals.map (Arrival.seen cfg crypto)).foldl (Outline.step cfg) Outline.start := by
  rcases receiverInit_inv cfg hshards rand with ⟨r, hinit, hcore, hinv, -⟩
  have hstart : r.core.pool.capacity = mempoolMaxSize ∧ r.outline [] = Outline.start := by
    rw [Receiver.outline, hcore]
    exact ⟨rfl, rfl⟩
  have hstep : ∀ (before : List Arrival) (s : Receiver × List Reply) (a : Arrival),
      (ReceiverInv cfg s.1 ∧ s.1.core.pool.capacity = mempoolMaxSize ∧
        s.1.outline s.2 =
          (before.map (Arrival.seen cfg crypto)).foldl (Outline.step cfg) Outline.start) →
      ∃ s', Run.answering (receive cfg crypto) s a = .ok s' ∧
        ReceiverInv cfg s'.1 ∧ s'.1.core.pool.capacity = mempoolMaxSize ∧
        s'.1.outline s'.2 =
          ((before ++ [a]).map (Arrival.seen cfg crypto)).foldl (Outline.step cfg)
            Outline.start := by
    rintro before ⟨s, replies⟩ a ⟨hs, hcap, houtline⟩
    rcases receive_outlined hs hcap crypto a replies with ⟨s', reply, hok, hs', hcap', hnext⟩
    refine ⟨(s', replies ++ [reply]), ?_, hs', hcap', ?_⟩
    · rw [Run.answering, hok]
      rfl
    · rw [List.map_append, List.foldl_append, ← houtline]
      exact hnext
  rcases Run.run_history _ hstep arrivals [] (r, []) ⟨hinv, hstart.1, hstart.2⟩ with
    ⟨⟨s, replies⟩, hrun, -, -, houtline⟩
  exact ⟨r, s, replies, hinit, hrun, houtline⟩

theorem receiver_outlined_default :
    ∃ r s replies, receiverInit defaultConfig ⟨fun _ => 7, 0⟩ = .ok r ∧
      Run.run (Run.answering (receive defaultConfig Crypto.rejecting)) (r, [])
        [unsignedBatch, fullBatch] = .ok (s, replies) ∧
      s.outline replies =
        ([unsignedBatch, fullBatch].map (Arrival.seen defaultConfig Crypto.rejecting)).foldl
          (Outline.step defaultConfig) Outline.start :=
  receiver_outlined defaultConfig (by decide) Crypto.rejecting ⟨fun _ => 7, 0⟩
    [unsignedBatch, fullBatch]

end Sharding
