import Mathlib.Data.Bool.AllAny
import Sharding.Custody
import Sharding.Lib.Refine
import Sharding.Receive

/-! # The receiver as its clients see it

Bytes come in and bytes go out. A message is received into the buffer, unpacked,
admitted and dispatched, and answered with a text that is printed into `char resp[64]`.
Each part may fail in its own way: bytes that were not stored are handed on, the loop
faults, the `int` counters overflow. `deliveries_answered` says that the first is the
only one that can happen, on which sequences of messages it does, and what the answers
are on all others.
-/

namespace Sharding

/-- What could go wrong while a message is served. -/
inductive ServiceFault where
  /-- Bytes that were not stored are read or, with the length, handed to the unpacker. What
  it makes of a length that says too much depends on the bytes: it need not come that far. -/
  | handOver (f : BufferFault)
  | loop (f : Fault)
  | overflow

/-- What a receive brings, `none` if it failed, and the clock readings of a dispatch. -/
structure Delivery where
  msg : Option Bytes
  roundStartMs : UInt64
  durationMs : UInt64

/-- The text that `snprintf` leaves in `char resp[64]`, or the literal. -/
def replyBytes : Reply → Bytes
  | .ok tally => (textBytes (Reply.ok tally).text).take 63
  | .unknown => textBytes Reply.unknown.text

/-- `accepted + rejected` -/
def tallySum : Reply → Except ServiceFault Int
  | .ok tally => CInt.checked .overflow 32 (tally.accepted + tally.rejected)
  | .unknown => .ok 0

/-- The body of the receive loop, as far as the unpacker is handed what was stored; nothing
is sent after a failed receive. -/
def serveDelivery (cfg : Config) (crypto : Crypto) (r : Receiver) (d : Delivery) :
    Except ServiceFault (Receiver × Option Bytes) := do
  let incoming ← (receiverRecv d.msg).mapError .handOver
  match incoming with
  | none => .ok (r, none)
  | some incoming => do
      let (r, reply) ← (receive cfg crypto r ⟨incoming, d.roundStartMs, d.durationMs⟩).mapError .loop
      let _ ← tallySum reply
      .ok (r, some (replyBytes reply))

/-! ## How much a message can bring -/

theorem batchMerge_length_le (b : PbBatch) (f : Proto3.Field) (b' : PbBatch)
    (h : PbBatch.merge b f = some b') : b'.transactions.length ≤ b.transactions.length + 1 := by
  unfold PbBatch.merge at h
  split at h
  · cases hunpack : PbTransaction.message.unpack _ with
    | none =>
        rw [hunpack] at h
        cases h
    | some t =>
        rw [hunpack] at h
        obtain rfl := Option.some.inj h
        rw [List.length_append, List.length_singleton]
  · obtain rfl := Option.some.inj h
    exact Nat.le_succ _
  · split at h
    · cases h
    · obtain rfl := Option.some.inj h
      exact Nat.le_succ _

/-- The text that marks a batch, with something behind it. -/
def IsBatch (msg : Bytes) : Prop := msg.length > 16 ∧ msg.take 16 = submitBatchPbPrefix

instance (msg : Bytes) : Decidable (IsBatch msg) := inferInstanceAs (Decidable (_ ∧ _))

/-- What is made of a message that fits. -/
def incomingOf (msg : Bytes) : Incoming :=
  if IsBatch msg then .batch (PbBatch.message.unpack (msg.drop 16)) else .unknown

theorem incomingOf_ne_unknown_iff (msg : Bytes) : incomingOf msg ≠ .unknown ↔ IsBatch msg := by
  unfold incomingOf
  split
  · rename_i hbatch
    exact ⟨fun _ => hbatch, fun _ hno => Incoming.noConfusion hno⟩
  · rename_i hother
    exact ⟨fun hno => absurd rfl hno, fun hbatch => absurd hbatch hother⟩

/-- A batch that fits is no longer than what the buffer takes. -/
theorem IsBatch.length_le {msg : Bytes} (hbatch : IsBatch msg) (h : Site.receiver.Fits msg) :
    msg.length ≤ 2097151 := by
  have hmark : submitBatchPbPrefix <+: msg := by
    rw [← hbatch.2]
    exact List.take_prefix 16 msg
  exact h.resolve_right (not_not_intro hmark)

theorem receiverRecv_fits {msg : Bytes} (h : Site.receiver.Fits msg) :
    receiverRecv (some msg) = .ok (some (incomingOf msg)) := by
  have hlarge : recvBufSize - 1 = 2097151 := rfl
  rw [receiverRecv_eq, parseMessage, hlarge, incomingOf]
  by_cases hbatch : msg.length > 16 ∧ msg.take 16 = submitBatchPbPrefix
  · -- a batch that fits was stored whole, so what is unpacked is what was sent
    have hall : msg.take 2097151 = msg := List.take_of_length_le (IsBatch.length_le hbatch h)
    simp only [hall, if_pos hbatch, if_pos (Nat.le_refl msg.length),
      if_pos (show IsBatch msg from hbatch)]
  · have hhead : (msg.take 2097151).take 16 = msg.take 16 := by
      rw [List.take_take]
      rfl
    simp only [hhead, if_neg hbatch, if_neg (show ¬ IsBatch msg from hbatch)]

/-- A message brings no more transactions than it has bytes. -/
theorem incomingOf_txs_le {msg : Bytes} (h : Site.receiver.Fits msg) :
    (incomingOf msg).txs.length ≤ 2097151 := by
  unfold incomingOf
  split
  · rename_i hbatch
    cases hunpack : PbBatch.message.unpack (msg.drop 16) with
    | none => exact Nat.zero_le _
    | some batch =>
        have hle := Proto3.Message.unpack_measure_le PbBatch.message
          (fun b => b.transactions.length) batchMerge_length_le hunpack
        have hinit : PbBatch.message.init.transactions.length = 0 := rfl
        have hsize := hbatch.length_le h
        rw [List.length_drop] at hle
        show batch.transactions.length ≤ 2097151
        omega
  · exact Nat.zero_le _

/-- The counters of a batch count its transactions at most once. -/
theorem tally_le (crypto : Crypto) (verify : Bool) (core : Dispatcher) (batch : Option PbBatch) :
    (admitBatch crypto verify core batch).2.accepted +
      (admitBatch crypto verify core batch).2.rejected ≤ (Incoming.txs (.batch batch)).length := by
  have hcounted := admitAll_counted crypto verify (Incoming.txs (.batch batch)) (core, ⟨0, 0⟩)
  rw [← admitBatch_eq] at hcounted
  have haccepted := hcounted.accepted
  have hrejected := hcounted.rejected
  have hcount := hcounted.count
  have hle := core.pool.count_le
  simp only at haccepted hrejected hcount
  omega

/-! ## The reply -/

/-- Seven digits are enough for what a message can bring. -/
theorem text_length_le {tally : Tally} (h : tally.accepted + tally.rejected ≤ 2097151) :
    (Reply.ok tally).text.length ≤ 18 := by
  have haccepted : (Nat.toDigits 10 tally.accepted).length ≤ 7 :=
    (Nat.length_toDigits_le_iff (by decide) (by decide)).mpr (by omega)
  have hrejected : (Nat.toDigits 10 tally.rejected).length ≤ 7 :=
    (Nat.length_toDigits_le_iff (by decide) (by decide)).mpr (by omega)
  simp only [Reply.text, List.length_append, List.length_cons, List.length_nil]
  omega

/-- A reply consists of letters, digits and separators. -/
theorem text_chars (reply : Reply) : ∀ c ∈ reply.text, 0 < c.toNat ∧ c.toNat < 256 := by
  have hdigit : ∀ n, ∀ c ∈ Nat.toDigits 10 n, 0 < c.toNat ∧ c.toNat < 256 := by
    intro n c hc
    have hisDigit := Nat.isDigit_of_mem_toDigits (by decide) (by decide) hc
    simp only [Char.isDigit, Bool.and_eq_true, decide_eq_true_eq] at hisDigit
    have hlow := UInt32.le_iff_toNat_le.mp hisDigit.1
    have hhigh := UInt32.le_iff_toNat_le.mp hisDigit.2
    have hzero : '0'.val.toNat = 48 := rfl
    have hnine : '9'.val.toNat = 57 := rfl
    have hval : c.val.toNat = c.toNat := rfl
    omega
  cases reply with
  | ok tally =>
      intro c hc
      simp only [Reply.text, List.mem_append] at hc
      rcases hc with ((hc | hc) | hc) | hc
      · revert c
        exact List.all_iff_forall_prop.mp rfl
      · exact hdigit _ c hc
      · revert c
        exact List.all_iff_forall_prop.mp rfl
      · exact hdigit _ c hc
  | unknown => exact List.all_iff_forall_prop.mp rfl

/-- The generator takes the reply to a batch as OK, and no other. -/
theorem generatorRecv_reply {reply : Reply} (h : reply.text.length ≤ 18) :
    generatorRecv (some (textBytes reply.text)) = .ok (repliedOk reply.text) :=
  generatorRecv_eq (text_chars reply) (Nat.le_trans h (by decide))

/-! ## One message -/

/-- The answer to a delivery: none to a failed receive, else a text that the generator
reads as "OK" exactly if the message was marked as a batch. -/
def Answered (d : Delivery) (answer : Option Bytes) : Prop :=
  match d.msg with
  | none => answer = none
  | some msg => ∃ text, answer = some text ∧ text.length ≤ 18 ∧
      generatorRecv (some text) = .ok (decide (IsBatch msg))

/-- The messages that were stored whole or are no batch. -/
def Delivery.Fits (d : Delivery) : Prop := ∀ msg ∈ d.msg, Site.receiver.Fits msg

/-- The counters of a reply fit, and so does its text. -/
theorem handled_reply {cfg : Config} {crypto : Crypto} {r r' : Receiver} {a : Arrival}
    {reply : Reply} (h : Handled cfg crypto r a r' reply) (hfew : a.incoming.txs.length ≤ 2097151) :
    (∃ n, tallySum reply = .ok n) ∧ reply.text.length ≤ 18 ∧
      replyBytes reply = textBytes reply.text ∧
      (repliedOk reply.text = true ↔ a.incoming ≠ .unknown) := by
  have hok : ∀ batch, a.incoming = .batch batch →
      reply = .ok (admitBatch crypto cfg.verify r.core batch).2 →
      (∃ n, tallySum reply = .ok n) ∧ reply.text.length ≤ 18 ∧
        replyBytes reply = textBytes reply.text ∧
        (repliedOk reply.text = true ↔ a.incoming ≠ .unknown) := by
    rintro batch hin rfl
    rw [hin] at hfew
    have htally := Nat.le_trans (tally_le crypto cfg.verify r.core batch) hfew
    have htext := text_length_le htally
    refine ⟨⟨_, CInt.checked_ok (CInt.fits_int.mpr (by omega))⟩, htext, ?_, ?_⟩
    · rw [replyBytes]
      apply List.take_of_length_le
      rw [textBytes, List.length_map]
      exact Nat.le_trans htext (by decide)
    · rw [hin]
      exact ⟨fun _ hno => Incoming.noConfusion hno, fun _ => rfl⟩
  cases h with
  | unknown hin =>
      refine ⟨⟨0, rfl⟩, by decide, rfl, ?_⟩
      rw [hin]
      exact ⟨fun hno => absurd hno (by decide), fun hno => absurd rfl hno⟩
  | waits batch hin _ _ _ => exact hok batch hin rfl
  | dispatches batch hin _ _ _ => exact hok batch hin rfl

theorem serveDelivery_meets {cfg : Config} {r : Receiver} (hinv : ReceiverInv cfg r)
    (crypto : Crypto) {d : Delivery} (hfits : d.Fits) :
    ∃ r' answer, serveDelivery cfg crypto r d = .ok (r', answer) ∧ ReceiverInv cfg r' ∧
      Answered d answer := by
  unfold serveDelivery Answered
  cases hmsg : d.msg with
  | none => exact ⟨r, none, rfl, hinv, rfl⟩
  | some msg =>
      have hmsgFits : Site.receiver.Fits msg := hfits msg hmsg
      rcases receive_ok hinv crypto ⟨incomingOf msg, d.roundStartMs, d.durationMs⟩ with
        ⟨r', reply, hok, hinv', hhandled⟩
      rcases handled_reply hhandled (incomingOf_txs_le hmsgFits) with
        ⟨⟨n, hsum⟩, hshort, hbytes, hreplied⟩
      have hverdict : repliedOk reply.text = decide (IsBatch msg) := by
        rw [Bool.eq_iff_iff, hreplied, decide_eq_true_eq]
        exact incomingOf_ne_unknown_iff msg
      rw [receiverRecv_fits hmsgFits]
      refine ⟨r', some (replyBytes reply), ?_, hinv', textBytes reply.text, ?_, ?_, ?_⟩
      · show ((receive cfg crypto r _).mapError ServiceFault.loop >>= _) = _
        rw [hok]
        show (tallySum reply >>= _) = _
        rw [hsum]
        rfl
      · rw [hbytes]
      · rw [textBytes, List.length_map]
        exact hshort
      · rw [generatorRecv_reply hshort, hverdict]

/-- A batch that was cut off is handed over longer than it was stored. -/
theorem receiverRecv_long {msg : Bytes} (h : ¬ Site.receiver.Fits msg) :
    receiverRecv (some msg) = .error .read := by
  have hnot : ¬ ∃ r, receiverRecv (some msg) = .ok r := mt (receiverRecv_ok_iff msg).mp h
  rw [receiverRecv_eq] at hnot ⊢
  cases hparse : parseMessage msg with
  | ok incoming =>
      rw [hparse] at hnot
      exact absurd ⟨_, rfl⟩ hnot
  | error e => rfl

theorem serveDelivery_fails (cfg : Config) (crypto : Crypto) (r : Receiver) {d : Delivery}
    (hlong : ¬ d.Fits) : serveDelivery cfg crypto r d = .error (.handOver .read) := by
  unfold Delivery.Fits at hlong
  push Not at hlong
  rcases hlong with ⟨msg, hmsg, hunfit⟩
  rw [serveDelivery, Option.mem_def.mp hmsg, receiverRecv_long hunfit]
  rfl

/-! ## Whole runs -/

/-- Whatever bytes arrive, the receiver serves every sequence of messages each of which was
stored whole or is no batch: nothing that such messages say makes it read what was not
stored, divide by zero, leave an array or overflow a counter. It answers every message,
in few enough bytes, and the generator reads the answer as it is meant. In any other
sequence the first message of another kind is handed to the unpacker under a length
that says more than was stored. -/
theorem deliveries_answered (cfg : Config) (hshards : cfg.numShards ≤ maxShards) (crypto : Crypto)
    (rand : Rand) (deliveries : List Delivery) :
    ∃ r, receiverInit cfg rand = .ok r ∧
      ((∀ d ∈ deliveries, d.Fits) →
        ∃ r' answers, Run.run (Run.answering (serveDelivery cfg crypto)) (r, []) deliveries =
            .ok (r', answers) ∧ List.Forall₂ Answered deliveries answers) ∧
      ((∃ d ∈ deliveries, ¬ d.Fits) →
        Run.run (Run.answering (serveDelivery cfg crypto)) (r, []) deliveries =
          .error (.handOver .read)) := by
  rcases receiverInit_inv cfg hshards rand with ⟨r, hinit, -, hinv, -⟩
  refine ⟨r, hinit, ?_, ?_⟩
  · intro hfits
    exact Run.answering_ok (ReceiverInv cfg) Delivery.Fits Answered
      (fun s d hs hd => serveDelivery_meets hs crypto hd) deliveries r [] hinv hfits
  · intro hlong
    have hmeets : ∀ s d, ReceiverInv cfg s → d.Fits →
        ∃ t answer, serveDelivery cfg crypto s d = .ok (t, answer) ∧ ReceiverInv cfg t := by
      intro s d hs hd
      rcases serveDelivery_meets hs crypto hd with ⟨t, answer, hok, ht, -⟩
      exact ⟨t, answer, hok, ht⟩
    exact Run.answering_error (ReceiverInv cfg) Delivery.Fits _ hmeets
      (fun s d _ hd => serveDelivery_fails cfg crypto s hd) deliveries r [] hinv hlong

/-- A failed receive, a message without a marker, the bare marker, and a batch of one
transaction with no field set. -/
def oddDeliveries : List Delivery :=
  [⟨none, 0, 0⟩, ⟨some [1, 2, 3], 0, 0⟩, ⟨some submitBatchPbPrefix, 0, 0⟩,
    ⟨some (submitBatchPbPrefix ++ [10, 0]), 0, 0⟩]

/-- A marker with two million zero bytes and more behind it. -/
def longDelivery : Delivery := ⟨some (submitBatchPbPrefix ++ List.replicate 2097152 0), 0, 0⟩

/-- The answers to the odd deliveries: the transaction is accepted. -/
def oddAnswers : List (Option Bytes) :=
  [none, some (textBytes Reply.unknown.text), some (textBytes Reply.unknown.text),
    some (textBytes (Reply.ok ⟨1, 0⟩).text)]

theorem deliveries_answered_odd :
    (∃ r r', receiverInit defaultConfig ⟨fun _ => 0, 0⟩ = .ok r ∧
      Run.run (Run.answering (serveDelivery defaultConfig Crypto.rejecting)) (r, []) oddDeliveries =
        .ok (r', oddAnswers) ∧ List.Forall₂ Answered oddDeliveries oddAnswers) ∧
      ∃ r, receiverInit defaultConfig ⟨fun _ => 0, 0⟩ = .ok r ∧
        Run.run (Run.answering (serveDelivery defaultConfig Crypto.rejecting)) (r, [])
          (oddDeliveries ++ [longDelivery]) = .error (.handOver .read) := by
  constructor
  · rcases deliveries_answered defaultConfig (by decide) Crypto.rejecting ⟨fun _ => 0, 0⟩
      oddDeliveries with ⟨r, hinit, hmeets, -⟩
    have hshort : ∀ d ∈ oddDeliveries, ∀ msg ∈ d.msg, msg.length ≤ 2097151 := by decide
    rcases hmeets fun d hd msg hmsg => Or.inl (hshort d hd msg hmsg) with
      ⟨r', answers, hrun, hanswered⟩
    have heval : ((receiverInit defaultConfig ⟨fun _ => 0, 0⟩).toOption.bind fun r =>
        (Run.run (Run.answering (serveDelivery defaultConfig Crypto.rejecting)) (r, [])
          oddDeliveries).toOption.map Prod.snd) = some oddAnswers := by decide +kernel
    rw [hinit] at heval
    simp only [Except.toOption, Option.bind_some, hrun, Option.map_some] at heval
    obtain rfl := Option.some.inj heval
    exact ⟨r, r', hinit, hrun, hanswered⟩
  · rcases deliveries_answered defaultConfig (by decide) Crypto.rejecting ⟨fun _ => 0, 0⟩
      (oddDeliveries ++ [longDelivery]) with ⟨r, hinit, -, hlong⟩
    refine ⟨r, hinit, hlong ⟨longDelivery, List.mem_append_right _ List.mem_cons_self, ?_⟩⟩
    intro hfits
    rcases hfits _ rfl with hshort | hplain
    · rw [List.length_append, List.length_replicate] at hshort
      omega
    · exact hplain (List.prefix_append _ _)

end Sharding
