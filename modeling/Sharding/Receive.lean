import Sharding.Lib.CText
import Sharding.Submission
import Sharding.Worker

/-! # The receive sites

Four places take a message off a socket. `zmq_recv` stores as much of it as the buffer
has room for and returns its full length, so what the program does with the returned
size has to fit the buffer by itself. Reading a cell that this receive did not store,
or a cell outside of the buffer, and writing outside of it are faults here.
-/

namespace Sharding

open CText (cstr)

/-- What an access to a receive buffer could do wrong. -/
inductive BufferFault where
  | read
  | write
deriving DecidableEq

/-- A buffer of `cap` bytes after `zmq_recv` with room for `len`; the returned size is
the length of `msg`. -/
def zmqRecv (cap len : Nat) (msg : Bytes) : HeapBlock UInt8 := HeapBlock.ofList cap (msg.take len)

/-! ## The sites -/

/-- The receiver: `none` is a failed receive, after which the loop goes on. -/
def receiverRecv : Option Bytes → Except BufferFault (Option Incoming)
  | none => .ok none
  | some msg =>
      let buf := zmqRecv recvBufSize (recvBufSize - 1) msg
      -- the returned size, which may be more than was stored
      let size := msg.length
      if size > 16 then
        match buf.readAt 0 16 with
        | none => .error .read
        | some head =>
            if head = submitBatchPbPrefix then
              -- the unpacker is given `size - 16` bytes
              match buf.readAt 16 (size - 16) with
              | none => .error .read
              | some body => .ok (some (.batch (PbBatch.message.unpack body)))
            else .ok (some .unknown)
      else .ok (some .unknown)

/-- What a worker makes of a message. -/
inductive WorkerMsg where
  | dropped
  | roundEnd (m : RoundEnd)
  | tx (twp : TxWithPubkey)

/-- The loop of `process_transactions`: a message is read as what its size says. -/
def workerRecv : Option Bytes → Except BufferFault WorkerMsg
  | none => .ok .dropped
  | some msg =>
      let raw := zmqRecv TxWithPubkey.codec.size TxWithPubkey.codec.size msg
      let size := msg.length
      if size = RoundEnd.codec.size then
        match raw.readAt 0 RoundEnd.codec.size with
        | none => .error .read
        | some bytes => .ok (.roundEnd (RoundEnd.codec.dec bytes))
      else if size = TxWithPubkey.codec.size then
        match raw.readAt 0 TxWithPubkey.codec.size with
        | none => .error .read
        | some bytes => .ok (.tx (TxWithPubkey.codec.dec bytes))
      else .ok .dropped

/-- Receive into a character array of `cap`, end the text behind the returned size, and
read it as a string. -/
def recvText (cap : Nat) (msg : Bytes) : Except BufferFault Bytes :=
  -- the returned size is not compared with `cap`
  match (zmqRecv cap (cap - 1) msg).store msg.length 0 with
  | none => .error .write
  | some buf =>
      match buf.readUntil (· == 0) 0 cap with
      | none => .error .read
      | some text => .ok text

/-- `run_follower`: the announcement that `sscanf` reads, in `char msg[64]`. -/
def followerRecv : Option Bytes → Except BufferFault (Option Bytes)
  | none => .ok none
  | some msg => recvText 64 msg >>= fun text => .ok (some text)

/-- The generator, in `char resp[128]`: whether the reply begins with "OK". -/
def generatorRecv : Option Bytes → Except BufferFault Bool
  | none => .ok false
  | some msg =>
      if msg.length > 0 then recvText 128 msg >>= fun text => .ok (text.take 2 == [79, 75])
      else .ok false

/-! ## What fits -/

theorem zmqRecv_holds {cap len : Nat} (h : len ≤ cap) (msg : Bytes) :
    (zmqRecv cap len msg).Holds (msg.take len) :=
  HeapBlock.ofList_holds (Nat.le_trans (List.length_take_le _ _) h)

/-- What was stored is the message, if it was not too long. -/
theorem zmqRecv_readAt {cap len : Nat} (h : len ≤ cap) {msg : Bytes} (off n : Nat)
    (hlen : off + n ≤ len) (hmsg : off + n ≤ msg.length) :
    (zmqRecv cap len msg).readAt off n = some ((msg.drop off).take n) := by
  have hle : off + n ≤ (msg.take len).length := by
    rw [List.length_take]
    omega
  rw [(zmqRecv_holds h msg).readAt n off hle, List.drop_take, List.take_take]
  congr 2
  omega

/-- A message that leaves room for the zero is read as the string it holds. -/
theorem recvText_ok {cap : Nat} {msg : Bytes} (h : msg.length < cap) :
    recvText cap msg = .ok (cstr msg) := by
  have hall : msg.take (cap - 1) = msg := List.take_of_length_le (by omega)
  have hbuf := zmqRecv_holds (Nat.sub_le cap 1) msg
  rw [hall] at hbuf
  -- the zero goes right behind the message
  have hput := hbuf.put 0 h
  have hstore : (zmqRecv cap (cap - 1) msg).store msg.length 0 =
      some ((zmqRecv cap (cap - 1) msg).put msg.length 0) := if_pos h
  have hread : ((zmqRecv cap (cap - 1) msg).put msg.length 0).readUntil (· == 0) 0 cap =
      some (cstr msg) := hput.readUntil rfl cap 0 (Nat.zero_le _) (by omega)
  rw [recvText, hstore]
  simp only [hread]

/-- The zero behind the text is what may not fit, whatever is done with the text. -/
theorem recvText_ok_iff {β : Type} {cap : Nat} (msg : Bytes) (use : Bytes → β) :
    (∃ b, (recvText cap msg >>= fun text => .ok (use text)) = .ok b) ↔ msg.length < cap := by
  constructor
  · rintro ⟨b, hok⟩
    rcases Run.bind_eq_ok hok with ⟨text, htext, -⟩
    by_contra hge
    have hstore : (zmqRecv cap (cap - 1) msg).store msg.length 0 = none :=
      HeapBlock.store_of_cap_le 0 (Nat.le_of_not_lt hge)
    rw [recvText, hstore] at htext
    cases htext
  · intro h
    rw [recvText_ok h]
    exact ⟨use (cstr msg), rfl⟩

/-- Behind the marker is the batch, if the message was stored whole; otherwise the unpacker
is told of bytes that are not there. -/
theorem batch_readAt {msg : Bytes} (hsize : msg.length > 16) :
    (zmqRecv recvBufSize (recvBufSize - 1) msg).readAt 16 (msg.length - 16) =
      if msg.length ≤ recvBufSize - 1 then some (msg.drop 16) else none := by
  have hroom : recvBufSize - 1 ≤ recvBufSize := Nat.sub_le _ _
  split
  · rename_i hfits
    have hrest : (msg.drop 16).take (msg.length - 16) = msg.drop 16 :=
      List.take_of_length_le (by rw [List.length_drop])
    rw [zmqRecv_readAt hroom 16 (msg.length - 16) (by omega) (by omega), hrest]
  · rename_i hlong
    apply HeapBlock.readAt_ofList_none
    · rw [List.length_take]
      omega
    · omega

/-- The receiver parses what the model of the wire says, and faults where that does. -/
theorem receiverRecv_eq (msg : Bytes) :
    receiverRecv (some msg) =
      match parseMessage msg with
      | .ok incoming => .ok (some incoming)
      | .error _ => .error .read := by
  have hroom : recvBufSize - 1 ≤ recvBufSize := Nat.sub_le _ _
  have hlarge : 16 ≤ recvBufSize - 1 := by decide
  have hstored : (msg.take (recvBufSize - 1)).take 16 = msg.take 16 := by
    rw [List.take_take, Nat.min_eq_left hlarge]
  rw [receiverRecv, parseMessage]
  by_cases hsize : msg.length > 16
  · have hhead : (zmqRecv recvBufSize (recvBufSize - 1) msg).readAt 0 16 = some (msg.take 16) :=
      zmqRecv_readAt hroom 0 16 hlarge (by omega)
    rw [if_pos hsize, hhead, hstored, batch_readAt hsize]
    by_cases hmark : msg.take 16 = submitBatchPbPrefix
    · simp only [hsize, hmark, and_self, if_true]
      by_cases hfits : msg.length ≤ recvBufSize - 1
      · have hall : msg.take (recvBufSize - 1) = msg := List.take_of_length_le hfits
        rw [if_pos hfits, hall, if_pos (Nat.le_refl _)]
      · have hover : ¬ msg.length ≤ (msg.take (recvBufSize - 1)).length := by
          rw [List.length_take]
          omega
        rw [if_neg hfits, if_neg hover]
    · simp only [hmark, and_false, if_false]
  · rw [if_neg hsize]
    simp only [hsize, false_and, if_false]

theorem roundEnd_size_le : RoundEnd.codec.size ≤ TxWithPubkey.codec.size := by decide

/-- A message of a size that a worker knows is read whole. -/
theorem worker_readAt {msg : Bytes} {n : Nat} (hn : n ≤ TxWithPubkey.codec.size)
    (hlen : msg.length = n) :
    (zmqRecv TxWithPubkey.codec.size TxWithPubkey.codec.size msg).readAt 0 n = some msg := by
  rw [zmqRecv_readAt (Nat.le_refl _) 0 n (by omega) (by omega), List.drop_zero,
    List.take_of_length_le (Nat.le_of_eq hlen)]

/-- A worker takes the message for what the model of its loop does. -/
theorem recvEvent_eq (st : RecvState) (ev : Option Bytes) :
    recvEvent st ev =
      match workerRecv ev with
      | .ok .dropped => .ok st
      | .ok (.roundEnd m) => .ok { st with expected := m.txCount, gotEnd := true }
      | .ok (.tx twp) => recvTx st twp
      | .error _ => .error .undefined := by
  cases ev with
  | none => rfl
  | some msg =>
      rw [recvEvent, workerRecv]
      by_cases hend : msg.length = RoundEnd.codec.size
      · have hbytes := worker_readAt roundEnd_size_le hend
        simp only [if_pos hend, hbytes]
      by_cases htx : msg.length = TxWithPubkey.codec.size
      · have hbytes := worker_readAt (Nat.le_refl _) htx
        simp only [if_neg hend, if_pos htx, hbytes]
      · simp only [if_neg hend, if_neg htx]

/-- A text in bytes. -/
def textBytes (text : List Char) : Bytes := text.map fun c => UInt8.ofNat c.toNat

theorem ofNat_char_eq_iff {c d : Char} (hc : c.toNat < 256) (hd : d.toNat < 256) :
    UInt8.ofNat c.toNat = UInt8.ofNat d.toNat ↔ c = d := by
  constructor
  · intro h
    have hnat := congrArg UInt8.toNat h
    rw [UInt8.toNat_ofNat', UInt8.toNat_ofNat', Nat.mod_eq_of_lt hc, Nat.mod_eq_of_lt hd] at hnat
    exact Char.toNat_inj.mp hnat
  · rintro rfl
    rfl

/-- The generator judges a short reply as the model of its threads does. -/
theorem generatorRecv_eq {text : List Char} (hchar : ∀ c ∈ text, 0 < c.toNat ∧ c.toNat < 256)
    (hlen : text.length ≤ 127) : generatorRecv (some (textBytes text)) = .ok (repliedOk text) := by
  have hsize : (textBytes text).length = text.length := List.length_map _
  have hzero : 0 ∉ textBytes text := by
    intro hmem
    rcases List.mem_map.mp hmem with ⟨c, hc, hcz⟩
    have hnat := congrArg UInt8.toNat hcz
    rw [UInt8.toNat_ofNat', Nat.mod_eq_of_lt (hchar c hc).2] at hnat
    have hpos := (hchar c hc).1
    exact absurd hnat (Nat.ne_of_gt hpos)
  rw [generatorRecv, hsize, repliedOk]
  by_cases hpos : text.length > 0
  · have hread : recvText 128 (textBytes text) = .ok (cstr (textBytes text)) :=
      recvText_ok (by omega)
    rw [if_pos hpos, hread, CText.cstr_eq_self hzero, Run.ok_bind, decide_eq_true hpos, Bool.true_and]
    congr 1
    rw [Bool.eq_iff_iff, beq_iff_eq, beq_iff_eq]
    -- the first two characters, one by one
    cases text with
    | nil => exact absurd hpos (Nat.lt_irrefl 0)
    | cons c rest =>
        have hc := ofNat_char_eq_iff (hchar c List.mem_cons_self).2 (show 'O'.toNat < 256 by decide)
        cases rest with
        | nil =>
            have hshort : ¬ 1 = 2 := by decide
            exact ⟨fun h => absurd (congrArg List.length h) hshort,
              fun h => absurd (congrArg List.length h) hshort⟩
        | cons d rest =>
            have hd := ofNat_char_eq_iff (hchar d (List.mem_cons_of_mem c List.mem_cons_self)).2
              (show 'K'.toNat < 256 by decide)
            show [UInt8.ofNat c.toNat, UInt8.ofNat d.toNat] =
              [UInt8.ofNat 'O'.toNat, UInt8.ofNat 'K'.toNat] ↔ [c, d] = ['O', 'K']
            simp only [List.cons.injEq, and_true, hc, hd]
  · rw [if_neg hpos, decide_eq_false hpos, Bool.false_and]

/-- The two sizes a worker knows fit its buffer. -/
theorem workerRecv_ok (msg : Bytes) : ∃ m, workerRecv (some msg) = .ok m := by
  rw [workerRecv]
  by_cases hend : msg.length = RoundEnd.codec.size
  · have hbytes := worker_readAt roundEnd_size_le hend
    simp only [if_pos hend, hbytes]
    exact ⟨_, rfl⟩
  by_cases htx : msg.length = TxWithPubkey.codec.size
  · have hbytes := worker_readAt (Nat.le_refl _) htx
    simp only [if_neg hend, if_pos htx, hbytes]
    exact ⟨_, rfl⟩
  · simp only [if_neg hend, if_neg htx]
    exact ⟨_, rfl⟩

/-! ## Every message at every site -/

/-- The receive sites. -/
inductive Site where
  | receiver
  | worker
  | follower
  | generator

/-- All that a site reads and writes because of the returned size is inside its buffer, and
it reads only what was stored. -/
def Site.Safe (msg : Bytes) : Site → Prop
  | .receiver => ∃ r, receiverRecv (some msg) = .ok r
  | .worker => ∃ m, workerRecv (some msg) = .ok m
  | .follower => ∃ text, followerRecv (some msg) = .ok text
  | .generator => ∃ verdict, generatorRecv (some msg) = .ok verdict

/-- The messages that a site was written for. -/
def Site.Fits (msg : Bytes) : Site → Prop
  | .receiver => msg.length ≤ 2097151 ∨ ¬ submitBatchPbPrefix <+: msg
  | .worker => True
  | .follower => msg.length ≤ 63
  | .generator => msg.length ≤ 127

theorem receiverRecv_ok_iff (msg : Bytes) :
    (∃ r, receiverRecv (some msg) = .ok r) ↔
      msg.length ≤ 2097151 ∨ ¬ submitBatchPbPrefix <+: msg := by
  have hmark : submitBatchPbPrefix <+: msg ↔ msg.take 16 = submitBatchPbPrefix := by
    rw [List.prefix_iff_eq_take, eq_comm]
    rfl
  have hlarge : recvBufSize - 1 = 2097151 := rfl
  rw [receiverRecv_eq, parseMessage, hlarge, List.take_take, hmark]
  simp only [show min 16 2097151 = 16 from rfl, List.length_take]
  by_cases hbatch : msg.length > 16 ∧ msg.take 16 = submitBatchPbPrefix
  · rw [if_pos hbatch]
    by_cases hfits : msg.length ≤ 2097151
    · rw [if_pos (by omega)]
      exact ⟨fun _ => Or.inl hfits, fun _ => ⟨_, rfl⟩⟩
    · rw [if_neg (by omega)]
      constructor
      · rintro ⟨r, hok⟩
        cases hok
      · rintro (hle | hno)
        · exact absurd hle hfits
        · exact absurd hbatch.2 hno
  · rw [if_neg hbatch]
    refine ⟨fun _ => ?_, fun _ => ⟨_, rfl⟩⟩
    by_cases hsize : msg.length > 16
    · exact Or.inr fun hno => hbatch ⟨hsize, hno⟩
    · exact Or.inl (by omega)

theorem generatorRecv_ok_iff (msg : Bytes) :
    (∃ verdict, generatorRecv (some msg) = .ok verdict) ↔ msg.length ≤ 127 := by
  rw [generatorRecv]
  split
  · rw [recvText_ok_iff msg fun text => text.take 2 == [79, 75]]
    exact Nat.lt_succ_iff
  · exact ⟨fun _ => by omega, fun _ => ⟨_, rfl⟩⟩

/-- A site is safe exactly from the messages that fit: a worker from all of them, a follower
and the generator from those that leave room for the zero, and the receiver from those
that were stored whole or are no batch. -/
theorem site_safe_iff (site : Site) (msg : Bytes) : site.Safe msg ↔ site.Fits msg := by
  cases site with
  | receiver => exact receiverRecv_ok_iff msg
  | worker => exact ⟨fun _ => trivial, fun _ => workerRecv_ok msg⟩
  | follower => exact (recvText_ok_iff msg some).trans Nat.lt_succ_iff
  | generator => exact generatorRecv_ok_iff msg

/-- "ROUND_START:" and 52 digits. -/
def longAnnouncement : Bytes :=
  [82, 79, 85, 78, 68, 95, 83, 84, 65, 82, 84, 58] ++ List.replicate 52 49

/-- The zero goes behind the 64 bytes of the follower's buffer. -/
theorem long_announcement_unsafe : ¬ ∀ (site : Site) (msg : Bytes), site.Safe msg := by
  intro h
  have hsafe : longAnnouncement.length < 64 :=
    (recvText_ok_iff longAnnouncement some).mp (h .follower longAnnouncement)
  revert hsafe
  decide

end Sharding
