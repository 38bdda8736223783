import Sharding.Blake3.Digest

/-! # The key

`blake3_hasher_init_keyed` puts the key into `cv`, and nothing reads `cv` again: the
chunks, the parents and the root start from `IV`. Two hashers that differ in `cv` alone
stay so, and their digests are equal.
-/

namespace Sharding.Blake3

/-- `blake3_hasher_init_keyed`, the updates and `blake3_hasher_finalize` with `out_len` 32. -/
def keyedDigest (f : Compress) (key : Vector UInt8 32) (pieces : List Bytes) :
    Except HashFault Bytes := do
  let h ← updates f (blake3HasherInitKeyed key) pieces
  let o ← blake3HasherFinalize f h 32
  .ok o.out

/-- There are two keys with different digests. -/
def KeySensitive (f : Compress) (pieces : List Bytes) : Prop :=
  ∃ key key' d d', keyedDigest f key pieces = .ok d ∧ keyedDigest f key' pieces = .ok d' ∧ d ≠ d'

/-- The hasher with another `cv`. -/
def withCv (cv : Words) (h : Hasher) : Hasher := { h with cv := cv }

theorem pushCv_withCv (cv : Words) (h : Hasher) (newCv : Words) :
    pushCv (withCv cv h) newCv = (pushCv h newCv).map (withCv cv) := by
  have hsame : (withCv cv h).cvStack.store (withCv cv h).cvStackLen (slot newCv) =
      h.cvStack.store h.cvStackLen (slot newCv) := rfl
  rw [pushCv, pushCv, hsame]
  cases h.cvStack.store h.cvStackLen (slot newCv) with
  | none => rfl
  | some cvStack => rfl

theorem addChunkCv_withCv (f : Compress) (cv : Words) (h : Hasher) (newCv : Words)
    (chunkCounter : UInt64) :
    addChunkCv f (withCv cv h) newCv chunkCounter =
      (addChunkCv f h newCv chunkCounter).map (withCv cv) := by
  apply Run.bind_map
  intro m
  exact pushCv_withCv cv { h with cvStackLen := m.cvStackLen, calls := m.calls } m.cv

theorem flushChunk_withCv (f : Compress) (cv : Words) (h : Hasher) :
    flushChunk f (withCv cv h) = (flushChunk f h).map (withCv cv) := by
  apply Run.bind_map
  intro cs
  have hadd := addChunkCv_withCv f cv { h with calls := h.calls ++ cs.calls ++ [outputArgs cs] }
    (chunkStateOutput f cs) h.chunkCounter
  show (addChunkCv f (withCv cv { h with calls := h.calls ++ cs.calls ++ [outputArgs cs] })
    (chunkStateOutput f cs) h.chunkCounter >>= _) = _
  rw [hadd]
  apply Run.map_bind
  intro h₁
  rfl

/-- The chunk buffer does not see `cv`. -/
theorem chunkBuffer_blind (f : Compress) (cv : Words) :
    LazyBuffer.Blind (chunkBuffer f) (withCv cv) where
  len _ := rfl
  flush h := flushChunk_withCv f cv h
  fill _ _ _ _ := rfl

/-- Updates neither read nor write `cv`. -/
theorem updates_withCv (f : Compress) (cv : Words) (h : Hasher) (pieces : List Bytes) :
    updates f (withCv cv h) pieces = (updates f h pieces).map (withCv cv) := by
  rw [updates_eq, updates_eq]
  exact LazyBuffer.write_blind (chunkBuffer_blind f cv) h pieces.flatten

/-- A finalization does not read `cv`. -/
theorem blake3HasherFinalize_withCv (f : Compress) (cv : Words) (h : Hasher) (outLen : Nat) :
    blake3HasherFinalize f (withCv cv h) outLen = blake3HasherFinalize f h outLen := rfl

/-- The digest is the same for all keys. -/
theorem keyedDigest_key (f : Compress) (key key' : Vector UInt8 32) (pieces : List Bytes) :
    keyedDigest f key' pieces = keyedDigest f key pieces := by
  -- the key is in `cv` and nowhere else
  have hinit : blake3HasherInitKeyed key' =
      withCv (wordsCodec.dec key'.toList) (blake3HasherInitKeyed key) := rfl
  rw [keyedDigest, keyedDigest, hinit, updates_withCv]
  cases updates f (blake3HasherInitKeyed key) pieces with
  | error e => rfl
  | ok h =>
      have hfinal := blake3HasherFinalize_withCv f (wordsCodec.dec key'.toList) h 32
      exact congrArg (· >>= fun o => .ok o.out) hfinal

/-- There is a digest. -/
theorem keyedDigest_ok (f : Compress) (key : Vector UInt8 32) (pieces : List Bytes) :
    ∃ d, keyedDigest f key pieces = .ok d ∧ d.length = 32 := by
  rcases update_initialised (.keyed key) f pieces.flatten with ⟨h, hok, hstack, hpending⟩
  rcases blake3HasherFinalize_ok hstack hpending 32 with ⟨calls, hfinal, -⟩
  refine ⟨outBytes (f (rootArgs ((messageTree pieces.flatten).digest (hashing f keyedHash))
    keyedHash)) 32, ?_, ?_⟩
  · rw [keyedDigest, updates_eq, hok, Run.ok_bind, hfinal]
    rfl
  · rw [outBytes_short (Nat.le_refl 32)]
    exact digest_length _

theorem not_keySensitive (f : Compress) (pieces : List Bytes) : ¬ KeySensitive f pieces := by
  rintro ⟨key, key', d, d', hd, hd', hne⟩
  rw [keyedDigest_key f key key', hd] at hd'
  exact hne (Except.ok.inj hd')

/-- Every message in any pieces has a digest under every key, and no two keys give
different ones. -/
theorem keyed_ignores_key (f : Compress) (pieces : List Bytes) :
    (∀ key, ∃ d, keyedDigest f key pieces = .ok d ∧ d.length = 32) ∧ ¬ KeySensitive f pieces :=
  ⟨fun key => keyedDigest_ok f key pieces, not_keySensitive f pieces⟩

/-- The empty message. -/
theorem keyed_empty_insensitive : ¬ ∀ pieces : List Bytes, KeySensitive compress pieces :=
  fun h => not_keySensitive compress [] (h [])

end Sharding.Blake3
