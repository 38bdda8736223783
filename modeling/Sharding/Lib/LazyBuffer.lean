import Mathlib.Data.List.Basic
import Mathlib.Tactic.Common
import Sharding.Lib.Run

/-! # Buffers that are emptied when more arrives

A program collects its input in a buffer of fixed size. A full buffer is not
flushed at once but when the next element arrives, and the input is copied in
pieces as large as the buffer has room for. `write_eq_foldlM` says that the pieces
do not matter: writing is feeding the elements one by one. So writes in a row are
one write (`write_append`), and a write to an empty buffer goes block by block
(`write_short`, `write_long`). What flushing and filling keep holds all the way
(`states_inv`), and a part of the state that they do not use does not matter
(`write_blind`).
-/

section memcpy

variable {α : Type} {n : Nat}

/-- Replace the elements of `buf` from `off` on by `src`. -/
def memcpy (buf : Vector α n) (off : Nat) (src : List α) (h : off + src.length ≤ n) : Vector α n where
  toArray := (buf.toList.take off ++ (src ++ buf.toList.drop (off + src.length))).toArray
  size_toArray := by
    simp
    omega

theorem memcpy_toList (buf : Vector α n) (off : Nat) (src : List α) (h : off + src.length ≤ n) :
    (memcpy buf off src h).toList =
      buf.toList.take off ++ (src ++ buf.toList.drop (off + src.length)) := rfl

theorem memcpy_nil (buf : Vector α n) (off : Nat) (h : off + ([] : List α).length ≤ n) :
    memcpy buf off [] h = buf := by
  apply Vector.toList_inj.mp
  rw [memcpy_toList]
  simp

/-- What is in front of the copy, and the copy. -/
theorem memcpy_take (buf : Vector α n) (off : Nat) (src : List α) (h : off + src.length ≤ n) :
    (memcpy buf off src h).toList.take (off + src.length) = buf.toList.take off ++ src := by
  have hlen : (buf.toList.take off ++ src).length = off + src.length := by
    simp
    omega
  rw [memcpy_toList, ← List.append_assoc, List.take_left' hlen]

/-- What is behind the copy. -/
theorem memcpy_drop (buf : Vector α n) (off : Nat) (src : List α) (h : off + src.length ≤ n) :
    (memcpy buf off src h).toList.drop (off + src.length) =
      buf.toList.drop (off + src.length) := by
  have hlen : (buf.toList.take off ++ src).length = off + src.length := by
    simp
    omega
  rw [memcpy_toList, ← List.append_assoc, List.drop_left' hlen]

/-- Two copies in a row are one. -/
theorem memcpy_append (buf : Vector α n) (off : Nat) (as bs : List α)
    (h : off + (as ++ bs).length ≤ n) (ha : off + as.length ≤ n)
    (hb : off + as.length + bs.length ≤ n) :
    memcpy buf off (as ++ bs) h = memcpy (memcpy buf off as ha) (off + as.length) bs hb := by
  apply Vector.toList_inj.mp
  have hrest : (memcpy buf off as ha).toList.drop (off + as.length + bs.length) =
      buf.toList.drop (off + as.length + bs.length) := by
    rw [← List.drop_drop, memcpy_drop, List.drop_drop]
  rw [memcpy_toList, memcpy_toList _ (off + as.length), memcpy_take, hrest, List.length_append]
  simp only [List.append_assoc, Nat.add_assoc]

end memcpy

/-- A state `σ` with a buffer for `size` elements. -/
structure LazyBuffer (ε σ α : Type) where
  size : Nat
  /-- How many elements are in the buffer. -/
  len : σ → Nat
  /-- Empty a full buffer. -/
  flush : σ → Except ε σ
  /-- Append what there is room for. -/
  fill : (s : σ) → (as : List α) → len s + as.length ≤ size → σ
  size_pos : 0 < size
  len_le : ∀ s, len s ≤ size
  flush_len : ∀ s s', flush s = .ok s' → len s' = 0
  fill_len : ∀ s as h, len (fill s as h) = len s + as.length
  fill_nil : ∀ s h, fill s [] h = s
  fill_append : ∀ s as bs h ha hb, fill s (as ++ bs) h = fill (fill s as ha) bs hb

namespace LazyBuffer

variable {ε σ α : Type} (B : LazyBuffer ε σ α)

/-- Make room for at least one element. -/
def room (s : σ) : Except ε σ := if B.len s = B.size then B.flush s else .ok s

theorem room_lt {s s' : σ} (h : B.room s = .ok s') : B.len s' < B.size := by
  have hpos := B.size_pos
  unfold room at h
  split at h
  · rw [B.flush_len s s' h]
    exact hpos
  · rename_i hne
    obtain rfl := Except.ok.inj h
    have hle := B.len_le s
    omega

/-- The loop that copies the input into the buffer piece by piece. -/
def write (s : σ) (input : List α) : Except ε σ :=
  if _h : input.length > 0 then
    match hroom : B.room s with
    | .error e => .error e
    | .ok s' =>
        let want := B.size - B.len s'
        let take := if input.length < want then input.length else want
        have hfit : B.len s' + (input.take take).length ≤ B.size := by
          have := B.len_le s'
          simp only [List.length_take, take, want]
          split <;> omega
        write (B.fill s' (input.take take) hfit) (input.drop take)
  else .ok s
termination_by input.length
decreasing_by
  have := B.room_lt hroom
  simp only [List.length_drop]
  split <;> omega

/-- Feed one element. -/
def feed (s : σ) (a : α) : Except ε σ :=
  match hroom : B.room s with
  | .error e => .error e
  | .ok s' => .ok (B.fill s' [a] (B.room_lt hroom))

variable {B}

theorem feed_room {s : σ} {a : α} (h : B.len s < B.size) : B.feed s a = .ok (B.fill s [a] h) := by
  have hroom : B.room s = .ok s := by
    rw [room, if_neg (Nat.ne_of_lt h)]
  unfold feed
  split
  · rename_i e he
    cases hroom.symm.trans he
  · rename_i s' hs'
    obtain rfl : s = s' := Except.ok.inj (hroom.symm.trans hs')
    rfl

/-- While there is room, feeding is appending. -/
theorem foldlM_feed (as : List α) (s : σ) (h : B.len s + as.length ≤ B.size) :
    as.foldlM B.feed s = .ok (B.fill s as h) := by
  induction as generalizing s with
  | nil =>
      rw [List.foldlM_nil, B.fill_nil]
      rfl
  | cons a as ih =>
      rw [List.length_cons] at h
      have ha : B.len s < B.size := by omega
      have hrest : B.len (B.fill s [a] ha) + as.length ≤ B.size := by
        rw [B.fill_len, List.length_singleton]
        omega
      rw [List.foldlM_cons, feed_room ha, Run.ok_bind, ih _ hrest]
      exact congrArg Except.ok (B.fill_append s [a] as _ _ _).symm

/-- Feeding starts with making room. -/
theorem feed_eq (s : σ) (a : α) : B.feed s a = B.room s >>= fun s' => B.feed s' a := by
  cases hroom : B.room s with
  | error e =>
      unfold feed
      split
      · rename_i e' he
        exact he.symm.trans hroom
      · rename_i t ht
        cases hroom.symm.trans ht
  | ok s' =>
      have hlt := B.room_lt hroom
      rw [Run.ok_bind, feed_room hlt]
      unfold feed
      split
      · rename_i e' he
        cases hroom.symm.trans he
      · rename_i t ht
        obtain rfl : s' = t := Except.ok.inj (hroom.symm.trans ht)
        rfl

theorem foldlM_room {input : List α} (h : input.length > 0) (s : σ) :
    input.foldlM B.feed s = B.room s >>= fun s' => input.foldlM B.feed s' := by
  cases input with
  | nil => cases h
  | cons a as =>
      rw [List.foldlM_cons, feed_eq]
      cases B.room s with
      | error e => rfl
      | ok s' => rw [Run.ok_bind, Run.ok_bind, List.foldlM_cons]

/-- The piece there is room for, and the rest. -/
theorem foldlM_piece {input : List α} (hpos : input.length > 0) {s s' : σ}
    (hroom : B.room s = .ok s') {k : Nat} (hfit : B.len s' + (input.take k).length ≤ B.size) :
    input.foldlM B.feed s = (input.drop k).foldlM B.feed (B.fill s' (input.take k) hfit) := by
  have hpiece := foldlM_feed (input.take k) s' hfit
  have hsplit : input.foldlM B.feed s' = (input.take k ++ input.drop k).foldlM B.feed s' := by
    rw [List.take_append_drop]
  rw [foldlM_room hpos, hroom, Run.ok_bind, hsplit, List.foldlM_append, hpiece, Run.ok_bind]

/-- The pieces in which the input is copied do not matter. -/
theorem write_eq_foldlM (s : σ) (input : List α) : B.write s input = input.foldlM B.feed s := by
  fun_induction B.write s input with
  | case1 s input hpos e hroom =>
      rw [foldlM_room hpos, hroom]
      rfl
  | case2 s input hpos s' hroom want take hfit ih =>
      rw [foldlM_piece hpos hroom hfit]
      exact ih
  | case3 s input hnil =>
      have hempty : input = [] := List.length_eq_zero_iff.mp (by omega)
      rw [hempty, List.foldlM_nil]
      rfl

/-- What fits is only copied. -/
theorem write_short {s : σ} {input : List α} (h : B.len s + input.length ≤ B.size) :
    B.write s input = .ok (B.fill s input h) := by
  rw [write_eq_foldlM, foldlM_feed input s h]

/-- Writes in a row are one write. -/
theorem write_append (s : σ) (xs ys : List α) :
    B.write s (xs ++ ys) = B.write s xs >>= fun t => B.write t ys := by
  simp only [write_eq_foldlM, List.foldlM_append]

/-- To an empty buffer: what does not fit is written block by block. -/
theorem write_long {s : σ} (hempty : B.len s = 0) {input : List α} (h : B.size < input.length) :
    ∃ hfit, B.write s input =
      B.flush (B.fill s (input.take B.size) hfit) >>= fun t => B.write t (input.drop B.size) := by
  have hlen : (input.take B.size).length = B.size := by
    rw [List.length_take]
    omega
  have hfit : B.len s + (input.take B.size).length ≤ B.size := by omega
  refine ⟨hfit, ?_⟩
  have hfull : B.len (B.fill s (input.take B.size) hfit) = B.size := by
    rw [B.fill_len]
    omega
  have hrest : (input.drop B.size).length > 0 := by
    rw [List.length_drop]
    omega
  have hsplit : B.write s input = B.write s (input.take B.size ++ input.drop B.size) := by
    rw [List.take_append_drop]
  rw [hsplit, write_append, write_short hfit, Run.ok_bind, write_eq_foldlM, foldlM_room hrest, room,
    if_pos hfull]
  congr 1
  funext t
  rw [write_eq_foldlM]

theorem write_flatten (s : σ) (pieces : List (List α)) :
    pieces.foldlM B.write s = B.write s pieces.flatten := by
  induction pieces generalizing s with
  | nil =>
      rw [List.flatten_nil, write_eq_foldlM]
      rfl
  | cons xs pieces ih =>
      rw [List.foldlM_cons, List.flatten_cons, write_append]
      congr 1
      funext t
      exact ih t

/-! ## On the way -/

variable (B) in
/-- The states a write goes through: at the head of the loop, and with room made. -/
def states (s : σ) (input : List α) : List σ :=
  if _h : input.length > 0 then
    match hroom : B.room s with
    | .error _ => [s]
    | .ok s' =>
        let want := B.size - B.len s'
        let take := if input.length < want then input.length else want
        have hfit : B.len s' + (input.take take).length ≤ B.size := by
          have := B.len_le s'
          simp only [List.length_take, take, want]
          split <;> omega
        s :: s' :: states (B.fill s' (input.take take) hfit) (input.drop take)
  else [s]
termination_by input.length
decreasing_by
  have := B.room_lt hroom
  simp only [List.length_drop]
  split <;> omega

variable (B) in
/-- The states that writes in a row go through. -/
def statesAll (s : σ) : List (List α) → List σ
  | [] => [s]
  | piece :: pieces =>
      B.states s piece ++
        match B.write s piece with
        | .error _ => []
        | .ok s' => statesAll s' pieces

/-- What flushing keeps, making room keeps. -/
theorem room_inv {Inv : σ → Prop} {s s' : σ}
    (hflush : B.len s = B.size → B.flush s = .ok s' → Inv s') (hs : Inv s)
    (h : B.room s = .ok s') : Inv s' := by
  unfold room at h
  split at h
  · rename_i hfull
    exact hflush hfull h
  · obtain rfl := Except.ok.inj h
    exact hs

/-- What a write with `n` elements to go keeps, by flushing and by filling, holds all the
way, with fewer and fewer to go. -/
theorem states_inv (Inv : Nat → σ → Prop)
    (hflush : ∀ n s s', Inv (n + 1) s → B.len s = B.size → B.flush s = .ok s' → Inv (n + 1) s')
    (hfill : ∀ n s as h, Inv (as.length + n) s → Inv n (B.fill s as h))
    (s : σ) (input : List α) (hs : Inv input.length s) :
    (∀ t ∈ B.states s input, ∃ n, Inv n t) ∧ ∀ t, B.write s input = .ok t → Inv 0 t := by
  fun_induction B.states s input with
  | case1 s input hpos e hroom =>
      constructor
      · intro t ht
        obtain rfl := List.mem_singleton.mp ht
        exact ⟨_, hs⟩
      · intro t ht
        rw [write_eq_foldlM, foldlM_room hpos, hroom] at ht
        cases ht
  | case2 s input hpos s' hroom want take hfit ih =>
      have hsucc : input.length = input.length - 1 + 1 := by omega
      have hs' : Inv input.length s' := by
        rw [hsucc] at hs ⊢
        exact room_inv (hflush _ s s' hs) hs hroom
      have hlen : (input.take take).length + (input.drop take).length = input.length := by
        rw [← List.length_append, List.take_append_drop]
      have hnext : Inv (input.drop take).length (B.fill s' (input.take take) hfit) := by
        apply hfill
        rw [hlen]
        exact hs'
      rcases ih hnext with ⟨hstates, hend⟩
      constructor
      · intro t ht
        rcases List.mem_cons.mp ht with rfl | ht
        · exact ⟨_, hs⟩
        rcases List.mem_cons.mp ht with rfl | ht
        · exact ⟨_, hs'⟩
        exact hstates t ht
      · intro t ht
        apply hend
        -- what is left to write is the rest
        rw [write_eq_foldlM, foldlM_piece hpos hroom hfit] at ht
        rw [write_eq_foldlM]
        exact ht
  | case3 s input hnil =>
      have hempty : input = [] := List.length_eq_zero_iff.mp (by omega)
      subst hempty
      constructor
      · intro t ht
        obtain rfl := List.mem_singleton.mp ht
        exact ⟨_, hs⟩
      · intro t ht
        rw [write_eq_foldlM] at ht
        obtain rfl := Except.ok.inj ht
        exact hs

/-- An invariant of flushing and filling holds all the way through writes in a row. -/
theorem statesAll_inv (Inv : σ → Prop)
    (hflush : ∀ s s', Inv s → B.len s = B.size → B.flush s = .ok s' → Inv s')
    (hfill : ∀ s as h, Inv s → Inv (B.fill s as h)) (s : σ) (pieces : List (List α))
    (hs : Inv s) : ∀ t ∈ B.statesAll s pieces, Inv t := by
  induction pieces generalizing s with
  | nil =>
      intro t ht
      obtain rfl := List.mem_singleton.mp ht
      exact hs
  | cons piece pieces ih =>
      rcases states_inv (fun _ => Inv) (fun _ => hflush) (fun _ => hfill) s piece hs with
        ⟨hstates, hend⟩
      intro t ht
      rw [statesAll] at ht
      rcases List.mem_append.mp ht with ht | ht
      · rcases hstates t ht with ⟨-, ht⟩
        exact ht
      · cases hwrite : B.write s piece with
        | error e =>
            rw [hwrite] at ht
            cases ht
        | ok s' =>
            rw [hwrite] at ht
            exact ih s' (hend s' hwrite) t ht

/-- The last of the states is where the writes end. -/
theorem mem_statesAll {s t : σ} {pieces : List (List α)} (h : pieces.foldlM B.write s = .ok t) :
    t ∈ B.statesAll s pieces := by
  induction pieces generalizing s with
  | nil =>
      obtain rfl := Except.ok.inj h
      exact List.mem_singleton_self _
  | cons piece pieces ih =>
      rw [List.foldlM_cons] at h
      rcases Run.bind_eq_ok h with ⟨s', hwrite, hrest⟩
      rw [statesAll, hwrite]
      exact List.mem_append_right _ (ih hrest)

/-! ## Two runs -/

/-- A change of the state that the buffer does not see. -/
structure Blind (B : LazyBuffer ε σ α) (φ : σ → σ) : Prop where
  len : ∀ s, B.len (φ s) = B.len s
  flush : ∀ s, B.flush (φ s) = (B.flush s).map φ
  fill : ∀ s as h h', B.fill (φ s) as h' = φ (B.fill s as h)

variable {φ : σ → σ}

theorem room_blind (hφ : Blind B φ) (s : σ) : B.room (φ s) = (B.room s).map φ := by
  rw [room, room, hφ.len]
  split
  · exact hφ.flush s
  · rfl

theorem feed_blind (hφ : Blind B φ) (s : σ) (a : α) : B.feed (φ s) a = (B.feed s a).map φ := by
  have hroom := room_blind hφ s
  rw [feed_eq (φ s), feed_eq s]
  cases hs : B.room s with
  | error e =>
      rw [hroom, hs]
      rfl
  | ok s' =>
      have hlt := B.room_lt hs
      have hlt' : B.len (φ s') < B.size := by rwa [hφ.len]
      rw [hroom, hs]
      show B.feed (φ s') a = (B.feed s' a).map φ
      rw [feed_room hlt, feed_room hlt', hφ.fill s' [a] hlt hlt']
      rfl

/-- Two runs that differ in what the buffer does not see end so. -/
theorem write_blind (hφ : Blind B φ) (s : σ) (input : List α) :
    B.write (φ s) input = (B.write s input).map φ := by
  rw [write_eq_foldlM, write_eq_foldlM]
  induction input generalizing s with
  | nil => rfl
  | cons a as ih =>
      rw [List.foldlM_cons, List.foldlM_cons, feed_blind hφ]
      cases B.feed s a with
      | error e => rfl
      | ok s' => exact ih s'

end LazyBuffer
