import Mathlib.Algebra.GroupWithZero.Nat
import Mathlib.Data.List.DropRight
import Mathlib.Data.List.TakeWhile
import Mathlib.Tactic.Common

/-! # C strings and lines of text

Strings end at their first zero. `CStr n` is the content of an array of `n` characters
that holds a string, so that copying into it truncates and appending to it may fail.
A file is read in pieces that end behind a line break or where the line buffer is full
(`pieces_line`, `pieces_lines`). Stripping removes what is to be skipped from both ends
(`strip_eq_self_iff`), and decimal numbers are read back (`strtoull_decimal`).
-/

namespace CText

/-! ## Strings in arrays -/

/-- The string in a buffer: what is in front of the first zero. -/
def cstr (mem : List UInt8) : List UInt8 := mem.takeWhile (· != 0)

theorem zero_not_mem_cstr (mem : List UInt8) : 0 ∉ cstr mem := by
  intro h
  have hne := List.mem_takeWhile_imp h
  cases hne

theorem cstr_eq_self {s : List UInt8} (h : 0 ∉ s) : cstr s = s := by
  apply List.takeWhile_eq_self_iff.mpr
  intro c hc
  rw [bne_iff_ne]
  rintro rfl
  exact h hc

theorem cstr_append {s t : List UInt8} (hs : 0 ∉ s) (ht : 0 ∉ t) : cstr (s ++ t) = s ++ t :=
  cstr_eq_self (List.not_mem_append hs ht)

/-- A zero-terminated string in an array of `n` characters. -/
structure CStr (n : Nat) where
  chars : List UInt8
  fits : chars.length < n
  noZero : 0 ∉ chars
deriving DecidableEq

namespace CStr

variable {n : Nat}

@[ext] theorem ext {s t : CStr n} (h : s.chars = t.chars) : s = t := by
  cases s
  cases t
  cases h
  rfl

/-- The empty string. -/
def empty : CStr (n + 1) := ⟨[], Nat.succ_pos n, List.not_mem_nil⟩

/-- The string in `mem`, cut to `n` characters. -/
def copy (n : Nat) (mem : List UInt8) : CStr (n + 1) where
  chars := (cstr mem).take n
  fits := Nat.lt_succ_of_le (List.length_take_le _ _)
  noZero h := zero_not_mem_cstr mem (List.mem_of_mem_take h)

/-- What fits is copied whole. -/
theorem copy_chars {n : Nat} {s : List UInt8} (hlen : s.length ≤ n) (hzero : 0 ∉ s) :
    (copy n s).chars = s := by
  show (cstr s).take n = s
  rw [cstr_eq_self hzero]
  exact List.take_of_length_le hlen

/-- Append the string in `mem`; `none` if it does not fit. -/
def strcat (s : CStr n) (mem : List UInt8) : Option (CStr n) :=
  if h : s.chars.length + (cstr mem).length < n then
    some {
      chars := s.chars ++ cstr mem
      fits := by
        rw [List.length_append]
        exact h
      noZero := by
        rw [List.mem_append, not_or]
        exact ⟨s.noZero, zero_not_mem_cstr mem⟩ }
  else none

theorem strcat_isSome_iff (s : CStr n) (mem : List UInt8) :
    (s.strcat mem).isSome ↔ s.chars.length + (cstr mem).length < n := by
  rw [strcat]
  split
  · rename_i h
    exact ⟨fun _ => h, fun _ => rfl⟩
  · rename_i h
    exact ⟨fun hsome => absurd hsome Bool.false_ne_true, fun hlt => absurd hlt h⟩

theorem strcat_chars {s t : CStr n} {mem : List UInt8} (h : s.strcat mem = some t) :
    t.chars = s.chars ++ cstr mem := by
  rw [strcat] at h
  split at h
  · obtain rfl := Option.some.inj h
    rfl
  · cases h

/-- A string that fits is appended whole. -/
theorem strcat_fits {s : CStr n} {mem : List UInt8} (hzero : 0 ∉ mem)
    (hfits : s.chars.length + mem.length < n) :
    ∃ t, s.strcat mem = some t ∧ t.chars = s.chars ++ mem := by
  have hsome := (s.strcat_isSome_iff mem).mpr (by rwa [cstr_eq_self hzero])
  rcases Option.isSome_iff_exists.mp hsome with ⟨t, ht⟩
  have hchars := strcat_chars ht
  rw [cstr_eq_self hzero] at hchars
  exact ⟨t, ht, hchars⟩

end CStr

/-- `strstr`, asked for a verdict. -/
def strstr (needle : List UInt8) : List UInt8 → Bool
  | [] => needle.isPrefixOf []
  | c :: text => needle.isPrefixOf (c :: text) || strstr needle text

theorem strstr_iff (needle text : List UInt8) : strstr needle text = true ↔ needle <:+: text := by
  induction text with
  | nil =>
      rw [strstr, List.isPrefixOf_iff_prefix, List.prefix_nil, List.infix_nil]
  | cons c text ih =>
      rw [strstr, Bool.or_eq_true, List.isPrefixOf_iff_prefix, ih, List.infix_cons_iff]

/-! ## Lines -/

/-- The line break. -/
def newline : UInt8 := 10

/-- `fgets` with room for `n` characters: the piece and the rest. -/
def fgets : Nat → List UInt8 → List UInt8 × List UInt8
  -- the buffer is full
  | 0, text => ([], text)
  | _ + 1, [] => ([], [])
  | n + 1, c :: text =>
      -- the line break stays in the piece
      if c = newline then ([c], text) else (c :: (fgets n text).1, (fgets n text).2)

theorem fgets_append (n : Nat) (text : List UInt8) :
    (fgets n text).1 ++ (fgets n text).2 = text := by
  fun_induction fgets n text with
  | case1 text => rfl
  | case2 n => rfl
  | case3 n text => rfl
  | case4 n c text hne ih => rw [List.cons_append, ih]

/-- All the pieces of a file. -/
def pieces (n : Nat) (text : List UInt8) : List (List UInt8) :=
  -- nothing read is a null pointer
  if _h : (fgets n text).1 = [] then []
  else (fgets n text).1 :: pieces n (fgets n text).2
termination_by text.length
decreasing_by
  have hlen := congrArg List.length (fgets_append n text)
  have hpos := List.length_pos_iff.mpr _h
  rw [List.length_append] at hlen
  omega

/-- A line that fits is read whole. -/
theorem fgets_line {n : Nat} {line : List UInt8} (hline : newline ∉ line) (hlen : line.length < n)
    (rest : List UInt8) : fgets n (line ++ newline :: rest) = (line ++ [newline], rest) := by
  induction line generalizing n with
  | nil =>
      cases n with
      | zero => exact absurd hlen (Nat.not_lt_zero _)
      | succ n => rfl
  | cons c line ih =>
      cases n with
      | zero => exact absurd hlen (Nat.not_lt_zero _)
      | succ n =>
          have hc : c ≠ newline := fun h => hline (h ▸ List.mem_cons_self)
          have hrest : newline ∉ line := fun h => hline (List.mem_cons_of_mem c h)
          rw [List.cons_append, fgets, if_neg hc, ih hrest (Nat.lt_of_succ_lt_succ hlen)]
          rfl

/-- Without a line break as much is read as there is room for. -/
theorem fgets_take {text : List UInt8} (h : newline ∉ text) (n : Nat) :
    fgets n text = (text.take n, text.drop n) := by
  fun_induction fgets n text with
  | case1 text => rfl
  | case2 n => rfl
  | case3 n text => exact absurd List.mem_cons_self h
  | case4 n c text hne ih =>
      rw [ih fun hmem => h (List.mem_cons_of_mem c hmem)]
      rfl

/-- A text without line breaks is cut where the buffer is full. -/
theorem pieces_take {text : List UInt8} (h : newline ∉ text) (hne : text ≠ []) {n : Nat}
    (hn : 0 < n) : pieces n text = text.take n :: pieces n (text.drop n) := by
  have hsome : ¬ text.take n = [] := by
    rw [List.take_eq_nil_iff, not_or]
    exact ⟨by omega, hne⟩
  rw [pieces, fgets_take h, dif_neg hsome]

@[simp] theorem pieces_nil (n : Nat) : pieces n [] = [] := by
  have hnone : (fgets n []).1 = [] := by
    cases n with
    | zero => rfl
    | succ n => rfl
  rw [pieces, dif_pos hnone]

theorem pieces_line {n : Nat} {line : List UInt8} (hline : newline ∉ line) (hlen : line.length < n)
    (rest : List UInt8) :
    pieces n (line ++ newline :: rest) = (line ++ [newline]) :: pieces n rest := by
  have hread := fgets_line hline hlen rest
  rw [pieces, hread, dif_neg (by simp)]

/-- Short lines are read one by one. -/
theorem pieces_lines {n : Nat} {lines : List (List UInt8)}
    (h : ∀ line ∈ lines, newline ∉ line ∧ line.length < n) :
    pieces n (lines.flatMap (· ++ [newline])) = lines.map (· ++ [newline]) := by
  induction lines with
  | nil => exact pieces_nil n
  | cons line lines ih =>
      rcases h line List.mem_cons_self with ⟨hline, hlen⟩
      have hrest := ih fun l hl => h l (List.mem_cons_of_mem line hl)
      rw [List.flatMap_cons, List.append_assoc, List.singleton_append, pieces_line hline hlen, hrest,
        List.map_cons]

/-- A line, or a part of one: a line break stands at the end only. -/
def IsPiece (p : List UInt8) : Prop := ∃ line, newline ∉ line ∧ (p = line ∨ p = line ++ [newline])

/-- Pieces of pieces are pieces. -/
theorem IsPiece.take {p q : List UInt8} (h : IsPiece p) (hq : q <+: p) : IsPiece q := by
  rcases h with ⟨line, hline, rfl | rfl⟩
  · exact ⟨q, fun hmem => hline (hq.mem hmem), Or.inl rfl⟩
  · rcases List.prefix_concat_iff.mp hq with rfl | hq
    · exact ⟨line, hline, Or.inr rfl⟩
    · exact ⟨q, fun hmem => hline (hq.mem hmem), Or.inl rfl⟩

theorem IsPiece.drop {p : List UInt8} (h : IsPiece p) (k : Nat) : IsPiece (p.drop k) := by
  rcases h with ⟨line, hline, rfl | rfl⟩
  · exact ⟨p.drop k, fun hmem => hline (List.mem_of_mem_drop hmem), Or.inl rfl⟩
  · rcases Nat.lt_or_ge line.length k with hlt | hge
    · -- the line break is dropped as well
      rw [List.drop_eq_nil_of_le (by rw [List.length_append, List.length_singleton]; omega)]
      exact ⟨[], List.not_mem_nil, Or.inl rfl⟩
    · rw [List.drop_append_of_le_length hge]
      exact ⟨line.drop k, fun hmem => hline (List.mem_of_mem_drop hmem), Or.inr rfl⟩

theorem fgets_isPiece (n : Nat) (text : List UInt8) : IsPiece (fgets n text).1 := by
  fun_induction fgets n text with
  | case1 text => exact ⟨[], List.not_mem_nil, Or.inl rfl⟩
  | case2 n => exact ⟨[], List.not_mem_nil, Or.inl rfl⟩
  | case3 n text => exact ⟨[], List.not_mem_nil, Or.inr rfl⟩
  | case4 n c text hne ih =>
      rcases ih with ⟨line, hline, hpiece⟩
      have hnot : newline ∉ c :: line := by
        intro hmem
        rcases List.mem_cons.mp hmem with h | h
        · exact hne h.symm
        · exact hline h
      rcases hpiece with hpiece | hpiece
      · exact ⟨c :: line, hnot, Or.inl (by rw [hpiece])⟩
      · exact ⟨c :: line, hnot, Or.inr (by rw [hpiece]; rfl)⟩

theorem pieces_isPiece (n : Nat) (text : List UInt8) : ∀ p ∈ pieces n text, IsPiece p := by
  fun_induction pieces n text with
  | case1 text hnone =>
      intro p hp
      cases hp
  | case2 text hsome ih =>
      intro p hp
      rcases List.mem_cons.mp hp with rfl | hp
      · exact fgets_isPiece n text
      · exact ih p hp

/-! ## Stripping -/

section strip

variable {α : Type} (skip : α → Bool)

/-- Without what is to be skipped at the beginning and at the end. -/
def strip (l : List α) : List α := (l.dropWhile skip).rdropWhile skip

variable {skip}

theorem mem_of_mem_strip {l : List α} {a : α} (h : a ∈ strip skip l) : a ∈ l :=
  (List.dropWhile_suffix skip).mem ((List.rdropWhile_prefix skip _).mem h)

theorem strip_length_le (l : List α) : (strip skip l).length ≤ l.length :=
  Nat.le_trans (List.rdropWhile_prefix skip _).length_le (List.dropWhile_suffix skip).length_le

/-- What is skipped does not matter at the end. -/
theorem strip_concat {l : List α} {a : α} (h : skip a = true) :
    strip skip (l ++ [a]) = strip skip l := by
  have hone : [a].dropWhile skip = [] := by
    rw [List.dropWhile_cons_of_pos h]
    rfl
  rw [strip, strip, List.dropWhile_append, hone]
  -- the beginning may be all of the list
  split
  · rename_i hempty
    rw [List.isEmpty_iff.mp hempty]
  · exact List.rdropWhile_concat_pos skip _ a h

/-- Stripped of line breaks, a piece has none. -/
theorem newline_not_mem_strip {skip : UInt8 → Bool} (hskip : skip newline = true) {p : List UInt8}
    (h : IsPiece p) : newline ∉ strip skip p := by
  rcases h with ⟨line, hline, rfl | rfl⟩
  · exact fun hmem => hline (mem_of_mem_strip hmem)
  · rw [strip_concat hskip]
    exact fun hmem => hline (mem_of_mem_strip hmem)

/-- What does not change is what neither begins nor ends with something to skip. -/
theorem strip_eq_self_iff (l : List α) :
    strip skip l = l ↔ (∀ a ∈ l.head?, skip a = false) ∧ ∀ a ∈ l.getLast?, skip a = false := by
  cases hcases : l with
  | nil => simp [strip]
  | cons b rest =>
      rw [← hcases]
      have hne : l ≠ [] := by rw [hcases]; exact List.cons_ne_nil b rest
      have hhead : (∀ a ∈ l.head?, skip a = false) ↔ l.dropWhile skip = l := by
        rw [List.dropWhile_eq_self_iff, hcases]
        simp
      have hlast : (∀ a ∈ l.getLast?, skip a = false) ↔ l.rdropWhile skip = l := by
        rw [List.rdropWhile_eq_self_iff, List.getLast?_eq_some_getLast hne]
        simp [hne]
      rw [hhead, hlast]
      constructor
      · intro h
        -- nothing is lost at the end, so nothing is lost at the beginning
        have hdrop : l.dropWhile skip = l := by
          apply (List.dropWhile_suffix skip).eq_of_length_le
          have hle := (List.rdropWhile_prefix skip (l.dropWhile skip)).length_le
          rw [← strip, h] at hle
          exact hle
        rw [strip, hdrop] at h
        exact ⟨hdrop, h⟩
      · rintro ⟨hdrop, hrdrop⟩
        rw [strip, hdrop, hrdrop]

end strip

/-! ## Decimal numbers -/

/-- `isdigit` -/
def isDigit (c : UInt8) : Bool := 48 ≤ c && c ≤ 57

/-- `isspace` -/
def isSpace (c : UInt8) : Bool := c == 32 || (9 ≤ c && c ≤ 13)

/-- The digit of a number below ten. -/
def digit (d : Nat) : UInt8 := UInt8.ofNat (48 + d)

/-- The digits that `%lu` writes. -/
def decimal (n : Nat) : List UInt8 :=
  if n < 10 then [digit n] else decimal (n / 10) ++ [digit (n % 10)]

/-- The number of a string of digits. -/
def digitsValue (digits : List UInt8) : Nat := digits.foldl (fun n c => 10 * n + (c.toNat - 48)) 0

/-- Whether there is a minus sign in front, and what is behind the sign. -/
def sign : List UInt8 → Bool × List UInt8
  | [] => (false, [])
  | c :: cs => if c = 45 then (true, cs) else if c = 43 then (false, cs) else (false, c :: cs)

/-- `strtoull` with base 10: blanks and a sign in front, saturated, and a negative number
taken modulo the word. -/
def strtoull (text : List UInt8) : UInt64 :=
  let number := sign (text.dropWhile isSpace)
  let value := digitsValue (number.2.takeWhile isDigit)
  -- out of range: the largest value, whatever the sign
  if value ≥ 2 ^ 64 then UInt64.ofNat (2 ^ 64 - 1)
  else if number.1 then -(UInt64.ofNat value)
  else UInt64.ofNat value

theorem digit_toNat {d : Nat} (h : d < 10) : (digit d).toNat = 48 + d := by
  rw [digit, UInt8.toNat_ofNat', Nat.mod_eq_of_lt (by omega)]

theorem isDigit_iff (c : UInt8) : isDigit c = true ↔ 48 ≤ c.toNat ∧ c.toNat ≤ 57 := by
  rw [isDigit, Bool.and_eq_true, decide_eq_true_iff, decide_eq_true_iff, UInt8.le_iff_toNat_le,
    UInt8.le_iff_toNat_le]
  rfl

theorem isDigit_digit {d : Nat} (h : d < 10) : isDigit (digit d) = true := by
  rw [isDigit_iff, digit_toNat h]
  omega

theorem decimal_digits (n : Nat) : ∀ c ∈ decimal n, isDigit c = true := by
  fun_induction decimal n with
  | case1 n hlt =>
      intro c hc
      obtain rfl := List.mem_singleton.mp hc
      exact isDigit_digit hlt
  | case2 n hge ih =>
      intro c hc
      rcases List.mem_append.mp hc with hc | hc
      · exact ih c hc
      · obtain rfl := List.mem_singleton.mp hc
        exact isDigit_digit (Nat.mod_lt n (by omega))

theorem decimal_ne_nil (n : Nat) : decimal n ≠ [] := by
  rw [decimal]
  split
  · exact List.cons_ne_nil _ _
  · simp

theorem decimal_length_le {n k : Nat} (h : n < 10 ^ (k + 1)) : (decimal n).length ≤ k + 1 := by
  induction k generalizing n with
  | zero =>
      have hlt : n < 10 := by omega
      rw [decimal, if_pos hlt]
      exact Nat.le_refl 1
  | succ k ih =>
      rw [decimal]
      split
      · exact Nat.succ_le_succ (Nat.zero_le _)
      · have hdiv : n / 10 < 10 ^ (k + 1) := by
          rw [Nat.div_lt_iff_lt_mul (by decide), ← Nat.pow_succ]
          exact h
        rw [List.length_append]
        exact Nat.succ_le_succ (ih hdiv)

/-- Nothing but digits is in a number. -/
theorem not_mem_decimal {c : UInt8} (h : isDigit c = false) (n : Nat) : c ∉ decimal n := by
  intro hmem
  rw [decimal_digits n c hmem] at h
  cases h

theorem digitsValue_concat (digits : List UInt8) (c : UInt8) :
    digitsValue (digits ++ [c]) = 10 * digitsValue digits + (c.toNat - 48) := by
  rw [digitsValue, List.foldl_append]
  rfl

theorem digitsValue_decimal (n : Nat) : digitsValue (decimal n) = n := by
  fun_induction decimal n with
  | case1 n hlt =>
      show 10 * 0 + ((digit n).toNat - 48) = n
      rw [digit_toNat hlt]
      omega
  | case2 n hge ih =>
      -- the last digit is read last, so what is in front of it has its value already
      rw [digitsValue_concat, ih, digit_toNat (Nat.mod_lt n (by omega))]
      omega

theorem isSpace_of_isDigit {c : UInt8} (h : isDigit c = true) : isSpace c = false := by
  have hc := (isDigit_iff c).mp h
  rw [isSpace, Bool.or_eq_false_iff, Bool.and_eq_false_iff]
  have hblank : c ≠ 32 := by
    rintro rfl
    exact absurd hc.1 (by decide)
  have hbreak : ¬ c ≤ 13 := by
    intro hle
    have hle' : c.toNat ≤ 13 := UInt8.le_iff_toNat_le.mp hle
    omega
  exact ⟨by simpa using hblank, Or.inr (by simpa using hbreak)⟩

theorem sign_digit {c : UInt8} (h : isDigit c = true) (cs : List UInt8) :
    sign (c :: cs) = (false, c :: cs) := by
  have hc := (isDigit_iff c).mp h
  have hminus : c ≠ 45 := by
    rintro rfl
    exact absurd hc.1 (by decide)
  have hplus : c ≠ 43 := by
    rintro rfl
    exact absurd hc.1 (by decide)
  rw [sign, if_neg hminus, if_neg hplus]

/-- In front of a number there is neither a blank nor a sign. -/
theorem sign_decimal (n : Nat) (rest : List UInt8) :
    sign ((decimal n ++ rest).dropWhile isSpace) = (false, decimal n ++ rest) := by
  cases hcases : decimal n with
  | nil => exact absurd hcases (decimal_ne_nil _)
  | cons c cs =>
      have hc : isDigit c = true := by
        apply decimal_digits n
        rw [hcases]
        exact List.mem_cons_self
      rw [List.cons_append, List.dropWhile_cons_of_neg (by simp [isSpace_of_isDigit hc]),
        sign_digit hc]

/-- `strtoull` reads a number up to the first character that is no digit. -/
theorem strtoull_decimal_append (n : UInt64) {rest : List UInt8}
    (hrest : rest.takeWhile isDigit = []) : strtoull (decimal n.toNat ++ rest) = n := by
  have hvalue := digitsValue_decimal n.toNat
  have hlt := n.toNat_lt
  have htake : (decimal n.toNat ++ rest).takeWhile isDigit = decimal n.toNat := by
    rw [List.takeWhile_append_of_pos (decimal_digits n.toNat), hrest, List.append_nil]
  rw [strtoull, sign_decimal]
  simp only [htake, hvalue]
  rw [if_neg (by omega), if_neg Bool.false_ne_true, UInt64.ofNat_toNat]

/-- `strtoull` reads what `%lu` wrote, up to the end of the line. -/
theorem strtoull_decimal (n : UInt64) : strtoull (decimal n.toNat ++ [newline]) = n :=
  strtoull_decimal_append n rfl

end CText
