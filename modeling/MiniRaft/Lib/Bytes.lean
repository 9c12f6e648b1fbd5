import Mathlib.Data.List.TakeDrop
import Mathlib.Data.Nat.Notation
import Mathlib.Tactic.Ring

/-!
# Bytes

Numbers as bytes, least significant first, and what a file has at a position.
-/

namespace Lib

/-! ## Numbers -/

/-- The number `n` in `width` bytes. -/
def le : ℕ → ℕ → List UInt8
  | 0, _ => []
  | width + 1, n => UInt8.ofNat n :: le width (n / 256)

def ofLe : List UInt8 → ℕ
  | [] => 0
  | byte :: bytes => byte.toNat + 256 * ofLe bytes

@[simp] theorem length_le (width n : ℕ) : (le width n).length = width := by
  induction width generalizing n with
  | zero => rfl
  | succ width ih => simp [le, ih]

theorem ofLe_le_mod (width n : ℕ) : ofLe (le width n) = n % 256 ^ width := by
  induction width generalizing n with
  | zero => simp [le, ofLe, Nat.mod_one]
  | succ width ih =>
    have byte : (UInt8.ofNat n).toNat = n % 256 := by simp
    rw [le, ofLe, ih, byte, Nat.pow_succ', Nat.mod_mul]

theorem ofLe_le {width n : ℕ} (fits : n < 256 ^ width) : ofLe (le width n) = n := by
  rw [ofLe_le_mod, Nat.mod_eq_of_lt fits]

theorem le_ofLe (bytes : List UInt8) : le bytes.length (ofLe bytes) = bytes := by
  induction bytes with
  | nil => rfl
  | cons byte bytes ih =>
    have low : UInt8.ofNat (byte.toNat + 256 * ofLe bytes) = byte := by
      apply UInt8.toNat_inj.mp
      have := byte.toNat_lt
      simp only [UInt8.toNat_ofNat']
      omega
    have high : (byte.toNat + 256 * ofLe bytes) / 256 = ofLe bytes := by
      have := byte.toNat_lt
      omega
    rw [List.length_cons, le, ofLe, low, high, ih]

theorem ofLe_lt (bytes : List UInt8) : ofLe bytes < 256 ^ bytes.length := by
  induction bytes with
  | nil => simp [ofLe]
  | cons byte bytes ih =>
    have := byte.toNat_lt
    rw [ofLe, List.length_cons, Nat.pow_succ']
    omega

/-! ## Words -/

/-- The number in the `width` bytes at position `i`. -/
def word (bytes : List UInt8) (i width : ℕ) : ℕ := ofLe ((bytes.drop i).take width)

theorem word_here (width n : ℕ) (rest : List UInt8) : word (le width n ++ rest) 0 width = n % 256 ^ width := by
  rw [word, List.drop_zero, List.take_left' (length_le width n), ofLe_le_mod]

theorem word_last (width n : ℕ) : word (le width n) 0 width = n % 256 ^ width := by
  have here := word_here width n []
  rwa [List.append_nil] at here

theorem drop_skip {first i : ℕ} (past : first ≤ i) (n : ℕ) (rest : List UInt8) :
    (le first n ++ rest).drop i = rest.drop (i - first) := by
  rw [List.drop_append, length_le, List.drop_eq_nil_of_le (by rw [length_le]; exact past), List.nil_append]

/-- What lies before a word does not matter. -/
theorem word_skip {first i : ℕ} (past : first ≤ i) (width n : ℕ) (rest : List UInt8) :
    word (le first n ++ rest) i width = word rest (i - first) width := by
  rw [word, drop_skip past, word]

theorem word_lt (bytes : List UInt8) (i width : ℕ) : word bytes i width < 256 ^ width := by
  have short : ((bytes.drop i).take width).length ≤ width := by
    rw [List.length_take]
    exact min_le_left ..
  exact (ofLe_lt _).trans_le (Nat.pow_le_pow_right (by decide) short)

/-! ## Positions -/

variable {bytes data : List UInt8} {i j : ℕ}

/-- The file has `data` at position `i`. -/
def Holds (bytes : List UInt8) (i : ℕ) (data : List UInt8) : Prop := data <+: bytes.drop i

instance (bytes : List UInt8) (i : ℕ) (data : List UInt8) : Decidable (Holds bytes i data) :=
  inferInstanceAs (Decidable (_ <+: _))

/-- The file after `data` was written at position `i`; a gap is filled with zeros. -/
def splice (bytes : List UInt8) (i : ℕ) (data : List UInt8) : List UInt8 :=
  bytes.takeD i 0 ++ data ++ bytes.drop (i + data.length)

theorem holds_append {xs ys : List UInt8} : Holds bytes i (xs ++ ys) ↔ Holds bytes i xs ∧ Holds bytes (i + xs.length) ys := by
  unfold Holds
  rw [← List.drop_drop]
  constructor
  · intro whole
    have first := (List.prefix_append xs ys).trans whole
    obtain ⟨rest, same⟩ := first
    refine ⟨⟨rest, same⟩, ?_⟩
    rw [← same] at whole ⊢
    rw [List.drop_left]
    exact List.prefix_append_right_inj xs |>.mp whole
  · rintro ⟨⟨rest, same⟩, second⟩
    rw [← same] at second ⊢
    rw [List.drop_left] at second
    exact List.prefix_append_right_inj xs |>.mpr second

theorem Holds.take (holds : Holds bytes i data) : (bytes.drop i).take data.length = data :=
  List.prefix_iff_eq_take.mp holds |>.symm

theorem holds_splice (bytes : List UInt8) (i : ℕ) (data : List UInt8) : Holds (splice bytes i data) i data := by
  unfold Holds splice
  rw [List.append_assoc, List.drop_left' (by simp)]
  exact List.prefix_append ..

theorem Holds.unique {xs ys : List UInt8} (first : Holds bytes i xs) (second : Holds bytes i ys)
    (len : xs.length = ys.length) : xs = ys := by
  rw [← first.take, ← second.take, len]

theorem le_inj {width m n : ℕ} (small : m < 256 ^ width) (small' : n < 256 ^ width) (h : le width m = le width n) :
    m = n := by
  rw [← ofLe_le small, h, ofLe_le small']

theorem getElem?_takeD {n k : ℕ} (below : k < n) (inside : k < bytes.length) : (bytes.takeD n 0)[k]? = bytes[k]? := by
  induction n generalizing bytes k with
  | zero => omega
  | succ n ih =>
    cases bytes with
    | nil => simp at inside
    | cons byte bytes =>
      cases k with
      | zero => rfl
      | succ k => simpa using ih (by omega) (by simpa using inside)

/-- What lies below a write stays. -/
theorem Holds.splice {new : List UInt8} (holds : Holds bytes i data) (below : i + data.length ≤ j) :
    Holds (splice bytes j new) i data := by
  refine List.prefix_iff_getElem?.mpr fun k low => ?_
  have here := List.prefix_iff_getElem?.mp holds k low
  rw [List.getElem?_drop] at here ⊢
  have inside := (List.getElem?_eq_some_iff.mp here).1
  rw [Lib.splice, List.append_assoc, List.getElem?_append_left (by simp; omega), getElem?_takeD (by omega) inside, here]

/-- Writing what is there changes nothing. -/
theorem Holds.splice_eq (holds : Holds bytes i data) (inside : i ≤ bytes.length) : Lib.splice bytes i data = bytes := by
  unfold Lib.splice
  rw [List.takeD_eq_take _ inside, ← List.drop_drop, List.append_assoc]
  have whole : data ++ (bytes.drop i).drop data.length = bytes.drop i := by
    obtain ⟨rest, same⟩ := holds
    rw [← same, List.drop_left]
  rw [whole, List.take_append_drop]

/-- Two writes, one after the other, are one. -/
theorem splice_append (bytes : List UInt8) (i : ℕ) (xs ys : List UInt8) :
    splice (splice bytes i xs) (i + xs.length) ys = splice bytes i (xs ++ ys) := by
  have first : (splice bytes i xs).takeD (i + xs.length) 0 = bytes.takeD i 0 ++ xs :=
    List.takeD_left' (by simp)
  have rest : (splice bytes i xs).drop (i + xs.length + ys.length) = bytes.drop (i + (xs ++ ys).length) := by
    rw [← List.drop_drop, splice, List.drop_left' (by simp), List.drop_drop, List.length_append, Nat.add_assoc]
  rw [splice, first, rest, splice, ← List.append_assoc (bytes.takeD i 0)]

theorem splice_zero (bytes data : List UInt8) : splice bytes 0 data = data ++ bytes.drop data.length := by
  simp [splice]

end Lib
