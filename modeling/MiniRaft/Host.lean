import Mathlib.Algebra.Group.Int.Defs
import Mathlib.Algebra.Group.Nat.Defs
import Mathlib.Data.List.Basic
import Mathlib.Data.Int.Order.Basic
import Mathlib.Data.Nat.Notation

/-!
# Addresses of hosts (`THost`)

`address:port:id` is cut at its colons. The position of the second one is used once more as the bound of the id, so that an
id is read in full only if it has no more digits than the port, and within the string only if it has no fewer.
-/

namespace MiniRaft

structure THost where
  address : List Char := []
  port : ℤ := 0
  id : ℤ := 0
  deriving DecidableEq, Repr

namespace THost

/-- `npos`. -/
def npos : ℕ := 2 ^ 64 - 1

/-- `find(':')`. -/
def find (s : List Char) : Option ℕ := s.findIdx? (· = ':')

/-- `substr(p + 1)` after `find`, where `npos + 1` is 0. -/
def rest (s : List Char) : List Char :=
  match find s with
  | some p => s.drop (p + 1)
  | none => s

/-- The digits in front, at most `limit` of them, and whether the terminator behind the string was looked at. -/
def scan : ℕ → List Char → List Char × Bool
  | 0, _ => ([], false)
  | _ + 1, [] => ([], true)
  | limit + 1, c :: s => if c.isDigit then (c :: (scan limit s).1, (scan limit s).2) else ([], false)

/-- `from_chars` for a type with the values from `low` to `high`: a number that is not there, or not of the type, leaves
`old`. -/
def fromChars (low high : ℤ) (limit : ℕ) (s : List Char) (old : ℤ) : ℤ × Bool :=
  let negative : Bool := low < 0 ∧ 0 < limit ∧ s.head? = some '-'
  let (digits, past) := if negative then scan (limit - 1) s.tail else scan limit s
  let n : ℤ := if negative then -Nat.ofDigitChars 10 digits 0 else Nat.ofDigitChars 10 digits 0
  (if digits ≠ [] ∧ low ≤ n ∧ n ≤ high then n else old, past)

/-- The constructor, and whether it looked at a character outside the string. -/
def new (str : List Char) : THost × Bool :=
  let s := rest str
  let p := (find s).getD npos
  let port := fromChars (-2 ^ 31) (2 ^ 31 - 1) p s 0
  let id := fromChars 0 (2 ^ 32 - 1) p (rest s) 0
  ({ address := str.take ((find str).getD npos), port := port.1, id := id.1 }, port.2 || id.2)

/-! ## Colons -/

variable {a s : List Char}

theorem find_colon (clean : ':' ∉ a) (s : List Char) : find (a ++ ':' :: s) = some a.length := by
  unfold find
  rw [List.findIdx?_eq_some_iff_getElem]
  refine ⟨by simp, by simp, fun j inside => ?_⟩
  rw [List.getElem_append_left inside]
  have other : a[j] ≠ ':' := fun colon => clean (colon ▸ List.getElem_mem inside)
  simpa using other

theorem rest_colon (clean : ':' ∉ a) (s : List Char) : rest (a ++ ':' :: s) = s := by
  unfold rest
  rw [find_colon clean]
  simp

/-! ## Digits -/

/-- A bound within the digits is kept to. -/
theorem scan_take {digits : List Char} (all : ∀ c ∈ digits, c.isDigit) (s : List Char) :
    ∀ {limit : ℕ}, limit ≤ digits.length → scan limit (digits ++ s) = (digits.take limit, false) := by
  induction digits with
  | nil =>
    intro limit le
    obtain rfl : limit = 0 := Nat.le_zero.mp le
    rfl
  | cons c digits ih =>
    intro limit le
    cases limit with
    | zero => rfl
    | succ limit =>
      have rest := ih (fun c mem => all c (List.mem_cons_of_mem _ mem)) (Nat.le_of_succ_le_succ le)
      rw [List.cons_append, scan, if_pos (all c (List.mem_cons_self ..)), rest, List.take_succ_cons]

/-- A bound behind the end is not reached. -/
theorem scan_past {digits : List Char} (all : ∀ c ∈ digits, c.isDigit) :
    ∀ {limit : ℕ}, digits.length < limit → scan limit digits = (digits, true) := by
  induction digits with
  | nil =>
    intro limit lt
    cases limit with
    | zero => cases lt
    | succ limit => rfl
  | cons c digits ih =>
    intro limit lt
    cases limit with
    | zero => cases lt
    | succ limit =>
      have rest := ih (fun c mem => all c (List.mem_cons_of_mem _ mem)) (Nat.lt_of_succ_lt_succ lt)
      rw [scan, if_pos (all c (List.mem_cons_self ..)), rest]

/-- The decimal digits of a number. -/
abbrev decimal (n : ℕ) : List Char := Nat.toDigits 10 n

theorem isDigit_decimal (n : ℕ) : ∀ c ∈ decimal n, c.isDigit := fun _ mem =>
  Nat.isDigit_of_mem_toDigits (by decide) (by decide) mem

theorem colon_notMem_decimal (n : ℕ) : ':' ∉ decimal n := fun mem => absurd (isDigit_decimal n ':' mem) (by decide)

/-- Where the digits begin there is no sign. -/
theorem head_decimal (n : ℕ) (s : List Char) : (decimal n ++ s).head? ≠ some '-' := by
  cases digits : decimal n with
  | nil => exact absurd digits Nat.toDigits_ne_nil
  | cons c rest =>
    intro minus
    obtain rfl : c = '-' := by simpa using minus
    exact absurd (isDigit_decimal n '-' (digits ▸ List.mem_cons_self ..)) (by decide)

/-- The number that the first digits are. -/
def leading (n k : ℕ) : ℕ := Nat.ofDigitChars 10 ((decimal n).take k) 0

theorem leading_split (n k : ℕ) : ∃ y, n = 10 ^ ((decimal n).length - k) * leading n k + y := by
  have whole := @Nat.ofDigitChars_ten_toDigits n
  rw [← List.take_append_drop k (Nat.toDigits 10 n), Nat.ofDigitChars_append, Nat.ofDigitChars_eq_ofDigitChars_zero,
    List.length_drop] at whole
  exact ⟨_, whole.symm⟩

theorem leading_le (n k : ℕ) : leading n k ≤ n := by
  obtain ⟨y, split⟩ := leading_split n k
  calc leading n k ≤ 10 ^ ((decimal n).length - k) * leading n k := Nat.le_mul_of_pos_left _ (Nat.pow_pos (by decide))
    _ ≤ n := by omega

/-- **A number without its last digits** is another one. -/
theorem leading_eq_iff {n k : ℕ} (pos : 0 < k) (le : k ≤ (decimal n).length) :
    leading n k = n ↔ k = (decimal n).length := by
  constructor
  · intro same
    by_contra short
    obtain ⟨y, split⟩ := leading_split n k
    rw [same] at split
    have more : 10 ≤ 10 ^ ((decimal n).length - k) := Nat.le_self_pow (by omega) 10
    have zero : n = 0 := by
      by_contra nonzero
      have := Nat.mul_le_mul_right n more
      omega
    have one : (decimal n).length ≤ 1 := (Nat.length_toDigits_le_iff (by decide) Nat.one_pos).mpr (by omega)
    omega
  · intro whole
    rw [leading, whole, List.take_length]
    exact Nat.ofDigitChars_ten_toDigits

/-- A number is read up to the bound. -/
theorem fromChars_decimal (low high : ℤ) (range : low ≤ 0) {n k : ℕ} (top : (n : ℤ) ≤ high) (pos : 0 < k)
    (le : k ≤ (decimal n).length) (s : List Char) (old : ℤ) :
    fromChars low high k (decimal n ++ s) old = ((leading n k : ℤ), false) := by
  have unsigned : decide (low < 0 ∧ 0 < k ∧ (decimal n ++ s).head? = some '-') = false :=
    decide_eq_false fun signed => head_decimal n s signed.2.2
  have some_ : (decimal n).take k ≠ [] := by
    intro none_
    have := congrArg List.length none_
    rw [List.length_take_of_le le, List.length_nil] at this
    omega
  have fits : (leading n k : ℤ) ≤ high := by
    have := leading_le n k
    omega
  unfold fromChars
  simp only [unsigned, scan_take (isDigit_decimal n) s le, Bool.false_eq_true, if_false]
  congr 1
  exact if_pos ⟨some_, by omega, fits⟩

/-- A number at the end is read in full where the bound lies behind it, and its terminator is looked at. -/
theorem fromChars_past {low high : ℤ} (range : low ≤ 0) {n k : ℕ} (top : (n : ℤ) ≤ high)
    (lt : (decimal n).length < k) (old : ℤ) : fromChars low high k (decimal n) old = ((n : ℤ), true) := by
  have unsigned : decide (low < 0 ∧ 0 < k ∧ (decimal n).head? = some '-') = false :=
    decide_eq_false fun signed => head_decimal n [] (by simpa using signed.2.2)
  unfold fromChars
  simp only [unsigned, scan_past (isDigit_decimal n) lt, Bool.false_eq_true, if_false, Nat.ofDigitChars_ten_toDigits]
  congr 1
  exact if_pos ⟨Nat.toDigits_ne_nil, by omega, top⟩

/-- `address:port:id`. -/
def format (address : List Char) (port id : ℕ) : List Char := address ++ ':' :: (decimal port ++ ':' :: decimal id)

/-- **What the constructor reads.** The address and the port are right; the id is where it has no more digits than the
port, and nothing outside the string is looked at where it has no fewer. -/
theorem new_format {address : List Char} {port n : ℕ} (clean : ':' ∉ address) (port_le : port < 2 ^ 31)
    (id_le : n < 2 ^ 32) :
    (new (format address port n)).1.address = address ∧ (new (format address port n)).1.port = port ∧
      ((new (format address port n)).1.id = n ↔ (decimal n).length ≤ (decimal port).length) ∧
      ((new (format address port n)).2 = false ↔ (decimal port).length ≤ (decimal n).length) := by
  have first := rest_colon clean (decimal port ++ ':' :: decimal n)
  have second := rest_colon (colon_notMem_decimal port) (decimal n)
  have bound := find_colon (colon_notMem_decimal port) (decimal n)
  have some_ : 0 < (decimal port).length := Nat.length_toDigits_pos
  have port_read := fromChars_decimal (-2 ^ 31) (2 ^ 31 - 1) (by decide) (n := port) (by omega) some_
    (Nat.le_refl _) (':' :: decimal n) 0
  rw [(leading_eq_iff some_ (Nat.le_refl _)).mpr rfl] at port_read
  unfold new format
  simp only [first, second, bound, Option.getD_some, port_read, find_colon clean, Bool.false_or]
  refine ⟨by simp, trivial, ?_⟩
  by_cases fits : (decimal port).length ≤ (decimal n).length
  · have id_read := fromChars_decimal 0 (2 ^ 32 - 1) (Int.le_refl _) (n := n) (by omega) some_ fits [] 0
    rw [List.append_nil] at id_read
    rw [id_read]
    refine ⟨?_, iff_of_true rfl fits⟩
    rw [Int.natCast_inj, leading_eq_iff some_ fits]
    omega
  · rw [fromChars_past (Int.le_refl _) (by omega) (by omega)]
    exact ⟨iff_of_true rfl (by omega), iff_of_false nofun fits⟩

end THost

/-- **Addresses are read back** exactly where the id has as many digits as the port: an id with more is cut, and with one
that has fewer the character behind the string is looked at. -/
theorem host_read_back (address : List Char) (port n : ℕ) (clean : ':' ∉ address) (port_le : port < 2 ^ 31)
    (id_le : n < 2 ^ 32) :
    THost.new (THost.format address port n) = ({ address, port, id := n }, false) ↔
      (THost.decimal n).length = (THost.decimal port).length := by
  obtain ⟨address_eq, port_eq, id_eq, inside⟩ := THost.new_format clean port_le id_le
  rw [Prod.ext_iff, THost.mk.injEq, address_eq, port_eq, inside]
  simp only [true_and]
  rw [id_eq]
  omega

theorem host_read_back_local : THost.new "127.0.0.1:8001:1234".toList =
    ({ address := "127.0.0.1".toList, port := 8001, id := 1234 }, false) :=
  (host_read_back "127.0.0.1".toList 8001 1234 (by decide) (by decide) (by decide)).mpr (by decide)

/-- An id with more digits than the port is cut, and one with fewer is read beyond the end. -/
theorem host_read_back_cut : (THost.new "localhost:80:123".toList).1.id = 12 ∧
    (THost.new "127.0.0.1:8001:1".toList).2 = true := by
  decide

end MiniRaft
