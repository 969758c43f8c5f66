import Mathlib

/-! Decimal numerals as a text stream writes them, and how they are read back. -/

namespace Decimal

/-- The byte of a digit. -/
def digit (d : Nat) : UInt8 := UInt8.ofNat (48 + d)

/-- A number as a stream prints it. -/
def numeral (n : Nat) : List UInt8 :=
  if n = 0 then [digit 0] else (Nat.digits 10 n).reverse.map digit

/-- Whether a byte is a digit. -/
def isDigit (b : UInt8) : Bool := 48 ≤ b.toNat && b.toNat ≤ 57

/-- The number that some digits stand for. -/
def value (ds : List UInt8) : Nat := ds.foldl (fun n d => n * 10 + (d.toNat - 48)) 0

/-- The number a text starts with, and the text behind it; nothing where it starts with none. -/
def read (text : List UInt8) : Option (Nat × List UInt8) :=
  match text.takeWhile isDigit with
  | [] => none
  | d :: ds => some (value (d :: ds), text.dropWhile isDigit)

theorem digit_toNat {d : Nat} (h : d < 10) : (digit d).toNat = 48 + d := by
  unfold digit
  rw [UInt8.toNat_ofNat']
  omega

theorem isDigit_digit {d : Nat} (h : d < 10) : isDigit (digit d) = true := by
  simp [isDigit, digit_toNat h]
  omega

/-- The digits of a number, the first one first. -/
theorem numeral_eq (n : Nat) : ∃ ds : List Nat, (∀ d ∈ ds, d < 10) ∧ ds ≠ [] ∧
    numeral n = ds.map digit ∧ Nat.ofDigits 10 ds.reverse = n := by
  unfold numeral
  split
  · rename_i h0
    exact ⟨[0], by simp, by simp, rfl, by simp [h0]⟩
  · rename_i h0
    refine ⟨(Nat.digits 10 n).reverse, ?_, ?_, rfl, ?_⟩
    · intro d hd
      exact Nat.digits_lt_base (by decide) (List.mem_reverse.mp hd)
    · simpa [Nat.digits_ne_nil_iff_ne_zero] using h0
    · rw [List.reverse_reverse, Nat.ofDigits_digits]

/-- A numeral starts with a digit. -/
theorem numeral_head (n : Nat) : ∃ b bs, numeral n = b :: bs ∧ isDigit b = true := by
  obtain ⟨ds, hlt, hne, hnum, _⟩ := numeral_eq n
  cases ds with
  | nil => exact absurd rfl hne
  | cons d ds => exact ⟨digit d, ds.map digit, hnum, isDigit_digit (hlt d (by simp))⟩

theorem value_digits (ds : List Nat) (h : ∀ d ∈ ds, d < 10) :
    value (ds.map digit) = Nat.ofDigits 10 ds.reverse := by
  unfold value
  induction ds using List.reverseRecOn with
  | nil => rfl
  | append_singleton ds d ih =>
    have hd := h d (by simp)
    have hds := ih (fun e he => h e (by simp [he]))
    rw [List.map_append, List.foldl_append, hds, List.reverse_append]
    simp [digit_toNat hd, Nat.ofDigits_cons]
    omega

/-- A numeral is read back, whatever follows it that is no digit. -/
theorem read_numeral (n : Nat) {b : UInt8} (hb : isDigit b = false) (rest : List UInt8) :
    read (numeral n ++ b :: rest) = some (n, b :: rest) := by
  obtain ⟨ds, hlt, _, hnum, hval⟩ := numeral_eq n
  have hall : ∀ c ∈ numeral n, isDigit c = true := by
    intro c hc
    rw [hnum] at hc
    obtain ⟨d, hd, rfl⟩ := List.mem_map.mp hc
    exact isDigit_digit (hlt d hd)
  have htake : (numeral n ++ b :: rest).takeWhile isDigit = numeral n := by
    rw [List.takeWhile_append_of_pos hall, List.takeWhile_cons_of_neg (by simp [hb]),
      List.append_nil]
  have hdrop : (numeral n ++ b :: rest).dropWhile isDigit = b :: rest := by
    rw [List.dropWhile_append_of_pos hall, List.dropWhile_cons_of_neg (by simp [hb])]
  have hv : value (numeral n) = n := by rw [hnum, value_digits ds hlt, hval]
  obtain ⟨d, rest', hhead, _⟩ := numeral_head n
  unfold read
  rw [htake, hdrop, hhead]
  dsimp only
  rw [← hhead, hv]

end Decimal
