import Motion.Lib.Decimal

/-! The P6 picture format: its size in plain text, then three bytes for each pixel. Comments
in the header are not read. -/

namespace Ppm

structure Colour where
  red : UInt8
  green : UInt8
  blue : UInt8
deriving DecidableEq

/-- A picture has as many pixels as its size says, row by row. -/
structure Picture where
  width : Nat
  height : Nat
  pixels : List Colour
  size : pixels.length = width * height

/-- The colour in a row and column. -/
def Picture.at (picture : Picture) (row col : Nat) : Option Colour :=
  picture.pixels[row * picture.width + col]?

def Colour.bytes (c : Colour) : List UInt8 := [c.red, c.green, c.blue]

/-- A pixel of one brightness. -/
def Colour.grey (v : UInt8) : Colour := ⟨v, v, v⟩

def isSpace (b : UInt8) : Bool := b = 32 || (9 ≤ b.toNat && b.toNat ≤ 13)

/-- The next number of the header, which blank space separates from what is before it. -/
def number : List UInt8 → Option (Nat × List UInt8)
  | b :: text => if isSpace b then Decimal.read (text.dropWhile isSpace) else none
  | [] => none

/-- The bytes of a picture by threes. -/
def colours : List UInt8 → Option (List Colour)
  | [] => some []
  | r :: g :: b :: bytes => (colours bytes).map (⟨r, g, b⟩ :: ·)
  | _ => none

/-- The picture in what follows its size. -/
def raster (width height maxval : Nat) : List UInt8 → Option Picture
  | b :: bytes =>
    if isSpace b ∧ maxval = 255 then
      (colours bytes).bind fun pixels =>
        if size : pixels.length = width * height then some ⟨width, height, pixels, size⟩ else none
    else none
  | [] => none

/-- A file is read as a picture, or not at all. -/
def read : List UInt8 → Option Picture
  | 80 :: 54 :: text =>
    (number text).bind fun (width, text) =>
      (number text).bind fun (height, text) =>
        (number text).bind fun (maxval, text) => raster width height maxval text
  | _ => none

theorem space_not_digit {b : UInt8} (h : isSpace b = true) : Decimal.isDigit b = false := by
  simp only [isSpace, Bool.or_eq_true, decide_eq_true_eq, Bool.and_eq_true] at h
  simp only [Decimal.isDigit, Bool.and_eq_false_iff, decide_eq_false_iff_not]
  cases h with
  | inl h => exact Or.inl (by rw [h]; decide)
  | inr h => exact Or.inl (by omega)

/-- A number that one blank stands before. -/
theorem number_numeral (n : Nat) {a b : UInt8} (ha : isSpace a = true) (hb : isSpace b = true)
    (rest : List UInt8) : number (a :: (Decimal.numeral n ++ b :: rest)) = some (n, b :: rest) := by
  have hdrop : (Decimal.numeral n ++ b :: rest).dropWhile isSpace =
      Decimal.numeral n ++ b :: rest := by
    obtain ⟨d, ds, hnum, hd⟩ := Decimal.numeral_head n
    rw [hnum, List.cons_append, List.dropWhile_cons_of_neg]
    intro hspace
    rw [space_not_digit hspace] at hd
    cases hd
  unfold number
  dsimp only
  rw [if_pos ha, hdrop]
  exact Decimal.read_numeral n (space_not_digit hb) rest

theorem colours_bytes (cs : List Colour) : colours (cs.flatMap Colour.bytes) = some cs := by
  induction cs with
  | nil => rfl
  | cons c cs ih =>
    change (colours (cs.flatMap Colour.bytes)).map _ = _
    rw [ih]
    rfl

/-- A header and the bytes of as many pixels as it says are read as that picture. -/
theorem read_picture (picture : Picture) {a b c d : UInt8} (ha : isSpace a = true)
    (hb : isSpace b = true) (hc : isSpace c = true) (hd : isSpace d = true) :
    read (80 :: 54 :: a :: (Decimal.numeral picture.width ++ b ::
      (Decimal.numeral picture.height ++ c :: (Decimal.numeral 255 ++ d ::
        picture.pixels.flatMap Colour.bytes)))) = some picture := by
  change (number _).bind _ = _
  simp only [number_numeral _ ha hb, number_numeral _ hb hc, number_numeral _ hc hd,
    Option.bind_some]
  unfold raster
  dsimp only
  rw [if_pos ⟨hd, rfl⟩, colours_bytes, Option.bind_some, dif_pos picture.size]

end Ppm
