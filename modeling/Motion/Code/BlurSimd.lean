import Motion.Code.Blur

namespace Motion

/-- The running totals of one step of blur_simd.cpp: a vector of four lanes for each
channel, and one total of the weights of all four. -/
structure LaneTotals where
  newR : Fin 4 → Nat
  newG : Fin 4 → Nat
  newB : Fin 4 → Nat
  blurValueTotal : Nat

/-- `for (lane = 0; lane < 4; lane++)`. -/
def lanes : List (Fin 4) := [0, 1, 2, 3]

/-- One lane at one cell of the window: skipped where its mask is zero, else weighted
in. Only the column is multiplied by 3 in the index of the frame. -/
def blurLane (frame blurVector : Buf UInt8) (frameWidth frameHeight blurWidth blurHeight : Nat)
    (p c : Pixel) (t : LaneTotals) (lane : Fin 4) : LaneTotals :=
  let blurRow : Int := p.1 + ((c.1 : Int) - (blurHeight / 2 : Nat))
  let blurCol : Int := (p.2 + lane.val : Nat) + ((c.2 : Int) - (blurWidth / 2 : Nat))
  if blurRow ≥ 0 ∧ blurRow < frameHeight ∧ blurCol ≥ 0 ∧ blurCol < frameWidth then
    let blurValue := (blurVector (c.1 * blurWidth + c.2)).toNat
    let blurPixelIndex := blurRow.toNat * frameWidth + blurCol.toNat * 3
    { newR := Function.update t.newR lane
        (t.newR lane + blurValue * (frame blurPixelIndex).toNat)
      newB := Function.update t.newB lane
        (t.newB lane + blurValue * (frame (blurPixelIndex + 1)).toNat)
      newG := Function.update t.newG lane
        (t.newG lane + blurValue * (frame (blurPixelIndex + 2)).toNat)
      blurValueTotal := t.blurValueTotal + blurValue }
  else t

/-- The loops over the window and the lanes. -/
def blurLanes (frame blurVector : Buf UInt8) (frameWidth frameHeight blurWidth blurHeight : Nat)
    (p : Pixel) : LaneTotals :=
  (raster (upto 0 blurHeight) (upto 0 blurWidth)).foldl
    (fun t c =>
      lanes.foldl (blurLane frame blurVector frameWidth frameHeight blurWidth blurHeight p c) t)
    ⟨fun _ => 0, fun _ => 0, fun _ => 0, 0⟩

/-- Whether they fit their `int`s. The total counts four windows, so that it overflows where
the totals of `blur` need not. -/
def LaneTotals.Fit (t : LaneTotals) : Prop :=
  t.blurValueTotal < intEnd ∧
    ∀ lane, t.newR lane < intEnd ∧ t.newG lane < intEnd ∧ t.newB lane < intEnd

instance (t : LaneTotals) : Decidable t.Fit := inferInstanceAs (Decidable (_ ∧ _))

/-- A vector divided by a scalar, lane by lane. -/
def divLanes (v : Fin 4 → Nat) (n : Nat) : Fin 4 → Nat := fun lane => v lane / n

/-- The store loop's body: all lanes divided, then the lane that is stored once more. -/
def storeLane (frameWidth : Nat) (p : Pixel) (s : LaneTotals × Buf UInt8) (lane : Fin 4) :
    LaneTotals × Buf UInt8 :=
  let centerPixelIndex := 3 * (p.1 * frameWidth + (p.2 + lane.val))
  let total := s.1.blurValueTotal
  let t : LaneTotals :=
    { newR := divLanes s.1.newR total
      newG := divLanes s.1.newG total
      newB := divLanes s.1.newB total
      blurValueTotal := total }
  (t, ((s.2.write (centerPixelIndex + 0) (UInt8.ofNat (t.newR lane / total))).write
    (centerPixelIndex + 1) (UInt8.ofNat (t.newB lane / total))).write
    (centerPixelIndex + 2) (UInt8.ofNat (t.newG lane / total)))

/-- The store loop. -/
def storeLanes (frameWidth : Nat) (p : Pixel) (t : LaneTotals) (res : Buf UInt8) : Buf UInt8 :=
  (lanes.foldl (storeLane frameWidth p) (t, res)).2

/-- Four pixels of a row, from the one given on; `none` where a total overflows. -/
def blurVectorStep (frame blurVector : Buf UInt8)
    (frameWidth frameHeight blurWidth blurHeight : Nat) (res : Buf UInt8) (p : Pixel) :
    Option (Buf UInt8) :=
  let t := blurLanes frame blurVector frameWidth frameHeight blurWidth blurHeight p
  if t.Fit then some (storeLanes frameWidth p t res) else none

/-- `for (col = start_col; col < end_col; col += 4)`. -/
def stepCols (startCol endCol : Nat) : List Nat :=
  (upto 0 ((endCol - startCol + 3) / 4)).map fun i => startCol + 4 * i

/-- `blur_helper` of blur_simd.cpp. -/
def blurHelperSimd (res frame blurVector : Buf UInt8)
    (frameWidth frameHeight blurWidth blurHeight startRow endRow startCol endCol : Nat) :
    Option (Buf UInt8) :=
  (raster (upto startRow endRow) (stepCols startCol endCol)).foldlM
    (blurVectorStep frame blurVector frameWidth frameHeight blurWidth blurHeight) res

end Motion
