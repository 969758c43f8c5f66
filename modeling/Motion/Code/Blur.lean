import Motion.Code.Blob

namespace Motion

/-- The running totals of one window. -/
structure Totals where
  newR : Nat
  newG : Nat
  newB : Nat
  blurValueTotal : Nat

/-- One cell of the window: skipped outside the frame, else weighted in. -/
def blurCell (frame blurVector : Buf UInt8) (frameWidth frameHeight blurWidth blurHeight : Nat)
    (p : Pixel) (t : Totals) (c : Pixel) : Totals :=
  let blurRow : Int := p.1 + ((c.1 : Int) - (blurHeight / 2 : Nat))
  let blurCol : Int := p.2 + ((c.2 : Int) - (blurWidth / 2 : Nat))
  if blurRow ≥ 0 ∧ blurRow < frameHeight ∧ blurCol ≥ 0 ∧ blurCol < frameWidth then
    let blurValue := (blurVector (c.1 * blurWidth + c.2)).toNat
    let blurPixelIndex := (blurRow.toNat * frameWidth + blurCol.toNat) * 3
    { newR := t.newR + blurValue * (frame (blurPixelIndex + 0)).toNat
      newG := t.newG + blurValue * (frame (blurPixelIndex + 1)).toNat
      newB := t.newB + blurValue * (frame (blurPixelIndex + 2)).toNat
      blurValueTotal := t.blurValueTotal + blurValue }
  else t

/-- The two loops over the window of a pixel. -/
def blurWindow (frame blurVector : Buf UInt8) (frameWidth frameHeight blurWidth blurHeight : Nat)
    (p : Pixel) : Totals :=
  (raster (upto 0 blurHeight) (upto 0 blurWidth)).foldl
    (blurCell frame blurVector frameWidth frameHeight blurWidth blurHeight p) ⟨0, 0, 0, 0⟩

/-- The three bytes of a pixel, divided and narrowed. -/
def blurPixel (frame blurVector : Buf UInt8) (frameWidth frameHeight blurWidth blurHeight : Nat)
    (res : Buf UInt8) (p : Pixel) : Buf UInt8 :=
  let t := blurWindow frame blurVector frameWidth frameHeight blurWidth blurHeight p
  let centerPixelIndex := (p.1 * frameWidth + p.2) * 3
  ((res.write (centerPixelIndex + 0) (UInt8.ofNat (t.newR / t.blurValueTotal))).write
    (centerPixelIndex + 1) (UInt8.ofNat (t.newG / t.blurValueTotal))).write
    (centerPixelIndex + 2) (UInt8.ofNat (t.newB / t.blurValueTotal))

/-- `blur`. -/
def blur (res frame blurVector : Buf UInt8) (frameWidth frameHeight blurWidth blurHeight : Nat) :
    Buf UInt8 :=
  (raster (upto 0 frameHeight) (upto 0 frameWidth)).foldl
    (blurPixel frame blurVector frameWidth frameHeight blurWidth blurHeight) res

/-- The first number past an `int`. -/
def intEnd : Nat := 2 ^ 31

/-- Whether the totals of a window fit their `int`s. They only grow, so that the last tell. -/
def Totals.Fit (t : Totals) : Prop :=
  t.newR < intEnd ∧ t.newG < intEnd ∧ t.newB < intEnd ∧ t.blurValueTotal < intEnd

instance (t : Totals) : Decidable t.Fit := inferInstanceAs (Decidable (_ ∧ _))

/-- `blur`, its `int`s checked: `none` where the frame has bytes no `int` counts to, or the
totals of a window overflow. -/
def blurInt (res frame blurVector : Buf UInt8)
    (frameWidth frameHeight blurWidth blurHeight : Nat) : Option (Buf UInt8) :=
  if 3 * frameWidth * frameHeight < intEnd then
    (raster (upto 0 frameHeight) (upto 0 frameWidth)).foldlM
      (fun res p =>
        if (blurWindow frame blurVector frameWidth frameHeight blurWidth blurHeight p).Fit then
          some (blurPixel frame blurVector frameWidth frameHeight blurWidth blurHeight res p)
        else none) res
  else none

/-- Whether `blur_helper` passes over a pixel: nearer to an edge than the radius. -/
def skipped (frameWidth frameHeight blurWidth : Nat) (p : Pixel) : Bool :=
  let blurRadius := (blurWidth - 1) / 2
  (p.1 < blurRadius ∨ (p.1 : Int) > (frameHeight : Int) - 1 - blurRadius) ∨
    (p.2 < blurRadius ∨ (p.2 : Int) > (frameWidth : Int) - 1 - blurRadius)

/-- `blur_helper`. The end column may be negative. -/
def blurHelper (res frame blurVector : Buf UInt8)
    (frameWidth frameHeight blurWidth blurHeight startRow endRow startCol : Nat) (endCol : Int) :
    Buf UInt8 :=
  (raster (upto startRow endRow) (upto startCol endCol.toNat)).foldl
    (fun res p => if skipped frameWidth frameHeight blurWidth p then res
      else blurPixel frame blurVector frameWidth frameHeight blurWidth blurHeight res p) res

/-- `num_threads`. -/
def numThreads : Nat := 32

/-- The call of `blur_helper` that thread `i` makes. -/
def blurStripe (frame blurVector : Buf UInt8) (frameWidth frameHeight blurWidth blurHeight : Nat)
    (res : Buf UInt8) (i : Nat) : Buf UInt8 :=
  let colsPerThread := frameWidth / numThreads
  blurHelper res frame blurVector frameWidth frameHeight blurWidth blurHeight
    0 frameHeight (i * colsPerThread) (((i : Int) + 1) * colsPerThread - 1)

/-- `blur_parallel`, its threads running one after another in the order given. -/
def blurParallel (order : List Nat) (res frame blurVector : Buf UInt8)
    (frameWidth frameHeight blurWidth blurHeight : Nat) : Buf UInt8 :=
  order.foldl (blurStripe frame blurVector frameWidth frameHeight blurWidth blurHeight) res

end Motion
