import Motion.Code.BgSub
import Motion.Code.Blur

/-! The image loops one pixel step at a time, with the indices each step uses. -/

namespace Motion

/-- The indices read from each input image and those written in `res`. -/
structure Access where
  reads : List Nat
  writes : List Nat

/-- What a loop uses, its steps one after another. -/
def Access.each (steps : List α) (uses : α → Access) : Access :=
  ⟨steps.flatMap fun x => (uses x).reads, steps.flatMap fun x => (uses x).writes⟩

/-- `bg_sub`'s loop body, in `bg`, `fr` and `res`. -/
def bgSubPixelUses (width : Nat) (p : Pixel) : Access :=
  let pixelIndexRgb := (p.1 * width + p.2) * 3
  let pixelIndexGrey := p.1 * width + p.2
  ⟨(upto 0 3).map fun i => pixelIndexRgb + i, [pixelIndexGrey]⟩

/-- `bg_sub`. -/
def bgSubUses (width height : Nat) : Access :=
  Access.each (raster (upto 0 height) (upto 0 width)) (bgSubPixelUses width)

/-- One lane of the vector version. -/
def bgSubLaneUses (width row col lane : Nat) : Access :=
  let indGrey := lane32 (lane32 (lane32 row * lane32 width) + lane32 (lane32 col + lane))
  let ind := lane32 (indGrey * 3)
  ⟨(upto 0 3).map fun i => lane32 (ind + i), [indGrey]⟩

/-- `bg_sub_parallel` of bg_sub_simd.cpp. -/
def bgSubSimdUses (width height : Nat) : Access :=
  Access.each (raster (upto 0 height) (vectorCols width)) fun p =>
    Access.each (upto 0 4) (bgSubLaneUses width p.1 p.2)

/-- The indices a cell of the window reads from `frame`. -/
def blurCellReads (frameWidth frameHeight blurWidth blurHeight : Nat) (p c : Pixel) : List Int :=
  let blurRow : Int := p.1 + ((c.1 : Int) - (blurHeight / 2 : Nat))
  let blurCol : Int := p.2 + ((c.2 : Int) - (blurWidth / 2 : Nat))
  if blurRow ≥ 0 ∧ blurRow < frameHeight ∧ blurCol ≥ 0 ∧ blurCol < frameWidth then
    let blurPixelIndex := (blurRow * frameWidth + blurCol) * 3
    [blurPixelIndex + 0, blurPixelIndex + 1, blurPixelIndex + 2]
  else []

/-- Those it reads from `blur_vector`. -/
def blurCellWeights (frameWidth frameHeight blurWidth blurHeight : Nat) (p c : Pixel) :
    List Int :=
  let blurRow : Int := p.1 + ((c.1 : Int) - (blurHeight / 2 : Nat))
  let blurCol : Int := p.2 + ((c.2 : Int) - (blurWidth / 2 : Nat))
  if blurRow ≥ 0 ∧ blurRow < frameHeight ∧ blurCol ≥ 0 ∧ blurCol < frameWidth then
    [(c.1 : Int) * blurWidth + c.2]
  else []

/-- The indices of `res` a pixel of either blur writes. -/
def blurPixelWrites (frameWidth : Nat) (p : Pixel) : List Nat :=
  let centerPixelIndex := (p.1 * frameWidth + p.2) * 3
  [centerPixelIndex + 0, centerPixelIndex + 1, centerPixelIndex + 2]

/-- The pixels the call of `blur_helper` of thread `i` steps through. -/
def stripePixels (frameWidth frameHeight i : Nat) : List Pixel :=
  let colsPerThread := frameWidth / numThreads
  raster (upto 0 frameHeight)
    (upto (i * colsPerThread) (((i : Int) + 1) * colsPerThread - 1).toNat)

/-- One pixel step of `blur_helper`. -/
def blurStep (frame blurVector : Buf UInt8) (frameWidth frameHeight blurWidth blurHeight : Nat)
    (res : Buf UInt8) (p : Pixel) : Buf UInt8 :=
  if skipped frameWidth frameHeight blurWidth p then res
  else blurPixel frame blurVector frameWidth frameHeight blurWidth blurHeight res p

/-- The indices of `res` the call of thread `i` writes. -/
def stripeWrites (frameWidth frameHeight blurWidth i : Nat) : List Nat :=
  (stripePixels frameWidth frameHeight i).flatMap fun p =>
    if skipped frameWidth frameHeight blurWidth p then [] else blurPixelWrites frameWidth p

/-- The pixel steps of each thread of `blur_parallel`. -/
def blurThreads (frameWidth frameHeight : Nat) : List (List Pixel) :=
  (List.range numThreads).map (stripePixels frameWidth frameHeight)

/-- `blur_parallel`, the pixel steps of its threads taken in the order given. -/
def blurInterleaved (trace : List Pixel) (res frame blurVector : Buf UInt8)
    (frameWidth frameHeight blurWidth blurHeight : Nat) : Buf UInt8 :=
  trace.foldl (blurStep frame blurVector frameWidth frameHeight blurWidth blurHeight) res

end Motion
