import Motion.Code.Blob

namespace Motion

/-- `THRESHOLD`. -/
def threshold : Nat := 30

/-- `total_diff` from the RGB triple at an index: the squares summed over the
channels, then the root, truncated. -/
def totalDiff (bg fr : Buf UInt8) (index : Nat → Nat) : Nat :=
  let total := (upto 0 3).foldl (fun total i =>
    let diff : Int := (bg (index i)).toNat - (fr (index i)).toNat
    total + diff * diff) (0 : Int)
  Nat.sqrt total.toNat

/-- `bg_sub`'s loop body. -/
def bgSubPixel (bg fr : Buf UInt8) (width : Nat) (res : Buf UInt8) (p : Pixel) : Buf UInt8 :=
  let pixelIndexRgb := (p.1 * width + p.2) * 3
  let pixelIndexGrey := p.1 * width + p.2
  res.write pixelIndexGrey
    (if totalDiff bg fr (fun i => pixelIndexRgb + i) > threshold then 255 else 0)

/-- `bg_sub`. -/
def bgSub (bg fr res : Buf UInt8) (width height : Nat) : Buf UInt8 :=
  (raster (upto 0 height) (upto 0 width)).foldl (bgSubPixel bg fr width) res

/-- The pixels a call of `bg_sub_helper` of bg_sub_par.cpp visits. -/
def helperPixels (width startRow endRow : Nat) : List Pixel :=
  raster (upto startRow endRow) (upto 0 width)

/-- `bg_sub_helper` of bg_sub_par.cpp. -/
def bgSubHelper (bg fr : Buf UInt8) (width : Nat) (res : Buf UInt8) (rows : Nat × Nat) :
    Buf UInt8 :=
  (helperPixels width rows.1 rows.2).foldl (bgSubPixel bg fr width) res

/-- The `start_row` and `end_row` of the four calls: the three threads', then the
main thread's. -/
def helperRows (height : Nat) : List (Nat × Nat) :=
  [(0, height / 4), (height / 4, height / 2), (height / 2, height / 4 * 3),
   (height / 4 * 3, height)]

/-- The pixel steps of each thread of `bg_sub_parallel` of bg_sub_par.cpp. -/
def bgSubThreads (width height : Nat) : List (List Pixel) :=
  (helperRows height).map fun rows => helperPixels width rows.1 rows.2

/-- `bg_sub_parallel` of bg_sub_par.cpp, the steps of its threads taken in the order given. -/
def bgSubParallel (trace : List Pixel) (bg fr res : Buf UInt8) (width : Nat) : Buf UInt8 :=
  trace.foldl (bgSubPixel bg fr width) res

/-- What a `uint32_t` lane keeps. -/
def lane32 (n : Nat) : Nat := n % 2 ^ 32

/-- One lane of the vector version, its indices computed in 32-bit lanes. -/
def bgSubLane (bg fr : Buf UInt8) (width row col : Nat) (res : Buf UInt8) (lane : Nat) :
    Buf UInt8 :=
  let indGrey := lane32 (lane32 (lane32 row * lane32 width) + lane32 (lane32 col + lane))
  let ind := lane32 (indGrey * 3)
  res.write indGrey (if totalDiff bg fr (fun i => lane32 (ind + i)) > threshold then 255 else 0)

/-- The first lanes' columns: `for (col = 0; col < width; col += 4)`. -/
def vectorCols (width : Nat) : List Nat := (upto 0 ((width + 3) / 4)).map (· * 4)

/-- `bg_sub_helper` of bg_sub_simd.cpp. -/
def bgSubHelperSimd (bg fr res : Buf UInt8) (width startRow endRow : Nat) : Buf UInt8 :=
  (raster (upto startRow endRow) (vectorCols width)).foldl
    (fun res p => (upto 0 4).foldl (bgSubLane bg fr width p.1 p.2) res) res

/-- `bg_sub_parallel` of bg_sub_simd.cpp, the one `par` links with. -/
def bgSubParallelSimd (bg fr res : Buf UInt8) (width height : Nat) : Buf UInt8 :=
  bgSubHelperSimd bg fr res width 0 height

end Motion
