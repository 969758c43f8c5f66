import Motion.Code.PixelSteps
import Motion.Code.Stages
import Motion.Code.Steps

/-! `blob_detect_par` and `par` with their threads taking turns, one loop turn at a time. -/

namespace Motion

/-- The turns of the threads that label: those of the caller, which takes the first band,
and of the three it starts. -/
def labelThreads (width : Nat) : List (List Act) := bands.map (labelActs width)

/-- The turns of the threads that stitch: those of the caller, at the first seam, and of the
two it starts. -/
def stitchThreads (width : Nat) : List (List Act) := seams.map (stitchActs width)

/-- The turns of the caller once the threads are joined. -/
def collectActs (width height : Nat) : List Act :=
  (upto 1 (maxBlobsPerThread * 4)).map Act.redirect ++
    (upto 1 (maxBlobsPerThread * 4)).reverse.map Act.merge ++
    (interior width height).map Act.relabel

/-- The indices of `output` a turn of a thread reads. -/
def imageReads (input : Buf UInt8) (width : Nat) : Act → List Nat
  | .label _ p =>
    if input (idx width p) > 0 then
      [idx width (p.1 - 1, p.2 - 1), idx width (p.1 - 1, p.2), idx width (p.1 - 1, p.2 + 1),
       idx width (p.1, p.2 - 1)]
    else []
  | .stitch p =>
    [idx width p, idx width (p.1 - 1, p.2 - 1), idx width (p.1 - 1, p.2),
     idx width (p.1 - 1, p.2 + 1)]
  | _ => []

/-- Those it writes. -/
def imageWrites (width : Nat) : Act → List Nat
  | .label _ p => [idx width p]
  | _ => []

/-- `blob_detect_par`, the turns of its threads taken in the orders given: first those of the
label threads, then, all of these joined, those of the stitch threads. -/
def blobDetectThreads (labels stitches : List Act) (stack : Buf (Blob w)) (biggest : Blob w)
    (output : Buf Nat) (input : Buf UInt8) (width height : Nat) : Option (Detection w) :=
  ((labels ++ stitches).foldlM (step input width) (Machine.start stack output)).map fun s =>
    collect stack biggest width height ⟨s.output, s.blobs⟩

/-- `par`, the pixel steps of its blur threads and the turns of its label and stitch threads
taken in the orders given. -/
def parThreads (blurs : List Pixel) (labels stitches : List Act) (stack : Buf (Blob w))
    (biggest : Blob w) (frameBlobs : Buf Nat) (frameWidth frameHeight : Nat)
    (background frameRaw : Buf UInt8) : Option (Detection w) :=
  let frameBlur := blurInterleaved blurs (Buf.all 0) frameRaw kernel frameWidth frameHeight 3 3
  let frameThresh :=
    bgSubParallelSimd background frameBlur (Buf.all 0) frameWidth frameHeight
  blobDetectThreads labels stitches stack biggest frameBlobs frameThresh (short frameWidth)
    (short frameHeight)

end Motion
