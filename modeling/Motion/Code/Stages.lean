import Motion.Code.BgSub
import Motion.Code.BlobDetect
import Motion.Code.BlobDetectPar
import Motion.Code.Blur

namespace Motion

/-- The kernel `seq` and `par` both blur with. -/
def kernel : Buf UInt8 := ⟨fun i => ([3, 3, 3, 3, 9, 3, 3, 3, 3] : List UInt8).getD i 0⟩

/-- The rows or columns the loops over a `short` size run through, of an `int` size. Where the
`short` is negative they run no more than for 0; what is declared with it is another matter
(`blobsLength`). -/
def short (n : Nat) : Nat := if n % 65536 < 32768 then n % 65536 else 0

/-- `frame_blur` in `seq`: a zeroed buffer, blurred into. -/
def seqBlur (frameWidth frameHeight : Nat) (frameRaw : Buf UInt8) : Buf UInt8 :=
  blur (Buf.all 0) frameRaw kernel frameWidth frameHeight 3 3

/-- `frame_thresh` in `seq`. -/
def seqThresh (frameWidth frameHeight : Nat) (background frameRaw : Buf UInt8) : Buf UInt8 :=
  bgSub background (seqBlur frameWidth frameHeight frameRaw) (Buf.all 0) frameWidth frameHeight

/-- `seq`. -/
def seq (stack : Buf (Blob w)) (biggest : Blob w) (frameBlobs : Buf Nat)
    (frameWidth frameHeight : Nat) (background frameRaw : Buf UInt8) : Detection w :=
  blobDetect stack biggest frameBlobs
    (seqThresh frameWidth frameHeight background frameRaw) (short frameWidth) (short frameHeight)

/-- The declared length of `blobs` in `blob_detect`, from its `short` sizes. -/
def blobsLength (frameWidth frameHeight : Nat) : Int :=
  (signedShort frameWidth * signedShort frameHeight).tdiv 4

/-- `seq` where it runs to its end: `none` where an `int` of `blur` overflows, where `blobs` is
declared with a negative length, or where a label lies past its end. -/
def seqRun (stack : Buf (Blob w)) (biggest : Blob w) (frameBlobs : Buf Nat)
    (frameWidth frameHeight : Nat) (background frameRaw : Buf UInt8) : Option (Detection w) :=
  (blurInt (Buf.all 0) frameRaw kernel frameWidth frameHeight 3 3).bind fun frameBlur =>
    let frameThresh := bgSub background frameBlur (Buf.all 0) frameWidth frameHeight
    if blobsLength frameWidth frameHeight < 0 then none
    else blobDetectRun stack biggest frameBlobs frameThresh (short frameWidth) (short frameHeight)

/-- A schedule of `par`: the order of the blur stripes, of the calls of `label`
and of the calls of `stitch`. -/
structure Schedule where
  stripes : List Nat
  labels : List Band
  stitches : List Nat

/-- Every call of the source runs exactly once. -/
structure Schedule.Fair (s : Schedule) : Prop where
  stripes : s.stripes.Perm (List.range numThreads)
  labels : s.labels.Perm bands
  stitches : s.stitches.Perm seams

/-- `frame_blur` in `par`. -/
def parBlur (stripes : List Nat) (frameWidth frameHeight : Nat) (frameRaw : Buf UInt8) :
    Buf UInt8 :=
  blurParallel stripes (Buf.all 0) frameRaw kernel frameWidth frameHeight 3 3

/-- `frame_thresh` in `par`. -/
def parThresh (stripes : List Nat) (frameWidth frameHeight : Nat)
    (background frameRaw : Buf UInt8) : Buf UInt8 :=
  bgSubParallelSimd background (parBlur stripes frameWidth frameHeight frameRaw) (Buf.all 0)
    frameWidth frameHeight

/-- `par` under a schedule; `none` when an assertion of `label` fires. -/
def par (s : Schedule) (stack : Buf (Blob w)) (biggest : Blob w) (frameBlobs : Buf Nat)
    (frameWidth frameHeight : Nat) (background frameRaw : Buf UInt8) : Option (Detection w) :=
  blobDetectPar s.labels s.stitches stack biggest frameBlobs
    (parThresh s.stripes frameWidth frameHeight background frameRaw)
    (short frameWidth) (short frameHeight)

end Motion
