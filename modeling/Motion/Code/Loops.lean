import Motion.Code.Threads

/-! `seq` and `par` called for one frame after another, their caller keeping `frame_blobs` and
`biggest_blob` from frame to frame. -/

namespace Motion

/-- What one call of `par` meets: the turns of its threads, what its stack holds, the frame. -/
structure Capture (w : Nat) where
  blurs : List Pixel
  labels : List Act
  stitches : List Act
  stack : Buf (Blob w)
  frameRaw : Buf UInt8

/-- The calls of `seq`; each comes with what its stack holds and its frame. `none` where one of
them does not run to its end. -/
def seqLoop (frameWidth frameHeight : Nat) (background : Buf UInt8) :
    List (Buf (Blob w) × Buf UInt8) → Blob w → Buf Nat → Option (List (Detection w))
  | [], _, _ => some []
  | (stack, frameRaw) :: frames, biggest, frameBlobs =>
    (seqRun stack biggest frameBlobs frameWidth frameHeight background frameRaw).bind fun d =>
      (seqLoop frameWidth frameHeight background frames d.biggestBlob d.output).map (d :: ·)

/-- Those of `par`. -/
def parLoop (frameWidth frameHeight : Nat) (background : Buf UInt8) :
    List (Capture w) → Blob w → Buf Nat → Option (List (Detection w))
  | [], _, _ => some []
  | c :: captures, biggest, frameBlobs =>
    (parThreads c.blurs c.labels c.stitches c.stack biggest frameBlobs frameWidth frameHeight
        background c.frameRaw).bind fun d =>
      (parLoop frameWidth frameHeight background captures d.biggestBlob d.output).map (d :: ·)

end Motion
