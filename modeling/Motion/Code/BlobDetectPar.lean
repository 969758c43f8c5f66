import Motion.Code.Blob

namespace Motion

/-- `MAX_BLOBS_PER_THREAD`. -/
def maxBlobsPerThread : Nat := 200

/-- What the threads share: the image and the label table. -/
structure Shared (w : Nat) where
  output : Buf Nat
  blobs : Table w

/-- `label`'s loop body: 9999 stands for no neighbour, the pixel is not cleared
first, and the assertion is checked where a label has just been taken. -/
def labelPixel (width : Nat) (input : Buf UInt8) (startLabel : Nat) (s : Scan w) (p : Pixel) :
    Option (Scan w) :=
  let s' := scanPixel 9999 width input s p
  if s.labelCounter < s'.labelCounter ∧ s'.labelCounter ≥ startLabel + maxBlobsPerThread then
    none
  else some s'

/-- `label`'s redirect of one entry, which leaves unused entries alone. -/
def redirectUsed (blobs : Table w) (i : Nat) : Table w :=
  if (blobs i).label ≠ i ∧ (blobs i).label ≠ 0 then
    blobs.write i { blobs i with label := (blobs (blobs i).label).label }
  else blobs

/-- The rows and the first label of one call of `label`. -/
structure Band where
  startRow : Nat
  endRow : Nat
  startLabel : Nat
deriving DecidableEq

/-- The pixels a call of `label` visits. -/
def Band.pixels (width : Nat) (b : Band) : List Pixel :=
  raster (upto b.startRow (b.endRow + 1)) (upto 1 (width - 1))

/-- `label`; `none` when the assertion fires. -/
def label (input : Buf UInt8) (width : Nat) (b : Band) (sh : Shared w) : Option (Shared w) :=
  ((b.pixels width).foldlM (labelPixel width input b.startLabel)
      ⟨sh.output, sh.blobs, b.startLabel⟩).map fun s =>
    ⟨s.output, (upto b.startLabel (b.startLabel + maxBlobsPerThread)).foldl redirectUsed s.blobs⟩

/-- `stitch`'s loop body. The pixel below the seam is not among the labels the
minimum is taken over. -/
def stitchPixel (width row : Nat) (output : Buf Nat) (blobs : Table w) (col : Nat) : Table w :=
  let lblX := output (idx width (row, col))
  let lblA := output (idx width (row - 1, col - 1))
  let lblB := output (idx width (row - 1, col))
  let lblC := output (idx width (row - 1, col + 1))
  let m := minLabel 9999 [lblA, lblB, lblC]
  if m ≠ 9999 then linkAll blobs m [lblX, lblA, lblB, lblC] else blobs

/-- `stitch`. -/
def stitch (width : Nat) (sh : Shared w) (row : Nat) : Shared w :=
  { sh with blobs := (upto 1 (width - 1)).foldl (stitchPixel width row sh.output) sh.blobs }

/-- The four calls of `label`: the main thread's, then those of the three threads. -/
def bands : List Band :=
  [⟨1, 59, 1⟩, ⟨60, 119, maxBlobsPerThread * 1 + 1⟩, ⟨120, 179, maxBlobsPerThread * 2 + 1⟩,
   ⟨180, 239, maxBlobsPerThread * 3 + 1⟩]

/-- The rows of the three calls of `stitch`. -/
def seams : List Nat := [60, 120, 180]

/-- The calls of `label` as whole calls, one after another. -/
def runLabels (input : Buf UInt8) (width : Nat) (order : List Band) (sh : Shared w) :
    Option (Shared w) :=
  order.foldlM (fun sh b => label input width b sh) sh

/-- The state the threads start from: the caller's image and `blobs[...] = {0}`. -/
def Shared.fresh (output : Buf Nat) : Shared w := ⟨output, Buf.all Blob.zero⟩

/-- The merge loop's body, which skips unused slots. -/
def mergeUsed (s : Merge w) (i : Nat) : Merge w :=
  if (s.blobs i).label = 0 then s else mergeEntry s i

/-- `blob_detect_par` from the joins on: what follows the labelling and stitching threads. -/
def collect (stack : Buf (Blob w)) (biggest : Blob w) (width height : Nat) (sh : Shared w) :
    Detection w :=
  let blobs := (upto 1 (maxBlobsPerThread * 4)).foldl redirectEntry sh.blobs
  let m := (upto 1 (maxBlobsPerThread * 4)).reverse.foldl mergeUsed ⟨blobs, stack, 0⟩
  let relabelled := relabel width height m.blobs sh.output
  let found := m.consolidatedBlobs (biggestIndex m.consolidatedBlobs m.numBlobs)
  let biggest := biggest.fill found
  { numBlobs := m.numBlobs
    biggestBlob := biggest
    output := draw (fun v => v * 30 % 256) (drawnShort biggest) width height relabelled
    consolidatedBlobs := m.consolidatedBlobs
    relabelled := relabelled }

/-- `blob_detect_par` under a schedule: the order in which the calls of `label` run,
then the order of the calls of `stitch`. `none` when an assertion fires. -/
def blobDetectPar (order : List Band) (stitches : List Nat) (stack : Buf (Blob w))
    (biggest : Blob w) (output : Buf Nat) (input : Buf UInt8) (width height : Nat) :
    Option (Detection w) :=
  (runLabels input width order (Shared.fresh output)).map fun sh =>
    collect stack biggest width height (stitches.foldl (stitch width) sh)

end Motion
