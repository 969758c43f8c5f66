import Motion.Code.Blob

namespace Motion

/-- The labelling loop's body: the pixel is cleared, then labelled, and 255
stands for no neighbour. -/
def detectPixel (width : Nat) (input : Buf UInt8) (s : Scan w) (p : Pixel) : Scan w :=
  scanPixel 255 width input { s with output := s.output.write (idx width p) 0 } p

/-- The labelling loop, from the table declared with `= {0}`. -/
def labelLoop (w width height : Nat) (output : Buf Nat) (input : Buf UInt8) : Scan w :=
  (interior width height).foldl (detectPixel width input) ⟨output, Buf.all Blob.zero, 1⟩

/-- The declared number of entries of `blobs`. -/
def tableSize (width height : Nat) : Nat := width * height / 4

/-- `blob_detect` where its labels fit the table. `stack` is what `consolidated_blobs` holds
before it is written, `biggest` what the caller's record holds on entry. -/
def blobDetect (stack : Buf (Blob w)) (biggest : Blob w) (output : Buf Nat) (input : Buf UInt8)
    (width height : Nat) : Detection w :=
  let s := labelLoop w width height output input
  let blobs := (upto 1 s.labelCounter).foldl redirectEntry s.blobs
  let m := (upto 1 s.labelCounter).reverse.foldl mergeEntry ⟨blobs, stack, 0⟩
  let relabelled := relabel width height m.blobs s.output
  let found := m.consolidatedBlobs (biggestIndex m.consolidatedBlobs m.numBlobs)
  let biggest := biggest.fill found
  { numBlobs := m.numBlobs
    biggestBlob := biggest
    output := draw (fun v => ushort (v * 30)) (drawn biggest) width height relabelled
    consolidatedBlobs := m.consolidatedBlobs
    relabelled := relabelled }

/-- `blob_detect` in the table it declares: `none` where a label lies past its end. -/
def blobDetectRun (stack : Buf (Blob w)) (biggest : Blob w) (output : Buf Nat)
    (input : Buf UInt8) (width height : Nat) : Option (Detection w) :=
  if ∀ lbl ∈ upto 1 (labelLoop w width height output input).labelCounter,
      lbl < tableSize width height then
    some (blobDetect stack biggest output input width height)
  else none

end Motion
