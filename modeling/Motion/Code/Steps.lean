import Motion.Code.BlobDetectPar

/-! `blob_detect_par` one loop turn at a time, up to the relabel loop, with the
entries of `blobs` each turn uses. -/

namespace Motion

/-- The declared number of entries of `blobs` in `blob_detect_par`. -/
def parTableSize : Nat := (maxBlobsPerThread + 1) * 4

/-- One turn of one of the loops. -/
inductive Act
  | label (b : Band) (p : Pixel)
  | redirectUsed (i : Nat)
  | stitch (p : Pixel)
  | redirect (i : Nat)
  | merge (i : Nat)
  | relabel (p : Pixel)
deriving DecidableEq

/-- What the turns work on: what the threads share, the counter of each call of
`label`, and the list of final blobs. -/
structure Machine (w : Nat) where
  output : Buf Nat
  blobs : Table w
  labelCounter : Band → Nat
  consolidatedBlobs : Buf (Blob w)
  numBlobs : Nat

/-- The state before the threads start; a call of `label` counts from its `start_label`. -/
def Machine.start (stack : Buf (Blob w)) (output : Buf Nat) : Machine w :=
  ⟨output, Buf.all Blob.zero, Band.startLabel, stack, 0⟩

/-- The relabel loop's body. -/
def relabelPixel (width : Nat) (blobs : Table w) (out : Buf Nat) (p : Pixel) : Buf Nat :=
  if out (idx width p) ≠ 0 then
    out.write (idx width p) (ushort (blobs (out (idx width p))).label)
  else out

/-- One turn; `none` when the assertion fires. A turn is taken as a whole: of what its loads and
stores may do between those of another thread's turn nothing is said, and two label threads that
count in one entry could lose a count that way. -/
def step (input : Buf UInt8) (width : Nat) (s : Machine w) : Act → Option (Machine w)
  | .label b p =>
    (labelPixel width input b.startLabel ⟨s.output, s.blobs, s.labelCounter b⟩ p).map fun t =>
      { s with
        output := t.output
        blobs := t.blobs
        labelCounter := Function.update s.labelCounter b t.labelCounter }
  | .redirectUsed i => some { s with blobs := redirectUsed s.blobs i }
  | .stitch p => some { s with blobs := stitchPixel width p.1 s.output s.blobs p.2 }
  | .redirect i => some { s with blobs := redirectEntry s.blobs i }
  | .merge i =>
    let m := mergeUsed ⟨s.blobs, s.consolidatedBlobs, s.numBlobs⟩ i
    some { s with
      blobs := m.blobs, consolidatedBlobs := m.consolidatedBlobs, numBlobs := m.numBlobs }
  | .relabel p => some { s with output := relabelPixel width s.blobs s.output p }

/-- The entries of `blobs` that the `if (lbl != min_label)` lines use, and that of the minimum. -/
def linkUses (m : Nat) (lbls : List Nat) : List Nat := m :: lbls.filter (· ≠ m)

/-- The entries of `blobs` a turn uses. The assertion stands before a new label's entry
is written. -/
def uses (input : Buf UInt8) (width : Nat) (s : Machine w) : Act → List Nat
  | .label b p =>
    if input (idx width p) > 0 then
      let lbls := around width s.output p
      let m := minLabel 9999 lbls
      if m = 9999 then [s.labelCounter b] else linkUses m lbls
    else []
  | .redirectUsed i =>
    if (s.blobs i).label ≠ i ∧ (s.blobs i).label ≠ 0 then [i, (s.blobs i).label] else [i]
  | .stitch p =>
    let lblX := s.output (idx width p)
    let lblA := s.output (idx width (p.1 - 1, p.2 - 1))
    let lblB := s.output (idx width (p.1 - 1, p.2))
    let lblC := s.output (idx width (p.1 - 1, p.2 + 1))
    let m := minLabel 9999 [lblA, lblB, lblC]
    if m ≠ 9999 then linkUses m [lblX, lblA, lblB, lblC] else []
  | .redirect i => if (s.blobs i).label ≠ i then [i, (s.blobs i).label] else [i]
  | .merge i =>
    if (s.blobs i).label ≠ 0 ∧ (s.blobs i).label ≠ i then [i, (s.blobs i).label] else [i]
  | .relabel p => if s.output (idx width p) ≠ 0 then [s.output (idx width p)] else []

/-- The turns of one call of `label`. -/
def labelActs (width : Nat) (b : Band) : List Act :=
  (b.pixels width).map (Act.label b) ++
    (upto b.startLabel (b.startLabel + maxBlobsPerThread)).map Act.redirectUsed

/-- The turns of one call of `stitch`. -/
def stitchActs (width row : Nat) : List Act :=
  (upto 1 (width - 1)).map fun col => Act.stitch (row, col)

/-- The turns of `blob_detect_par` in their order: the calls of `label` and of `stitch` as
whole calls, then the loops that follow the joins. -/
def acts (width height : Nat) (order : List Band) (stitches : List Nat) : List Act :=
  order.flatMap (labelActs width) ++ stitches.flatMap (stitchActs width) ++
    ((upto 1 (maxBlobsPerThread * 4)).map Act.redirect ++
      (upto 1 (maxBlobsPerThread * 4)).reverse.map Act.merge ++
      (interior width height).map Act.relabel)

end Motion
