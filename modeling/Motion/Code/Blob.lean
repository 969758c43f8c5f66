import Mathlib

namespace Motion

/-- A C array, as what each index holds. Being total it never stops an access
out of range: that an index stays in range is a theorem, not a check. -/
@[ext]
structure Buf (α : Type) where
  read : Nat → α

instance : CoeFun (Buf α) (fun _ => Nat → α) := ⟨Buf.read⟩

def Buf.write (b : Buf α) (i : Nat) (v : α) : Buf α := ⟨Function.update b.read i v⟩

/-- An array initialised with one value. -/
def Buf.all (v : α) : Buf α := ⟨fun _ => v⟩

@[simp] theorem Buf.write_same (b : Buf α) (i : Nat) (v : α) : b.write i v i = v := by
  simp [Buf.write]

@[simp] theorem Buf.write_other (b : Buf α) (v : α) (h : j ≠ i) : b.write i v j = b j := by
  simp [Buf.write, h]

theorem Buf.write_apply (b : Buf α) (i j : Nat) (v : α) :
    b.write i v j = if j = i then v else b j := by
  by_cases h : j = i <;> simp [h]

@[simp] theorem Buf.all_apply (v : α) (i : Nat) : Buf.all v i = v := rfl

/-- A pixel, as row and column. -/
abbrev Pixel := Nat × Nat

/-- `IDX(R, C)`. -/
def idx (width : Nat) (p : Pixel) : Nat := p.1 * width + p.2

/-- The values `for (i = a; i < b; i++)` takes. -/
def upto (a b : Nat) : List Nat := List.range' a (b - a)

/-- The pixels two nested loops visit, the row loop outside. -/
def raster (rows cols : List Nat) : List Pixel :=
  rows.flatMap fun row => cols.map fun col => (row, col)

/-- What a store of an `int` into an `unsigned short` keeps. -/
def ushort (n : Nat) : Nat := n % 65536

/-- What a store into a `short` makes of it. -/
def signedShort (n : Nat) : Int := if n % 65536 < 32768 then n % 65536 else n % 65536 - 65536

/-- `struct blob`. An `int` field never holds a negative value here; the
`unsigned long` fields have `w` bits, 32 on the board and 64 elsewhere. -/
structure Blob (w : Nat) where
  label : Nat
  xMin : Nat
  xMax : Nat
  yMin : Nat
  yMax : Nat
  centroidX : Nat
  centroidY : Nat
  sumX : BitVec w
  sumY : BitVec w
  mass : Nat
deriving DecidableEq

/-- An entry of a table declared with `= {0}`. -/
def Blob.zero : Blob w := ⟨0, 0, 0, 0, 0, 0, 0, 0, 0, 0⟩

/-- A new label's entry, written from the pixel that starts it. -/
def Blob.start (b : Blob w) (lbl : Nat) (p : Pixel) : Blob w :=
  { b with
    label := lbl, xMin := p.2, xMax := p.2, yMin := p.1, yMax := p.1,
    mass := 1, sumX := BitVec.ofNat w p.2, sumY := BitVec.ofNat w p.1 }

/-- One more pixel on an entry: min/max, mass and sums. -/
def Blob.grow (b : Blob w) (p : Pixel) : Blob w :=
  { b with
    xMin := if b.xMin > p.2 then p.2 else b.xMin
    xMax := if b.xMax < p.2 then p.2 else b.xMax
    yMin := if b.yMin > p.1 then p.1 else b.yMin
    yMax := if b.yMax < p.1 then p.1 else b.yMax
    mass := b.mass + 1
    sumX := b.sumX + BitVec.ofNat w p.2
    sumY := b.sumY + BitVec.ofNat w p.1 }

/-- Entry `b` merged into the lower entry `d`. -/
def Blob.absorb (d b : Blob w) : Blob w :=
  { d with
    xMin := if d.xMin > b.xMin then b.xMin else d.xMin
    xMax := if d.xMax < b.xMax then b.xMax else d.xMax
    yMin := if d.yMin > b.yMin then b.yMin else d.yMin
    yMax := if d.yMax < b.yMax then b.yMax else d.yMax
    mass := d.mass + b.mass
    sumX := d.sumX + b.sumX
    sumY := d.sumY + b.sumY }

/-- The entry of `consolidated_blobs` recorded from a root: every field is
written, the centroids by `unsigned long` division. -/
def Blob.consolidate (b : Blob w) (numBlobs : Nat) : Blob w :=
  { b with
    label := numBlobs
    centroidX := (b.sumX / BitVec.ofNat w b.mass).toNat
    centroidY := (b.sumY / BitVec.ofNat w b.mass).toNat }

/-- The fields copied into the caller's `biggest_blob`; its sums stay as they were. -/
def Blob.fill (biggest b : Blob w) : Blob w :=
  { biggest with
    label := b.label, xMin := b.xMin, xMax := b.xMax, yMin := b.yMin, yMax := b.yMax,
    mass := b.mass, centroidX := b.centroidX, centroidY := b.centroidY }

/-- `blobs`, the label table. -/
abbrev Table (w : Nat) := Buf (Blob w)

/-- The least nonzero label below `unfound`, or `unfound` itself: the chain of
`if (lbl != 0 && lbl < min_label)` lines, in their order. -/
def minLabel (unfound : Nat) (lbls : List Nat) : Nat :=
  lbls.foldl (fun m l => if l ≠ 0 ∧ l < m then l else m) unfound

/-- The chain of `if (lbl != min_label) blobs[lbl].label = min_label` lines. A
background neighbour is label 0 and writes slot 0. -/
def linkAll (blobs : Table w) (m : Nat) (lbls : List Nat) : Table w :=
  lbls.foldl
    (fun t l => if l ≠ m then t.write l { t l with label := m } else t) blobs

/-- What the labelling loops carry. -/
structure Scan (w : Nat) where
  output : Buf Nat
  blobs : Table w
  labelCounter : Nat

/-- The labels of the pixels A, B, C, D around X:

    A B C
    D X
-/
def around (width : Nat) (output : Buf Nat) (p : Pixel) : List Nat :=
  [output (idx width (p.1 - 1, p.2 - 1)), output (idx width (p.1 - 1, p.2)),
   output (idx width (p.1 - 1, p.2 + 1)), output (idx width (p.1, p.2 - 1))]

/-- The body both labelling loops share; `unfound` is the value of `min_label`
that means that no neighbour was found. -/
def scanPixel (unfound width : Nat) (input : Buf UInt8) (s : Scan w) (p : Pixel) : Scan w :=
  if input (idx width p) > 0 then
    let lbls := around width s.output p
    let m := minLabel unfound lbls
    if m = unfound then
      { output := s.output.write (idx width p) (ushort s.labelCounter)
        blobs := s.blobs.write s.labelCounter
          ((s.blobs s.labelCounter).start s.labelCounter p)
        labelCounter := s.labelCounter + 1 }
    else
      { s with
        output := s.output.write (idx width p) (ushort m)
        blobs := linkAll (s.blobs.write m ((s.blobs m).grow p)) m lbls }
  else
    { s with output := s.output.write (idx width p) 0 }

/-- The redirect of one entry to what its link's entry says. -/
def redirectEntry (blobs : Table w) (i : Nat) : Table w :=
  if (blobs i).label ≠ i then
    blobs.write i { blobs i with label := (blobs (blobs i).label).label }
  else blobs

/-- What the merge loops carry. The list of final blobs has no end here: what `blob_detect_par`
does once it has recorded more than the 200 it declares is not modelled. -/
structure Merge (w : Nat) where
  blobs : Table w
  consolidatedBlobs : Buf (Blob w)
  numBlobs : Nat

/-- One turn of the merge loop: an entry that points elsewhere is merged into
the one it points to, a root is recorded. -/
def mergeEntry (s : Merge w) (i : Nat) : Merge w :=
  let d := (s.blobs i).label
  if d ≠ i then
    { s with blobs := s.blobs.write d ((s.blobs d).absorb (s.blobs i)) }
  else
    { s with
      consolidatedBlobs :=
        s.consolidatedBlobs.write s.numBlobs ((s.blobs i).consolidate s.numBlobs)
      numBlobs := s.numBlobs + 1 }

/-- The pixels off the border, in the order the loops visit them. -/
def interior (width height : Nat) : List Pixel :=
  raster (upto 1 (height - 1)) (upto 1 (width - 1))

/-- The relabel loop: nonzero labels become what their entry says. -/
def relabel (width height : Nat) (blobs : Table w) (output : Buf Nat) : Buf Nat :=
  (interior width height).foldl
    (fun out p => if out (idx width p) ≠ 0 then
      out.write (idx width p) (ushort (blobs (out (idx width p))).label) else out)
    output

/-- The first of the recorded blobs that no other exceeds in mass; 0 when none is recorded. -/
def biggestIndex (consolidatedBlobs : Buf (Blob w)) (numBlobs : Nat) : Nat :=
  (upto 0 numBlobs).foldl
    (fun b i => if (consolidatedBlobs i).mass > (consolidatedBlobs b).mass then i else b) 0

/-- Whether a box or its centroid cross covers a pixel. -/
def covers (xMin xMax yMin yMax centroidX centroidY : Int) (p : Pixel) : Bool :=
  ((p.2 = xMin ∨ p.2 = xMax) ∧ (p.1 > yMin ∧ p.1 < yMax)) ∨
  ((p.1 = yMin ∨ p.1 = yMax) ∧ (p.2 > xMin ∧ p.2 < xMax)) ∨
  ((p.2 - centroidX).natAbs < 2 ∨ (p.1 - centroidY).natAbs < 2) ∧
    (p.1 > yMin + 10 ∧ p.1 < yMax - 10 ∧ p.2 > xMin + 10 ∧ p.2 < xMax - 10)

/-- What `blob_detect` draws of the biggest blob. -/
def drawn (b : Blob w) : Pixel → Bool :=
  covers b.xMin b.xMax b.yMin b.yMax b.centroidX b.centroidY

/-- What `blob_detect_par` draws of it, from copies of its fields in `short`s. -/
def drawnShort (b : Blob w) : Pixel → Bool :=
  covers (signedShort b.xMin) (signedShort b.xMax) (signedShort b.yMin) (signedShort b.yMax)
    (signedShort b.centroidX) (signedShort b.centroidY)

/-- The last pass: brightness differences magnified, box and cross drawn. -/
def draw (magnify : Nat → Nat) (drawn : Pixel → Bool) (width height : Nat) (output : Buf Nat) :
    Buf Nat :=
  (interior width height).foldl
    (fun out p => out.write (idx width p)
      (if drawn p then 255 else magnify (out (idx width p))))
    output

/-- What a detector leaves behind: the value returned, the caller's record and
image, and the locals `consolidated_blobs` and `output` before the last pass. -/
structure Detection (w : Nat) where
  numBlobs : Nat
  biggestBlob : Blob w
  output : Buf Nat
  consolidatedBlobs : Buf (Blob w)
  relabelled : Buf Nat

end Motion
