import Motion.Lib.Trails
import Motion.Spec.Seams

/-! Which start the labels of a start lead to, told from the image and the order of the calls:
once the bands are labelled, once the seams are stitched, and once the links are redirected. -/

namespace Motion
open Labelling

/-- Where a call of `label` leaves links that led as `lead` does: a start is linked to the one
taken over at the last pixel of the band at which it is met, and the starts of the band are
followed down. -/
noncomputable def callLink (input : Buf UInt8) (width : Nat) (order : List Band)
    (lead : Nat → Nat) (b : Band) : Nat → Nat :=
  Links.followed (IdxIn width b)
    (metLink (parScene 0 input width order) (parStart input width order) (b.pixels width) lead)

/-- Where the calls of `label` in `done` leave them. -/
noncomputable def scanLink (input : Buf UInt8) (width : Nat) (order done : List Band) :
    Nat → Nat :=
  done.foldl (callLink input width order) id

/-- The least start right above a pixel of a seam. -/
noncomputable def leastOver (input : Buf UInt8) (width : Nat) (order : List Band)
    (x : Pixel) : Nat :=
  sInf {n | ∃ q, OverSeam input width x q ∧ parStart input width order q = n}

/-- At `x` the labels of a start are sewn to that one. -/
def SewsAt (input : Buf UInt8) (width : Nat) (order : List Band) (n : Nat) (x : Pixel) : Prop :=
  (∃ q, OverSeam input width x q) ∧ leastOver input width order x ≠ n ∧
    ∃ y, (y = x ∨ Above x y) ∧ Moving input width labelledHeight y ∧
      parStart input width order y = n

open Classical in
/-- What a stitch at `x` links a start to. -/
noncomputable def sewWrite (input : Buf UInt8) (width : Nat) (order : List Band) (n : Nat)
    (x : Pixel) : Option Nat :=
  if SewsAt input width order n x then some (leastOver input width order x) else none

/-- Where the stitches at the pixels of `l` leave a start: at what it is sewn to last, or where
the scans have left it. -/
noncomputable def sewLink (input : Buf UInt8) (width : Nat) (order : List Band) (l : List Pixel)
    (n : Nat) : Nat :=
  (Interleave.lastWrite (sewWrite input width order n) l).getD (scanLink input width order order n)

/-- Where the redirect pass leaves it. -/
noncomputable def endLink (input : Buf UInt8) (width : Nat) (order : List Band)
    (stitches : List Nat) : Nat → Nat :=
  Links.settled (sewLink input width order (seamPixels width stitches))

open Classical in
/-- The starts that come back to themselves. -/
noncomputable def returningStarts (input : Buf UInt8) (width : Nat) (order : List Band)
    (stitches : List Nat) : Finset Nat :=
  ((moving input width labelledHeight).image (parStart input width order)).filter
    (fun n => endLink input width order stitches n = n)

open Classical in
/-- What a scanned pixel writes to slot 0. -/
noncomputable def spillWrite (input : Buf UInt8) (width : Nat) (order : List Band)
    (x : Pixel) : Option Nat :=
  if Spills input width order x then some (parStart input width order x) else none

open Classical in
/-- What a stitch writes to it. -/
noncomputable def seamSpillWrite (input : Buf UInt8) (width : Nat) (order : List Band)
    (x : Pixel) : Option Nat :=
  if SeamSpills input width x then some (leastOver input width order x) else none

/-- The start slot 0 leads to after the scans of the pixels in `l` and the stitches in `l'`. -/
noncomputable def slotStart (input : Buf UInt8) (width : Nat) (order : List Band)
    (l l' : List Pixel) : Option Nat :=
  (Interleave.lastWrite (seamSpillWrite input width order) l').or
    (Interleave.lastWrite (spillWrite input width order) l)

/-- The moving pixels whose starts end at `n`. -/
noncomputable def endingAt (input : Buf UInt8) (width : Nat) (order : List Band)
    (stitches : List Nat) (n : Nat) : Finset Pixel :=
  (moving input width labelledHeight).filter
    (fun p => endLink input width order stitches (parStart input width order p) = n)

/-- Those whose starts come down to `n` by falling links. -/
noncomputable def fallingTo (input : Buf UInt8) (width : Nat) (order : List Band)
    (stitches : List Nat) (n : Nat) : Finset Pixel :=
  (moving input width labelledHeight).filter (fun p =>
    Links.root (endLink input width order stitches) (parStart input width order p) = n)

/-- The band whose labels are the highest. -/
def lastBand : Band := ⟨180, 239, maxBlobsPerThread * 3 + 1⟩

/-- Above the label of a start a slot is left unused: the start is not of that band, or the
band does not take all its labels. -/
def SlotAbove (input : Buf UInt8) (width : Nat) (order : List Band) (z : Nat) : Prop :=
  ¬(IdxIn width lastBand z ∧ labelsTaken input width order lastBand + 1 = maxBlobsPerThread)

/-- Slot 0 leads to a start that comes down to `n`, and a slot above it is unused. -/
def SlotLeaks (input : Buf UInt8) (width : Nat) (order : List Band) (stitches : List Nat)
    (n : Nat) : Prop :=
  ∃ z, slotStart input width order (order.flatMap (Band.pixels width))
      (seamPixels width stitches) = some z ∧
    Links.root (endLink input width order stitches) z = n ∧ SlotAbove input width order z

end Motion
