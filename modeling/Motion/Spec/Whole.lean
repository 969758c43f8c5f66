import Motion.Spec.StartLinks

/-! Images both detectors make the same objects of, and what is then left to tell their
reports apart: which object is reported, and which one slot 0 is written for. -/

namespace Motion
open Labelling

/-- Where an object begins. -/
noncomputable def firstOf (input : Buf UInt8) (width height : Nat) (p : Pixel) : Nat :=
  sInf (idx width '' object input width height p)

/-- A pixel of the object with most pixels; of several, the one that begins last. -/
structure Largest (input : Buf UInt8) (width height : Nat) (p : Pixel) : Prop where
  moving : Moving input width height p
  most : ∀ q, Moving input width height q →
    (object input width height q).ncard ≤ (object input width height p).ncard
  last : ∀ q, Moving input width height q →
    firstOf input width height p < firstOf input width height q →
    (object input width height q).ncard < (object input width height p).ncard

/-- What makes the labels of either detector come out as the objects. -/
structure Whole (input : Buf UInt8) (width : Nat) (order : List Band) (stitches : List Nat) :
    Prop where
  /-- The last band ends in a row that belongs to the border. -/
  dark : ∀ p : Pixel, p.1 = 239 → ¬Moving input width labelledHeight p
  level : ∀ x ∈ seamPixels width stitches, ¬Rises input width order x
  /-- Below an inactive pixel of a seam nothing is joined that is not connected. -/
  bridged : ∀ x ∈ seamPixels width stitches, ¬Moving input width labelledHeight x →
    ∀ q r, OverSeam input width x q → OverSeam input width x r →
      Connected input width labelledHeight q r
  met : StartsMet input width 240
  /-- A start survives only where its object begins. -/
  sewn : ∀ q r, Connected input width labelledHeight q r →
    idx width r < parStart input width order q → ¬Survives input width order stitches q

/-- The object slot 0 is last written for, where a slot above the label written is unused. -/
def SpillsFrom (input : Buf UInt8) (width : Nat) (order : List Band) (stitches : List Nat)
    (p : Pixel) : Prop :=
  ∃ q, Moving input width labelledHeight q ∧
    slotStart input width order (order.flatMap (Band.pixels width)) (seamPixels width stitches) =
      some (parStart input width order q) ∧
    SlotAbove input width order (parStart input width order q) ∧
    Connected input width labelledHeight q p

/-- Something moves and, should the largest object have more than 50 pixels, the objects fit
the array of one thread and slot 0 is not last written for that one. -/
def LargestSafe (input : Buf UInt8) (width : Nat) (order : List Band) (stitches : List Nat) :
    Prop :=
  ∃ p, Largest input width 240 p ∧ (50 < (object input width 240 p).ncard →
    (objects input width 240).ncard ≤ maxBlobsPerThread ∧
    ¬SpillsFrom input width order stitches p)

variable {input : Buf UInt8} {width height : Nat} {p q : Pixel}

theorem firstOf_eq (h : Connected input width height p q) :
    firstOf input width height p = firstOf input width height q := by
  unfold firstOf
  rw [object_eq_iff.mpr h]

end Motion
