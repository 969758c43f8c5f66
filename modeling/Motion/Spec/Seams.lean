import Motion.Spec.Bands

/-! What `stitch` works on: the pixels along the seams and the moving pixels
above them, and what it does there, told from the image alone. -/

namespace Motion
open Labelling

/-- The pixels the calls of `stitch` visit. -/
def seamPixels (width : Nat) (stitches : List Nat) : List Pixel :=
  raster stitches (upto 1 (width - 1))

/-- A moving pixel right above a pixel of a seam: one of those a minimum is taken over. -/
def OverSeam (input : Buf UInt8) (width : Nat) (p q : Pixel) : Prop :=
  Above p q ∧ Moving input width labelledHeight q

/-- Where a link is written upwards: the pixel below the seam started before all those
above it, and the minimum is not taken over it. -/
def Rises (input : Buf UInt8) (width : Nat) (order : List Band) (p : Pixel) : Prop :=
  Moving input width labelledHeight p ∧ (∃ q, OverSeam input width p q) ∧
    ∀ q, OverSeam input width p q →
      parStart input width order p < parStart input width order q

/-- Where slot 0 is written: some pixel above the seam moves, and of it and those
above it some does not. -/
def SeamSpills (input : Buf UInt8) (width : Nat) (p : Pixel) : Prop :=
  (∃ q, OverSeam input width p q) ∧
    (¬Moving input width labelledHeight p ∨
      ∃ q, Above p q ∧ ¬Moving input width labelledHeight q)

/-- The labels of `q`'s start are met in the scan: beside one of them an earlier start's
label is taken over. -/
def Met (input : Buf UInt8) (width : Nat) (order : List Band) (q : Pixel) : Prop :=
  ∃ x y, (parScene 0 input width order).back x y ∧
    parStart input width order y = parStart input width order q ∧
    parStart input width order x < parStart input width order q

/-- They are sewn to another start's at a pixel `x` of a seam, where that one is the least. -/
def SewnAt (input : Buf UInt8) (width : Nat) (order : List Band) (x q : Pixel) : Prop :=
  ∃ a, OverSeam input width x a ∧
    (∀ b, OverSeam input width x b →
      parStart input width order a ≤ parStart input width order b) ∧
    ∃ y, (y = x ∨ Above x y) ∧ Moving input width labelledHeight y ∧
      parStart input width order y = parStart input width order q ∧
      parStart input width order a ≠ parStart input width order q

/-- A start whose label is neither met nor sewn to another. -/
def Survives (input : Buf UInt8) (width : Nat) (order : List Band) (stitches : List Nat)
    (q : Pixel) : Prop :=
  Moving input width labelledHeight q ∧ ¬Met input width order q ∧
    ∀ x ∈ seamPixels width stitches, ¬SewnAt input width order x q

open Classical in
/-- The starts that survive, told from the image alone. -/
noncomputable def survivors (input : Buf UInt8) (width : Nat) (order : List Band)
    (stitches : List Nat) : Finset Nat :=
  ((moving input width labelledHeight).filter (Survives input width order stitches)).image
    (parStart input width order)

variable {width : Nat} {stitches : List Nat} {p q : Pixel}

theorem mem_seamPixels : p ∈ seamPixels width stitches ↔
    p.1 ∈ stitches ∧ 1 ≤ p.2 ∧ p.2 + 1 < width := by
  unfold seamPixels
  rw [mem_raster, mem_upto]
  exact and_congr_right (fun _ => by omega)

theorem Above.near (h : Above p q) : q.2 ≤ p.2 + 1 ∧ p.2 ≤ q.2 + 1 := by
  unfold Above at h
  omega

/-- A pixel of a seam is off the border. -/
theorem seam_inside (fair : stitches.Perm seams) (hp : p ∈ seamPixels width stitches) :
    Inside width labelledHeight p := by
  obtain ⟨hs, hc⟩ := mem_seamPixels.mp hp
  have hall : ∀ r ∈ seams, 1 ≤ r ∧ r + 1 < labelledHeight := by decide
  have hr := hall p.1 (fair.mem_iff.mp hs)
  unfold Inside
  omega

end Motion
