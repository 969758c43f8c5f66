import Motion.Code.PixelSteps
import Motion.Proofs.Window

/-! What `blur` does at one pixel: it reads inside its buffers, its totals fit in an
`int`, and the mean it stores lies between two values it has seen. -/

namespace Motion

variable {frame blurVector frame' blurVector' res : Buf UInt8}
  {frameWidth frameHeight blurWidth blurHeight : Nat} {p q c : Pixel} {ch : Nat}

/-- Whether a pixel is under the window of another. -/
def UnderWindow (blurWidth blurHeight : Nat) (p q : Pixel) : Prop :=
  (p.1 ≤ q.1 + blurHeight / 2 ∧ q.1 + blurHeight / 2 < p.1 + blurHeight) ∧
    p.2 ≤ q.2 + blurWidth / 2 ∧ q.2 + blurWidth / 2 < p.2 + blurWidth

/-- What is safe and averaging about `blur` at a pixel. -/
structure Averages (frame blurVector : Buf UInt8)
    (frameWidth frameHeight blurWidth blurHeight : Nat) (p : Pixel) : Prop where
  frame_reads : ∀ c ∈ window blurWidth blurHeight,
    ∀ k ∈ blurCellReads frameWidth frameHeight blurWidth blurHeight p c,
      (0 ≤ k ∧ k < 3 * frameWidth * frameHeight) ∧ k < 2 ^ 31
  vector_reads : ∀ c ∈ window blurWidth blurHeight,
    ∀ k ∈ blurCellWeights frameWidth frameHeight blurWidth blurHeight p c,
      0 ≤ k ∧ k < blurWidth * blurHeight
  totals_fit : ∀ cells, cells <+: window blurWidth blurHeight →
    (cells.foldl (blurCell frame blurVector frameWidth frameHeight blurWidth blurHeight p)
      ⟨0, 0, 0, 0⟩).blurValueTotal ≤ 2 ^ 31 - 1 ∧
    ∀ ch < 3, (cells.foldl (blurCell frame blurVector frameWidth frameHeight blurWidth
      blurHeight p) ⟨0, 0, 0, 0⟩).channel ch ≤ 2 ^ 31 - 1
  divisor : (blurWindow frame blurVector frameWidth frameHeight blurWidth blurHeight
    p).blurValueTotal ≠ 0
  lossless : ∀ res, ∀ ch < 3,
    (blur res frame blurVector frameWidth frameHeight blurWidth blurHeight
      (byteAt frameWidth p ch)).toNat =
    (blurWindow frame blurVector frameWidth frameHeight blurWidth blurHeight p).channel ch /
      (blurWindow frame blurVector frameWidth frameHeight blurWidth blurHeight p).blurValueTotal
  above_least : ∀ res, ∀ ch < 3, ∃ q, InFrame frameWidth frameHeight q ∧
    UnderWindow blurWidth blurHeight p q ∧
    frame (byteAt frameWidth q ch) ≤
      blur res frame blurVector frameWidth frameHeight blurWidth blurHeight
        (byteAt frameWidth p ch)
  below_greatest : ∀ res, ∀ ch < 3, ∃ q, InFrame frameWidth frameHeight q ∧
    UnderWindow blurWidth blurHeight p q ∧
    blur res frame blurVector frameWidth frameHeight blurWidth blurHeight
        (byteAt frameWidth p ch) ≤
      frame (byteAt frameWidth q ch)

section cell

theorem byteAt_lt (hp : InFrame frameWidth frameHeight p) (hch : ch < 3) :
    byteAt frameWidth p ch < 3 * frameWidth * frameHeight := by
  have := idx_lt hp
  unfold idx at this
  unfold byteAt
  rw [Nat.mul_assoc]
  omega

theorem cellPixel_inFrame (h : CellInside frameWidth frameHeight blurWidth blurHeight p c) :
    InFrame frameWidth frameHeight (cellPixel blurWidth blurHeight p c) := by
  unfold CellInside at h
  unfold InFrame cellPixel
  dsimp only
  omega

theorem cellPixel_underWindow (hc : c ∈ window blurWidth blurHeight)
    (h : CellInside frameWidth frameHeight blurWidth blurHeight p c) :
    UnderWindow blurWidth blurHeight p (cellPixel blurWidth blurHeight p c) := by
  rw [mem_window] at hc
  unfold CellInside at h
  unfold UnderWindow cellPixel
  dsimp only
  omega

/-- A cell off the frame reads nothing, one on it the bytes of the pixel it falls on. -/
theorem blurCellReads_eq :
    blurCellReads frameWidth frameHeight blurWidth blurHeight p c =
      if CellInside frameWidth frameHeight blurWidth blurHeight p c then
        (upto 0 3).map fun ch =>
          (byteAt frameWidth (cellPixel blurWidth blurHeight p c) ch : Int)
      else [] := by
  by_cases h : CellInside frameWidth frameHeight blurWidth blurHeight p c
  · rw [if_pos h]
    unfold CellInside at h
    have hrow : (p.1 : Int) + ((c.1 : Int) - (blurHeight / 2 : Nat)) =
        ((p.1 + c.1 - blurHeight / 2 : Nat) : Int) := by omega
    have hcol : (p.2 : Int) + ((c.2 : Int) - (blurWidth / 2 : Nat)) =
        ((p.2 + c.2 - blurWidth / 2 : Nat) : Int) := by omega
    have hl : upto 0 3 = [0, 1, 2] := rfl
    simp only [blurCellReads, hrow, hcol, hl, List.map_cons, List.map_nil]
    rw [if_pos (by omega)]
    unfold byteAt cellPixel
    push_cast
    rfl
  · rw [if_neg h]
    unfold CellInside at h
    unfold blurCellReads
    exact if_neg (by omega)

theorem blurCellWeights_eq :
    blurCellWeights frameWidth frameHeight blurWidth blurHeight p c =
      if CellInside frameWidth frameHeight blurWidth blurHeight p c then
        [((c.1 * blurWidth + c.2 : Nat) : Int)]
      else [] := by
  unfold blurCellWeights
  push_cast
  refine if_congr ?_ rfl rfl
  unfold CellInside
  omega

/-- A cell is settled by what it reads. -/
theorem blurCell_congr (t : Totals)
    (hf : ∀ k : Nat, (k : Int) ∈ blurCellReads frameWidth frameHeight blurWidth blurHeight p c →
      frame k = frame' k)
    (hv : ∀ k : Nat, (k : Int) ∈ blurCellWeights frameWidth frameHeight blurWidth blurHeight p c →
      blurVector k = blurVector' k) :
    blurCell frame blurVector frameWidth frameHeight blurWidth blurHeight p t c =
      blurCell frame' blurVector' frameWidth frameHeight blurWidth blurHeight p t c := by
  rw [blurCell_eq, blurCell_eq]
  by_cases h : CellInside frameWidth frameHeight blurWidth blurHeight p c
  · have hbyte : ∀ ch < 3, frame (byteAt frameWidth (cellPixel blurWidth blurHeight p c) ch) =
        frame' (byteAt frameWidth (cellPixel blurWidth blurHeight p c) ch) := by
      intro ch hch
      refine hf _ ?_
      rw [blurCellReads_eq, if_pos h]
      exact List.mem_map.mpr ⟨ch, by rw [mem_upto]; omega, rfl⟩
    have hweight : cellWeight blurVector blurWidth c = cellWeight blurVector' blurWidth c := by
      unfold cellWeight
      rw [hv]
      rw [blurCellWeights_eq, if_pos h]
      exact List.mem_singleton.mpr rfl
    rw [hbyte 0 (by decide), hbyte 1 (by decide), hbyte 2 (by decide), hweight]
  · rw [if_neg h, if_neg h]

end cell

section sums

theorem cellWeight_le (c : Pixel) : cellWeight blurVector blurWidth c ≤ 255 := by
  have := (blurVector (c.1 * blurWidth + c.2)).toNat_lt
  unfold cellWeight
  omega

/-- So many cells weigh no more than this, and no total of theirs is above 255 times it. -/
theorem cellSum_le (cells : List Pixel) {f : Pixel → Nat} {b : Nat} (hf : ∀ q, f q ≤ b) :
    cellSum blurVector frameWidth frameHeight blurWidth blurHeight p cells f ≤
      b * (255 * cells.length) := by
  rw [cellSum_eq_weigh]
  calc Mean.weigh _ _ _
      ≤ b * Mean.weigh (cellWeight blurVector blurWidth)
          (cells.filter (CellInside frameWidth frameHeight blurWidth blurHeight p))
          (fun _ => 1) := Mean.weigh_le (fun c _ => hf _)
    _ ≤ b * (255 * (cells.filter
          (CellInside frameWidth frameHeight blurWidth blurHeight p)).length) :=
        Nat.mul_le_mul_left _ (Mean.weigh_one_le (fun c _ => cellWeight_le c))
    _ ≤ b * (255 * cells.length) :=
        Nat.mul_le_mul_left _ (Nat.mul_le_mul_left _ (List.length_filter_le _ _))

/-- The totals of any part of a window that starts with its first cell fit in an `int`. -/
theorem prefix_fits (small : blurWidth * blurHeight ≤ 33025) {cells : List Pixel}
    (hcells : cells <+: window blurWidth blurHeight) {f : Pixel → Nat} (hf : ∀ q, f q ≤ 255) :
    cellSum blurVector frameWidth frameHeight blurWidth blurHeight p cells f ≤ 2 ^ 31 - 1 := by
  have hlen := hcells.length_le
  rw [window_length] at hlen
  have hsum : cellSum blurVector frameWidth frameHeight blurWidth blurHeight p cells f ≤
      255 * (255 * cells.length) := cellSum_le cells hf
  omega

/-- The bytes computed for a pixel, as the mean of the bytes under its window. -/
theorem blurredByte_eq (hch : ch < 3) :
    blurredByte frame blurVector frameWidth frameHeight blurWidth blurHeight p ch =
      UInt8.ofNat
        (cellSum blurVector frameWidth frameHeight blurWidth blurHeight p
          (window blurWidth blurHeight) (fun q => (frame (byteAt frameWidth q ch)).toNat) /
        cellSum blurVector frameWidth frameHeight blurWidth blurHeight p
          (window blurWidth blurHeight) (fun _ => 1)) := by
  rw [← channel_foldl hch, ← total_foldl frame]
  rfl

end sums

section mean

variable (hw : 1 ≤ blurWidth) (hh : 1 ≤ blurHeight)
  (centre : blurVector (blurHeight / 2 * blurWidth + blurWidth / 2) ≠ 0)
  (hp : InFrame frameWidth frameHeight p)

include hw hh centre hp

/-- The mean is a byte, and narrowing it loses nothing. -/
theorem blurredByte_toNat (frame : Buf UInt8) (hch : ch < 3) :
    (blurredByte frame blurVector frameWidth frameHeight blurWidth blurHeight p ch).toNat =
      cellSum blurVector frameWidth frameHeight blurWidth blurHeight p
        (window blurWidth blurHeight) (fun q => (frame (byteAt frameWidth q ch)).toNat) /
      cellSum blurVector frameWidth frameHeight blurWidth blurHeight p
        (window blurWidth blurHeight) (fun _ => 1) := by
  obtain ⟨c, _, hle⟩ := Mean.exists_mean_le (f := fun c =>
    (frame (byteAt frameWidth (cellPixel blurWidth blurHeight p c) ch)).toNat)
    (weights_pos hw hh centre hp)
  rw [blurredByte_eq hch, UInt8.toNat_ofNat_of_lt']
  refine Nat.lt_of_le_of_lt hle ?_
  exact UInt8.toNat_lt _

/-- It is between the bytes of two pixels under the window. -/
theorem blurredByte_between (frame : Buf UInt8) (hch : ch < 3) :
    (∃ q, InFrame frameWidth frameHeight q ∧ UnderWindow blurWidth blurHeight p q ∧
      frame (byteAt frameWidth q ch) ≤
        blurredByte frame blurVector frameWidth frameHeight blurWidth blurHeight p ch) ∧
    ∃ q, InFrame frameWidth frameHeight q ∧ UnderWindow blurWidth blurHeight p q ∧
      blurredByte frame blurVector frameWidth frameHeight blurWidth blurHeight p ch ≤
        frame (byteAt frameWidth q ch) := by
  have hpos := weights_pos hw hh centre hp
  have hseen : ∀ c ∈ (window blurWidth blurHeight).filter
      (CellInside frameWidth frameHeight blurWidth blurHeight p),
      InFrame frameWidth frameHeight (cellPixel blurWidth blurHeight p c) ∧
        UnderWindow blurWidth blurHeight p (cellPixel blurWidth blurHeight p c) := by
    intro c hc
    rw [List.mem_filter, decide_eq_true_eq] at hc
    exact ⟨cellPixel_inFrame hc.2, cellPixel_underWindow hc.1 hc.2⟩
  have hbyte := blurredByte_toNat hw hh centre hp frame hch
  constructor
  · obtain ⟨c, hc, hle⟩ := Mean.exists_le_mean (f := fun c =>
      (frame (byteAt frameWidth (cellPixel blurWidth blurHeight p c) ch)).toNat) hpos
    refine ⟨_, (hseen c hc).1, (hseen c hc).2, ?_⟩
    rw [UInt8.le_iff_toNat_le, hbyte]
    exact hle
  · obtain ⟨c, hc, hle⟩ := Mean.exists_mean_le (f := fun c =>
      (frame (byteAt frameWidth (cellPixel blurWidth blurHeight p c) ch)).toNat) hpos
    refine ⟨_, (hseen c hc).1, (hseen c hc).2, ?_⟩
    rw [UInt8.le_iff_toNat_le, hbyte]
    exact hle

end mean

/-- `blur` is safe and averaging at every pixel, whatever the kernel's size. -/
theorem blur_averages (frame blurVector : Buf UInt8)
    (frameWidth frameHeight blurWidth blurHeight : Nat)
    (fits : 3 * frameWidth * frameHeight < 2 ^ 31) (hw : 1 ≤ blurWidth) (hh : 1 ≤ blurHeight)
    (small : blurWidth * blurHeight ≤ 33025)
    (centre : blurVector (blurHeight / 2 * blurWidth + blurWidth / 2) ≠ 0)
    (p : Pixel) (hp : InFrame frameWidth frameHeight p) :
    Averages frame blurVector frameWidth frameHeight blurWidth blurHeight p where
  frame_reads := by
    intro c _ k hk
    rw [blurCellReads_eq] at hk
    split at hk
    · rename_i hc
      obtain ⟨ch, hch, rfl⟩ := List.mem_map.mp hk
      rw [mem_upto] at hch
      have hlt := byteAt_lt (cellPixel_inFrame hc) hch.2
      have hint := Nat.lt_trans hlt fits
      exact ⟨⟨Int.natCast_nonneg _, by exact_mod_cast hlt⟩, by exact_mod_cast hint⟩
    · cases hk
  vector_reads := by
    intro c hc k hk
    rw [blurCellWeights_eq] at hk
    split at hk
    · rw [List.mem_singleton.mp hk]
      have hlt := idx_lt (show InFrame blurWidth blurHeight c from mem_window.mp hc)
      exact ⟨Int.natCast_nonneg _, by exact_mod_cast hlt⟩
    · cases hk
  totals_fit := by
    intro cells hcells
    refine ⟨?_, ?_⟩
    · rw [total_foldl]
      exact prefix_fits small hcells (fun _ => by decide)
    · intro ch hch
      rw [channel_foldl hch]
      refine prefix_fits small hcells (fun q => ?_)
      have := (frame (byteAt frameWidth q ch)).toNat_lt
      omega
  divisor := by
    refine Nat.ne_of_gt ?_
    have hpos := weights_pos hw hh centre hp
    rwa [← total_foldl frame] at hpos
  lossless := by
    intro res ch hch
    rw [blur_apply res hp.1 hp.2 hch, blurredByte_toNat hw hh centre hp frame hch,
      ← channel_foldl hch, ← total_foldl frame]
    rfl
  above_least := by
    intro res ch hch
    rw [blur_apply res hp.1 hp.2 hch]
    exact (blurredByte_between hw hh centre hp frame hch).1
  below_greatest := by
    intro res ch hch
    rw [blur_apply res hp.1 hp.2 hch]
    exact (blurredByte_between hw hh centre hp frame hch).2

/-- A kernel larger than the frame, at a corner. -/
theorem blur_averages_corner :
    Averages (Buf.all 200) (Buf.all 255) 2 1 5 4 (0, 0) :=
  blur_averages _ _ 2 1 5 4 (by decide) (by decide) (by decide) (by decide) (by decide) (0, 0)
    (by decide)

end Motion
