import Motion.Lib.Mean
import Motion.Proofs.Blur
import Motion.Spec.Objects

/-! The totals of a window, as weighted sums over the cells that fall on the frame. -/

namespace Motion

section window

variable (frame blurVector : Buf UInt8) (frameWidth frameHeight blurWidth blurHeight : Nat)
  (p : Pixel)

/-- Whether a cell of the window falls on the frame. -/
def CellInside (c : Pixel) : Prop :=
  blurHeight / 2 ≤ p.1 + c.1 ∧ p.1 + c.1 < frameHeight + blurHeight / 2 ∧
    blurWidth / 2 ≤ p.2 + c.2 ∧ p.2 + c.2 < frameWidth + blurWidth / 2

instance : DecidablePred (CellInside frameWidth frameHeight blurWidth blurHeight p) :=
  fun _ => inferInstanceAs (Decidable (_ ∧ _ ∧ _ ∧ _))

/-- The pixel it falls on. -/
def cellPixel (c : Pixel) : Pixel := (p.1 + c.1 - blurHeight / 2, p.2 + c.2 - blurWidth / 2)

/-- The weight of a cell. -/
def cellWeight (c : Pixel) : Nat := (blurVector (c.1 * blurWidth + c.2)).toNat

/-- The weighted sum of a channel over a list of cells. -/
def cellSum (cells : List Pixel) (f : Pixel → Nat) : Nat :=
  ((cells.filter (CellInside frameWidth frameHeight blurWidth blurHeight p)).map (fun c =>
    cellWeight blurVector blurWidth c * f (cellPixel blurWidth blurHeight p c))).sum

theorem blurCell_eq (t : Totals) (c : Pixel) :
    blurCell frame blurVector frameWidth frameHeight blurWidth blurHeight p t c =
      if CellInside frameWidth frameHeight blurWidth blurHeight p c then
        { newR := t.newR + cellWeight blurVector blurWidth c *
            (frame (byteAt frameWidth (cellPixel blurWidth blurHeight p c) 0)).toNat
          newG := t.newG + cellWeight blurVector blurWidth c *
            (frame (byteAt frameWidth (cellPixel blurWidth blurHeight p c) 1)).toNat
          newB := t.newB + cellWeight blurVector blurWidth c *
            (frame (byteAt frameWidth (cellPixel blurWidth blurHeight p c) 2)).toNat
          blurValueTotal := t.blurValueTotal + cellWeight blurVector blurWidth c }
      else t := by
  have hrow : ((p.1 : Int) + ((c.1 : Int) - (blurHeight / 2 : Nat))).toNat =
      p.1 + c.1 - blurHeight / 2 := by omega
  have hcol : ((p.2 : Int) + ((c.2 : Int) - (blurWidth / 2 : Nat))).toNat =
      p.2 + c.2 - blurWidth / 2 := by omega
  simp only [blurCell, hrow, hcol]
  refine if_congr ?_ rfl rfl
  unfold CellInside
  omega

theorem cellSum_cons (c : Pixel) (cells : List Pixel) (f : Pixel → Nat) :
    cellSum blurVector frameWidth frameHeight blurWidth blurHeight p (c :: cells) f =
      (if CellInside frameWidth frameHeight blurWidth blurHeight p c then
        cellWeight blurVector blurWidth c * f (cellPixel blurWidth blurHeight p c) else 0) +
      cellSum blurVector frameWidth frameHeight blurWidth blurHeight p cells f := by
  unfold cellSum
  by_cases hc : CellInside frameWidth frameHeight blurWidth blurHeight p c
  · rw [List.filter_cons_of_pos (by simpa using hc), if_pos hc, List.map_cons, List.sum_cons]
  · rw [List.filter_cons_of_neg (by simpa using hc), if_neg hc, Nat.zero_add]

/-- The totals of a window, as sums over its cells. -/
theorem window_totals (cells : List Pixel) (t : Totals) :
    cells.foldl (blurCell frame blurVector frameWidth frameHeight blurWidth blurHeight p) t =
      { newR := t.newR + cellSum blurVector frameWidth frameHeight blurWidth blurHeight p cells
          (fun q => (frame (byteAt frameWidth q 0)).toNat)
        newG := t.newG + cellSum blurVector frameWidth frameHeight blurWidth blurHeight p cells
          (fun q => (frame (byteAt frameWidth q 1)).toNat)
        newB := t.newB + cellSum blurVector frameWidth frameHeight blurWidth blurHeight p cells
          (fun q => (frame (byteAt frameWidth q 2)).toNat)
        blurValueTotal := t.blurValueTotal +
          cellSum blurVector frameWidth frameHeight blurWidth blurHeight p cells (fun _ => 1) } := by
  induction cells generalizing t with
  | nil => simp [cellSum]
  | cons c cells ih =>
    rw [List.foldl_cons, ih, blurCell_eq]
    simp only [cellSum_cons]
    by_cases hc : CellInside frameWidth frameHeight blurWidth blurHeight p c
    · simp only [if_pos hc, Nat.mul_one, Nat.add_assoc]
    · simp only [if_neg hc, Nat.zero_add]

end window

/-- The cells of a window. -/
def window (blurWidth blurHeight : Nat) : List Pixel :=
  raster (upto 0 blurHeight) (upto 0 blurWidth)

/-- The running total of a channel. -/
def Totals.channel (t : Totals) (ch : Nat) : Nat :=
  if ch = 0 then t.newR else if ch = 1 then t.newG else t.newB

variable {frame blurVector : Buf UInt8} {frameWidth frameHeight blurWidth blurHeight : Nat}
  {p c : Pixel} {ch : Nat}

theorem mem_window : c ∈ window blurWidth blurHeight ↔ c.1 < blurHeight ∧ c.2 < blurWidth := by
  unfold window
  rw [mem_raster, mem_upto, mem_upto]
  omega

theorem window_length (blurWidth blurHeight : Nat) :
    (window blurWidth blurHeight).length = blurWidth * blurHeight := by
  simp [window, raster, upto, List.length_flatMap, Nat.mul_comm]

/-- A sum over the cells weighs the values of the pixels they fall on. -/
theorem cellSum_eq_weigh (cells : List Pixel) (f : Pixel → Nat) :
    cellSum blurVector frameWidth frameHeight blurWidth blurHeight p cells f =
      Mean.weigh (cellWeight blurVector blurWidth)
        (cells.filter (CellInside frameWidth frameHeight blurWidth blurHeight p))
        (fun c => f (cellPixel blurWidth blurHeight p c)) := rfl

/-- The total of a channel over the cells visited so far. -/
theorem channel_foldl (hch : ch < 3) (cells : List Pixel) :
    (cells.foldl (blurCell frame blurVector frameWidth frameHeight blurWidth blurHeight p)
      ⟨0, 0, 0, 0⟩).channel ch =
    cellSum blurVector frameWidth frameHeight blurWidth blurHeight p cells
      (fun q => (frame (byteAt frameWidth q ch)).toNat) := by
  rw [window_totals]
  obtain rfl | rfl | rfl : ch = 0 ∨ ch = 1 ∨ ch = 2 := by omega
  · simp [Totals.channel]
  · simp [Totals.channel]
  · simp [Totals.channel]

/-- The total of their weights. -/
theorem total_foldl (frame : Buf UInt8) (cells : List Pixel) :
    (cells.foldl (blurCell frame blurVector frameWidth frameHeight blurWidth blurHeight p)
      ⟨0, 0, 0, 0⟩).blurValueTotal =
    cellSum blurVector frameWidth frameHeight blurWidth blurHeight p cells (fun _ => 1) := by
  rw [window_totals]
  exact Nat.zero_add _

/-- The cell in the middle of the window falls on the pixel itself. -/
theorem centre_inside (hp : InFrame frameWidth frameHeight p) :
    CellInside frameWidth frameHeight blurWidth blurHeight p (blurHeight / 2, blurWidth / 2) := by
  unfold InFrame at hp
  unfold CellInside
  dsimp only
  omega

/-- Every pixel of the frame sees its own weight. -/
theorem weights_pos (hw : 1 ≤ blurWidth) (hh : 1 ≤ blurHeight)
    (centre : blurVector (blurHeight / 2 * blurWidth + blurWidth / 2) ≠ 0)
    (hp : InFrame frameWidth frameHeight p) :
    0 < cellSum blurVector frameWidth frameHeight blurWidth blurHeight p
      (window blurWidth blurHeight) (fun _ => 1) := by
  refine Mean.weigh_pos (x := (blurHeight / 2, blurWidth / 2)) ?_ ?_
  · rw [List.mem_filter, mem_window, decide_eq_true_eq]
    refine ⟨?_, centre_inside hp⟩
    dsimp only
    omega
  · refine Nat.pos_of_ne_zero ?_
    intro h0
    exact centre (UInt8.toNat_inj.mp h0)

section ints

variable (frame blurVector : Buf UInt8) (frameWidth frameHeight blurWidth blurHeight : Nat)

/-- The weights a pixel's window has on the frame. -/
def weightsUnder (p : Pixel) : Nat :=
  cellSum blurVector frameWidth frameHeight blurWidth blurHeight p (window blurWidth blurHeight)
    (fun _ => 1)

/-- The bytes of a channel under it, weighted. -/
def bytesUnder (p : Pixel) (ch : Nat) : Nat :=
  cellSum blurVector frameWidth frameHeight blurWidth blurHeight p (window blurWidth blurHeight)
    (fun q => (frame (byteAt frameWidth q ch)).toNat)

/-- No `int` of `blur` overflows, at any pixel of the frame. -/
structure SumsFit : Prop where
  bytes : 3 * frameWidth * frameHeight < intEnd
  weights : ∀ p, InFrame frameWidth frameHeight p →
    weightsUnder blurVector frameWidth frameHeight blurWidth blurHeight p < intEnd
  sums : ∀ p, InFrame frameWidth frameHeight p → ∀ ch < 3,
    bytesUnder frame blurVector frameWidth frameHeight blurWidth blurHeight p ch < intEnd

variable {frame blurVector frameWidth frameHeight blurWidth blurHeight}

theorem window_fit_iff :
    (blurWindow frame blurVector frameWidth frameHeight blurWidth blurHeight p).Fit ↔
      weightsUnder blurVector frameWidth frameHeight blurWidth blurHeight p < intEnd ∧
      ∀ ch < 3,
        bytesUnder frame blurVector frameWidth frameHeight blurWidth blurHeight p ch < intEnd := by
  have hchannel : ∀ ch < 3,
      (blurWindow frame blurVector frameWidth frameHeight blurWidth blurHeight p).channel ch =
        bytesUnder frame blurVector frameWidth frameHeight blurWidth blurHeight p ch :=
    fun ch hch => channel_foldl hch (window blurWidth blurHeight)
  have htotal :
      (blurWindow frame blurVector frameWidth frameHeight blurWidth blurHeight
        p).blurValueTotal =
        weightsUnder blurVector frameWidth frameHeight blurWidth blurHeight p :=
    total_foldl frame (window blurWidth blurHeight)
  rw [Totals.Fit, htotal]
  constructor
  · rintro ⟨hr, hg, hb, hw⟩
    refine ⟨hw, ?_⟩
    intro ch hch
    rw [← hchannel ch hch]
    obtain rfl | rfl | rfl : ch = 0 ∨ ch = 1 ∨ ch = 2 := by omega
    · exact hr
    · exact hg
    · exact hb
  · rintro ⟨hw, hall⟩
    have h0 := hall 0 (by decide)
    have h1 := hall 1 (by decide)
    have h2 := hall 2 (by decide)
    rw [← hchannel _ (by decide)] at h0 h1 h2
    exact ⟨h0, h1, h2, hw⟩

/-- Where no `int` overflows the checked run is `blur`, and elsewhere there is none. -/
theorem blurInt_eq_some_iff {r : Buf UInt8} :
    blurInt res frame blurVector frameWidth frameHeight blurWidth blurHeight = some r ↔
      SumsFit frame blurVector frameWidth frameHeight blurWidth blurHeight ∧
      blur res frame blurVector frameWidth frameHeight blurWidth blurHeight = r := by
  have hfit : (3 * frameWidth * frameHeight < intEnd ∧
      ∀ p ∈ raster (upto 0 frameHeight) (upto 0 frameWidth),
        (blurWindow frame blurVector frameWidth frameHeight blurWidth blurHeight p).Fit) ↔
      SumsFit frame blurVector frameWidth frameHeight blurWidth blurHeight := by
    have hmem : ∀ p, p ∈ raster (upto 0 frameHeight) (upto 0 frameWidth) ↔
        InFrame frameWidth frameHeight p := by
      intro p
      rw [mem_raster, mem_upto, mem_upto]
      unfold InFrame
      omega
    simp only [hmem, window_fit_iff]
    constructor
    · rintro ⟨hbytes, hall⟩
      exact ⟨hbytes, fun p hp => (hall p hp).1, fun p hp => (hall p hp).2⟩
    · rintro ⟨hbytes, hweights, hsums⟩
      exact ⟨hbytes, fun p hp => ⟨hweights p hp, hsums p hp⟩⟩
  unfold blurInt
  rw [← hfit]
  by_cases hbytes : 3 * frameWidth * frameHeight < intEnd
  · rw [if_pos hbytes, Fold.option_guard, and_iff_right hbytes]
    rfl
  · simp [hbytes]

/-- With a small kernel none overflows, whatever the bytes. -/
theorem SumsFit.of_small (frame blurVector : Buf UInt8)
    (bytes : 3 * frameWidth * frameHeight < intEnd)
    (small : 255 * (255 * (blurWidth * blurHeight)) < intEnd) :
    SumsFit frame blurVector frameWidth frameHeight blurWidth blurHeight := by
  have hweights : ∀ p, weightsUnder blurVector frameWidth frameHeight blurWidth blurHeight p ≤
      255 * (blurWidth * blurHeight) := by
    intro p
    have hle : weightsUnder blurVector frameWidth frameHeight blurWidth blurHeight p ≤ 255 *
        ((window blurWidth blurHeight).filter
          (CellInside frameWidth frameHeight blurWidth blurHeight p)).length :=
      Mean.weigh_one_le (fun _ _ => Nat.le_of_lt_succ (UInt8.toNat_lt _))
    have hcells := List.length_filter_le (CellInside frameWidth frameHeight blurWidth blurHeight p)
      (window blurWidth blurHeight)
    rw [window_length] at hcells
    exact hle.trans (Nat.mul_le_mul_left 255 hcells)
  have hsums : ∀ p ch, bytesUnder frame blurVector frameWidth frameHeight blurWidth blurHeight p
      ch ≤ 255 * weightsUnder blurVector frameWidth frameHeight blurWidth blurHeight p :=
    fun p ch => Mean.weigh_le (fun _ _ => Nat.le_of_lt_succ (UInt8.toNat_lt _))
  refine ⟨bytes, fun p _ => ?_, fun p _ ch _ => ?_⟩
  · have := hweights p
    omega
  · have := hweights p
    have := hsums p ch
    omega

end ints

end Motion
