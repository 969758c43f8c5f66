import Motion.Code.Stages
import Motion.Proofs.ScanPixel
import Motion.Proofs.Subtract
import Motion.Proofs.Window

/-! What the stages of `seq` make of a scene in which nothing moves: the blurred
frame is compared with the background as it is, so edges show. -/

namespace Motion

variable {frameWidth frameHeight : Nat} {p : Pixel}

/-- The cells of the kernel both pipelines use. -/
def cells : List Pixel := raster (upto 0 3) (upto 0 3)

theorem cellWeight_kernel {c : Pixel} (hc : c ∈ cells) :
    cellWeight kernel 3 c = if c = (1, 1) then 9 else 3 := by
  have hall : ∀ c ∈ cells, cellWeight kernel 3 c = if c = (1, 1) then 9 else 3 := by decide
  exact hall c hc

/-- The cells of the kernel that fall on the frame. -/
def cellsInside (frameWidth frameHeight : Nat) (p : Pixel) : Finset Pixel :=
  (cells.filter (CellInside frameWidth frameHeight 3 3 p)).toFinset

theorem mem_cellsInside {c : Pixel} : c ∈ cellsInside frameWidth frameHeight p ↔
    (c.1 < 3 ∧ c.2 < 3) ∧ 1 ≤ p.1 + c.1 ∧ p.1 + c.1 < frameHeight + 1 ∧
      1 ≤ p.2 + c.2 ∧ p.2 + c.2 < frameWidth + 1 := by
  unfold cellsInside cells
  rw [List.mem_toFinset, List.mem_filter, mem_raster, mem_upto, mem_upto, decide_eq_true_eq]
  unfold CellInside
  omega

theorem cellPixel_three (p c : Pixel) : cellPixel 3 3 p c = (p.1 + c.1 - 1, p.2 + c.2 - 1) := rfl

/-- The cells fall on the pixel itself and on those touching it, each on one. -/
theorem cells_bijOn (hp : InFrame frameWidth frameHeight p) :
    Set.BijOn (cellPixel 3 3 p) (cellsInside frameWidth frameHeight p)
      (insert p (neighbours frameWidth frameHeight p) : Finset Pixel) := by
  have hmem : ∀ q, q ∈ insert p (neighbours frameWidth frameHeight p) ↔
      InFrame frameWidth frameHeight q ∧ p.1 ≤ q.1 + 1 ∧ q.1 ≤ p.1 + 1 ∧
        p.2 ≤ q.2 + 1 ∧ q.2 ≤ p.2 + 1 := by
    intro q
    rw [Finset.mem_insert, mem_neighbours]
    unfold Adj8
    constructor
    · rintro (rfl | ⟨hq, _, h⟩)
      · exact ⟨hp, by omega⟩
      · exact ⟨hq, h⟩
    · rintro ⟨hq, h⟩
      by_cases he : q = p
      · exact Or.inl he
      · exact Or.inr ⟨hq, Ne.symm he, h⟩
  unfold InFrame at hmem hp
  refine ⟨?_, ?_, ?_⟩
  · intro c hc
    have hc' := mem_cellsInside.mp hc
    rw [cellPixel_three, Finset.mem_coe, hmem]
    simp only
    omega
  · intro c hc d hd he
    have hc' := mem_cellsInside.mp hc
    have hd' := mem_cellsInside.mp hd
    rw [cellPixel_three, cellPixel_three, Prod.mk.injEq] at he
    exact Prod.ext (by omega) (by omega)
  · intro q hq
    rw [Finset.mem_coe, hmem] at hq
    refine ⟨(q.1 + 1 - p.1, q.2 + 1 - p.2), mem_cellsInside.mpr (by simp only; omega), ?_⟩
    rw [cellPixel_three]
    exact Prod.ext (by simp only; omega) (by simp only; omega)

/-- Over the kernel's cells a pixel counts nine, a pixel touching it three. -/
theorem cellSum_kernel (hp : InFrame frameWidth frameHeight p) (f : Pixel → Nat) :
    cellSum kernel frameWidth frameHeight 3 3 p cells f =
      9 * f p + 3 * ∑ q ∈ neighbours frameWidth frameHeight p, f q := by
  have hnot : p ∉ neighbours frameWidth frameHeight p := by
    intro hm
    exact (mem_neighbours.mp hm).2.1 rfl
  have hnear : ∀ q ∈ neighbours frameWidth frameHeight p,
      (if q = p then 9 else 3) * f q = 3 * f q := by
    intro q hq
    rw [if_neg]
    rintro rfl
    exact hnot hq
  have hweight : ∀ c ∈ cellsInside frameWidth frameHeight p,
      cellWeight kernel 3 c * f (cellPixel 3 3 p c) =
        (if cellPixel 3 3 p c = p then 9 else 3) * f (cellPixel 3 3 p c) := by
    intro c hc
    have hin := mem_cellsInside.mp hc
    rw [cellWeight_kernel (List.mem_of_mem_filter (List.mem_toFinset.mp hc)), cellPixel_three]
    congr 1
    refine if_congr ?_ rfl rfl
    rw [Prod.ext_iff, Prod.ext_iff]
    simp only
    omega
  have hnodup : (cells.filter (CellInside frameWidth frameHeight 3 3 p)).Nodup :=
    (by decide : cells.Nodup).filter _
  obtain ⟨hmaps, hinj, hsurj⟩ := cells_bijOn hp
  unfold cellSum
  rw [← List.sum_toFinset _ hnodup]
  change ∑ c ∈ cellsInside frameWidth frameHeight p, _ = _
  rw [Finset.sum_congr rfl hweight,
    Finset.sum_nbij (cellPixel 3 3 p) hmaps hinj hsurj (fun _ _ => rfl)
      (g := fun q => (if q = p then 9 else 3) * f q),
    Finset.sum_insert hnot, if_pos rfl, Finset.sum_congr rfl hnear, Finset.mul_sum]

/-- What `blur` computes with the kernel: the mean around the pixel. -/
theorem blurredByte_kernel (b : Buf UInt8) (hp : InFrame frameWidth frameHeight p) {c : Nat}
    (hc : c < 3) :
    (blurredByte b kernel frameWidth frameHeight 3 3 p c).toNat =
      smoothed b frameWidth frameHeight p c := by
  have hle := smoothed_le b frameWidth frameHeight p c
  have hbyte : blurredByte b kernel frameWidth frameHeight 3 3 p c =
      UInt8.ofNat (smoothed b frameWidth frameHeight p c) := by
    unfold blurredByte blurWindow
    rw [window_totals]
    change UInt8.ofNat ((if c = 0 then 0 + cellSum _ _ _ _ _ _ cells _ else if c = 1 then
      0 + cellSum _ _ _ _ _ _ cells _ else 0 + cellSum _ _ _ _ _ _ cells _) /
      (0 + cellSum _ _ _ _ _ _ cells _)) = _
    rw [cellSum_kernel hp, cellSum_kernel hp, cellSum_kernel hp, cellSum_kernel hp]
    unfold smoothed
    obtain rfl | rfl | rfl : c = 0 ∨ c = 1 ∨ c = 2 := by omega
    · simp
    · simp
    · simp
  have hsize : UInt8.size = 256 := rfl
  rw [hbyte, UInt8.toNat_ofNat_of_lt' (by omega)]

section quiet

variable {w width height : Nat} {input : Buf UInt8}
  (quiet : ∀ p, Inside width height p → input (idx width p) = 0)

include quiet

end quiet

/-- The length rounds towards 0, which a product down to -3 comes to. -/
theorem blobsLength_neg_iff :
    blobsLength frameWidth frameHeight < 0 ↔
      signedShort frameWidth * signedShort frameHeight ≤ -4 := by
  unfold blobsLength
  generalize signedShort frameWidth * signedShort frameHeight = n
  by_cases hn : 0 ≤ n
  · rw [Int.tdiv_eq_ediv_of_nonneg hn]
    omega
  · obtain ⟨m, rfl⟩ : ∃ m, n = -m := ⟨-n, by omega⟩
    rw [Int.neg_tdiv, Int.tdiv_eq_ediv_of_nonneg (by omega)]
    omega

/-- `seq` gets past its blur and the declaration of `blobs` where the frame's bytes and the
product of its sizes allow it. -/
theorem seqRun_eq_some_iff {w : Nat} {stack : Buf (Blob w)} {biggest : Blob w}
    {frameBlobs : Buf Nat} {background frameRaw : Buf UInt8} {d : Detection w} :
    seqRun stack biggest frameBlobs frameWidth frameHeight background frameRaw = some d ↔
      (3 * frameWidth * frameHeight < intEnd ∧
        -4 < signedShort frameWidth * signedShort frameHeight) ∧
      blobDetectRun stack biggest frameBlobs
        (seqThresh frameWidth frameHeight background frameRaw) (short frameWidth)
        (short frameHeight) = some d := by
  unfold seqRun
  by_cases hbytes : 3 * frameWidth * frameHeight < intEnd
  · have hblur : blurInt (Buf.all 0) frameRaw kernel frameWidth frameHeight 3 3 =
        some (seqBlur frameWidth frameHeight frameRaw) :=
      blurInt_eq_some_iff.mpr ⟨SumsFit.of_small _ _ hbytes (by decide), rfl⟩
    rw [hblur, Option.bind_some, and_iff_right hbytes]
    dsimp only
    by_cases hlength : blobsLength frameWidth frameHeight < 0
    · rw [if_pos hlength]
      have := blobsLength_neg_iff.mp hlength
      simp [Int.not_lt.mpr this]
    · rw [if_neg hlength, and_iff_right (Int.not_le.mp (mt blobsLength_neg_iff.mpr hlength))]
      rfl
  · unfold blurInt
    simp [hbytes]

/-- A dark pixel on a bright ground. -/
def darkPixel : Buf UInt8 := ⟨fun i => if i / 3 = 4 then 0 else 255⟩

end Motion
