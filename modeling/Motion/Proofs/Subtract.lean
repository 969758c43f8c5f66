import Motion.Code.BgSub
import Motion.Lib.Interleave
import Motion.Spec.Contrast

/-! Background subtraction, byte by byte. A byte written depends on its own index
alone, so of a run of any version only the indices written count. -/

namespace Motion

variable {bg fr res : Buf UInt8} {width height : Nat} {p : Pixel}

/-- The squared distance between the colours of two images at a pixel. -/
def distance (bg fr : Buf UInt8) (width : Nat) (p : Pixel) : Nat :=
  ∑ c ∈ Finset.range 3,
    (((bg (byteAt width p c)).toNat : Int) - (fr (byteAt width p c)).toNat).natAbs ^ 2

/-- The threshold is passed from a squared distance of 31 squared on. -/
theorem totalDiff_gt_iff :
    totalDiff bg fr (fun i => byteAt width p i) > threshold ↔ 31 ^ 2 ≤ distance bg fr width p := by
  have hsum : (upto 0 3).foldl (fun total i =>
      let diff : Int := (bg (byteAt width p i)).toNat - (fr (byteAt width p i)).toNat
      total + diff * diff) (0 : Int) = (distance bg fr width p : Int) := by
    have hl : upto 0 3 = [0, 1, 2] := rfl
    simp only [hl, List.foldl_cons, List.foldl_nil, distance, Finset.sum_range_succ,
      Finset.sum_range_zero]
    push_cast [Int.natCast_natAbs, sq_abs]
    ring
  have htotal : totalDiff bg fr (fun i => byteAt width p i) = Nat.sqrt (distance bg fr width p) := by
    unfold totalDiff
    rw [hsum]
    rfl
  rw [htotal, gt_iff_lt, Nat.lt_iff_add_one_le]
  exact Nat.le_sqrt'

/-- The byte a pixel gets. -/
def motionByte (bg fr : Buf UInt8) (width : Nat) (p : Pixel) : UInt8 :=
  if 31 ^ 2 ≤ distance bg fr width p then 255 else 0

theorem bgSubPixel_same (res : Buf UInt8) (p : Pixel) :
    bgSubPixel bg fr width res p (idx width p) = motionByte bg fr width p := by
  unfold motionByte
  refine (Buf.write_same _ _ _).trans ?_
  exact if_congr totalDiff_gt_iff rfl rfl

theorem bgSub_apply (res : Buf UInt8) (hp : InFrame width height p) :
    bgSub bg fr res width height (idx width p) = motionByte bg fr width p := by
  refine Fold.settles (g := fun b : Buf UInt8 => b (idx width p)) (P := fun q => q = p)
    _ res ?_ ?_ ⟨p, ?_, rfl⟩
  · rintro q _ rfl b
    exact bgSubPixel_same b q
  · intro q hq hne b
    rw [mem_raster, mem_upto, mem_upto] at hq
    exact Buf.write_other _ _ (fun he => hne (idx_inj (by omega) hp.2 he.symm))
  · rw [mem_raster, mem_upto, mem_upto]
    have := hp
    unfold InFrame at this
    omega

/-- What every version writes at an index of the grey image. -/
def greyByte (bg fr : Buf UInt8) (k : Nat) : UInt8 :=
  if totalDiff bg fr (fun i => k * 3 + i) > threshold then 255 else 0

def writeGrey (bg fr : Buf UInt8) (res : Buf UInt8) (k : Nat) : Buf UInt8 :=
  res.write k (greyByte bg fr k)

/-- In whatever order indices are written, and however often. -/
theorem writeGrey_foldl (bg fr : Buf UInt8) (res : Buf UInt8) (ks : List Nat) (k : Nat) :
    ks.foldl (writeGrey bg fr) res k = if k ∈ ks then greyByte bg fr k else res k := by
  split
  · rename_i hk
    refine Fold.settles (g := fun b : Buf UInt8 => b k) (P := fun j => j = k) ks res ?_ ?_
      ⟨k, hk, rfl⟩
    · rintro j _ rfl b
      exact Buf.write_same b j _
    · intro j _ hne b
      exact Buf.write_other b _ (fun he => hne he.symm)
  · rename_i hk
    refine Fold.keeps (g := fun b : Buf UInt8 => b k) ks res ?_
    intro j hj b
    exact Buf.write_other b _ (fun he => hk (he ▸ hj))

theorem bgSubPixel_foldl (bg fr : Buf UInt8) (width : Nat) (res : Buf UInt8) (ps : List Pixel) :
    ps.foldl (bgSubPixel bg fr width) res = (ps.map (idx width)).foldl (writeGrey bg fr) res := by
  rw [List.foldl_map]
  rfl

/-- The indices `bg_sub` writes. -/
theorem mem_frame_indices {k : Nat} :
    k ∈ (raster (upto 0 height) (upto 0 width)).map (idx width) ↔ k < width * height := by
  rw [List.mem_map]
  constructor
  · rintro ⟨p, hp, rfl⟩
    rw [mem_raster, mem_upto, mem_upto] at hp
    exact idx_lt ⟨hp.1.2, hp.2.2⟩
  · intro hk
    obtain ⟨p, hp, he⟩ := exists_inFrame hk
    unfold InFrame at hp
    refine ⟨p, ?_, he⟩
    rw [mem_raster, mem_upto, mem_upto]
    omega

theorem bgSub_eq (res : Buf UInt8) (k : Nat) :
    bgSub bg fr res width height k = if k < width * height then greyByte bg fr k else res k := by
  unfold bgSub
  rw [bgSubPixel_foldl, writeGrey_foldl]
  exact if_congr mem_frame_indices rfl rfl

section threads

variable {trace : List Pixel}

theorem mem_helperPixels {a b : Nat} :
    p ∈ helperPixels width a b ↔ (a ≤ p.1 ∧ p.1 < b) ∧ p.2 < width := by
  unfold helperPixels
  rw [mem_raster, mem_upto, mem_upto]
  omega

/-- The four bands cover the frame and no more, whatever they share. -/
theorem mem_bgSubThreads :
    (∃ steps ∈ bgSubThreads width height, p ∈ steps) ↔ InFrame width height p := by
  simp only [bgSubThreads, helperRows, List.map_cons, List.map_nil, List.mem_cons,
    List.not_mem_nil, or_false, exists_eq_or_imp, exists_eq_left, mem_helperPixels]
  unfold InFrame
  omega

/-- The pixels stepped through in a run are those `bg_sub` visits. -/
theorem mem_trace (run : Interleave.Run (bgSubThreads width height) trace) :
    p ∈ trace ↔ p ∈ raster (upto 0 height) (upto 0 width) := by
  rw [run.mem_iff, mem_bgSubThreads, mem_raster, mem_upto, mem_upto]
  unfold InFrame
  omega

/-- The order in which the calls run one after another is one of the runs. -/
theorem bgSubParallel_one_by_one (bg fr res : Buf UInt8) (width height : Nat) :
    Interleave.Run (bgSubThreads width height) (bgSubThreads width height).flatten ∧
    bgSubParallel (bgSubThreads width height).flatten bg fr res width =
      (helperRows height).foldl (bgSubHelper bg fr width) res := by
  refine ⟨Interleave.Run.one_by_one _, ?_⟩
  unfold bgSubParallel bgSubThreads
  rw [List.foldl_flatten, List.foldl_map]
  rfl

/-- The threaded version computes `bg_sub`, however the steps of its threads are
interleaved, and with indices that an `int` holds. -/
theorem bgSubParallel_eq (run : Interleave.Run (bgSubThreads width height) trace)
    (fits : 3 * width * height < 2 ^ 31) (bg fr res : Buf UInt8) :
    (∀ k, k < width * height →
      bgSubParallel trace bg fr res width k = bgSub bg fr res width height k) ∧
    (∀ k, width * height ≤ k → bgSubParallel trace bg fr res width k = res k) ∧
    ∀ p ∈ trace, ∀ i < 3, idx width p < width * height ∧ byteAt width p i < 2 ^ 31 := by
  have hmem : ∀ k, k ∈ trace.map (idx width) ↔ k < width * height := by
    intro k
    rw [← mem_frame_indices, List.mem_map, List.mem_map]
    exact exists_congr (fun p => and_congr_left (fun _ => mem_trace run))
  have heq : ∀ k, bgSubParallel trace bg fr res width k = bgSub bg fr res width height k := by
    intro k
    rw [bgSub_eq]
    unfold bgSubParallel
    rw [bgSubPixel_foldl, writeGrey_foldl]
    exact if_congr (hmem k) rfl rfl
  refine ⟨fun k _ => heq k, ?_, ?_⟩
  · intro k hk
    rw [heq, bgSub_eq, if_neg (by omega)]
  · intro p hp i hi
    have hlt := (hmem _).mp (List.mem_map_of_mem hp)
    refine ⟨hlt, ?_⟩
    unfold byteAt
    unfold idx at hlt
    rw [Nat.mul_assoc] at fits
    omega

/-- The top row of a frame of two falls to two of the threads; here the main thread
is done before the other one starts. -/
theorem bgSubParallel_two :
    (∀ k, k < 1 * 2 →
      bgSubParallel [(0, 0), (1, 0), (0, 0)] (Buf.all 0) (Buf.all 200) (Buf.all 7) 1 k =
      bgSub (Buf.all 0) (Buf.all 200) (Buf.all 7) 1 2 k) ∧
    (∀ k, 1 * 2 ≤ k →
      bgSubParallel [(0, 0), (1, 0), (0, 0)] (Buf.all 0) (Buf.all 200) (Buf.all 7) 1 k =
      Buf.all 7 k) ∧
    ∀ p ∈ [((0, 0) : Pixel), (1, 0), (0, 0)], ∀ i < 3, idx 1 p < 1 * 2 ∧ byteAt 1 p i < 2 ^ 31 := by
  refine bgSubParallel_eq ?_ (by decide) _ _ _
  change Interleave.Run ([[], [(0, 0)], []] ++ ((0, 0) :: [(1, 0)]) :: []) _
  refine .turn (.turn ?_)
  change Interleave.Run ([[]] ++ ((0, 0) :: []) :: [[], []]) _
  exact .turn (.done (by simp))

end threads

section lanes

/-- The index a lane writes is the sum it stands for, wrapped nowhere. -/
theorem lane_index {row col lane : Nat} (fits : row * width + col + lane < 2 ^ 32) :
    lane32 (lane32 (lane32 row * lane32 width) + lane32 (lane32 col + lane)) =
      row * width + col + lane := by
  have hmul : lane32 (lane32 row * lane32 width) = row * width := by
    unfold lane32
    rw [← Nat.mul_mod, Nat.mod_eq_of_lt (by omega)]
  rw [hmul]
  unfold lane32
  omega

/-- Each lane pairs a grey pixel with its own triple, in the row or past its end. -/
theorem bgSubLane_eq {row col lane : Nat} (res : Buf UInt8)
    (fits : 3 * (row * width + col + lane) + 2 < 2 ^ 32) :
    bgSubLane bg fr width row col res lane = writeGrey bg fr res (row * width + col + lane) := by
  have htriple : totalDiff bg fr
        (fun i => lane32 (lane32 ((row * width + col + lane) * 3) + i)) =
      totalDiff bg fr (fun i => (row * width + col + lane) * 3 + i) := by
    have hread : ∀ i, i < 3 → lane32 (lane32 ((row * width + col + lane) * 3) + i) =
        (row * width + col + lane) * 3 + i := by
      intro i hi
      unfold lane32
      omega
    have hl : upto 0 3 = [0, 1, 2] := rfl
    simp only [totalDiff, hl, List.foldl_cons, List.foldl_nil]
    rw [hread 0 (by decide), hread 1 (by decide), hread 2 (by decide)]
  unfold bgSubLane writeGrey greyByte
  rw [lane_index (by omega)]
  dsimp only
  rw [htriple]

/-- The indices the lanes write: those of a row and up to three past its end. -/
def laneIndices (width height : Nat) : List Nat :=
  (raster (upto 0 height) (vectorCols width)).flatMap fun p =>
    (upto 0 4).map (fun lane => p.1 * width + p.2 + lane)

theorem mem_vectorCols {col : Nat} : col ∈ vectorCols width ↔ 4 ∣ col ∧ col < width := by
  unfold vectorCols
  rw [List.mem_map]
  constructor
  · rintro ⟨i, hi, rfl⟩
    rw [mem_upto] at hi
    exact ⟨Nat.dvd_mul_left 4 i, by omega⟩
  · rintro ⟨⟨i, rfl⟩, hlt⟩
    refine ⟨i, ?_, Nat.mul_comm i 4⟩
    rw [mem_upto]
    omega

theorem mem_laneIndices {k : Nat} : k ∈ laneIndices width height ↔
    ∃ p : Pixel, p.1 < height ∧ (4 ∣ p.2 ∧ p.2 < width) ∧
      ∃ lane < 4, p.1 * width + p.2 + lane = k := by
  unfold laneIndices
  simp only [List.mem_flatMap, mem_raster, mem_upto, mem_vectorCols, List.mem_map, Nat.zero_le,
    true_and, and_assoc]

/-- Every pixel of the frame is in some lane of its own row. -/
theorem laneIndices_cover {k : Nat} (hk : k < width * height) : k ∈ laneIndices width height := by
  obtain ⟨p, hp, rfl⟩ := exists_inFrame hk
  unfold InFrame at hp
  rw [mem_laneIndices]
  refine ⟨(p.1, 4 * (p.2 / 4)), hp.1, ⟨⟨p.2 / 4, rfl⟩, ?_⟩, p.2 % 4, ?_, ?_⟩
  · dsimp only
    omega
  · omega
  · unfold idx
    dsimp only
    omega

theorem laneIndices_lt {k : Nat} (hk : k ∈ laneIndices width height) : k < width * height + 3 := by
  obtain ⟨p, hr, ⟨_, hc⟩, lane, hlane, rfl⟩ := mem_laneIndices.mp hk
  have := idx_lt (show InFrame width height p from ⟨hr, hc⟩)
  unfold idx at this
  omega

theorem bgSubParallelSimd_foldl (fits : 3 * (width * height + 3) < 2 ^ 31)
    (bg fr res : Buf UInt8) :
    bgSubParallelSimd bg fr res width height =
      (laneIndices width height).foldl (writeGrey bg fr) res := by
  unfold bgSubParallelSimd bgSubHelperSimd laneIndices
  rw [List.foldl_flatMap]
  refine List.foldl_ext _ _ _ ?_
  intro res p hp
  rw [List.foldl_map]
  refine List.foldl_ext _ _ _ ?_
  intro res lane hlane
  rw [bgSubLane_eq]
  have hk := laneIndices_lt (List.mem_flatMap_of_mem hp (List.mem_map_of_mem hlane))
  omega

theorem bgSubParallelSimd_apply (fits : 3 * (width * height + 3) < 2 ^ 31) {bg fr : Buf UInt8}
    (res : Buf UInt8) {p : Pixel} (hp : InFrame width height p) :
    bgSubParallelSimd bg fr res width height (idx width p) = motionByte bg fr width p := by
  rw [bgSubParallelSimd_foldl fits, writeGrey_foldl, if_pos (laneIndices_cover (idx_lt hp)),
    ← bgSub_apply res hp, bgSub_eq, if_pos (idx_lt hp)]

/-- The vector version writes what the scalar one writes, whatever the width: a lane
past the end of a row writes what the next row's own lane does. -/
theorem bgSubParallelSimd_eq (fits : 3 * (width * height + 3) < 2 ^ 31)
    (bg fr res : Buf UInt8) {k : Nat} (hk : k < width * height) :
    bgSubParallelSimd bg fr res width height k = bgSub bg fr res width height k := by
  rw [bgSubParallelSimd_foldl fits, writeGrey_foldl, bgSub_eq, if_pos (laneIndices_cover hk),
    if_pos hk]

/-- In a frame five pixels wide three lanes of a row's second step fall on the next row. -/
theorem bgSubParallelSimd_five :
    bgSubParallelSimd (Buf.all 0) (Buf.all 200) (Buf.all 7) 5 2 6 =
      bgSub (Buf.all 0) (Buf.all 200) (Buf.all 7) 5 2 6 :=
  bgSubParallelSimd_eq (by decide) _ _ _ (by decide)

end lanes

end Motion
