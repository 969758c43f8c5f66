import Motion.Code.PixelSteps
import Motion.Proofs.Subtract

/-! Whether background subtraction stays inside its images. A row whose length four
does not divide ends in lanes past its end, and past the last row is no image. -/

namespace Motion

variable {bg fr bg' fr' res : Buf UInt8} {width height row col lane k : Nat}

/-- Reads inside RGB images and writes inside a greyscale one. -/
def Access.Inside (a : Access) (width height : Nat) : Prop :=
  (∀ k ∈ a.reads, k < 3 * width * height) ∧ ∀ k ∈ a.writes, k < width * height

instance (a : Access) (width height : Nat) : Decidable (a.Inside width height) :=
  inferInstanceAs (Decidable (_ ∧ _))

/-- Steps stay inside when each of them does. -/
theorem Access.each_inside {steps : List α} {uses : α → Access} :
    (Access.each steps uses).Inside width height ↔ ∀ x ∈ steps, (uses x).Inside width height := by
  simp only [Access.Inside, Access.each, List.mem_flatMap]
  constructor
  · rintro ⟨hr, hw⟩ x hx
    exact ⟨fun k hk => hr k ⟨x, hx, hk⟩, fun k hk => hw k ⟨x, hx, hk⟩⟩
  · intro h
    refine ⟨?_, ?_⟩
    · rintro k ⟨x, hx, hk⟩
      exact (h x hx).1 k hk
    · rintro k ⟨x, hx, hk⟩
      exact (h x hx).2 k hk

/-- A pixel's triple is inside exactly when its greyscale byte is. -/
theorem triple_inside (g : Nat) :
    (⟨(upto 0 3).map fun i => g * 3 + i, [g]⟩ : Access).Inside width height ↔
      g < width * height := by
  simp only [Access.Inside, List.mem_map, mem_upto, List.mem_singleton, forall_eq,
    and_iff_right_iff_imp, Nat.mul_assoc]
  rintro hg k ⟨i, hi, rfl⟩
  omega

section reads

theorem totalDiff_congr (index : Nat → Nat)
    (hb : ∀ k ∈ (upto 0 3).map index, bg k = bg' k)
    (hf : ∀ k ∈ (upto 0 3).map index, fr k = fr' k) :
    totalDiff bg fr index = totalDiff bg' fr' index := by
  unfold totalDiff
  dsimp only
  congr 2
  refine List.foldl_ext _ _ _ ?_
  intro total i hi
  rw [hb _ (List.mem_map_of_mem hi), hf _ (List.mem_map_of_mem hi)]

/-- A lane is settled by what it reads. -/
theorem bgSubLane_congr (hb : ∀ k ∈ (bgSubLaneUses width row col lane).reads, bg k = bg' k)
    (hf : ∀ k ∈ (bgSubLaneUses width row col lane).reads, fr k = fr' k) :
    bgSubLane bg fr width row col res lane = bgSubLane bg' fr' width row col res lane := by
  have hdiff := totalDiff_congr (fun i => lane32 (lane32 (lane32 (lane32 (lane32 row *
    lane32 width) + lane32 (lane32 col + lane)) * 3) + i)) hb hf
  simp only [bgSubLane, hdiff]

/-- So is a whole run. -/
theorem bgSubParallelSimd_congr (res : Buf UInt8)
    (hb : ∀ k ∈ (bgSubSimdUses width height).reads, bg k = bg' k)
    (hf : ∀ k ∈ (bgSubSimdUses width height).reads, fr k = fr' k) :
    bgSubParallelSimd bg fr res width height = bgSubParallelSimd bg' fr' res width height := by
  have hmem : ∀ p ∈ raster (upto 0 height) (vectorCols width), ∀ lane ∈ upto 0 4,
      ∀ k ∈ (bgSubLaneUses width p.1 p.2 lane).reads, k ∈ (bgSubSimdUses width height).reads :=
    fun p hp lane hl k hk =>
      List.mem_flatMap.mpr ⟨p, hp, List.mem_flatMap.mpr ⟨lane, hl, hk⟩⟩
  unfold bgSubParallelSimd bgSubHelperSimd
  refine List.foldl_ext _ _ _ ?_
  intro res p hp
  refine List.foldl_ext _ _ _ ?_
  intro res lane hl
  exact bgSubLane_congr (fun k hk => hb k (hmem p hp lane hl k hk))
    (fun k hk => hf k (hmem p hp lane hl k hk))

end reads

/-- The lanes of a run, each with the first pixel of its step. -/
def bgSubLanes (width height : Nat) : List (Pixel × Nat) :=
  (raster (upto 0 height) (vectorCols width)).flatMap fun p =>
    (upto 0 4).map fun lane => (p, lane)

theorem bgSubParallelSimd_lanes (bg fr res : Buf UInt8) (width height : Nat) :
    bgSubParallelSimd bg fr res width height = (bgSubLanes width height).foldl
      (fun res x => bgSubLane bg fr width x.1.1 x.1.2 res x.2) res := by
  unfold bgSubLanes
  rw [List.foldl_flatMap]
  simp only [List.foldl_map]
  rfl

theorem mem_writes_lanes : k ∈ (bgSubSimdUses width height).writes ↔
    ∃ x ∈ bgSubLanes width height, k ∈ (bgSubLaneUses width x.1.1 x.1.2 x.2).writes := by
  simp only [bgSubSimdUses, Access.each, bgSubLanes, List.mem_flatMap, List.mem_map]
  constructor
  · rintro ⟨p, hp, lane, hl, hk⟩
    exact ⟨(p, lane), ⟨p, hp, lane, hl, rfl⟩, hk⟩
  · rintro ⟨_, ⟨p, hp, lane, hl, rfl⟩, hk⟩
    exact ⟨p, hp, lane, hl, hk⟩

/-- Two equal triples give a 0. -/
theorem bgSubLane_still (h : k ∈ (bgSubLaneUses width row col lane).writes) (b res : Buf UInt8) :
    bgSubLane b b width row col res lane k = 0 := by
  have hzero : ∀ index, totalDiff b b index = 0 := by
    intro index
    have hl : upto 0 3 = [0, 1, 2] := rfl
    simp [totalDiff, hl]
  rw [List.mem_singleton.mp h]
  refine (Buf.write_same _ _ _).trans ?_
  rw [hzero]
  rfl

theorem bgSubLane_other (h : k ∉ (bgSubLaneUses width row col lane).writes) (res : Buf UInt8) :
    bgSubLane bg fr width row col res lane k = res k :=
  Buf.write_other _ _ (fun he => h (List.mem_singleton.mpr he))

/-- The bytes a run may change are those listed as written. -/
theorem mem_bgSubSimdUses_writes : k ∈ (bgSubSimdUses width height).writes ↔
    ∃ bg fr res, bgSubParallelSimd bg fr res width height k ≠ res k := by
  rw [mem_writes_lanes]
  constructor
  · intro h
    have hrun : bgSubParallelSimd (Buf.all 0) (Buf.all 0) (Buf.all 7) width height k = 0 := by
      rw [bgSubParallelSimd_lanes]
      exact Fold.settles (g := fun b : Buf UInt8 => b k) _ _
        (fun x _ hx b => bgSubLane_still hx _ b) (fun x _ hx b => bgSubLane_other hx b) h
    refine ⟨Buf.all 0, Buf.all 0, Buf.all 7, ?_⟩
    rw [hrun, Buf.all_apply]
    decide
  · rintro ⟨bg, fr, res, hne⟩
    by_contra hnone
    refine hne ?_
    rw [bgSubParallelSimd_lanes]
    exact Fold.keeps (g := fun b : Buf UInt8 => b k) _ res
      (fun x hx b => bgSubLane_other (fun hk => hnone ⟨x, hx, hk⟩) b)

/-- The scalar version uses no index outside its images. -/
theorem bgSubUses_inside : (bgSubUses width height).Inside width height := by
  unfold bgSubUses
  rw [Access.each_inside]
  intro p hp
  rw [mem_raster, mem_upto, mem_upto] at hp
  exact (triple_inside _).mpr (idx_lt ⟨hp.1.2, hp.2.2⟩)

/-- A lane uses the triple and the byte of the pixel it stands for, wrapped nowhere. -/
theorem bgSubLaneUses_eq (fits : 3 * (row * width + col + lane) + 2 < 2 ^ 32) :
    bgSubLaneUses width row col lane =
      ⟨(upto 0 3).map fun i => (row * width + col + lane) * 3 + i,
        [row * width + col + lane]⟩ := by
  unfold bgSubLaneUses
  rw [lane_index (by omega)]
  dsimp only
  congr 1
  refine List.map_congr_left ?_
  intro i hi
  rw [mem_upto] at hi
  unfold lane32
  omega

/-- When the vector version stays inside its images: exactly when the last lanes of a
row are those of its last four pixels. -/
theorem bgSubSimdUses_inside_iff (hh : 1 ≤ height)
    (fits : 3 * width * height < 2 ^ 31) :
    (bgSubUses width height).Inside width height ∧
      ((bgSubSimdUses width height).Inside width height ↔ 4 ∣ width) := by
  refine ⟨bgSubUses_inside, ?_⟩
  rw [Nat.mul_assoc] at fits
  have hlane : ∀ p ∈ raster (upto 0 height) (vectorCols width), ∀ lane ∈ upto 0 4,
      ((bgSubLaneUses width p.1 p.2 lane).Inside width height ↔
        p.1 * width + p.2 + lane < width * height) := by
    intro p hp lane hl
    rw [mem_raster, mem_upto, mem_vectorCols] at hp
    rw [mem_upto] at hl
    have hlt := idx_lt (show InFrame width height p from ⟨hp.1.2, hp.2.2⟩)
    unfold idx at hlt
    rw [bgSubLaneUses_eq (by omega)]
    exact triple_inside _
  have hall : (bgSubSimdUses width height).Inside width height ↔
      ∀ p ∈ raster (upto 0 height) (vectorCols width), ∀ lane ∈ upto 0 4,
        p.1 * width + p.2 + lane < width * height := by
    unfold bgSubSimdUses
    simp only [Access.each_inside]
    exact forall₂_congr (fun p hp => forall₂_congr (fun lane hl => hlane p hp lane hl))
  rw [hall]
  constructor
  · intro h
    by_contra hdvd
    -- the last step of the last row, its last lane
    have hlast : ((height - 1, 4 * (width / 4)) : Pixel) ∈
        raster (upto 0 height) (vectorCols width) := by
      rw [mem_raster, mem_upto, mem_vectorCols]
      exact ⟨by omega, Nat.dvd_mul_right 4 _, by omega⟩
    have hlt := h _ hlast 3 (by decide)
    obtain ⟨n, rfl⟩ := Nat.exists_eq_add_of_le' hh
    simp only [Nat.add_sub_cancel] at hlt
    rw [Nat.mul_add, Nat.mul_comm width n] at hlt
    omega
  · intro hdvd p hp lane hl
    rw [mem_raster, mem_upto, mem_vectorCols] at hp
    rw [mem_upto] at hl
    have hrow : (p.1 + 1) * width ≤ height * width := Nat.mul_le_mul_right _ hp.1.2
    rw [Nat.mul_comm height, Nat.add_mul] at hrow
    omega

theorem bgSubSimdUses_inside_iff_board :
    (bgSubUses 320 240).Inside 320 240 ∧
      ((bgSubSimdUses 320 240).Inside 320 240 ↔ 4 ∣ 320) :=
  bgSubSimdUses_inside_iff (by decide) (by decide)

/-- Two rows of five pixels: the second row's second step ends at index 12. -/
theorem bgSubSimd_outside :
    ¬∀ width height : Nat, 1 ≤ width → 1 ≤ height → 3 * width * height < 2 ^ 31 →
      (bgSubUses width height).Inside width height ∧
        (bgSubSimdUses width height).Inside width height := by
  intro hall
  have h := (hall 5 2 (by decide) (by decide) (by decide)).2
  revert h
  decide +kernel

end Motion
