import Motion.Code.BlurSimd
import Motion.Proofs.Averaging

/-! `blur_helper` of blur_simd.cpp, lane by lane. A lane's totals are those of its own
pixel, read at slipped indices; the weights of all four lanes go into one divisor, and
the n-th lane stored has been divided by it n + 1 times. -/

namespace Motion

variable {frame blurVector res : Buf UInt8} {frameWidth frameHeight blurWidth blurHeight : Nat}
  {p q c : Pixel} {ch k : Nat} {lane ℓ : Fin 4}

/-- The pixel of a lane, from the first pixel of its step. -/
def lanePixel (p : Pixel) (lane : Fin 4) : Pixel := (p.1, p.2 + lane.val)

/-- The index read for a channel of a pixel: only the column is multiplied by 3. -/
def slippedAt (width : Nat) (q : Pixel) (ch : Nat) : Nat := q.1 * width + q.2 * 3 + ch

/-- A channel of a lane, in the order the store loop writes them. -/
def LaneTotals.channel (t : LaneTotals) (ch : Nat) (lane : Fin 4) : Nat :=
  if ch = 0 then t.newR lane else if ch = 1 then t.newB lane else t.newG lane

section sums

variable (frame blurVector : Buf UInt8) (frameWidth frameHeight blurWidth blurHeight : Nat)
  (p : Pixel)

/-- The bytes at the slipped indices, weighted. -/
def slippedUnder (ch : Nat) : Nat :=
  cellSum blurVector frameWidth frameHeight blurWidth blurHeight p (window blurWidth blurHeight)
    (fun q => (frame (slippedAt frameWidth q ch)).toNat)

/-- The weights of the four pixels of a step. -/
def stepWeights : Nat :=
  (lanes.map fun lane =>
    weightsUnder blurVector frameWidth frameHeight blurWidth blurHeight (lanePixel p lane)).sum

end sums

section window

/-- A lane's mask is nonzero where its cell falls on the frame. -/
theorem mask_iff : ((p.1 : Int) + ((c.1 : Int) - (blurHeight / 2 : Nat)) ≥ 0 ∧
    (p.1 : Int) + ((c.1 : Int) - (blurHeight / 2 : Nat)) < frameHeight ∧
    ((p.2 + lane.val : Nat) : Int) + ((c.2 : Int) - (blurWidth / 2 : Nat)) ≥ 0 ∧
    ((p.2 + lane.val : Nat) : Int) + ((c.2 : Int) - (blurWidth / 2 : Nat)) < frameWidth) ↔
    CellInside frameWidth frameHeight blurWidth blurHeight (lanePixel p lane) c := by
  unfold CellInside lanePixel
  dsimp only
  omega

/-- What one lane does at one cell to the totals of any lane. -/
theorem blurLane_channel (t : LaneTotals) (hch : ch < 3) :
    (blurLane frame blurVector frameWidth frameHeight blurWidth blurHeight p c t lane).channel ch
      ℓ = t.channel ch ℓ + if lane = ℓ ∧
        CellInside frameWidth frameHeight blurWidth blurHeight (lanePixel p lane) c then
        cellWeight blurVector blurWidth c *
          (frame (slippedAt frameWidth (cellPixel blurWidth blurHeight (lanePixel p lane) c)
            ch)).toNat
      else 0 := by
  have hrow : ((p.1 : Int) + ((c.1 : Int) - (blurHeight / 2 : Nat))).toNat =
      p.1 + c.1 - blurHeight / 2 := by omega
  have hcol : (((p.2 + lane.val : Nat) : Int) + ((c.2 : Int) - (blurWidth / 2 : Nat))).toNat =
      p.2 + lane.val + c.2 - blurWidth / 2 := by omega
  unfold blurLane
  simp only [hrow, hcol, mask_iff]
  by_cases h : CellInside frameWidth frameHeight blurWidth blurHeight (lanePixel p lane) c
  · simp only [h, and_true]
    by_cases he : lane = ℓ
    · subst he
      obtain rfl | rfl | rfl : ch = 0 ∨ ch = 1 ∨ ch = 2 := by omega
      · simp [LaneTotals.channel, cellWeight, slippedAt, cellPixel, lanePixel]
      · simp [LaneTotals.channel, cellWeight, slippedAt, cellPixel, lanePixel]
      · simp [LaneTotals.channel, cellWeight, slippedAt, cellPixel, lanePixel]
    · simp [LaneTotals.channel, he, Function.update_of_ne (Ne.symm he)]
  · simp [h]

theorem blurLane_total (t : LaneTotals) :
    (blurLane frame blurVector frameWidth frameHeight blurWidth blurHeight p c t
      lane).blurValueTotal = t.blurValueTotal +
      if CellInside frameWidth frameHeight blurWidth blurHeight (lanePixel p lane) c then
        cellWeight blurVector blurWidth c * 1
      else 0 := by
  unfold blurLane
  simp only [mask_iff]
  by_cases h : CellInside frameWidth frameHeight blurWidth blurHeight (lanePixel p lane) c
  · simp [h, cellWeight]
  · simp [h]

/-- One cell adds to each lane what its own pixel sees there. -/
theorem lanes_channel (t : LaneTotals) (hch : ch < 3) :
    (lanes.foldl (blurLane frame blurVector frameWidth frameHeight blurWidth blurHeight p c)
      t).channel ch ℓ = t.channel ch ℓ +
      if CellInside frameWidth frameHeight blurWidth blurHeight (lanePixel p ℓ) c then
        cellWeight blurVector blurWidth c *
          (frame (slippedAt frameWidth (cellPixel blurWidth blurHeight (lanePixel p ℓ) c)
            ch)).toNat
      else 0 := by
  simp only [lanes, List.foldl_cons, List.foldl_nil, blurLane_channel _ hch]
  fin_cases ℓ <;> simp

theorem lanes_total (t : LaneTotals) :
    (lanes.foldl (blurLane frame blurVector frameWidth frameHeight blurWidth blurHeight p c)
      t).blurValueTotal = t.blurValueTotal + (lanes.map fun lane =>
        if CellInside frameWidth frameHeight blurWidth blurHeight (lanePixel p lane) c then
          cellWeight blurVector blurWidth c * 1
        else 0).sum := by
  simp only [lanes, List.foldl_cons, List.foldl_nil, blurLane_total, List.map_cons, List.map_nil,
    List.sum_cons, List.sum_nil]
  omega

theorem cells_channel (cells : List Pixel) (t : LaneTotals) (hch : ch < 3) :
    (cells.foldl (fun t c => lanes.foldl
      (blurLane frame blurVector frameWidth frameHeight blurWidth blurHeight p c) t) t).channel
      ch ℓ = t.channel ch ℓ +
      cellSum blurVector frameWidth frameHeight blurWidth blurHeight (lanePixel p ℓ) cells
        (fun q => (frame (slippedAt frameWidth q ch)).toNat) := by
  induction cells generalizing t with
  | nil => simp [cellSum]
  | cons c cells ih =>
    rw [List.foldl_cons, ih, lanes_channel t hch, cellSum_cons, Nat.add_assoc]

theorem cells_total (cells : List Pixel) (t : LaneTotals) :
    (cells.foldl (fun t c => lanes.foldl
      (blurLane frame blurVector frameWidth frameHeight blurWidth blurHeight p c) t)
      t).blurValueTotal = t.blurValueTotal + (lanes.map fun lane =>
        cellSum blurVector frameWidth frameHeight blurWidth blurHeight (lanePixel p lane) cells
          (fun _ => 1)).sum := by
  induction cells generalizing t with
  | nil => simp [cellSum]
  | cons c cells ih =>
    rw [List.foldl_cons, ih, lanes_total]
    simp only [cellSum_cons, lanes, List.map_cons, List.map_nil, List.sum_cons, List.sum_nil]
    omega

theorem blurLanes_channel (hch : ch < 3) :
    (blurLanes frame blurVector frameWidth frameHeight blurWidth blurHeight p).channel ch ℓ =
      slippedUnder frame blurVector frameWidth frameHeight blurWidth blurHeight (lanePixel p ℓ)
        ch := by
  refine (cells_channel _ _ hch).trans ?_
  simp [LaneTotals.channel, slippedUnder, window]

theorem blurLanes_total (frame : Buf UInt8) :
    (blurLanes frame blurVector frameWidth frameHeight blurWidth blurHeight p).blurValueTotal =
      stepWeights blurVector frameWidth frameHeight blurWidth blurHeight p := by
  refine (cells_total _ _).trans ?_
  exact Nat.zero_add _

end window

section store

variable {t : LaneTotals}

theorem storeLane_channel (s : LaneTotals × Buf UInt8) :
    (storeLane frameWidth p s lane).1.channel ch ℓ =
      s.1.channel ch ℓ / s.1.blurValueTotal := by
  unfold LaneTotals.channel storeLane divLanes
  dsimp only
  split
  · rfl
  · split
    · rfl
    · rfl

/-- Each turn of the store loop divides every lane once more. -/
theorem storeLanes_totals (l : List (Fin 4)) (s : LaneTotals × Buf UInt8) :
    (l.foldl (storeLane frameWidth p) s).1.blurValueTotal = s.1.blurValueTotal ∧
    (l.foldl (storeLane frameWidth p) s).1.channel ch ℓ =
      s.1.channel ch ℓ / s.1.blurValueTotal ^ l.length := by
  induction l generalizing s with
  | nil => simp
  | cons lane l ih =>
    obtain ⟨htotal, hchannel⟩ := ih (storeLane frameWidth p s lane)
    rw [List.foldl_cons, htotal, hchannel, storeLane_channel, List.length_cons, Nat.pow_succ',
      ← Nat.div_div_eq_div_mul]
    exact ⟨rfl, rfl⟩

/-- The bytes a turn stores. -/
theorem storeLane_same (s : LaneTotals × Buf UInt8) (hch : ch < 3) :
    (storeLane frameWidth p s lane).2 (byteAt frameWidth (lanePixel p lane) ch) =
      UInt8.ofNat (s.1.channel ch lane / s.1.blurValueTotal ^ 2) := by
  have hbyte : byteAt frameWidth (lanePixel p lane) ch =
      3 * (p.1 * frameWidth + (p.2 + lane.val)) + ch := by
    unfold byteAt lanePixel
    ring
  have hdiv : s.1.channel ch lane / s.1.blurValueTotal ^ 2 =
      s.1.channel ch lane / s.1.blurValueTotal / s.1.blurValueTotal := by
    rw [Nat.div_div_eq_div_mul, Nat.pow_two]
  rw [hbyte, hdiv]
  obtain rfl | rfl | rfl : ch = 0 ∨ ch = 1 ∨ ch = 2 := by omega
  · simp [storeLane, divLanes, LaneTotals.channel]
  · simp [storeLane, divLanes, LaneTotals.channel]
  · simp [storeLane, divLanes, LaneTotals.channel]

theorem storeLane_other (s : LaneTotals × Buf UInt8)
    (hk : k / 3 ≠ idx frameWidth (lanePixel p lane)) :
    (storeLane frameWidth p s lane).2 k = s.2 k := by
  have hne : ∀ d < 3, k ≠ 3 * (p.1 * frameWidth + (p.2 + lane.val)) + d := by
    unfold idx lanePixel at hk
    dsimp only at hk
    omega
  exact (Buf.write_other _ _ (hne 2 (by decide))).trans
    ((Buf.write_other _ _ (hne 1 (by decide))).trans (Buf.write_other _ _ (hne 0 (by decide))))

theorem byteAt_div (q : Pixel) (hch : ch < 3) : byteAt frameWidth q ch / 3 = idx frameWidth q := by
  unfold byteAt idx
  omega

/-- A byte of the loop is stored by its own lane, after the lanes before it. -/
theorem storeLanes_apply {pre post : List (Fin 4)} (hpost : lane ∉ post) (hch : ch < 3)
    (s : LaneTotals × Buf UInt8) :
    ((pre ++ lane :: post).foldl (storeLane frameWidth p) s).2
      (byteAt frameWidth (lanePixel p lane) ch) =
    UInt8.ofNat (s.1.channel ch lane / s.1.blurValueTotal ^ (pre.length + 2)) := by
  have hkeep : ∀ ℓ ∈ post, ∀ s : LaneTotals × Buf UInt8,
      (storeLane frameWidth p s ℓ).2 (byteAt frameWidth (lanePixel p lane) ch) =
        s.2 (byteAt frameWidth (lanePixel p lane) ch) := by
    intro ℓ hℓ s
    refine storeLane_other s ?_
    rw [byteAt_div _ hch]
    intro he
    have hval : lane.val = ℓ.val := by
      unfold idx lanePixel at he
      dsimp only at he
      omega
    exact hpost (Fin.ext hval ▸ hℓ)
  obtain ⟨htotal, hchannel⟩ :
      (pre.foldl (storeLane frameWidth p) s).1.blurValueTotal = s.1.blurValueTotal ∧
      (pre.foldl (storeLane frameWidth p) s).1.channel ch lane =
        s.1.channel ch lane / s.1.blurValueTotal ^ pre.length := storeLanes_totals pre s
  rw [List.foldl_append, List.foldl_cons, Fold.keeps (g := fun s : LaneTotals × Buf UInt8 =>
    s.2 (byteAt frameWidth (lanePixel p lane) ch)) post _ hkeep, storeLane_same _ hch, htotal,
    hchannel, Nat.div_div_eq_div_mul, ← Nat.pow_add]

/-- What a step stores for the pixel of a lane. -/
theorem storeStep_same (res : Buf UInt8) (p : Pixel) (lane : Fin 4) (hch : ch < 3) :
    storeLanes frameWidth p
      (blurLanes frame blurVector frameWidth frameHeight blurWidth blurHeight p) res
      (byteAt frameWidth (lanePixel p lane) ch) =
    UInt8.ofNat
      (slippedUnder frame blurVector frameWidth frameHeight blurWidth blurHeight
        (lanePixel p lane) ch /
      stepWeights blurVector frameWidth frameHeight blurWidth blurHeight p ^ (lane.val + 2)) := by
  rw [← blurLanes_channel hch, ← blurLanes_total frame]
  have hsplit : ∃ pre post, lanes = pre ++ lane :: post ∧ lane ∉ post ∧
      pre.length = lane.val := by
    fin_cases lane
    · exact ⟨[], [1, 2, 3], rfl, by decide, rfl⟩
    · exact ⟨[0], [2, 3], rfl, by decide, rfl⟩
    · exact ⟨[0, 1], [3], rfl, by decide, rfl⟩
    · exact ⟨[0, 1, 2], [], rfl, by decide, rfl⟩
  obtain ⟨pre, post, hl, hpost, hlen⟩ := hsplit
  unfold storeLanes
  rw [hl, storeLanes_apply hpost hch, hlen]

theorem storeLanes_other (res : Buf UInt8)
    (hk : ∀ lane, k / 3 ≠ idx frameWidth (lanePixel p lane)) :
    storeLanes frameWidth p t res k = res k :=
  Fold.keeps (g := fun s : LaneTotals × Buf UInt8 => s.2 k) lanes _
    (fun lane _ s => storeLane_other s (hk lane))

end store

section rectangle

variable {startRow endRow startCol endCol : Nat}

/-- Whether a pixel is in the rectangle of a call. -/
def InRect (startRow endRow startCol endCol : Nat) (p : Pixel) : Prop :=
  (startRow ≤ p.1 ∧ p.1 < endRow) ∧ startCol ≤ p.2 ∧ p.2 < endCol

/-- The lane of a pixel. -/
def laneOf (startCol : Nat) (p : Pixel) : Fin 4 :=
  ⟨(p.2 - startCol) % 4, Nat.mod_lt _ (by decide)⟩

/-- The first pixel of its step. -/
def stepOf (startCol : Nat) (p : Pixel) : Pixel := (p.1, p.2 - (p.2 - startCol) % 4)

theorem lanePixel_stepOf (h : startCol ≤ p.2) :
    lanePixel (stepOf startCol p) (laneOf startCol p) = p := by
  unfold lanePixel stepOf laneOf
  exact Prod.ext rfl (by dsimp only; omega)

theorem mem_stepCols {col : Nat} : col ∈ stepCols startCol endCol ↔
    (startCol ≤ col ∧ col < endCol) ∧ 4 ∣ col - startCol := by
  unfold stepCols
  rw [List.mem_map]
  constructor
  · rintro ⟨i, hi, rfl⟩
    rw [mem_upto] at hi
    exact ⟨by omega, i, by omega⟩
  · rintro ⟨hlt, i, hi⟩
    refine ⟨i, ?_, by omega⟩
    rw [mem_upto]
    omega

/-- The step of a pixel is one of the call's. -/
theorem stepOf_mem (hp : InRect startRow endRow startCol endCol p) :
    stepOf startCol p ∈ raster (upto startRow endRow) (stepCols startCol endCol) := by
  unfold InRect at hp
  rw [mem_raster, mem_upto, mem_stepCols]
  unfold stepOf
  dsimp only
  omega

variable (hcols : endCol ≤ frameWidth) (four : 4 ∣ endCol - startCol)

include four

/-- No step reaches past the rectangle. -/
theorem lanePixel_inRect
    (hq : q ∈ raster (upto startRow endRow) (stepCols startCol endCol)) (lane : Fin 4) :
    InRect startRow endRow startCol endCol (lanePixel q lane) := by
  rw [mem_raster, mem_upto, mem_stepCols] at hq
  have := lane.isLt
  unfold InRect lanePixel
  dsimp only
  omega

/-- Every step starts at the first lane of a pixel of the rectangle. -/
theorem stepOf_of_mem (hq : q ∈ raster (upto startRow endRow) (stepCols startCol endCol)) :
    InRect startRow endRow startCol endCol q ∧ stepOf startCol q = q := by
  have hin := lanePixel_inRect four hq 0
  rw [mem_raster, mem_stepCols] at hq
  refine ⟨hin, Prod.ext rfl ?_⟩
  unfold stepOf
  dsimp only
  omega

include hcols in
/-- What the steps leave at a byte of the rectangle. -/
theorem steps_apply (hp : InRect startRow endRow startCol endCol p) (hch : ch < 3)
    (res : Buf UInt8) :
    (raster (upto startRow endRow) (stepCols startCol endCol)).foldl
      (fun res p => storeLanes frameWidth p
        (blurLanes frame blurVector frameWidth frameHeight blurWidth blurHeight p) res) res
      (byteAt frameWidth p ch) =
    UInt8.ofNat
      (slippedUnder frame blurVector frameWidth frameHeight blurWidth blurHeight p ch /
      stepWeights blurVector frameWidth frameHeight blurWidth blurHeight (stepOf startCol p) ^
        ((laneOf startCol p).val + 2)) := by
  have hlane := lanePixel_stepOf hp.2.1
  refine Fold.settles (g := fun b : Buf UInt8 => b (byteAt frameWidth p ch))
    (P := fun q => q = stepOf startCol p) _ res ?_ ?_ ⟨stepOf startCol p, ?_, rfl⟩
  · rintro q _ rfl b
    have hsame : storeLanes frameWidth (stepOf startCol p)
        (blurLanes frame blurVector frameWidth frameHeight blurWidth blurHeight
          (stepOf startCol p)) b
        (byteAt frameWidth (lanePixel (stepOf startCol p) (laneOf startCol p)) ch) = _ :=
      storeStep_same b (stepOf startCol p) (laneOf startCol p) hch
    rwa [hlane] at hsame
  · intro q hq hne b
    refine storeLanes_other b ?_
    intro lane he
    have hin := lanePixel_inRect four hq lane
    unfold InRect at hp hin
    rw [byteAt_div p hch] at he
    have hpix := idx_inj (by omega) (by omega) he
    -- the step of a pixel starts a multiple of four from the first column
    rw [mem_raster, mem_stepCols] at hq
    refine hne (Prod.ext ?_ ?_)
    · exact (congrArg Prod.fst hpix).symm
    · have hcol := congrArg Prod.snd hpix
      have := lane.isLt
      unfold lanePixel at hcol
      unfold stepOf
      dsimp only at hcol ⊢
      omega
  · exact stepOf_mem hp

end rectangle

/-- The bytes at the slipped indices weigh no more than so many of the largest. -/
theorem slippedUnder_le (frame blurVector : Buf UInt8)
    (frameWidth frameHeight blurWidth blurHeight : Nat) (p : Pixel) (ch : Nat) :
    slippedUnder frame blurVector frameWidth frameHeight blurWidth blurHeight p ch ≤
      255 * weightsUnder blurVector frameWidth frameHeight blurWidth blurHeight p :=
  Mean.weigh_le (fun _ _ => Nat.le_of_lt_succ (UInt8.toNat_lt _))

/-- After four divisions by the weights of four pixels nothing is left of a byte. -/
theorem dark_lane {W T n : Nat} (h1 : 1 ≤ W) (h3 : W + 3 ≤ T) (hn : 2 ≤ n) :
    255 * W < T ^ (n + 2) := by
  have hpow : T ^ 4 ≤ T ^ (n + 2) := Nat.pow_le_pow_right (by omega) (by omega)
  refine Nat.lt_of_lt_of_le ?_ hpow
  by_cases hsmall : T < 7
  · obtain rfl | rfl | rfl : T = 4 ∨ T = 5 ∨ T = 6 := by omega
    · omega
    · omega
    · omega
  · have hcube : 7 ^ 3 ≤ T ^ 3 := Nat.pow_le_pow_left (by omega) 3
    calc 255 * W < 7 ^ 3 * T := by omega
      _ ≤ T ^ 3 * T := Nat.mul_le_mul_right T hcube
      _ = T ^ 4 := rfl

section exact

variable {startRow endRow startCol endCol : Nat} (hrows : endRow ≤ frameHeight)
  (hcols : endCol ≤ frameWidth) (four : 4 ∣ endCol - startCol) (hw : 1 ≤ blurWidth)
  (hh : 1 ≤ blurHeight)
  (centre : blurVector (blurHeight / 2 * blurWidth + blurWidth / 2) ≠ 0)
  (hp : InRect startRow endRow startCol endCol p)

include hrows hcols four hw hh centre hp

/-- Each of the four pixels of a step weighs something. -/
theorem weightsUnder_add_three_le :
    1 ≤ weightsUnder blurVector frameWidth frameHeight blurWidth blurHeight p ∧
    weightsUnder blurVector frameWidth frameHeight blurWidth blurHeight p + 3 ≤
      stepWeights blurVector frameWidth frameHeight blurWidth blurHeight (stepOf startCol p) := by
  have hpos : ∀ lane, 1 ≤ weightsUnder blurVector frameWidth frameHeight blurWidth blurHeight
      (lanePixel (stepOf startCol p) lane) := by
    intro lane
    refine weights_pos hw hh centre ?_
    have := lane.isLt
    unfold InRect at hp
    unfold InFrame lanePixel stepOf
    dsimp only
    omega
  have hlane := lanePixel_stepOf hp.2.1
  have hsum : ∀ lane, weightsUnder blurVector frameWidth frameHeight blurWidth blurHeight
        (lanePixel (stepOf startCol p) lane) + 3 ≤
      stepWeights blurVector frameWidth frameHeight blurWidth blurHeight
        (stepOf startCol p) := by
    intro lane
    have h0 := hpos 0
    have h1 := hpos 1
    have h2 := hpos 2
    have h3 := hpos 3
    simp only [stepWeights, lanes, List.map_cons, List.map_nil, List.sum_cons, List.sum_nil]
    fin_cases lane
    · dsimp only [Fin.zero_eta]
      omega
    · dsimp only [Fin.mk_one]
      omega
    · dsimp only [Fin.reduceFinMk]
      omega
    · dsimp only [Fin.reduceFinMk]
      omega
  refine ⟨?_, ?_⟩
  · have := hpos (laneOf startCol p)
    rwa [hlane] at this
  · have := hsum (laneOf startCol p)
    rwa [hlane] at this

/-- A stored byte is the mean `blur` stores exactly when so much of the slipped sum is
left after the divisions; from the third lane on, exactly when the mean is 0. -/
theorem stored_eq_iff (hch : ch < 3) (res res' : Buf UInt8) :
    (raster (upto startRow endRow) (stepCols startCol endCol)).foldl
        (fun res p => storeLanes frameWidth p
          (blurLanes frame blurVector frameWidth frameHeight blurWidth blurHeight p) res) res
        (byteAt frameWidth p ch) =
      blur res' frame blurVector frameWidth frameHeight blurWidth blurHeight
        (byteAt frameWidth p ch) ↔
    slippedUnder frame blurVector frameWidth frameHeight blurWidth blurHeight p ch /
        stepWeights blurVector frameWidth frameHeight blurWidth blurHeight (stepOf startCol p) ^
          ((laneOf startCol p).val + 2) =
      bytesUnder frame blurVector frameWidth frameHeight blurWidth blurHeight p ch /
        weightsUnder blurVector frameWidth frameHeight blurWidth blurHeight p := by
  obtain ⟨hpos, hsum⟩ := weightsUnder_add_three_le hrows hcols four hw hh centre hp
  have hin : InFrame frameWidth frameHeight p := by
    unfold InRect at hp
    unfold InFrame
    omega
  have hbyte := blurredByte_toNat hw hh centre hin frame hch
  have hsize : UInt8.size = 256 := rfl
  rw [steps_apply hcols four hp hch, blur_apply res' hin.1 hin.2 hch,
    ← UInt8.toNat_inj, hbyte, UInt8.toNat_ofNat_of_lt']
  · rfl
  · rw [hsize, Nat.div_lt_iff_lt_mul (Nat.pow_pos (by omega))]
    have hle := slippedUnder_le frame blurVector frameWidth frameHeight blurWidth blurHeight p ch
    have hone := Nat.le_self_pow (show (laneOf startCol p).val + 2 ≠ 0 by omega)
      (stepWeights blurVector frameWidth frameHeight blurWidth blurHeight (stepOf startCol p))
    omega

/-- From the third lane of a step on a 0 is stored. -/
theorem stored_dark (hlane : 2 ≤ (laneOf startCol p).val) (frame : Buf UInt8) (ch : Nat) :
    slippedUnder frame blurVector frameWidth frameHeight blurWidth blurHeight p ch /
      stepWeights blurVector frameWidth frameHeight blurWidth blurHeight (stepOf startCol p) ^
        ((laneOf startCol p).val + 2) = 0 := by
  obtain ⟨hpos, hsum⟩ := weightsUnder_add_three_le hrows hcols four hw hh centre hp
  exact Nat.div_eq_of_lt (Nat.lt_of_le_of_lt
    (slippedUnder_le frame blurVector frameWidth frameHeight blurWidth blurHeight p ch)
    (dark_lane hpos hsum hlane))

end exact

section ints

theorem lanes_fit_iff :
    (blurLanes frame blurVector frameWidth frameHeight blurWidth blurHeight p).Fit ↔
      stepWeights blurVector frameWidth frameHeight blurWidth blurHeight p < intEnd ∧
      ∀ lane, ∀ ch < 3, slippedUnder frame blurVector frameWidth frameHeight blurWidth blurHeight
        (lanePixel p lane) ch < intEnd := by
  have hchannel : ∀ lane, ∀ ch < 3,
      (blurLanes frame blurVector frameWidth frameHeight blurWidth blurHeight p).channel ch lane =
        slippedUnder frame blurVector frameWidth frameHeight blurWidth blurHeight
          (lanePixel p lane) ch :=
    fun lane ch hch => blurLanes_channel hch
  rw [LaneTotals.Fit, blurLanes_total]
  refine and_congr_right (fun _ => forall_congr' (fun lane => ?_))
  constructor
  · rintro ⟨hr, hg, hb⟩ ch hch
    rw [← hchannel lane ch hch]
    obtain rfl | rfl | rfl : ch = 0 ∨ ch = 1 ∨ ch = 2 := by omega
    · exact hr
    · exact hb
    · exact hg
  · intro hall
    have h0 := hall 0 (by decide)
    have h1 := hall 1 (by decide)
    have h2 := hall 2 (by decide)
    rw [← hchannel _ _ (by decide)] at h0 h1 h2
    exact ⟨h0, h2, h1⟩

variable {startRow endRow startCol endCol : Nat}

/-- The vector version returns where the totals of each step fit. -/
theorem blurHelperSimd_eq_some_iff {r : Buf UInt8} (four : 4 ∣ endCol - startCol) :
    blurHelperSimd res frame blurVector frameWidth frameHeight blurWidth blurHeight startRow
      endRow startCol endCol = some r ↔
    (∀ p, InRect startRow endRow startCol endCol p →
      stepWeights blurVector frameWidth frameHeight blurWidth blurHeight (stepOf startCol p) <
        intEnd ∧
      ∀ ch < 3, slippedUnder frame blurVector frameWidth frameHeight blurWidth blurHeight p ch <
        intEnd) ∧
    (raster (upto startRow endRow) (stepCols startCol endCol)).foldl
      (fun res p => storeLanes frameWidth p
        (blurLanes frame blurVector frameWidth frameHeight blurWidth blurHeight p) res) res =
      r := by
  have hfit : (∀ q ∈ raster (upto startRow endRow) (stepCols startCol endCol),
      (blurLanes frame blurVector frameWidth frameHeight blurWidth blurHeight q).Fit) ↔
      ∀ p, InRect startRow endRow startCol endCol p →
        stepWeights blurVector frameWidth frameHeight blurWidth blurHeight (stepOf startCol p) <
          intEnd ∧
        ∀ ch < 3, slippedUnder frame blurVector frameWidth frameHeight blurWidth blurHeight p
          ch < intEnd := by
    simp only [lanes_fit_iff]
    constructor
    · intro hall p hp
      obtain ⟨hweights, hsums⟩ := hall _ (stepOf_mem hp)
      have hlane := hsums (laneOf startCol p)
      rw [lanePixel_stepOf hp.2.1] at hlane
      exact ⟨hweights, hlane⟩
    · intro hall q hq
      obtain ⟨hin, hstep⟩ := stepOf_of_mem four hq
      have hweights := (hall q hin).1
      rw [hstep] at hweights
      exact ⟨hweights, fun lane => (hall _ (lanePixel_inRect four hq lane)).2⟩
  unfold blurHelperSimd blurVectorStep
  dsimp only
  rw [Fold.option_guard, hfit]

end ints

/-- When the vector version computes the scalar blur on its rectangle: exactly when no `int`
of either overflows, the mean is 0 at every pixel of the third and fourth lanes, and in the
first two the bytes at the slipped indices are as many times brighter as the weights divide
once too often. -/
theorem blurHelperSimd_eq_blur_iff (frame blurVector res res' : Buf UInt8)
    (frameWidth frameHeight blurWidth blurHeight startRow endRow startCol endCol : Nat)
    (rect : endRow ≤ frameHeight ∧ endCol ≤ frameWidth ∧ 4 ∣ endCol - startCol)
    (odd : blurWidth % 2 = 1 ∧ blurHeight % 2 = 1)
    (centre : blurVector (blurHeight / 2 * blurWidth + blurWidth / 2) ≠ 0) :
    (∃ r r',
      blurHelperSimd res frame blurVector frameWidth frameHeight blurWidth blurHeight startRow
        endRow startCol endCol = some r ∧
      blurInt res' frame blurVector frameWidth frameHeight blurWidth blurHeight = some r' ∧
      ∀ p, InRect startRow endRow startCol endCol p → ∀ ch < 3,
        r (byteAt frameWidth p ch) = r' (byteAt frameWidth p ch)) ↔
    SumsFit frame blurVector frameWidth frameHeight blurWidth blurHeight ∧
    ∀ p, InRect startRow endRow startCol endCol p → ∀ ch < 3,
      let W := weightsUnder blurVector frameWidth frameHeight blurWidth blurHeight p
      let S := bytesUnder frame blurVector frameWidth frameHeight blurWidth blurHeight p ch
      let S' := slippedUnder frame blurVector frameWidth frameHeight blurWidth blurHeight p ch
      let T := stepWeights blurVector frameWidth frameHeight blurWidth blurHeight
        (stepOf startCol p)
      let D := T ^ ((laneOf startCol p).val + 2)
      (T < intEnd ∧ S' < intEnd) ∧
      if (laneOf startCol p).val < 2 then S / W * D ≤ S' ∧ S' < (S / W + 1) * D else S < W := by
  obtain ⟨hrows, hcols, four⟩ := rect
  have hw : 1 ≤ blurWidth := by omega
  have hh : 1 ≤ blurHeight := by omega
  simp only [blurHelperSimd_eq_some_iff four, blurInt_eq_some_iff]
  have hstored : ∀ p, InRect startRow endRow startCol endCol p → ∀ ch < 3,
      ((raster (upto startRow endRow) (stepCols startCol endCol)).foldl
          (fun res p => storeLanes frameWidth p
            (blurLanes frame blurVector frameWidth frameHeight blurWidth blurHeight p) res) res
          (byteAt frameWidth p ch) =
        blur res' frame blurVector frameWidth frameHeight blurWidth blurHeight
          (byteAt frameWidth p ch) ↔
      let W := weightsUnder blurVector frameWidth frameHeight blurWidth blurHeight p
      let S := bytesUnder frame blurVector frameWidth frameHeight blurWidth blurHeight p ch
      let S' := slippedUnder frame blurVector frameWidth frameHeight blurWidth blurHeight p ch
      let T := stepWeights blurVector frameWidth frameHeight blurWidth blurHeight
        (stepOf startCol p)
      let D := T ^ ((laneOf startCol p).val + 2)
      if (laneOf startCol p).val < 2 then S / W * D ≤ S' ∧ S' < (S / W + 1) * D
      else S < W) := by
    intro p hp ch hch
    obtain ⟨hpos, hsum⟩ := weightsUnder_add_three_le hrows hcols four hw hh centre hp
    rw [stored_eq_iff hrows hcols four hw hh centre hp hch]
    dsimp only
    split
    · rw [Nat.div_eq_iff (Nat.pow_pos (by omega)), Nat.add_mul, Nat.one_mul]
      have hD := Nat.pow_pos (n := (laneOf startCol p).val + 2) (show 0 < stepWeights blurVector
        frameWidth frameHeight blurWidth blurHeight (stepOf startCol p) by omega)
      omega
    · rename_i hlane
      rw [stored_dark hrows hcols four hw hh centre hp (by omega), eq_comm,
        Nat.div_eq_zero_iff_lt hpos]
  constructor
  · rintro ⟨_, _, ⟨hfit, rfl⟩, ⟨hsums, rfl⟩, hsame⟩
    refine ⟨hsums, ?_⟩
    intro p hp ch hch
    exact ⟨⟨(hfit p hp).1, (hfit p hp).2 ch hch⟩, (hstored p hp ch hch).mp (hsame p hp ch hch)⟩
  · rintro ⟨hsums, hall⟩
    refine ⟨_, _, ⟨?_, rfl⟩, ⟨hsums, rfl⟩, ?_⟩
    · intro p hp
      exact ⟨(hall p hp 0 (by decide)).1.1, fun ch hch => (hall p hp ch hch).1.2⟩
    · intro p hp ch hch
      exact (hstored p hp ch hch).mpr (hall p hp ch hch).2

/-- Two rows of four pixels. The first two of the lower row have bytes above 0, and so many
at the slipped indices that what the divisions leave is the same. -/
def twoLanes : Buf UInt8 :=
  ⟨fun i => ([0, 0, 0, 0, 80, 80, 80, 130, 130, 130, 0, 0, 5, 5, 5, 2, 2, 2] : List UInt8).getD i 0⟩

theorem blurHelperSimd_eq_blur_iff_twoLanes :
    ∃ r r', blurHelperSimd (Buf.all 7) twoLanes (Buf.all 1) 4 2 1 1 1 2 0 4 = some r ∧
      blurInt (Buf.all 7) twoLanes (Buf.all 1) 4 2 1 1 = some r' ∧
      ∀ p, InRect 1 2 0 4 p → ∀ ch < 3, r (byteAt 4 p ch) = r' (byteAt 4 p ch) := by
  have hframe : ∀ p, InFrame 4 2 p → p ∈ raster (upto 0 2) (upto 0 4) := by
    intro p hp
    rw [mem_raster, mem_upto, mem_upto]
    exact ⟨⟨Nat.zero_le _, hp.1⟩, Nat.zero_le _, hp.2⟩
  have hrect : ∀ p, InRect 1 2 0 4 p → p ∈ raster (upto 1 2) (upto 0 4) := by
    intro p hp
    rwa [mem_raster, mem_upto, mem_upto]
  refine (blurHelperSimd_eq_blur_iff twoLanes (Buf.all 1) (Buf.all 7) (Buf.all 7) 4 2 1 1 1 2 0 4
    (by decide) (by decide) (by decide)).mpr ⟨⟨by decide, ?_, ?_⟩, ?_⟩
  · intro p hp
    have hall : ∀ p ∈ raster (upto 0 2) (upto 0 4), weightsUnder (Buf.all 1) 4 2 1 1 p < intEnd := by
      decide +kernel
    exact hall p (hframe p hp)
  · intro p hp
    have hall : ∀ p ∈ raster (upto 0 2) (upto 0 4), ∀ ch < 3,
        bytesUnder twoLanes (Buf.all 1) 4 2 1 1 p ch < intEnd := by
      decide +kernel
    exact hall p (hframe p hp)
  · intro p hp
    have hall : ∀ p ∈ raster (upto 1 2) (upto 0 4), ∀ ch < 3,
        let W := weightsUnder (Buf.all 1) 4 2 1 1 p
        let S := bytesUnder twoLanes (Buf.all 1) 4 2 1 1 p ch
        let S' := slippedUnder twoLanes (Buf.all 1) 4 2 1 1 p ch
        let T := stepWeights (Buf.all 1) 4 2 1 1 (stepOf 0 p)
        let D := T ^ ((laneOf 0 p).val + 2)
        (T < intEnd ∧ S' < intEnd) ∧
        if (laneOf 0 p).val < 2 then S / W * D ≤ S' ∧ S' < (S / W + 1) * D else S < W := by
      decide +kernel
    exact hall p (hrect p hp)

/-- A grey frame of four pixels under a kernel of one cell: `blur` keeps the 200,
the first lane stores 12. -/
theorem grey_not_kept :
    ¬∀ (frame blurVector res res' : Buf UInt8)
      (frameWidth frameHeight blurWidth blurHeight startRow endRow startCol endCol : Nat),
      endRow ≤ frameHeight ∧ endCol ≤ frameWidth ∧ 4 ∣ endCol - startCol →
      blurWidth % 2 = 1 ∧ blurHeight % 2 = 1 →
      blurVector (blurHeight / 2 * blurWidth + blurWidth / 2) ≠ 0 →
      ∀ r r',
        blurHelperSimd res frame blurVector frameWidth frameHeight blurWidth blurHeight startRow
          endRow startCol endCol = some r →
        blurInt res' frame blurVector frameWidth frameHeight blurWidth blurHeight = some r' →
        ∀ p, InRect startRow endRow startCol endCol p → ∀ ch < 3,
          r (byteAt frameWidth p ch) = r' (byteAt frameWidth p ch) := by
  intro hall
  have hsimd : (blurHelperSimd (Buf.all 0) (Buf.all 200) (Buf.all 1) 4 1 1 1 0 1 0 4).isSome := by
    decide +kernel
  have hblur : (blurInt (Buf.all 0) (Buf.all 200) (Buf.all 1) 4 1 1 1).isSome := by
    decide +kernel
  obtain ⟨r, hr⟩ := Option.isSome_iff_exists.mp hsimd
  obtain ⟨r', hr'⟩ := Option.isSome_iff_exists.mp hblur
  have h := hall (Buf.all 200) (Buf.all 1) (Buf.all 0) (Buf.all 0) 4 1 1 1 0 1 0 4 (by decide)
    (by decide) (by decide) r r' hr hr' (0, 0) ⟨by decide, by decide⟩ 0 (by decide)
  have hread : (blurHelperSimd (Buf.all 0) (Buf.all 200) (Buf.all 1) 4 1 1 1 0 1 0 4).map (· 0) =
      (blurInt (Buf.all 0) (Buf.all 200) (Buf.all 1) 4 1 1 1).map (· 0) := by
    rw [hr, hr']
    exact congrArg some h
  revert hread
  decide +kernel

end Motion
