import Motion.Code.Blur
import Motion.Spec.Raster

/-! The two blurs, byte by byte. What is written for a pixel does not depend on
what the buffer holds, so all that matters is which pixels are visited. -/

namespace Motion

/-- The index of a channel of a pixel. -/
def byteAt (width : Nat) (p : Pixel) (c : Nat) : Nat := (p.1 * width + p.2) * 3 + c

/-- The bytes computed for a pixel. -/
def blurredByte (frame blurVector : Buf UInt8)
    (frameWidth frameHeight blurWidth blurHeight : Nat) (p : Pixel) (c : Nat) : UInt8 :=
  let t := blurWindow frame blurVector frameWidth frameHeight blurWidth blurHeight p
  UInt8.ofNat ((if c = 0 then t.newR else if c = 1 then t.newG else t.newB) / t.blurValueTotal)

variable {frame blurVector res : Buf UInt8} {frameWidth frameHeight blurWidth blurHeight : Nat}
  {p q : Pixel} {c : Nat}

theorem byteAt_inj {d : Nat} (hp : p.2 < frameWidth) (hq : q.2 < frameWidth) (hc : c < 3)
    (hd : d < 3) (h : byteAt frameWidth p c = byteAt frameWidth q d) : p = q ∧ c = d := by
  unfold byteAt at h
  have hidx : idx frameWidth p = idx frameWidth q := by
    unfold idx
    omega
  exact ⟨idx_inj hp hq hidx, by unfold idx at hidx; omega⟩

theorem blurPixel_same (res : Buf UInt8) (p : Pixel) (hc : c < 3) :
    blurPixel frame blurVector frameWidth frameHeight blurWidth blurHeight res p
      (byteAt frameWidth p c) =
    blurredByte frame blurVector frameWidth frameHeight blurWidth blurHeight p c := by
  unfold blurPixel blurredByte byteAt
  obtain rfl | rfl | rfl : c = 0 ∨ c = 1 ∨ c = 2 := by omega
  · simp
  · simp
  · simp

/-- Another pixel's bytes are left alone. -/
theorem blurPixel_other (hp : p.2 < frameWidth) (hq : q.2 < frameWidth) (hne : p ≠ q)
    (hc : c < 3) (res : Buf UInt8) :
    blurPixel frame blurVector frameWidth frameHeight blurWidth blurHeight res q
      (byteAt frameWidth p c) = res (byteAt frameWidth p c) := by
  have hidx : ∀ d < 3, byteAt frameWidth p c ≠ byteAt frameWidth q d :=
    fun d hd he => hne (byteAt_inj hp hq hc hd he).1
  exact (Buf.write_other _ _ (hidx 2 (by omega))).trans
    ((Buf.write_other _ _ (hidx 1 (by omega))).trans (Buf.write_other _ _ (hidx 0 (by omega))))

/-- `blur` visits every pixel. -/
theorem blur_apply (res : Buf UInt8) (hr : p.1 < frameHeight) (hw : p.2 < frameWidth)
    (hc : c < 3) :
    blur res frame blurVector frameWidth frameHeight blurWidth blurHeight
      (byteAt frameWidth p c) =
    blurredByte frame blurVector frameWidth frameHeight blurWidth blurHeight p c := by
  refine Fold.settles (g := fun b : Buf UInt8 => b (byteAt frameWidth p c)) (P := fun q => q = p)
    _ res ?_ ?_ ⟨p, ?_, rfl⟩
  · rintro q _ rfl b
    exact blurPixel_same b q hc
  · intro q hq hne b
    rw [mem_raster, mem_upto, mem_upto] at hq
    exact blurPixel_other hw (by omega) (Ne.symm hne) hc b
  · rw [mem_raster, mem_upto, mem_upto]
    omega

/-- Whether a column belongs to the stripe of thread `i`, whose end column is left out. -/
def InStripe (frameWidth i col : Nat) : Prop :=
  i * (frameWidth / numThreads) ≤ col ∧ col + 1 < (i + 1) * (frameWidth / numThreads)

/-- Whether it belongs to a stripe at all. -/
def Covered (frameWidth col : Nat) : Prop :=
  col < numThreads * (frameWidth / numThreads) ∧
    col % (frameWidth / numThreads) + 1 ≠ frameWidth / numThreads

theorem mem_stripe {i : Nat} :
    p ∈ raster (upto 0 frameHeight) (upto (i * (frameWidth / numThreads))
      (((i : Int) + 1) * (frameWidth / numThreads : Nat) - 1).toNat) ↔
    p.1 < frameHeight ∧ InStripe frameWidth i p.2 := by
  have hend : (((i : Int) + 1) * (frameWidth / numThreads : Nat) - 1).toNat =
      (i + 1) * (frameWidth / numThreads) - 1 := by
    generalize frameWidth / numThreads = n
    have : ((i : Int) + 1) * n = ((i + 1) * n : Nat) := by push_cast; ring
    rw [this]
    omega
  rw [hend, mem_raster, mem_upto, mem_upto]
  unfold InStripe
  omega

theorem stripe_within {i : Nat} (hi : i < numThreads) (h : InStripe frameWidth i p.2) :
    p.2 < frameWidth := by
  have h1 : (i + 1) * (frameWidth / numThreads) ≤ numThreads * (frameWidth / numThreads) :=
    Nat.mul_le_mul_right _ hi
  have h2 := Nat.mul_div_le frameWidth numThreads
  unfold InStripe at h
  omega

theorem covered_iff {col : Nat} :
    Covered frameWidth col ↔ ∃ i < numThreads, InStripe frameWidth i col := by
  unfold Covered InStripe
  generalize hn : frameWidth / numThreads = n
  constructor
  · rintro ⟨hlt, hmod⟩
    have hpos : 0 < n := Nat.pos_of_ne_zero (by rintro rfl; simp at hlt)
    have hdm := Nat.div_add_mod' col n
    have hr := Nat.mod_lt col hpos
    refine ⟨col / n, (Nat.div_lt_iff_lt_mul hpos).mpr hlt, by omega, ?_⟩
    rw [Nat.add_mul]
    omega
  · rintro ⟨i, hi, hlo, hhi⟩
    have hle : (i + 1) * n ≤ numThreads * n := Nat.mul_le_mul_right _ hi
    refine ⟨by omega, ?_⟩
    -- the offset in the stripe is the remainder
    have hmod : col % n = col - i * n := by
      rw [Nat.mod_eq_sub_mul_div]
      have : col / n = i := Nat.div_eq_of_lt_le hlo (by omega)
      rw [this, Nat.mul_comm]
    rw [Nat.add_mul] at hhi
    omega

section stripes

variable {i : Nat} (hi : i < numThreads) (hr : p.1 < frameHeight) (hw : p.2 < frameWidth)
  (hc : c < 3)

include hi hw hc

include hr in
theorem blurStripe_same (h : InStripe frameWidth i p.2)
    (hs : skipped frameWidth frameHeight blurWidth p = false) (res : Buf UInt8) :
    blurStripe frame blurVector frameWidth frameHeight blurWidth blurHeight res i
      (byteAt frameWidth p c) =
    blurredByte frame blurVector frameWidth frameHeight blurWidth blurHeight p c := by
  refine Fold.settles (g := fun b : Buf UInt8 => b (byteAt frameWidth p c)) (P := fun q => q = p)
    _ res ?_ ?_ ⟨p, mem_stripe.mpr ⟨hr, h⟩, rfl⟩
  · rintro q _ rfl b
    rw [hs]
    exact blurPixel_same b q hc
  · intro q hq hne b
    have hq' := stripe_within hi (mem_stripe.mp hq).2
    split
    · rfl
    · exact blurPixel_other hw hq' (Ne.symm hne) hc b

theorem blurStripe_other (h : ¬InStripe frameWidth i p.2) (res : Buf UInt8) :
    blurStripe frame blurVector frameWidth frameHeight blurWidth blurHeight res i
      (byteAt frameWidth p c) = res (byteAt frameWidth p c) := by
  refine Fold.keeps (g := fun b : Buf UInt8 => b (byteAt frameWidth p c)) _ res ?_
  intro q hq b
  have hq' := stripe_within hi (mem_stripe.mp hq).2
  have hne : p ≠ q := by
    rintro rfl
    exact h (mem_stripe.mp hq).2
  split
  · rfl
  · exact blurPixel_other hw hq' hne hc b

end stripes

section parallel

variable {order : List Nat} (fair : order.Perm (List.range numThreads))
  (hr : p.1 < frameHeight) (hw : p.2 < frameWidth) (hc : c < 3)

include fair hw hc

include hr in
/-- A covered pixel off the skipped edges ends up with its bytes, in every order. -/
theorem blurParallel_covered (h : Covered frameWidth p.2)
    (hs : skipped frameWidth frameHeight blurWidth p = false) (res : Buf UInt8) :
    blurParallel order res frame blurVector frameWidth frameHeight blurWidth blurHeight
      (byteAt frameWidth p c) =
    blurredByte frame blurVector frameWidth frameHeight blurWidth blurHeight p c := by
  have hmem : ∀ i, i ∈ order ↔ i < numThreads := fun i => by rw [fair.mem_iff, List.mem_range]
  obtain ⟨i, hi, hin⟩ := covered_iff.mp h
  exact Fold.settles (g := fun b : Buf UInt8 => b (byteAt frameWidth p c))
    (P := fun i => InStripe frameWidth i p.2) _ res
    (fun j hj hin b => blurStripe_same ((hmem j).mp hj) hr hw hc hin hs b)
    (fun j hj hout b => blurStripe_other ((hmem j).mp hj) hw hc hout b)
    ⟨i, (hmem i).mpr hi, hin⟩

/-- The other columns are never written. -/
theorem blurParallel_missed (h : ¬Covered frameWidth p.2) (res : Buf UInt8) :
    blurParallel order res frame blurVector frameWidth frameHeight blurWidth blurHeight
      (byteAt frameWidth p c) = res (byteAt frameWidth p c) := by
  refine Fold.keeps (g := fun b : Buf UInt8 => b (byteAt frameWidth p c)) _ res ?_
  intro i hi b
  have hi' : i < numThreads := by rwa [fair.mem_iff, List.mem_range] at hi
  exact blurStripe_other hi' hw hc (fun hin => h (covered_iff.mpr ⟨i, hi', hin⟩)) b

end parallel

/-- When `blur_parallel` writes what `blur` writes, at a pixel away from the edges:
exactly in the columns some stripe covers. -/
theorem blurParallel_eq_blur_iff (frame blurVector : Buf UInt8)
    (frameWidth frameHeight blurWidth blurHeight : Nat) (p : Pixel)
    (rows : (blurWidth - 1) / 2 ≤ p.1 ∧ p.1 + (blurWidth - 1) / 2 < frameHeight)
    (cols : (blurWidth - 1) / 2 ≤ p.2 ∧ p.2 + (blurWidth - 1) / 2 < frameWidth) :
    (∀ order : List Nat, order.Perm (List.range numThreads) → ∀ res : Buf UInt8, ∀ c < 3,
      blurParallel order res frame blurVector frameWidth frameHeight blurWidth blurHeight
        (byteAt frameWidth p c) =
      blur res frame blurVector frameWidth frameHeight blurWidth blurHeight
        (byteAt frameWidth p c)) ↔
    p.2 < numThreads * (frameWidth / numThreads) ∧
      p.2 % (frameWidth / numThreads) + 1 ≠ frameWidth / numThreads := by
  have hr : p.1 < frameHeight := by omega
  have hw : p.2 < frameWidth := by omega
  have hs : skipped frameWidth frameHeight blurWidth p = false := by
    simp only [skipped, decide_eq_false_iff_not]
    omega
  constructor
  · intro hall
    by_contra hmiss
    -- start from a buffer that holds something else at the pixel
    have h := hall (List.range numThreads) (List.Perm.refl _)
      (Buf.all (blurredByte frame blurVector frameWidth frameHeight blurWidth blurHeight p 0 + 1))
      0 (by omega)
    rw [blurParallel_missed (List.Perm.refl _) hw (by omega) hmiss, blur_apply _ hr hw (by omega),
      Buf.all_apply] at h
    have hnat := congrArg UInt8.toNat h
    rw [UInt8.toNat_add, UInt8.toNat_one] at hnat
    omega
  · intro hcov order fair res c hc
    rw [blurParallel_covered fair hr hw hc hcov hs, blur_apply _ hr hw hc]

/-- A frame of two columns to a thread: the first of each two is blurred, the second is not. -/
theorem blurParallel_eq_blur_iff_stripes :
    (∀ order : List Nat, order.Perm (List.range numThreads) → ∀ res : Buf UInt8, ∀ c < 3,
      blurParallel order res (Buf.all 200) (Buf.all 1) 64 3 3 3 (byteAt 64 (1, 2) c) =
      blur res (Buf.all 200) (Buf.all 1) 64 3 3 3 (byteAt 64 (1, 2) c)) ∧
    ¬∀ order : List Nat, order.Perm (List.range numThreads) → ∀ res : Buf UInt8, ∀ c < 3,
      blurParallel order res (Buf.all 200) (Buf.all 1) 64 3 3 3 (byteAt 64 (1, 3) c) =
      blur res (Buf.all 200) (Buf.all 1) 64 3 3 3 (byteAt 64 (1, 3) c) := by
  have hcovered := blurParallel_eq_blur_iff (Buf.all 200) (Buf.all 1) 64 3 3 3 (1, 2) (by decide)
    (by decide)
  have hmissed := blurParallel_eq_blur_iff (Buf.all 200) (Buf.all 1) 64 3 3 3 (1, 3) (by decide)
    (by decide)
  exact ⟨hcovered.mpr (by decide), fun hall => absurd (hmissed.mp hall) (by decide)⟩

/-- In a frame narrower than the number of threads nothing is blurred at all. -/
theorem centre_not_blurred :
    ¬∀ (frameWidth frameHeight blurWidth blurHeight : Nat) (frame blurVector res : Buf UInt8)
      (order : List Nat) (p : Pixel), blurWidth = blurHeight → blurWidth % 2 = 1 →
      blurVector (blurHeight / 2 * blurWidth + blurWidth / 2) ≠ 0 →
      order.Perm (List.range numThreads) →
      (blurWidth - 1) / 2 ≤ p.1 ∧ p.1 + (blurWidth - 1) / 2 < frameHeight →
      (blurWidth - 1) / 2 ≤ p.2 ∧ p.2 + (blurWidth - 1) / 2 < frameWidth →
      ∀ c < 3,
        blurParallel order res frame blurVector frameWidth frameHeight blurWidth blurHeight
          (byteAt frameWidth p c) =
        blur res frame blurVector frameWidth frameHeight blurWidth blurHeight
          (byteAt frameWidth p c) := by
  intro hall
  have h := hall 3 3 3 3 (Buf.all 200) (Buf.all 1) (Buf.all 0) (List.range numThreads) (1, 1)
    rfl rfl (by decide) (List.Perm.refl _) (by decide) (by decide) 0 (by decide)
  revert h
  decide +kernel

end Motion
