import Motion.Code.PixelSteps
import Motion.Lib.Interleave
import Motion.Proofs.Blur
import Motion.Spec.Objects

/-! The threads of `blur_parallel`. No byte belongs to two stripes, so their pixel
steps commute, and the frame outside the stripes is as it was. -/

namespace Motion

variable {frame blurVector res : Buf UInt8} {frameWidth frameHeight blurWidth blurHeight : Nat}
  {p q : Pixel} {i j k ch : Nat} {trace : List Pixel}

/-- Whether a pixel is nearer to an edge than the radius. -/
def NearEdge (frameWidth frameHeight blurWidth : Nat) (p : Pixel) : Prop :=
  (p.1 < (blurWidth - 1) / 2 ∨ frameHeight - 1 - p.1 < (blurWidth - 1) / 2) ∨
    p.2 < (blurWidth - 1) / 2 ∨ frameWidth - 1 - p.2 < (blurWidth - 1) / 2

section bytes

/-- The three bytes of a pixel, and no other. -/
theorem mem_blurPixelWrites : k ∈ blurPixelWrites frameWidth p ↔ k / 3 = idx frameWidth p := by
  simp only [blurPixelWrites, idx, List.mem_cons, List.not_mem_nil, or_false]
  omega

theorem blurPixel_apply (res : Buf UInt8) (p : Pixel) (k : Nat) :
    blurPixel frame blurVector frameWidth frameHeight blurWidth blurHeight res p k =
      if k / 3 = idx frameWidth p then
        blurredByte frame blurVector frameWidth frameHeight blurWidth blurHeight p (k % 3)
      else res k := by
  split
  · rename_i hk
    have hbyte : k = byteAt frameWidth p (k % 3) := by
      unfold idx at hk
      unfold byteAt
      omega
    have hsame : blurPixel frame blurVector frameWidth frameHeight blurWidth blurHeight res p
        (byteAt frameWidth p (k % 3)) = _ :=
      blurPixel_same res p (Nat.mod_lt k (show 3 > 0 by decide))
    rwa [← hbyte] at hsame
  · rename_i hk
    have hne : ∀ d < 3, k ≠ (p.1 * frameWidth + p.2) * 3 + d := by
      unfold idx at hk
      omega
    exact (Buf.write_other _ _ (hne 2 (by decide))).trans
      ((Buf.write_other _ _ (hne 1 (by decide))).trans (Buf.write_other _ _ (hne 0 (by decide))))

/-- The steps of two pixels of one row length commute. -/
theorem blurStep_comm (hp : p.2 < frameWidth) (hq : q.2 < frameWidth) (res : Buf UInt8) :
    blurStep frame blurVector frameWidth frameHeight blurWidth blurHeight
      (blurStep frame blurVector frameWidth frameHeight blurWidth blurHeight res p) q =
    blurStep frame blurVector frameWidth frameHeight blurWidth blurHeight
      (blurStep frame blurVector frameWidth frameHeight blurWidth blurHeight res q) p := by
  unfold blurStep
  by_cases hsp : skipped frameWidth frameHeight blurWidth p = true
  · simp [hsp]
  by_cases hsq : skipped frameWidth frameHeight blurWidth q = true
  · simp [hsq]
  simp only [hsp, hsq]
  apply Buf.ext
  funext k
  change blurPixel _ _ _ _ _ _ (blurPixel _ _ _ _ _ _ res p) q k =
    blurPixel _ _ _ _ _ _ (blurPixel _ _ _ _ _ _ res q) p k
  rw [blurPixel_apply, blurPixel_apply, blurPixel_apply, blurPixel_apply]
  by_cases hkp : k / 3 = idx frameWidth p
  · by_cases hkq : k / 3 = idx frameWidth q
    · rw [idx_inj hp hq (hkp.symm.trans hkq)]
    · rw [if_neg hkq, if_pos hkp, if_pos hkp]
  · rw [if_neg hkp, if_neg hkp]

theorem blurStep_other (hk : skipped frameWidth frameHeight blurWidth p = true ∨
    k ∉ blurPixelWrites frameWidth p) (res : Buf UInt8) :
    blurStep frame blurVector frameWidth frameHeight blurWidth blurHeight res p k = res k := by
  unfold blurStep
  cases hk with
  | inl hs => rw [if_pos hs]
  | inr hk =>
    split
    · rfl
    · rw [blurPixel_apply, if_neg (fun h => hk (mem_blurPixelWrites.mpr h))]

end bytes

section stripes

theorem mem_stripePixels : p ∈ stripePixels frameWidth frameHeight i ↔
    p.1 < frameHeight ∧ InStripe frameWidth i p.2 :=
  mem_stripe

/-- A call of `blur_helper` is its pixel steps one after another. -/
theorem blurStripe_steps (res : Buf UInt8) (i : Nat) :
    blurStripe frame blurVector frameWidth frameHeight blurWidth blurHeight res i =
      (stripePixels frameWidth frameHeight i).foldl
        (blurStep frame blurVector frameWidth frameHeight blurWidth blurHeight) res := rfl

theorem mem_stripeWrites : k ∈ stripeWrites frameWidth frameHeight blurWidth i ↔
    ∃ p : Pixel, (p.1 < frameHeight ∧ InStripe frameWidth i p.2) ∧
      skipped frameWidth frameHeight blurWidth p = false ∧ k / 3 = idx frameWidth p := by
  unfold stripeWrites
  rw [List.mem_flatMap]
  refine exists_congr (fun p => and_congr mem_stripePixels ?_)
  cases skipped frameWidth frameHeight blurWidth p with
  | true => simp
  | false => simp [mem_blurPixelWrites]

/-- No column belongs to two stripes. -/
theorem InStripe.eq {col : Nat} (hi : InStripe frameWidth i col) (hj : InStripe frameWidth j col) :
    i = j := by
  unfold InStripe at hi hj
  by_contra hne
  cases Nat.lt_or_gt_of_ne hne with
  | inl hlt =>
    have := Nat.mul_le_mul_right (frameWidth / numThreads) (Nat.succ_le_of_lt hlt)
    simp only [Nat.succ_eq_add_one] at this
    omega
  | inr hlt =>
    have := Nat.mul_le_mul_right (frameWidth / numThreads) (Nat.succ_le_of_lt hlt)
    simp only [Nat.succ_eq_add_one] at this
    omega

/-- No byte is written by two calls. -/
theorem stripeWrites_apart (hi : i < numThreads) (hj : j < numThreads)
    (hki : k ∈ stripeWrites frameWidth frameHeight blurWidth i)
    (hkj : k ∈ stripeWrites frameWidth frameHeight blurWidth j) : i = j := by
  obtain ⟨p, ⟨_, hp⟩, _, hkp⟩ := mem_stripeWrites.mp hki
  obtain ⟨q, ⟨_, hq⟩, _, hkq⟩ := mem_stripeWrites.mp hkj
  have he := idx_inj (stripe_within hi hp) (stripe_within hj hq) (hkp.symm.trans hkq)
  subst he
  exact hp.eq hq

theorem stripeWrites_lt (hi : i < numThreads)
    (hk : k ∈ stripeWrites frameWidth frameHeight blurWidth i) :
    k < 3 * frameWidth * frameHeight := by
  obtain ⟨p, ⟨hr, hp⟩, _, hkp⟩ := mem_stripeWrites.mp hk
  have hlt := idx_lt (show InFrame frameWidth frameHeight p from ⟨hr, stripe_within hi hp⟩)
  rw [Nat.mul_assoc]
  omega

/-- The bytes a call may change are those it is said to write. -/
theorem blurStripe_elsewhere (hk : k ∉ stripeWrites frameWidth frameHeight blurWidth i)
    (res : Buf UInt8) :
    blurStripe frame blurVector frameWidth frameHeight blurWidth blurHeight res i k = res k := by
  rw [blurStripe_steps]
  refine Fold.keeps (g := fun b : Buf UInt8 => b k) _ res ?_
  intro p hp b
  refine blurStep_other ?_ b
  by_contra hno
  push Not at hno
  rw [ne_eq, Bool.not_eq_true] at hno
  exact hk (mem_stripeWrites.mpr
    ⟨p, mem_stripePixels.mp hp, hno.1, mem_blurPixelWrites.mp hno.2⟩)

end stripes

section run

variable (run : Interleave.Run (blurThreads frameWidth frameHeight) trace)

include run

theorem mem_blurTrace : p ∈ trace ↔
    ∃ i < numThreads, p.1 < frameHeight ∧ InStripe frameWidth i p.2 := by
  rw [run.mem_iff]
  simp only [blurThreads, List.mem_map, List.mem_range]
  constructor
  · rintro ⟨_, ⟨i, hi, rfl⟩, hp⟩
    exact ⟨i, hi, mem_stripePixels.mp hp⟩
  · rintro ⟨i, hi, hp⟩
    exact ⟨_, ⟨i, hi, rfl⟩, mem_stripePixels.mpr hp⟩

/-- Every interleaving ends as the calls one after another do. -/
theorem blurInterleaved_eq (res frame blurVector : Buf UInt8) (blurWidth blurHeight : Nat) :
    blurInterleaved trace res frame blurVector frameWidth frameHeight blurWidth blurHeight =
      blurParallel (List.range numThreads) res frame blurVector frameWidth frameHeight blurWidth
        blurHeight := by
  have hcol : ∀ p ∈ trace, p.2 < frameWidth := by
    intro p hp
    obtain ⟨i, hi, _, hin⟩ := (mem_blurTrace run).mp hp
    exact stripe_within hi hin
  unfold blurInterleaved blurParallel
  rw [run.foldl_eq (fun p hp q hq res => blurStep_comm (hcol p hp) (hcol q hq) res), blurThreads,
    List.foldl_flatten, List.foldl_map]
  rfl

/-- A pixel of no stripe, or near an edge, is left alone. -/
theorem blurInterleaved_outside (hp : InFrame frameWidth frameHeight p)
    (hout : (¬∃ i < numThreads, InStripe frameWidth i p.2) ∨
      NearEdge frameWidth frameHeight blurWidth p) (hch : ch < 3) (res : Buf UInt8) :
    blurInterleaved trace res frame blurVector frameWidth frameHeight blurWidth blurHeight
      (byteAt frameWidth p ch) = res (byteAt frameWidth p ch) := by
  refine Fold.keeps (g := fun b : Buf UInt8 => b (byteAt frameWidth p ch)) _ res ?_
  intro q hq b
  obtain ⟨i, hi, hr, hin⟩ := (mem_blurTrace run).mp hq
  refine blurStep_other ?_ b
  by_contra hno
  push Not at hno
  have hidx : idx frameWidth p = idx frameWidth q := by
    have hk := mem_blurPixelWrites.mp hno.2
    unfold byteAt at hk
    unfold idx at hk ⊢
    omega
  have he := idx_inj hp.2 (stripe_within hi hin) hidx
  subst he
  cases hout with
  | inl hnone => exact hnone ⟨i, hi, hin⟩
  | inr hnear =>
    refine hno.1 ?_
    unfold InFrame at hp
    unfold NearEdge at hnear
    simp only [skipped, decide_eq_true_eq]
    omega

/-- The threads do not interfere: no byte is written by two of them, none outside the
frame, and every interleaving gives one result, with the rest of the frame kept. -/
theorem blurThreads_apart (res frame blurVector : Buf UInt8) (blurWidth blurHeight : Nat) :
    ((∀ i < numThreads, ∀ j < numThreads,
        ∀ k ∈ stripeWrites frameWidth frameHeight blurWidth i,
          k ∈ stripeWrites frameWidth frameHeight blurWidth j → i = j) ∧
      ∀ i < numThreads, ∀ k ∈ stripeWrites frameWidth frameHeight blurWidth i,
        k < 3 * frameWidth * frameHeight) ∧
    blurInterleaved trace res frame blurVector frameWidth frameHeight blurWidth blurHeight =
      blurParallel (List.range numThreads) res frame blurVector frameWidth frameHeight blurWidth
        blurHeight ∧
    ∀ p, InFrame frameWidth frameHeight p →
      (¬∃ i < numThreads, InStripe frameWidth i p.2) ∨
        NearEdge frameWidth frameHeight blurWidth p →
      ∀ ch < 3,
        blurInterleaved trace res frame blurVector frameWidth frameHeight blurWidth blurHeight
          (byteAt frameWidth p ch) = res (byteAt frameWidth p ch) := by
  refine ⟨⟨?_, ?_⟩, blurInterleaved_eq run res frame blurVector blurWidth blurHeight, ?_⟩
  · intro i hi j hj k hki hkj
    exact stripeWrites_apart hi hj hki hkj
  · intro i hi k hk
    exact stripeWrites_lt hi hk
  · intro p hp hout ch hch
    exact blurInterleaved_outside run hp hout hch res

end run

/-- One row of 64 pixels, the threads one after another. -/
theorem blurThreads_apart_row :
    ((∀ i < numThreads, ∀ j < numThreads, ∀ k ∈ stripeWrites 64 1 1 i,
        k ∈ stripeWrites 64 1 1 j → i = j) ∧
      ∀ i < numThreads, ∀ k ∈ stripeWrites 64 1 1 i, k < 3 * 64 * 1) ∧
    blurInterleaved (blurThreads 64 1).flatten (Buf.all 0) (Buf.all 200) (Buf.all 1) 64 1 1 1 =
      blurParallel (List.range numThreads) (Buf.all 0) (Buf.all 200) (Buf.all 1) 64 1 1 1 ∧
    ∀ p, InFrame 64 1 p →
      (¬∃ i < numThreads, InStripe 64 i p.2) ∨ NearEdge 64 1 1 p →
      ∀ ch < 3, blurInterleaved (blurThreads 64 1).flatten (Buf.all 0) (Buf.all 200) (Buf.all 1)
        64 1 1 1 (byteAt 64 p ch) = Buf.all 0 (byteAt 64 p ch) :=
  blurThreads_apart (Interleave.Run.one_by_one _) _ _ _ 1 1

end Motion
