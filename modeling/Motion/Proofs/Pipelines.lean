import Motion.Proofs.Agreement
import Motion.Proofs.StaticScene

/-! `par` against `seq`, stage by stage: when the threshold images show the same motion, and
when the two report the same blob of a frame. -/

namespace Motion
open Labelling

/-- What the test asserts of the two pipelines: whenever `seq` returns with a biggest blob of
mass over 50, `par` returns with the same one. -/
def Lawful (w frameWidth : Nat) (s : Schedule) (background frameRaw : Buf UInt8) : Prop :=
  ∀ (stack stack' : Buf (Blob w)) (biggest biggest' : Blob w) (d' : Detection w),
    seqRun stack' biggest' (Buf.all 0) frameWidth 240 background frameRaw = some d' →
    50 < d'.biggestBlob.mass →
    ∃ d, par s stack biggest (Buf.all 0) frameWidth 240 background frameRaw = some d ∧
      d.numBlobs ≤ maxBlobsPerThread ∧ Agrees d.biggestBlob d'.biggestBlob

/-- Whether `seq` returns: an `int` counts the bytes of the frame, the table of `blob_detect`
has no negative length, and the starts of the threshold image fit it. -/
def SeqReturns (frameWidth : Nat) (background frameRaw : Buf UInt8) : Prop :=
  (3 * frameWidth * 240 < intEnd ∧ -4 < signedShort frameWidth * signedShort 240) ∧
    (starts (seqThresh frameWidth 240 background frameRaw) (short frameWidth) 240 = [] ∨
      (starts (seqThresh frameWidth 240 background frameRaw) (short frameWidth) 240).length <
        tableSize (short frameWidth) 240)

/-- In the columns no stripe blurs the background stands out from black exactly where it
does from the blurred frame. -/
def GapsHarmless (frameWidth : Nat) (background frameRaw : Buf UInt8) : Prop :=
  ∀ p, Inside frameWidth 240 p → ¬Covered frameWidth p.2 →
    (31 ^ 2 ≤ distance background (Buf.all 0) frameWidth p ↔
      31 ^ 2 ≤ distance background (seqBlur frameWidth 240 frameRaw) frameWidth p)

variable {w frameWidth frameHeight : Nat} {s : Schedule} {stripes : List Nat}
  {background frameRaw fr fr' : Buf UInt8} {p : Pixel}

theorem seqRun_returns_iff {stack : Buf (Blob w)} {biggest : Blob w} {d : Detection w} :
    seqRun stack biggest (Buf.all 0) frameWidth 240 background frameRaw = some d ↔
      SeqReturns frameWidth background frameRaw ∧
      blobDetect stack biggest (Buf.all 0) (seqThresh frameWidth 240 background frameRaw)
        (short frameWidth) 240 = d := by
  have hheight : short 240 = 240 := rfl
  have hfit : (∀ l, 1 ≤ l → l < (labelLoop w (short frameWidth) 240 (Buf.all 0)
      (seqThresh frameWidth 240 background frameRaw)).labelCounter →
      l < tableSize (short frameWidth) 240) ↔ _ :=
    labels_lt_iff (BorderZero.all (short frameWidth) 240) (tableSize (short frameWidth) 240)
  rw [seqRun_eq_some_iff, hheight]
  unfold SeqReturns blobDetectRun
  rw [← hfit]
  refine Iff.trans (and_congr_right (fun _ => ?_)) and_assoc.symm
  split
  · rename_i hall
    rw [Option.some_inj]
    exact (and_iff_right (fun l h1 hl => hall l (mem_upto.mpr ⟨h1, hl⟩))).symm
  · rename_i hall
    refine iff_of_false (Option.some_ne_none d).symm (fun hand => hall (fun l hl => ?_))
    have hrange := mem_upto.mp hl
    exact hand.1 l hrange.1 hrange.2

/-- The law is the agreement of the detectors on the two threshold images. -/
theorem lawful_iff : Lawful w frameWidth s background frameRaw ↔
    (SeqReturns frameWidth background frameRaw →
      Agreement w (short frameWidth) s.labels s.stitches
        (parThresh s.stripes frameWidth 240 background frameRaw)
        (seqThresh frameWidth 240 background frameRaw)) := by
  unfold Lawful Agreement
  simp only [seqRun_returns_iff]
  constructor
  · intro hall hret stack stack' biggest biggest' hmore
    exact hall stack stack' biggest biggest' _ ⟨hret, rfl⟩ hmore
  · rintro hall stack stack' biggest biggest' _ ⟨hret, rfl⟩ hmore
    exact hall hret stack stack' biggest biggest' hmore

theorem short_eq (hw : frameWidth < 32768) : short frameWidth = frameWidth := by
  unfold short
  rw [Nat.mod_eq_of_lt (by omega), if_pos hw]

theorem signedShort_eq (hw : frameWidth < 32768) : signedShort frameWidth = frameWidth := by
  unfold signedShort
  omega

/-- The distance at a pixel depends on the pixel's bytes only. -/
theorem distance_congr (same : ∀ c < 3, fr (byteAt frameWidth p c) = fr' (byteAt frameWidth p c)) :
    distance background fr frameWidth p = distance background fr' frameWidth p := by
  unfold distance
  refine Finset.sum_congr rfl (fun c hc => ?_)
  rw [same c (Finset.mem_range.mp hc)]

theorem motionByte_pos : motionByte background fr frameWidth p > 0 ↔
    31 ^ 2 ≤ distance background fr frameWidth p := by
  unfold motionByte
  split
  · rename_i h
    exact iff_of_true (by decide) h
  · rename_i h
    exact iff_of_false (by decide) h

theorem seqThresh_pos (hp : InFrame frameWidth frameHeight p) :
    seqThresh frameWidth frameHeight background frameRaw (idx frameWidth p) > 0 ↔
      31 ^ 2 ≤ distance background (seqBlur frameWidth frameHeight frameRaw) frameWidth p := by
  unfold seqThresh
  rw [bgSub_apply _ hp, motionByte_pos]

theorem parThresh_pos (fits : 3 * (frameWidth * frameHeight + 3) < 2 ^ 31)
    (hp : InFrame frameWidth frameHeight p) :
    parThresh stripes frameWidth frameHeight background frameRaw (idx frameWidth p) > 0 ↔
      31 ^ 2 ≤ distance background (parBlur stripes frameWidth frameHeight frameRaw)
        frameWidth p := by
  unfold parThresh
  rw [bgSubParallelSimd_apply fits _ hp, motionByte_pos]

/-- A column no stripe covers stays black. -/
theorem parBlur_missed (fair : stripes.Perm (List.range numThreads)) (hw : p.2 < frameWidth)
    (hmiss : ¬Covered frameWidth p.2) {c : Nat} (hc : c < 3) :
    parBlur stripes frameWidth frameHeight frameRaw (byteAt frameWidth p c) = 0 := by
  unfold parBlur
  rw [blurParallel_missed fair hw hc hmiss]
  rfl

/-- Off the edges the others are blurred as in `seq`. -/
theorem parBlur_covered (fair : stripes.Perm (List.range numThreads))
    (hp : Inside frameWidth frameHeight p) (hcov : Covered frameWidth p.2) {c : Nat} (hc : c < 3) :
    parBlur stripes frameWidth frameHeight frameRaw (byteAt frameWidth p c) =
      seqBlur frameWidth frameHeight frameRaw (byteAt frameWidth p c) := by
  unfold Inside at hp
  have hs : skipped frameWidth frameHeight 3 p = false := by
    simp only [skipped, decide_eq_false_iff_not]
    omega
  unfold parBlur seqBlur
  rw [blurParallel_covered fair (by omega) (by omega) hc hcov hs,
    blur_apply _ (by omega) (by omega) hc]

/-- So the threshold images show the same motion off the border exactly if the gaps between
the stripes do no harm. -/
theorem thresh_same_iff (hw : frameWidth < 32768) (fair : stripes.Perm (List.range numThreads)) :
    SameInterior frameWidth 240 (parThresh stripes frameWidth 240 background frameRaw)
      (seqThresh frameWidth 240 background frameRaw) ↔
    GapsHarmless frameWidth background frameRaw := by
  have hframe : ∀ p, Inside frameWidth 240 p → InFrame frameWidth 240 p := by
    intro p hp
    unfold Inside at hp
    exact ⟨by omega, by omega⟩
  have hgap : ∀ p, Inside frameWidth 240 p → ¬Covered frameWidth p.2 →
      distance background (parBlur stripes frameWidth 240 frameRaw) frameWidth p =
        distance background (Buf.all 0) frameWidth p :=
    fun p hp hmiss => distance_congr (fun c hc => parBlur_missed fair (hframe p hp).2 hmiss hc)
  constructor
  · intro same p hp hmiss
    rw [← hgap p hp hmiss, ← parThresh_pos (by omega) (hframe p hp),
      ← seqThresh_pos (hframe p hp)]
    exact same p hp
  · intro hall p hp
    rw [parThresh_pos (by omega) (hframe p hp), seqThresh_pos (hframe p hp)]
    by_cases hcov : Covered frameWidth p.2
    · rw [distance_congr (fun c hc => parBlur_covered fair hp hcov hc)]
    · rw [hgap p hp hcov]
      exact hall p hp hcov

/-- Of its image `blob_detect` sees the motion off the border only. -/
theorem agreement_congr {width : Nat} {order : List Band} {stitches : List Nat}
    {input input' input'' : Buf UInt8} (same : SameInterior width 240 input' input'') :
    Agreement w width order stitches input input' ↔
      Agreement w width order stitches input input'' := by
  have hseq : ∀ (stack : Buf (Blob w)) (biggest : Blob w),
      blobDetect stack biggest (Buf.all 0) input' width 240 =
        blobDetect stack biggest (Buf.all 0) input'' width 240 := by
    intro stack biggest
    unfold blobDetect
    rw [labelLoop_congr w (Buf.all 0) same]
  unfold Agreement
  simp only [hseq]

theorem counter_le_of_starts {input : Buf UInt8} {width : Nat}
    (few : (starts input width 240).length < 65536) :
    (labelLoop w width 240 (Buf.all 0) input).labelCounter ≤ 65536 := by
  rw [labelCounter_eq (BorderZero.all width 240)]
  exact few

/-- Where the gaps between the stripes do no harm both detectors work on one image. -/
theorem lawful_iff_of_gaps (fair : s.Fair) (hw : frameWidth < 32768)
    (gaps : GapsHarmless frameWidth background frameRaw) :
    Lawful w frameWidth s background frameRaw ↔
      (SeqReturns frameWidth background frameRaw →
        Agreement w frameWidth s.labels s.stitches
          (parThresh s.stripes frameWidth 240 background frameRaw)
          (parThresh s.stripes frameWidth 240 background frameRaw)) := by
  have same := (thresh_same_iff hw fair.stripes).mpr gaps
  rw [lawful_iff, short_eq hw, agreement_congr (fun p hp => (same p hp).symm)]

/-- When the law holds of a frame: where the gaps between the blur's stripes do no harm and the
threshold image meets none of the detectors' faults. Exactly when the starts of the two threshold
images agree; on whole images, exactly when the largest object is safe. -/
theorem lawful_of_faultless (fair : s.Fair) :
    (frameWidth < 32768 →
      (starts (seqThresh frameWidth 240 background frameRaw) frameWidth 240).length < 65536 →
      GapsHarmless frameWidth background frameRaw →
      Faultless (parThresh s.stripes frameWidth 240 background frameRaw) frameWidth s.labels
        s.stitches →
      Lawful w frameWidth s background frameRaw) ∧
    ((starts (seqThresh frameWidth 240 background frameRaw) (short frameWidth) 240).length <
        65536 →
      (Lawful w frameWidth s background frameRaw ↔
        (SeqReturns frameWidth background frameRaw →
          StartsAgree w (short frameWidth) s.labels s.stitches
            (parThresh s.stripes frameWidth 240 background frameRaw)
            (seqThresh frameWidth 240 background frameRaw)))) ∧
    (frameWidth < 32768 →
      (starts (seqThresh frameWidth 240 background frameRaw) frameWidth 240).length < 65536 →
      GapsHarmless frameWidth background frameRaw →
      Roomy (parThresh s.stripes frameWidth 240 background frameRaw) frameWidth s.labels →
      Whole (parThresh s.stripes frameWidth 240 background frameRaw) frameWidth s.labels
        s.stitches →
      (Lawful w frameWidth s background frameRaw ↔
        (SeqReturns frameWidth background frameRaw →
          LargestSafe (parThresh s.stripes frameWidth 240 background frameRaw) frameWidth
            s.labels s.stitches))) := by
  have hcounter : frameWidth < 32768 → GapsHarmless frameWidth background frameRaw →
      (starts (seqThresh frameWidth 240 background frameRaw) frameWidth 240).length < 65536 →
      (labelLoop w frameWidth 240 (Buf.all 0)
        (parThresh s.stripes frameWidth 240 background frameRaw)).labelCounter ≤ 65536 := by
    intro hw gaps few
    rw [labelLoop_congr w (Buf.all 0) ((thresh_same_iff hw fair.stripes).mpr gaps)]
    exact counter_le_of_starts few
  refine ⟨fun hw few gaps faultless => ?_, fun few => ?_, fun hw few gaps roomy whole => ?_⟩
  · rw [lawful_iff_of_gaps fair hw gaps]
    exact fun _ => agreement_of_faultless fair.labels fair.stitches (hcounter hw gaps few) faultless
  · rw [lawful_iff]
    exact imp_congr_right (fun _ =>
      agreement_of_starts_iff fair.labels fair.stitches (counter_le_of_starts few))
  · obtain ⟨sh, hsh⟩ := Option.isSome_iff_exists.mp (runLabels_isSome w fair.labels roomy)
    rw [lawful_iff_of_gaps fair hw gaps]
    exact imp_congr_right (fun _ => agreement_of_whole_iff fair.labels fair.stitches
      (hcounter hw gaps few) hsh whole)

/-- The calls in the order in which the source starts them. -/
def Schedule.plain : Schedule := ⟨List.range numThreads, bands, seams⟩

theorem Schedule.plain_fair : Schedule.plain.Fair :=
  ⟨List.Perm.refl _, List.Perm.refl _, List.Perm.refl _⟩

section still

/-- The distance between two plain colours. -/
theorem distance_plain {u v : UInt8} (hu : ∀ c < 3, background (byteAt frameWidth p c) = u)
    (hv : ∀ c < 3, fr (byteAt frameWidth p c) = v) :
    distance background fr frameWidth p = 3 * ((u.toNat : Int) - v.toNat).natAbs ^ 2 := by
  unfold distance
  rw [Finset.sum_congr rfl (fun c hc => by
    rw [hu c (Finset.mem_range.mp hc), hv c (Finset.mem_range.mp hc)])]
  simp

/-- A plain frame is blurred to itself. -/
theorem seqBlur_plain (v : UInt8) (hp : InFrame frameWidth frameHeight p) {c : Nat} (hc : c < 3) :
    seqBlur frameWidth frameHeight (Buf.all v) (byteAt frameWidth p c) = v := by
  have hmean : smoothed (Buf.all v) frameWidth frameHeight p c = v.toNat := by
    unfold smoothed
    simp only [Buf.all_apply, Finset.sum_const, smul_eq_mul]
    refine Nat.div_eq_of_eq_mul_left (by omega) ?_
    ring
  have hbyte := blurredByte_kernel (Buf.all v) hp hc
  rw [hmean] at hbyte
  unfold seqBlur
  rw [blur_apply _ hp.1 hp.2 hc]
  exact UInt8.toNat_inj.mp hbyte

/-- A frame narrower than the number of threads is not blurred at all. -/
theorem narrow_missed {col : Nat} : ¬Covered 3 col := by
  rintro ⟨hlt, _⟩
  simp [numThreads] at hlt

/-- A background against which a black frame shows an image. -/
def negative (img : Buf UInt8) : Buf UInt8 := ⟨fun i => if img (i / 3) > 0 then 255 else 0⟩

section negative

variable {img : Buf UInt8}

/-- A black frame stands out from it where the image is active. -/
theorem distance_negative (hdark : ∀ c < 3, fr (byteAt 3 p c) = 0) :
    31 ^ 2 ≤ distance (negative img) fr 3 p ↔ img (idx 3 p) > 0 := by
  have hbyte : ∀ c < 3, negative img (byteAt 3 p c) = if img (idx 3 p) > 0 then 255 else 0 := by
    intro c hc
    have hat : byteAt 3 p c / 3 = idx 3 p := by
      unfold byteAt idx
      omega
    unfold negative
    dsimp only
    rw [hat]
  rw [distance_plain hbyte hdark]
  split
  · rename_i hon
    exact iff_of_true (by decide) hon
  · rename_i hoff
    exact iff_of_false (by decide) hoff

theorem moving_negative (p : Pixel) : Moving img 3 labelledHeight p ↔
    Moving (parThresh Schedule.plain.stripes 3 240 (negative img) (Buf.all 0)) 3
      labelledHeight p := by
  refine and_congr_right (fun hin => ?_)
  unfold Inside labelledHeight at hin
  rw [parThresh_pos (by decide) ⟨by omega, by omega⟩]
  exact (distance_negative (fun c hc =>
    parBlur_missed Schedule.plain_fair.stripes (by omega) narrow_missed hc)).symm

theorem seqThresh_negative :
    SameInterior 3 240 (seqThresh 3 240 (negative img) (Buf.all 0)) img := by
  intro p hp
  unfold Inside at hp
  have hframe : InFrame 3 240 p := ⟨by omega, by omega⟩
  rw [seqThresh_pos hframe]
  exact distance_negative (fun c hc => seqBlur_plain 0 hframe hc)

theorem negative_gaps : GapsHarmless 3 (negative img) (Buf.all 0) := by
  intro p hp _
  unfold Inside at hp
  rw [distance_negative (fun _ _ => rfl),
    distance_negative (fun c hc => seqBlur_plain 0 ⟨by omega, by omega⟩ hc)]

theorem negative_card :
    (moving (parThresh Schedule.plain.stripes 3 240 (negative img) (Buf.all 0)) 3
      labelledHeight).card = (moving img 3 labelledHeight).card := by
  refine congrArg Finset.card (Finset.ext (fun p => ?_))
  rw [mem_moving, mem_moving]
  exact (moving_negative p).symm

end negative

/-- The frame shows a column wherever the image does. -/
theorem negative_column {img : Buf UInt8} {on : Nat → Bool} (h : Column img on labelledHeight) :
    Column (parThresh Schedule.plain.stripes 3 240 (negative img) (Buf.all 0)) on
      labelledHeight :=
  ⟨h.off, fun p => (moving_negative p).symm.trans (h.moving p)⟩

theorem negative_column_cut {img : Buf UInt8} {on : Nat → Bool} (h : Column img on 240) :
    Column (parThresh Schedule.plain.stripes 3 240 (negative img) (Buf.all 0)) on 240 := by
  refine ⟨h.off, fun p => ?_⟩
  rw [← h.moving p]
  refine and_congr_right (fun hin => ?_)
  have hrow : p.1 < 240 ∧ p.2 < 3 := by
    unfold Inside at hin
    omega
  rw [parThresh_pos (by decide) hrow]
  exact distance_negative (fun c hc =>
    parBlur_missed Schedule.plain_fair.stripes hrow.2 narrow_missed hc)

/-- A black frame against two poles, the upper of which has more than fifty pixels. -/
theorem lawful_twoPoles : Lawful 32 3 Schedule.plain (negative twoPoles) (Buf.all 0) := by
  have h : Column twoPoles poleRows 240 := twoPoles_column (by decide)
  have hpar := negative_column twoPoles_labelled
  have hpar' := negative_column_cut h
  obtain ⟨hlaw, _⟩ : _ ∧ _ := lawful_of_faultless (w := 32) Schedule.plain_fair
  refine hlaw (by decide) ?_ negative_gaps ⟨⟨_, hpar'.along poleRows_upper poleRows_upper.begins⟩,
    Or.inr ⟨roomy_of_narrow _ _ (by decide), hpar.whole hpar' seams, hpar.poles_safe hpar'⟩⟩
  have hcount : (labelLoop 32 3 240 (Buf.all 0)
      (seqThresh 3 240 (negative twoPoles) (Buf.all 0))).labelCounter = _ :=
    labelCounter_eq (BorderZero.all 3 240)
  rw [labelLoop_congr 32 (Buf.all 0) seqThresh_negative] at hcount
  have := (h.labelsFit 32).counter_le
  omega

end still

section white

/-- A dark background with one white pixel. -/
def whiteDot : Buf UInt8 := ⟨fun i => if i / 3 = 4 then 255 else 0⟩

theorem whiteDot_byte (hp : 1 ≤ p.2) (hc : p.2 < 3) {c : Nat} (h : c < 3) :
    whiteDot (byteAt 3 p c) = if p = (1, 1) then 255 else 0 := by
  unfold whiteDot byteAt
  dsimp only
  refine if_congr ?_ rfl rfl
  rw [Prod.ext_iff]
  dsimp only
  omega

/-- Against a white frame `seq` sees motion everywhere else. -/
theorem seqThresh_white : SameInterior 3 240 (seqThresh 3 240 whiteDot (Buf.all 255))
    (pole 2 238) := by
  intro p hp
  have hin := hp
  unfold Inside at hin
  rw [seqThresh_pos ⟨by omega, by omega⟩,
    distance_plain (fun c hc => whiteDot_byte (by omega) (by omega) hc)
      (fun c hc => seqBlur_plain 255 ⟨by omega, by omega⟩ hc)]
  unfold pole
  rw [painted_on (by omega), decide_eq_true_eq]
  by_cases he : p = (1, 1)
  · subst he
    simp
  · rw [if_neg he]
    refine iff_of_true (by decide) ?_
    have hrow : p.1 ≠ 1 := fun hr => he (Prod.ext hr (by dsimp only; omega))
    omega

/-- And `par`, which compares it with black, only there. -/
theorem parThresh_white {p : Pixel} (hp : Moving (parThresh Schedule.plain.stripes 3 240 whiteDot
    (Buf.all 255)) 3 labelledHeight p) : p = (1, 1) := by
  obtain ⟨hin, hon⟩ := hp
  unfold Inside labelledHeight at hin
  rw [parThresh_pos (by decide) ⟨by omega, by omega⟩,
    distance_plain (fun c hc => whiteDot_byte (by omega) (by omega) hc)
      (fun c hc => parBlur_missed Schedule.plain_fair.stripes (by omega) narrow_missed hc)] at hon
  by_contra he
  rw [if_neg he] at hon
  simp at hon

/-- `seq` reports a blob of 237 pixels, `par` one of a single pixel. -/
theorem white_breaks_law :
    ¬∀ (w frameWidth : Nat) (s : Schedule) (background frameRaw : Buf UInt8), 3 ≤ frameWidth →
      s.Fair → Lawful w frameWidth s background frameRaw := by
  intro hall
  have hpole : Column (pole 2 238) _ 240 := pole_column (by decide) (Nat.le_refl 240)
  have hfit := hpole.labelsFit 32
  have hlaw := hall 32 3 Schedule.plain whiteDot (Buf.all 255) (Nat.le_refl 3)
    Schedule.plain_fair
  rw [lawful_iff, short_eq (by decide), agreement_congr seqThresh_white] at hlaw
  have hreturns : SeqReturns 3 whiteDot (Buf.all 255) := by
    refine ⟨⟨by decide, by decide⟩, ?_⟩
    rw [← labels_lt_iff (w := 32) (BorderZero.all (short 3) 240), short_eq (by decide),
      labelLoop_congr 32 (Buf.all 0) seqThresh_white]
    exact fun l h1 hl => (hfit l h1 hl).1
  obtain ⟨sh, hsh⟩ := Option.isSome_iff_exists.mp (runLabels_isSome 32
    Schedule.plain_fair.labels (roomy_of_narrow
      (parThresh Schedule.plain.stripes 3 240 whiteDot (Buf.all 255)) _ (by decide : 3 ≤ 5)))
  obtain ⟨u, hu⟩ : ∃ u, redirectAll (maxBlobsPerThread * 4)
    (Schedule.plain.stitches.foldl (stitch 3) sh).blobs = u := ⟨_, rfl⟩
  obtain ⟨i, hi, himp⟩ := (agreement_of_run_iff Schedule.plain_fair.labels
    Schedule.plain_fair.stitches hfit.counter_le hsh hu).mp (hlaw hreturns)
  -- all that `seq` sees is one object
  have hseq := (labelLoop_labelled (BorderZero.all 3 240) hfit.counter_le).catalogue
    (hpole.starts_met (by decide))
  obtain ⟨p, hp, rfl⟩ := hseq.heaviest_iff.mp hi
  have hcard := hseq.card hp.moving
  have hmass := hpole.object_ncard (pole_stretch (by decide : 2 ≤ 238))
    ((moving_pole (by decide) (Nat.le_refl 240)).mp hp.moving)
  obtain ⟨_, r, _, _, hsame⟩ := himp (by
    change 50 < (group _ _ _ _).card
    omega)
  obtain ⟨top, h⟩ := runLabels_run Schedule.plain_fair.labels hsh
  have hsub : drainedTo 3 sh.output u r ⊆ {(1, 1)} := by
    intro q hq
    exact Finset.mem_singleton.mpr
      (parThresh_white ((h.mem_drainedTo Schedule.plain_fair.labels).mp hq).1)
  have hle := Finset.card_le_card hsub
  have hsize : (drainedTo 3 sh.output u r).card = (group _ _ _ _).card := hsame.card
  rw [Finset.card_singleton] at hle
  omega

end white

end Motion
