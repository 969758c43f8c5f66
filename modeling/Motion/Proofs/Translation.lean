import Motion.Proofs.Rerun
import Motion.Proofs.Shift
import Motion.Proofs.Statistics

/-! `blob_detect` on a frame whose interior is copied into a larger one: the pixels
around the copy do nothing, and what is found in the copy moves along. -/

namespace Motion
open Labelling

/-- So many rows down and columns right; the labels stay. -/
def frameOffset (dr dc : Nat) : Offset := ⟨dr, dc, 0⟩

namespace Offset

variable (d : Offset) {width height width' height' : Nat} {p q : Pixel}

/-- Where a pixel moved comes from. -/
def back (q : Pixel) : Pixel := (q.1 - d.row, q.2 - d.col)

/-- Whether a pixel is one of the interior, moved. -/
def Copy (width height : Nat) (q : Pixel) : Prop :=
  d.row ≤ q.1 ∧ d.col ≤ q.2 ∧ Inside width height (d.back q)

instance : DecidablePred (d.Copy width height) := fun q => by
  unfold Copy Inside
  infer_instance

theorem back_pixel (p : Pixel) : d.back (d.pixel p) = p :=
  Prod.ext (Nat.add_sub_cancel _ _) (Nat.add_sub_cancel _ _)

theorem pixel_back (h : d.Copy width height q) : d.pixel (d.back q) = q :=
  Prod.ext (Nat.sub_add_cancel h.1) (Nat.sub_add_cancel h.2.1)

theorem copy_pixel (h : Inside width height p) : d.Copy width height (d.pixel p) :=
  ⟨Nat.le_add_left _ _, Nat.le_add_left _ _, by rwa [d.back_pixel]⟩

/-- The larger frame's scan meets the copy in the order of the smaller one's. -/
theorem copy_interior (high : d.row + height ≤ height') (wide : d.col + width ≤ width') :
    ((interior width' height').filter (d.Copy width height)).map d.back =
      interior width height := by
  have hirrefl : Std.Irrefl Before := ⟨Before.irrefl⟩
  have hanti : Std.Antisymm Before := ⟨fun _ _ h h' => absurd h' h.asymm⟩
  refine List.Pairwise.eq_of_mem_iff (r := Before) ?_ (interior_sorted width height) ?_
  · rw [List.pairwise_map]
    refine ((interior_sorted width' height').filter _).imp_of_mem ?_
    intro p q hp hq hb
    have hp' := of_decide_eq_true (List.mem_filter.mp hp).2
    have hq' := of_decide_eq_true (List.mem_filter.mp hq).2
    unfold Copy at hp' hq'
    unfold Before back at *
    dsimp only
    omega
  · intro q
    rw [List.mem_map, mem_interior]
    constructor
    · rintro ⟨p, hp, rfl⟩
      exact (of_decide_eq_true (List.mem_filter.mp hp).2).2.2
    · intro hq
      refine ⟨d.pixel q, List.mem_filter.mpr ⟨?_, decide_eq_true (d.copy_pixel hq)⟩,
        d.back_pixel q⟩
      rw [mem_interior]
      unfold Inside pixel at *
      dsimp only
      omega

end Offset

section scan

variable {w width height width' height' : Nat} {input input' : Buf UInt8} {output : Buf Nat}
  {d : Offset}

/-- The scans of both frames, side by side. -/
theorem translated_scan (hd : d.label = 0) (high : d.row + height ≤ height')
    (wide : d.col + width ≤ width')
    (same : ∀ p, Inside width height p →
      (input (idx width p) > 0 ↔ input' (idx width' (d.pixel p)) > 0))
    (dark : ∀ q, Inside width' height' q → ¬d.Copy width height q → ¬input' (idx width' q) > 0)
    (border : BorderZero width height output)
    (fit : (labelLoop w width' height' (Buf.all 0) input').labelCounter ≤ 65536) :
    Lockstep d 65537 width height width' (interior width height)
      (labelLoop w width height output input)
      (labelLoop w width' height' (Buf.all 0) input') := by
  have hrun := Fold.prefix_induction
    (P := fun pre (t : Scan w) => t.labelCounter ≤ 65536 →
      Lockstep d 65537 width height width'
        ((pre.filter (d.Copy width height)).map d.back)
        (((pre.filter (d.Copy width height)).map d.back).foldl (detectPixel width input)
          ⟨output, Buf.all Blob.zero, 1⟩) t)
    (f := detectPixel width' input') (interior width' height') ⟨Buf.all 0, Buf.all Blob.zero, 1⟩
    ?_ ?_
  · have h := hrun fit
    rwa [d.copy_interior high wide] at h
  · intro _
    rw [List.filter_nil, List.map_nil, List.foldl_nil]
    exact Lockstep.start (by rw [hd]) (fun _ _ _ => rfl) border (fun _ _ _ _ => rfl)
  · intro pre x post t hl ih fits
    have hin : Inside width' height' x := mem_interior.mp (by simp [hl])
    rw [detectPixel_eq hin] at fits ⊢
    have hle := (scanPixel_step 255 width' input' t x).counter_le
    have h := ih (by omega)
    rw [List.filter_append]
    by_cases hcopy : d.Copy width height x
    · -- a pixel of the copy: the turn of the pixel it comes from
      rw [List.filter_singleton, decide_eq_true hcopy, cond_true, List.map_append,
        List.map_singleton, List.foldl_append, List.foldl_cons, List.foldl_nil,
        detectPixel_eq hcopy.2.2]
      have hsplit : interior width height = (pre.filter (d.Copy width height)).map d.back ++
          d.back x :: (post.filter (d.Copy width height)).map d.back := by
        rw [← d.copy_interior high wide, hl, List.filter_append,
          List.filter_cons_of_pos (by simpa using hcopy), List.map_append, List.map_cons]
      have hcounter := h.counter
      generalize ((pre.filter (d.Copy width height)).map d.back).foldl (detectPixel width input)
        ⟨output, Buf.all Blob.zero, 1⟩ = s at h hcounter ⊢
      have hsucc := (scanPixel_step 255 width input s (d.back x)).counter_le_succ
      have hstep : Lockstep d 65537 width height width' _ (scanPixel 255 width input s (d.back x))
          (scanPixel 255 width' input' t (d.pixel (d.back x))) :=
        h.step hsplit wide (same _ hcopy.2.2) (fun l _ _ => by rw [hd, Nat.add_zero])
          (by rwa [d.pixel_back hcopy]) (by omega)
      rwa [d.pixel_back hcopy] at hstep
    · -- one around it
      rw [List.filter_singleton, decide_eq_false hcopy, cond_false, List.append_nil]
      refine h.idle ?_ ?_ wide (dark x hin hcopy)
      · rintro p hp rfl
        exact hcopy (d.copy_pixel hp)
      · unfold Inside at hin
        omega

end scan

/-- Two merge loops, the entries and records of the second moved. -/
structure MovedMerge (d : Offset) (k : Nat) (a b : Merge w) : Prop where
  blobs : Carried d k a.blobs b.blobs
  numBlobs : b.numBlobs = a.numBlobs
  recorded : ∀ i < a.numBlobs, ∃ e, a.consolidatedBlobs i = e.consolidate i ∧
    b.consolidatedBlobs i = (d.blob e).consolidate i

theorem MovedMerge.step {d : Offset} {k i : Nat} {a b : Merge w} (h : MovedMerge d k a b)
    (hi : 1 ≤ i ∧ i < k) : MovedMerge d k (mergeEntry a i) (mergeEntry b (i + d.label)) := by
  have hlink := h.blobs.link i hi.1 hi.2
  have hentry := h.blobs.entry i hi.1 hi.2
  have hlabel : (b.blobs (i + d.label)).label = (a.blobs i).label + d.label := by
    rw [hentry, Offset.blob]
  by_cases he : (a.blobs i).label = i
  · rw [mergeEntry_record he, mergeEntry_record (by rw [hlabel, he]), h.numBlobs, hentry]
    refine ⟨h.blobs, rfl, ?_⟩
    intro j hj
    dsimp only at hj ⊢
    rw [Buf.write_apply, Buf.write_apply]
    split
    · rename_i hj
      exact ⟨a.blobs i, by rw [hj], by rw [hj]⟩
    · exact h.recorded j (by omega)
  · rw [mergeEntry_merge he, mergeEntry_merge (by omega), hlabel, hentry,
      h.blobs.entry _ hlink.1 hlink.2, ← d.blob_absorb]
    exact ⟨h.blobs.write (b := (a.blobs (a.blobs i).label).absorb (a.blobs i))
      (h.blobs.link _ hlink.1 hlink.2), h.numBlobs, h.recorded⟩

/-- The masses are the same, so the same record is the biggest. -/
theorem MovedMerge.biggest {d : Offset} {k : Nat} {a b : Merge w} (h : MovedMerge d k a b) :
    biggestIndex b.consolidatedBlobs b.numBlobs = biggestIndex a.consolidatedBlobs a.numBlobs := by
  rw [h.numBlobs]
  refine biggestIndex_congr ?_
  intro i hi
  obtain ⟨e, ha, hb⟩ := h.recorded i hi
  rw [ha, hb]
  rfl

/-- After the labelling loops the redirects and the merges keep in step. -/
theorem merged_moved {d : Offset} (hd : d.label = 0) {s t : Scan w}
    (h : Carried d s.labelCounter s.blobs t.blobs) (hcounter : t.labelCounter = s.labelCounter)
    (stack stack' : Buf (Blob w)) :
    MovedMerge d s.labelCounter (merged stack s) (merged stack' t) := by
  have hredirected : Carried d s.labelCounter (redirected s) (redirected t) := by
    unfold redirected
    rw [hcounter]
    refine Fold.related _ _ _ h ?_
    intro i hi a b hab
    have hstep := hab.redirect (mem_upto.mp hi)
    rwa [hd] at hstep
  unfold merged
  rw [hcounter]
  refine Fold.related _ _ _ ⟨hredirected, rfl, fun i hi => absurd hi (Nat.not_lt_zero i)⟩ ?_
  intro i hi a b hab
  have hstep := hab.step (mem_upto.mp (List.mem_reverse.mp hi))
  rwa [hd] at hstep

/-- The floor of a mean moves along with the values, as long as their sum fits. -/
theorem mean_moved {x y : BitVec w} {c m : Nat} (hy : y = x + BitVec.ofNat w (c * m))
    (hm : 0 < m) (hle : (c + 1) * m ≤ y.toNat) :
    (y / BitVec.ofNat w m).toNat = (x / BitVec.ofNat w m).toNat + c := by
  have hx := x.isLt
  have hlt := y.isLt
  rw [Nat.add_mul, Nat.one_mul] at hle
  have hsum : y.toNat = x.toNat + c * m := by
    have h := congrArg BitVec.toNat hy
    rw [BitVec.toNat_add, BitVec.toNat_ofNat, Nat.mod_eq_of_lt (a := c * m) (by omega)] at h
    -- a sum that wrapped would be below what was added
    cases Nat.lt_or_ge (x.toNat + c * m) (2 ^ w) with
    | inl hfit => rwa [Nat.mod_eq_of_lt hfit] at h
    | inr hwrap =>
      rw [Nat.mod_eq_sub_mod hwrap, Nat.mod_eq_of_lt (by omega)] at h
      omega
  rw [BitVec.toNat_udiv, BitVec.toNat_udiv, BitVec.toNat_ofNat,
    Nat.mod_eq_of_lt (a := m) (by omega), hsum, Nat.add_mul_div_right _ _ hm]

/-- A blob as the caller is told of it, so many rows down and columns right. -/
structure Blob.MovedRecord (dr dc : Nat) (b c : Blob w) : Prop where
  label : c.label = b.label
  mass : c.mass = b.mass
  xMin : c.xMin = b.xMin + dc
  xMax : c.xMax = b.xMax + dc
  yMin : c.yMin = b.yMin + dr
  yMax : c.yMax = b.yMax + dr
  centroidX : c.centroidX = b.centroidX + dc
  centroidY : c.centroidY = b.centroidY + dr

theorem Blob.MovedRecord.fill {dr dc : Nat} {b c : Blob w} (h : b.MovedRecord dr dc c)
    (biggest biggest' : Blob w) : (biggest.fill b).MovedRecord dr dc (biggest'.fill c) :=
  ⟨h.label, h.mass, h.xMin, h.xMax, h.yMin, h.yMax, h.centroidX, h.centroidY⟩

section records

variable {w width height width' height' : Nat} {input input' : Buf UInt8}
  {output output' : Buf Nat} {d : Offset}

/-- The tables both labelling loops leave, whatever the larger frame's image held before. -/
theorem translated_tables (hd : d.label = 0) (high : d.row + height ≤ height')
    (wide : d.col + width ≤ width')
    (same : ∀ p, Inside width height p →
      (input (idx width p) > 0 ↔ input' (idx width' (d.pixel p)) > 0))
    (dark : ∀ q, Inside width' height' q → ¬d.Copy width height q → ¬input' (idx width' q) > 0)
    (border : BorderZero width height output) (border' : BorderZero width' height' output')
    (fit : (labelLoop w width' height' output' input').labelCounter ≤ 65536) :
    (labelLoop w width' height' output' input').labelCounter =
      (labelLoop w width height output input).labelCounter ∧
    Carried d (labelLoop w width height output input).labelCounter
      (labelLoop w width height output input).blobs
      (labelLoop w width' height' output' input').blobs := by
  have hcleared : InStep width' height' (interior width' height')
      (labelLoop w width' height' output' input')
      (labelLoop w width' height' (Buf.all 0) input') :=
    labelLoop_inStep w (fun _ _ => Iff.rfl) border' (BorderZero.all width' height')
  have h := translated_scan hd high wide same dark border (hcleared.labelCounter ▸ fit)
  rw [hcleared.blobs, hcleared.labelCounter]
  have hcounter := h.counter
  rw [hd, Nat.add_zero] at hcounter
  exact ⟨hcounter, h.carried⟩

/-- Every record moves along: its sums are those of pixels past the copy's corner. -/
theorem Labelled.record_moved {border : BorderZero width height output} {t : Scan w} {k i : Nat}
    {a : Merge w} {stack : Buf (Blob w)} (h : Labelled border input t)
    (fit : t.labelCounter ≤ 65536)
    (sums : ∀ l ≠ 0, ∑ p ∈ labelledWith width height
          (relabel width height (merged stack t).blobs t.output) l, p.2 < 2 ^ w ∧
        ∑ p ∈ labelledWith width height
          (relabel width height (merged stack t).blobs t.output) l, p.1 < 2 ^ w)
    (past : ∀ p, Moving input width height p → d.row + 1 ≤ p.1 ∧ d.col + 1 ≤ p.2)
    (moved : MovedMerge d k a (merged stack t)) (hi : i < a.numBlobs) :
    (a.consolidatedBlobs i).MovedRecord d.row d.col ((merged stack t).consolidatedBlobs i) := by
  have hi' : i < (merged stack t).numBlobs := moved.numBlobs ▸ hi
  have hexact := h.record_exact fit stack sums hi'
  have hroot : _ ∈ distinctLabels width height _ := (h.records_bijOn fit stack).mapsTo hi'
  rw [h.labelledWith_eq fit stack (Finset.mem_erase.mp hroot).1] at hexact
  obtain ⟨e, ha, hb⟩ := moved.recorded i hi
  rw [ha, hb]
  rw [hb] at hexact
  have hpast : ∀ p ∈ group (redirected t) (moving input width height) (labelAt width t)
      ((roots t.labelCounter (redirected t) (moving input width height)
        (labelAt width t)).getD i 0), d.row + 1 ≤ p.1 ∧ d.col + 1 ≤ p.2 :=
    fun p hp => past p (mem_moving.mp (Finset.mem_filter.mp hp).1)
  generalize group (redirected t) (moving input width height) (labelAt width t) _ = T
    at hexact hpast
  have hmass : e.mass = T.card := hexact.mass
  have hpos : 0 < e.mass := by
    obtain ⟨p, hp, _⟩ := hexact.xMin.1
    rw [hmass]
    exact Finset.card_pos.mpr ⟨p, hp⟩
  have hsumX := Finset.card_nsmul_le_sum T Prod.snd _ (fun p hp => (hpast p hp).2)
  have hsumY := Finset.card_nsmul_le_sum T Prod.fst _ (fun p hp => (hpast p hp).1)
  rw [smul_eq_mul, ← hmass, Nat.mul_comm, ← hexact.sumX] at hsumX
  rw [smul_eq_mul, ← hmass, Nat.mul_comm, ← hexact.sumY] at hsumY
  exact ⟨rfl, rfl, rfl, rfl, rfl, rfl, mean_moved rfl hpos hsumX, mean_moved rfl hpos hsumY⟩

end records

/-- Where in a frame the motion is, and how large the frame, makes no difference to what
`blob_detect` finds: as many blobs, and the biggest of them with the motion. -/
theorem blobDetect_translated {w width height width' height' dr dc : Nat}
    {input input' : Buf UInt8} {output output' : Buf Nat} (stack stack' : Buf (Blob w))
    (biggest biggest' : Blob w) (high : dr + height ≤ height') (wide : dc + width ≤ width')
    (copied : ∀ p, Inside width height p →
      input' (idx width' (p.1 + dr, p.2 + dc)) = input (idx width p))
    (dark : ∀ q, Inside width' height' q →
      (∀ p, Inside width height p → q ≠ (p.1 + dr, p.2 + dc)) → input' (idx width' q) = 0)
    (border : BorderZero width height output) (border' : BorderZero width' height' output')
    (active : ∃ p, Moving input width height p)
    (fit : LabelsFit w width' height' output' input')
    (sums : ∀ l ≠ 0,
      ∑ p ∈ labelledWith width' height'
        (blobDetect stack' biggest' output' input' width' height').relabelled l, p.2 < 2 ^ w ∧
      ∑ p ∈ labelledWith width' height'
        (blobDetect stack' biggest' output' input' width' height').relabelled l, p.1 < 2 ^ w) :
    (blobDetect stack' biggest' output' input' width' height').numBlobs =
      (blobDetect stack biggest output input width height).numBlobs ∧
    (blobDetect stack biggest output input width height).biggestBlob.MovedRecord dr dc
      (blobDetect stack' biggest' output' input' width' height').biggestBlob := by
  have hquiet : ∀ q, Inside width' height' q → ¬(frameOffset dr dc).Copy width height q →
      ¬input' (idx width' q) > 0 := by
    intro q hq hn
    rw [dark q hq]
    · decide
    · rintro p hp rfl
      exact hn ((frameOffset dr dc).copy_pixel hp)
  obtain ⟨hcounter, hcarried⟩ := translated_tables (w := w) (d := frameOffset dr dc) rfl high wide
    (fun p hp => iff_of_eq (congrArg (· > 0) (copied p hp).symm)) hquiet border border'
    fit.counter_le
  have hmoved := merged_moved rfl hcarried hcounter stack stack'
  have hlabelled := labelLoop_labelled border' fit.counter_le
  have hpast : ∀ p, Moving input' width' height' p → dr + 1 ≤ p.1 ∧ dc + 1 ≤ p.2 := by
    intro p hp
    by_contra hn
    refine hquiet p hp.1 (fun hcopy => hn ?_) hp.2
    have hin := hcopy.2.2
    unfold Inside Offset.back frameOffset at hin
    dsimp only at hin
    omega
  have hrecord : ((merged stack (labelLoop w width height output input)).consolidatedBlobs
        (biggestIndex (merged stack (labelLoop w width height output input)).consolidatedBlobs
          (merged stack (labelLoop w width height output input)).numBlobs)).MovedRecord dr dc
      ((merged stack' (labelLoop w width' height' output' input')).consolidatedBlobs
        (biggestIndex (merged stack' (labelLoop w width' height' output' input')).consolidatedBlobs
          (merged stack' (labelLoop w width' height' output' input')).numBlobs)) := by
    rw [hmoved.biggest]
    exact hlabelled.record_moved (d := frameOffset dr dc) fit.counter_le sums hpast hmoved
      (biggestIndex_spec _ _ ((numBlobs_pos_iff border input stack).mpr active)).1
  exact ⟨hmoved.numBlobs, hrecord.fill biggest biggest'⟩

/-- Two objects moved down and to the right, into a larger frame. -/
theorem blobDetect_translated_branch :
    (blobDetect (Buf.all Blob.zero) (Blob.zero (w := 32)) (Buf.all 0)
        (drawing 8 [(2, 3), (2, 5), (3, 4), (5, 3)]) 8 7).numBlobs =
      (blobDetect (Buf.all Blob.zero) (Blob.zero (w := 32)) (Buf.all 0) branch 5 6).numBlobs ∧
    Blob.MovedRecord 1 2
      (blobDetect (Buf.all Blob.zero) (Blob.zero (w := 32)) (Buf.all 0) branch 5 6).biggestBlob
      (blobDetect (Buf.all Blob.zero) (Blob.zero (w := 32)) (Buf.all 0)
        (drawing 8 [(2, 3), (2, 5), (3, 4), (5, 3)]) 8 7).biggestBlob := by
  have hcopied : ∀ p ∈ interior 5 6, drawing 8 [(2, 3), (2, 5), (3, 4), (5, 3)]
      (idx 8 (p.1 + 1, p.2 + 2)) = branch (idx 5 p) := by decide +kernel
  have hdark : ∀ q ∈ interior 8 7, drawing 8 [(2, 3), (2, 5), (3, 4), (5, 3)] (idx 8 q) = 0 ∨
      ∃ p ∈ interior 5 6, q = (p.1 + 1, p.2 + 2) := by decide +kernel
  refine blobDetect_translated (Buf.all Blob.zero) (Buf.all Blob.zero) Blob.zero Blob.zero
    (by decide) (by decide) (fun p hp => hcopied p (mem_interior.mpr hp)) ?_ (BorderZero.all 5 6)
    (BorderZero.all 8 7) ⟨(1, 1), by decide⟩
    (LabelsFit.of_counter (by decide +kernel) (by decide +kernel))
    (fun l _ => sums_fit _ l (by decide +kernel) (by decide +kernel))
  intro q hq hne
  rcases hdark q (mem_interior.mpr hq) with hoff | ⟨p, hp, he⟩
  · exact hoff
  · exact absurd he (hne p (mem_interior.mp hp))

end Motion
