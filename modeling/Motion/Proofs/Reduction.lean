import Motion.Proofs.Cleaned
import Motion.Proofs.Pipelines
import Motion.Proofs.StitchThreads
import Motion.Proofs.StripeThreads
import Motion.Proofs.ThreadsApart

/-! Where no motion reaches across a seam the calls of `label` and of `stitch` may be taken for
atomic: threads that take turns in any order detect what whole calls one after another do. -/

namespace Motion

variable {w width height : Nat} {input : Buf UInt8} {labels labels' stitches stitches' : List Act}
  {s s' t t' : Machine w} {stack : Buf (Blob w)} {biggest : Blob w} {order : List Band}
  {rows : List Nat} {l m row : Nat} {b b' : Band}

instance (counter : Band → Nat) : DecidablePred (Allocated counter) :=
  fun l => inferInstanceAs (Decidable (∃ b ∈ bands, b.startLabel ≤ l ∧ l < counter b))

/-- Whole calls are turns, one call's after another's. -/
theorem blobDetectPar_turns (fair : order.Perm bands) (rows : List Nat) (stack : Buf (Blob w))
    (biggest : Blob w) (output : Buf Nat) (input : Buf UInt8) (width height : Nat) :
    blobDetectPar order rows stack biggest output input width height =
      blobDetectThreads (order.flatMap (labelActs width)) (rows.flatMap (stitchActs width))
        stack biggest output input width height := by
  obtain ⟨c, hc⟩ := labels_run input width order (fair.nodup_iff.mpr (by decide))
    (Machine.start stack output) (fun _ _ => rfl)
  have hfresh : (⟨(Machine.start stack output).output, (Machine.start stack output).blobs⟩ :
      Shared w) = Shared.fresh output := rfl
  rw [hfresh] at hc
  unfold blobDetectPar blobDetectThreads
  rw [List.foldlM_append, hc]
  cases runLabels input width order (Shared.fresh output) with
  | none => rfl
  | some sh =>
    rw [Option.map_some, Option.map_some, Option.bind_eq_bind, Option.bind_some, stitches_run,
      Option.map_some, stitch_foldl]

/-- Where the seams are quiet a call of `stitch` relinks labels of the band above it alone, and
to lower ones. -/
theorem Kept.sewn (h : Kept input width s) (quiet : SeamsQuiet input width) (hrow : row ∈ seams)
    (hl : l ≠ 0) (hm : sewnTo width s.output row l = some m) :
    (∃ b ∈ bands, b.endRow + 1 = row ∧ Own b l) ∧ m < l := by
  rw [← lastWrite_stitchActs] at hm
  obtain ⟨a, ha, hsew⟩ := Interleave.lastWrite_mem hm
  obtain ⟨col, hcol, rfl⟩ := List.mem_map.mp ha
  unfold sews sewTo at hsew
  dsimp only at hsew
  split at hsew
  · rename_i hcond
    obtain rfl := Option.some.inj hsew
    obtain ⟨hfound, hmem, hne⟩ := hcond
    obtain ⟨hin, hown⟩ :=
      (h.seam_labels quiet hrow (mem_upto.mp hcol) hfound hmem).resolve_left hl
    exact ⟨hown, Nat.lt_of_le_of_ne (minLabel_least hin hl) (Ne.symm hne)⟩
  · cases hsew

/-- So no two calls relink the same label, and the order of their turns matters to none. -/
theorem Kept.sewn_once (h : Kept input width s) (quiet : SeamsQuiet input width)
    (hs : Interleave.Run (stitchThreads width) stitches)
    (hs' : Interleave.Run (stitchThreads width) stitches') (hl : l ≠ 0) :
    Interleave.lastWrite (sews width s.output l) stitches =
      Interleave.lastWrite (sews width s.output l) stitches' := by
  refine Interleave.Run.last_write_iff.mpr ?_ stitches stitches' hs hs'
  intro steps hsteps steps' hsteps' m m' hm hm'
  obtain ⟨row, hrow, rfl⟩ := List.mem_map.mp hsteps
  obtain ⟨row', hrow', rfl⟩ := List.mem_map.mp hsteps'
  rw [lastWrite_stitchActs] at hm hm'
  obtain ⟨⟨b, hb, hend, hown⟩, -⟩ := h.sewn quiet hrow hl hm
  obtain ⟨⟨b', hb', hend', hown'⟩, -⟩ := h.sewn quiet hrow' hl hm'
  have hsame : b = b' := by
    by_contra hne
    exact own_apart hb' hb hne hown hown'
  obtain rfl : row = row' := by rw [← hend, ← hend', hsame]
  rw [hm] at hm'
  exact Option.some.inj hm'

/-- What the stitch threads leave of entries they find the same. -/
theorem Kept.stitched (h : Kept input width s) (quiet : SeamsQuiet input width)
    (hs : Interleave.Run (stitchThreads width) stitches)
    (hs' : Interleave.Run (stitchThreads width) stitches')
    (run : stitches.foldlM (step input width) s = some t)
    (run' : stitches'.foldlM (step input width) s' = some t') (hout : s.output = s'.output)
    (hl : l ≠ 0) (hsame : s.blobs l = s'.blobs l) : t.blobs l = t'.blobs l := by
  obtain ⟨_, _, _, _, hblobs⟩ := stitches_same hs run
  obtain ⟨_, _, _, _, hblobs'⟩ := stitches_same hs' run'
  obtain ⟨u, hu, _, hlinks⟩ := stitch_turns input hs s
  obtain ⟨u', hu', _, hlinks'⟩ := stitch_turns input hs' s'
  obtain rfl := Option.some.inj (run.symm.trans hu)
  obtain rfl := Option.some.inj (run'.symm.trans hu')
  have hlink : links t.blobs l = links t'.blobs l := by
    rw [hlinks l, hlinks' l, ← hout, h.sewn_once quiet hs hs' hl]
    unfold links
    rw [hsame]
  obtain ⟨k, hk⟩ := hblobs l
  obtain ⟨k', hk'⟩ := hblobs' l
  unfold links at hlink
  rw [hk, hk'] at hlink ⊢
  dsimp only at hlink
  rw [hlink, hsame]

/-- The table the stitch threads leave is tidy. -/
theorem threads_tidy (hl : Interleave.Run (labelThreads width) labels)
    (hs : Interleave.Run (stitchThreads width) stitches)
    (run : labels.foldlM (step input width) (Machine.start stack (Buf.all 0)) = some s)
    (run' : stitches.foldlM (step input width) s = some t) :
    Closed t.labelCounter t.output t.blobs ∧ Tidy (Allocated t.labelCounter) t.blobs := by
  have hall : (labels ++ stitches).foldlM (step input width) (Machine.start stack (Buf.all 0)) =
      some t := by
    rw [List.foldlM_append, run]
    exact run'
  have hclosed : Closed t.labelCounter t.output t.blobs :=
    closed_of_turns (fun a ha => threads_declared hl hs ha) hall
  obtain ⟨_, hcount, _, _, hsame⟩ := stitches_same hs run'
  have hweave := woven hl (List.append_nil labels).symm run
  refine ⟨hclosed, ?_, fun i hi => hclosed.follow hi, hclosed.linked, ?_⟩
  · intro h0
    exact absurd (hclosed.label_range h0).1 (by decide)
  · intro i hi hn
    rw [hcount] at hn
    rw [← hweave.unused i hi hn]
    exact hsame i

/-- Where the seams are quiet all orders of turns detect the same, but for the corners. -/
theorem threads_alike (quiet : SeamsQuiet input width)
    (hl : Interleave.Run (labelThreads width) labels)
    (hl' : Interleave.Run (labelThreads width) labels')
    (hs : Interleave.Run (stitchThreads width) stitches)
    (hs' : Interleave.Run (stitchThreads width) stitches') :
    (blobDetectThreads labels stitches stack biggest (Buf.all 0) input width height = none ∧
      blobDetectThreads labels' stitches' stack biggest (Buf.all 0) input width height = none) ∨
    ∃ d d', blobDetectThreads labels stitches stack biggest (Buf.all 0) input width height =
        some d ∧
      blobDetectThreads labels' stitches' stack biggest (Buf.all 0) input width height =
        some d' ∧ SameButCorners d d' := by
  rcases labels_settled quiet hl hl' stack with ⟨hn, hn'⟩ |
    ⟨s, s', hrun, hrun', hkept, hkept', hcount, hout, hblobs⟩
  · left
    unfold blobDetectThreads
    rw [List.foldlM_append, List.foldlM_append, hn, hn']
    exact ⟨rfl, rfl⟩
  · right
    obtain ⟨t, ht, hto, _⟩ := stitch_turns input hs s
    obtain ⟨t', ht', hto', _⟩ := stitch_turns input hs' s'
    obtain ⟨hclosed, htidy⟩ := threads_tidy hl hs hrun ht
    obtain ⟨hclosed', htidy'⟩ := threads_tidy hl' hs' hrun' ht'
    obtain ⟨_, hc, _⟩ := stitches_same hs ht
    obtain ⟨_, hc', _⟩ := stitches_same hs' ht'
    have htaken : Allocated t'.labelCounter = Allocated t.labelCounter := by
      ext l
      rw [hc, hc']
      exact ⟨Allocated.mono (fun b hb => (hcount b hb).ge),
        Allocated.mono (fun b hb => (hcount b hb).le)⟩
    have hoo : t'.output = t.output := by rw [hto, hto', hout]
    have hslots : maxBlobsPerThread * 4 = 800 := by decide
    rw [htaken] at htidy'
    have hd : ∀ (labels stitches : List Act) (s t : Machine w),
        labels.foldlM (step input width) (Machine.start stack (Buf.all 0)) = some s →
        stitches.foldlM (step input width) s = some t →
        blobDetectThreads labels stitches stack biggest (Buf.all 0) input width height =
          some (collectUpTo (maxBlobsPerThread * 4) stack biggest width height
            ⟨t.output, t.blobs⟩) := by
      intro labels stitches s t hs ht
      unfold blobDetectThreads
      rw [List.foldlM_append, hs, Option.bind_eq_bind, Option.bind_some, ht, Option.map_some,
        collect_eq]
    refine ⟨_, _, hd labels stitches s t hrun ht, hd labels' stitches' s' t' hrun' ht', ?_⟩
    rw [hoo]
    refine collectUpTo_cleaned htidy htidy' (fun i hi => hclosed.label_range hi) ?_
      hclosed.labels ?_ stack biggest
    · intro l hl
      have hlt := hclosed.small (Or.inr hl)
      have hsize : parTableSize ≤ 65536 := by decide
      omega
    · intro i hi
      have hrange := hclosed.label_range hi
      exact hkept.stitched quiet hs hs' ht ht' hout (by omega) (hblobs i hrange.1 (by omega))

theorem stitches_calls (fair : rows.Perm seams) :
    Interleave.Run (stitchThreads width) (rows.flatMap (stitchActs width)) :=
  (Interleave.Run.one_by_one (rows.map (stitchActs width))).of_perm (fair.map _)

/-- Where the seams are quiet threads that take turns detect what whole calls do, in whatever
order these come, if the blobs fit their array. -/
theorem threads_reduce (quiet : SeamsQuiet input width)
    (hl : Interleave.Run (labelThreads width) labels)
    (hs : Interleave.Run (stitchThreads width) stitches) (fair : order.Perm bands)
    (fair' : rows.Perm seams) :
    (blobDetectThreads labels stitches stack biggest (Buf.all 0) input width height = none ∧
      blobDetectPar order rows stack biggest (Buf.all 0) input width height = none) ∨
    ∃ d d', blobDetectThreads labels stitches stack biggest (Buf.all 0) input width height =
        some d ∧
      blobDetectPar order rows stack biggest (Buf.all 0) input width height = some d' ∧
      (d'.numBlobs ≤ maxBlobsPerThread → SameButCorners d d') := by
  rw [blobDetectPar_turns fair]
  rcases threads_alike quiet hl (calls_run fair) hs (stitches_calls fair') with hnone |
    ⟨d, d', hd, hd', hsame⟩
  · exact Or.inl hnone
  · exact Or.inr ⟨d, d', hd, hd', fun _ => hsame⟩

/-- Whole calls, in any order, in a frame of few columns with few moving pixels. -/
theorem calls_few (fair : order.Perm bands) (fair' : rows.Perm seams) (narrow : width ≤ 5)
    (few : (moving input width labelledHeight).card ≤ maxBlobsPerThread) (stack : Buf (Blob w))
    (biggest : Blob w) (height : Nat) :
    ∃ d, blobDetectPar order rows stack biggest (Buf.all 0) input width height = some d ∧
      d.numBlobs ≤ maxBlobsPerThread := by
  obtain ⟨d, hd⟩ := blobDetectPar_narrow fair narrow rows stack biggest input height
  refine ⟨d, hd, ?_⟩
  rw [blobDetectPar_turns fair] at hd
  exact (recorded_few (calls_run fair) (stitches_calls fair') hd).trans few

theorem threads_reduce_apart :
    ∃ d d', blobDetectThreads (labelThreads 3).flatten (stitchThreads 3).flatten
        (Buf.all Blob.zero) (Blob.zero (w := 32)) (Buf.all 0) apart 3 240 = some d ∧
      blobDetectPar bands.reverse seams.reverse (Buf.all Blob.zero) (Blob.zero (w := 32))
        (Buf.all 0) apart 3 240 = some d' ∧ SameButCorners d d' := by
  obtain ⟨d', hd', hfew⟩ := calls_few (List.reverse_perm bands) (List.reverse_perm seams)
    (by decide : 3 ≤ 5) apart_few (Buf.all Blob.zero) (Blob.zero (w := 32)) 240
  rcases threads_reduce apart_quiet (Interleave.Run.one_by_one _) (Interleave.Run.one_by_one _)
    (List.reverse_perm bands) (List.reverse_perm seams) with ⟨_, hnone⟩ |
    ⟨d, d'', hd, hd'', hsame⟩
  · rw [hd'] at hnone
    cases hnone
  · obtain rfl := Option.some.inj (hd'.symm.trans hd'')
    exact ⟨d, d', hd, hd', hsame hfew⟩

/-- Where the seams are quiet labels taken lead down, also once stitched. -/
theorem threads_fall (quiet : SeamsQuiet input width)
    (hl : Interleave.Run (labelThreads width) labels)
    (hs : Interleave.Run (stitchThreads width) stitches)
    (run : labels.foldlM (step input width) (Machine.start stack (Buf.all 0)) = some s)
    (run' : stitches.foldlM (step input width) s = some t) (ha : Allocated t.labelCounter l) :
    links t.blobs l ≤ l := by
  obtain ⟨_, hcount, _⟩ := stitches_same hs run'
  obtain ⟨u, hu, _, hlinks⟩ := stitch_turns input hs s
  obtain rfl := Option.some.inj (run'.symm.trans hu)
  have hweave := woven hl (List.append_nil labels).symm run
  rw [hcount] at ha
  have hrange := hweave.closed.label_range ha
  have hfall : links s.blobs l ≤ l := by
    obtain ⟨q, hq, rfl⟩ := hweave.taken l ha
    exact hweave.sound.fall q hq
  have hkept : Kept input width s := by
    rcases labels_settled quiet hl hl stack with ⟨hn, _⟩ | ⟨u, _, hu, _, hkept, _⟩
    · rw [run] at hn
      cases hn
    · obtain rfl := Option.some.inj (run.symm.trans hu)
      exact hkept
  rw [hlinks l]
  cases hlast : Interleave.lastWrite (sews width s.output l) stitches with
  | none => exact hfall
  | some m =>
    obtain ⟨steps, hmem, hm⟩ := hs.last_write hlast
    obtain ⟨row, hrow, rfl⟩ := List.mem_map.mp hmem
    rw [lastWrite_stitchActs] at hm
    exact Nat.le_of_lt (hkept.sewn quiet hrow (by omega) hm).2

/-- Where the seams are quiet no motion is lost, however the threads take their turns, if the
blobs fit their array. -/
theorem quiet_masses {d : Detection w} (quiet : SeamsQuiet input width)
    (hl : Interleave.Run (labelThreads width) labels)
    (hs : Interleave.Run (stitchThreads width) stitches)
    (run : blobDetectThreads labels stitches stack biggest (Buf.all 0) input width height =
      some d) :
    d.numBlobs ≤ maxBlobsPerThread →
      ∑ k ∈ Finset.range d.numBlobs, (d.consolidatedBlobs k).mass =
        (moving input width labelledHeight).card := by
  intro _
  obtain ⟨t, hrun, hd⟩ := blobDetectThreads_some run
  apply (recorded_masses hl hs hrun hd.symm).2.mpr
  intro l ha hclimbs
  rw [List.foldlM_append] at hrun
  obtain ⟨s, hlabels, hstitches⟩ := Option.bind_eq_some_iff.mp hrun
  have hfall := threads_fall quiet hl hs hlabels hstitches ha
  have hup := hclimbs.1
  omega

theorem quiet_masses_apart : ∃ d : Detection 32,
    blobDetectThreads (labelThreads 3).flatten (stitchThreads 3).flatten (Buf.all Blob.zero)
      Blob.zero (Buf.all 0) apart 3 240 = some d ∧
    ∑ k ∈ Finset.range d.numBlobs, (d.consolidatedBlobs k).mass =
      (moving apart 3 labelledHeight).card := by
  obtain ⟨d, hd⟩ := blobDetectThreads_narrow (by decide : 3 ≤ 5) (Buf.all Blob.zero)
    (Blob.zero (w := 32)) apart 240
  have hfew := recorded_few (Interleave.Run.one_by_one _) (Interleave.Run.one_by_one _) hd
  exact ⟨d, hd, quiet_masses apart_quiet (Interleave.Run.one_by_one _)
    (Interleave.Run.one_by_one _) hd (hfew.trans apart_few)⟩

/-- The stripes may be blurred in any order. -/
theorem blurParallel_order {stripes : List Nat} (fair : stripes.Perm (List.range numThreads))
    (res frame blurVector : Buf UInt8) (frameWidth frameHeight blurWidth blurHeight : Nat) :
    blurParallel stripes res frame blurVector frameWidth frameHeight blurWidth blurHeight =
      blurParallel (List.range numThreads) res frame blurVector frameWidth frameHeight blurWidth
        blurHeight := by
  have hrun : Interleave.Run (blurThreads frameWidth frameHeight)
      (stripes.map (stripePixels frameWidth frameHeight)).flatten :=
    (Interleave.Run.one_by_one _).of_perm (fair.map _)
  rw [← blurInterleaved_eq hrun res frame blurVector blurWidth blurHeight]
  unfold blurParallel blurInterleaved
  rw [List.foldl_flatten, List.foldl_map]
  rfl

/-- `par` by its threads, told from its threshold image. -/
theorem parThreads_eq {stripes : List Nat} {frameWidth frameHeight : Nat} {blurs : List Pixel}
    (hb : Interleave.Run (blurThreads frameWidth frameHeight) blurs)
    (fair : stripes.Perm (List.range numThreads)) (labels stitches : List Act)
    (stack : Buf (Blob w)) (biggest : Blob w) (frameBlobs : Buf Nat)
    (background frameRaw : Buf UInt8) :
    parThreads blurs labels stitches stack biggest frameBlobs frameWidth frameHeight background
        frameRaw =
      blobDetectThreads labels stitches stack biggest frameBlobs
        (parThresh stripes frameWidth frameHeight background frameRaw) (short frameWidth)
        (short frameHeight) := by
  have hblur : blurInterleaved blurs (Buf.all 0) frameRaw kernel frameWidth frameHeight 3 3 =
      parBlur stripes frameWidth frameHeight frameRaw := by
    unfold parBlur
    rw [blurInterleaved_eq hb, blurParallel_order fair]
  unfold parThreads
  dsimp only
  rw [hblur]
  rfl

end Motion
