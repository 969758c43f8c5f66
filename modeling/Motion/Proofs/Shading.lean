import Motion.Proofs.Collapse
import Motion.Proofs.Numbering
import Motion.Proofs.Sparse
import Motion.Proofs.Survivors

/-! The greys the last pass of `blob_detect_par` paints the blobs in: 30 times the label,
modulo 256, which tells labels apart up to 128. -/

namespace Motion
open Labelling

/-- The label the redirect pass leaves in a label's entry: two links past where its path
stops falling. -/
def settles (t : Table w) (l : Nat) : Nat := links t (links t (Links.root (links t) l))

/-- An active pixel off the border that neither the box nor the cross covers. -/
def Shown (b : Blob w) (input : Buf UInt8) (width : Nat) (p : Pixel) : Prop :=
  Moving input width 240 p ∧ ¬drawnShort b p = true

/-- Every blob is painted in a grey of its own, and none in black. -/
def UniqueGreys (input : Buf UInt8) (width : Nat) (d : Detection w) : Prop :=
  (∀ p, Shown d.biggestBlob input width p → d.output (idx width p) ≠ 0) ∧
  ∀ p q, Shown d.biggestBlob input width p → Shown d.biggestBlob input width q →
    (d.output (idx width p) = d.output (idx width q) ↔
      d.relabelled (idx width p) = d.relabelled (idx width q))

/-- No label of these is a multiple of 128, and no two are the same modulo 128. -/
def TellApart (used : Nat → Prop) : Prop :=
  (∀ l, used l → ¬128 ∣ l) ∧ ∀ l k, used l → used k → l % 128 = k % 128 → l = k

/-- The labels given to the starts at which the active pixels' starts end are told apart. -/
def EndsApart (input : Buf UInt8) (width : Nat) (order : List Band) (stitches : List Nat) : Prop :=
  TellApart fun l => ∃ p, Moving input width 240 p ∧ GivenTo input width order
    (endLink input width order stitches (parStart input width order p)) l

/-- The labels given to the starts that survive are told apart. -/
def SurvivorsApart (input : Buf UInt8) (width : Nat) (order : List Band) (stitches : List Nat) :
    Prop :=
  TellApart fun l =>
    ∃ q, Survives input width order stitches q ∧ GivenLabel input width order q l

theorem TellApart.mono {P Q : Nat → Prop} (h : TellApart Q) (sub : ∀ l, P l → Q l) :
    TellApart P :=
  ⟨fun l hl => h.1 l (sub l hl), fun l k hl hk => h.2 l k (sub l hl) (sub k hk)⟩

theorem grey_black_iff (l : Nat) : l * 30 % 256 = 0 ↔ 128 ∣ l := by omega

theorem grey_eq_iff (l k : Nat) : l * 30 % 256 = k * 30 % 256 ↔ l % 128 = k % 128 := by omega

variable {w width : Nat} {input : Buf UInt8} {order : List Band} {stitches : List Nat}
  {top : Band → Nat} {out : Buf Nat} {blobs t : Table w} {p : Pixel}

/-- Off row 239 the pixels labelled are those of the frame. -/
theorem Moving.labelled (hp : Moving input width 240 p) : Moving input width labelledHeight p := by
  have hin := hp.1
  unfold Inside at hin
  exact ⟨⟨hin.1, by unfold labelledHeight; omega, hin.2.2⟩, hp.2⟩

theorem mergeAll_links (n : Nat) (u : Table w) (stack : Buf (Blob w)) (i : Nat) :
    links (mergeAll n u stack).blobs i = links u i :=
  Fold.keeps (g := fun s : Merge w => links s.blobs i) _ _
    (fun x _ s => mergeUsed_label s x i)

/-- A label that fits a pixel is put there as it is. -/
theorem relabel_small {height : Nat} (hp : Inside width height p) (h0 : out (idx width p) ≠ 0)
    (small : links t (out (idx width p)) < 65536) :
    relabel width height t out (idx width p) = links t (out (idx width p)) := by
  rw [relabel_apply _ _ hp, if_pos h0]
  exact Nat.mod_eq_of_lt small

/-- The redirect pass leaves in a label's entry the label it settles at, one in use. -/
theorem Run.redirectAll_settles (h : Bands w input width order top out blobs)
    (fair : order.Perm bands) (ht : Run.Tied input width out blobs t) {u : Table w}
    (hu : redirectAll (maxBlobsPerThread * 4) t = u) (hp : Moving input width labelledHeight p) :
    links u (out (idx width p)) = settles t (out (idx width p)) ∧
      links u (out (idx width p)) < maxBlobsPerThread * 4 := by
  have hroot := redirectAll_root (n := maxBlobsPerThread * 4)
    (fun i => ∃ q, Moving input width labelledHeight q ∧ out (idx width q) = i) t
    (by
      rintro j ⟨q, hq, rfl⟩
      exact h.label_range fair hq)
    (by
      rintro j ⟨q, hq, rfl⟩
      exact ht.carried q hq)
    ⟨p, hp, rfl⟩
  obtain ⟨r, hr, he⟩ := h.redirect_carried fair ht ⟨p, hp, rfl⟩
  have hsmall := (h.label_range fair hr).2
  rw [he] at hsmall
  rw [← hu]
  exact ⟨hroot, hsmall⟩

/-- The relabel loop leaves on a pixel the label its own settles at. -/
theorem Run.relabelled_settles (h : Bands w input width order top out blobs)
    (fair : order.Perm bands) (ht : Run.Tied input width out blobs t) (stack : Buf (Blob w))
    {u : Table w} (hu : redirectAll (maxBlobsPerThread * 4) t = u)
    (hp : Moving input width 240 p) :
    relabel width 240 (mergeAll (maxBlobsPerThread * 4) u stack).blobs out (idx width p) =
      settles t (out (idx width p)) := by
  have hrange := (h.label_range fair hp.labelled).1
  obtain ⟨hsettles, hsmall⟩ := h.redirectAll_settles fair ht hu hp.labelled
  have hmerged := mergeAll_links (maxBlobsPerThread * 4) u stack (out (idx width p))
  rw [relabel_small hp.1 (by omega), hmerged, hsettles]
  rw [hmerged]
  exact Nat.lt_trans hsmall (by decide)

/-- Where no stitch links upwards, that is the label of a start that survives. -/
theorem Run.settles_survives (h : Bands w input width order top out blobs)
    (fair : order.Perm bands) (fair' : stitches.Perm seams)
    (counts : ∀ b ∈ bands, top b = b.startLabel + labelsTaken input width order b)
    (level : ∀ x ∈ seamPixels width stitches, ¬Rises input width order x)
    (hp : Moving input width labelledHeight p) :
    ∃ q, Survives input width order stitches q ∧ GivenLabel input width order q
      (settles (stitchAll width out (seamPixels width stitches) blobs) (out (idx width p))) := by
  have hl : ∀ x ∈ seamPixels width stitches, Inside width labelledHeight x :=
    fun x hx => seam_inside fair' hx
  obtain ⟨q, hq, he⟩ := h.root_survives fair hl level hp
  have hfixed := Links.root_fixed (h.stitched_falls fair hl level) ⟨p, hp, rfl⟩
  refine ⟨q, hq, ?_⟩
  unfold settles
  rw [hfixed, hfixed, ← he]
  exact h.given_label fair counts hq.1

/-- Greys of labels are as unique as the labels are apart. -/
theorem tellApart_iff {P : Pixel → Prop} {f : Pixel → Nat} :
    ((∀ p, P p → f p * 30 % 256 ≠ 0) ∧
      ∀ p q, P p → P q → (f p * 30 % 256 = f q * 30 % 256 ↔ f p = f q)) ↔
    TellApart fun l => ∃ p, P p ∧ f p = l := by
  constructor
  · intro h
    constructor
    · rintro l ⟨p, hp, rfl⟩
      rw [← grey_black_iff]
      exact h.1 p hp
    · rintro l k ⟨p, hp, rfl⟩ ⟨q, hq, rfl⟩ he
      refine (h.2 p q hp hq).mp ?_
      rwa [grey_eq_iff]
  · intro h
    constructor
    · intro p hp
      rw [Ne, grey_black_iff]
      exact h.1 _ ⟨p, hp, rfl⟩
    · intro p q hp hq
      rw [grey_eq_iff]
      exact ⟨h.2 _ _ ⟨p, hp, rfl⟩ ⟨q, hq, rfl⟩, fun he => congrArg (· % 128) he⟩

/-- The last pass on a pixel shown, after the relabel loop. -/
theorem collectUpTo_shown {n : Nat} {stack : Buf (Blob w)} {biggest : Blob w} {sh : Shared w}
    {d : Detection w} (hd : collectUpTo n stack biggest width 240 sh = d)
    (hp : Shown d.biggestBlob input width p) :
    d.output (idx width p) = d.relabelled (idx width p) * 30 % 256 := by
  subst hd
  exact (draw_apply _ _ _ hp.1.1).trans (if_neg hp.2)

theorem collectUpTo_relabelled {n : Nat} {stack : Buf (Blob w)} {biggest : Blob w}
    {sh : Shared w} {d : Detection w} (hd : collectUpTo n stack biggest width 240 sh = d) :
    d.relabelled =
      relabel width 240 (mergeAll n (redirectAll n sh.blobs) stack).blobs sh.output := by
  subst hd
  rfl

/-- What is shown of a run, in terms of its state before the redirect pass. -/
theorem shown_settles {stack : Buf (Blob w)} {biggest : Blob w} {d : Detection w}
    {sh : Shared w} (fair : order.Perm bands) (fair' : stitches.Perm seams)
    (labels : runLabels input width order (Shared.fresh (Buf.all 0)) = some sh)
    (run : blobDetectPar order stitches stack biggest (Buf.all 0) input width 240 = some d) :
    (∀ p, Shown d.biggestBlob input width p →
      d.output (idx width p) = d.relabelled (idx width p) * 30 % 256) ∧
    ∀ p, Moving input width 240 p → d.relabelled (idx width p) =
      settles (stitches.foldl (stitch width) sh).blobs (sh.output (idx width p)) := by
  obtain ⟨sh', hsh, hd⟩ := blobDetectPar_some run
  obtain rfl : sh' = sh := Option.some.inj (hsh.symm.trans labels)
  obtain ⟨top, h⟩ := runLabels_run fair labels
  have ht := h.stitchAll_tied fair
    (fun p (hp : p ∈ seamPixels width stitches) => seam_inside fair' hp)
  refine ⟨fun p hp => collectUpTo_shown hd.symm hp, fun p hp => ?_⟩
  rw [collectUpTo_relabelled hd.symm, stitch_foldl]
  exact h.relabelled_settles fair ht stack rfl hp

/-- The relabel loop leaves on a pixel the label given to the start at which its own ends. -/
theorem relabelled_given {stack : Buf (Blob w)} {biggest : Blob w} {d : Detection w}
    (fair : order.Perm bands) (fair' : stitches.Perm seams)
    (run : blobDetectPar order stitches stack biggest (Buf.all 0) input width 240 = some d)
    (hp : Moving input width 240 p) :
    GivenTo input width order (endLink input width order stitches (parStart input width order p))
      (d.relabelled (idx width p)) := by
  obtain ⟨sh, hsh, hd⟩ := blobDetectPar_some run
  obtain ⟨top, h, counts⟩ := runLabels_counts fair hsh
  have ht := h.stitchAll_tied fair
    (fun p (hp : p ∈ seamPixels width stitches) => seam_inside fair' hp)
  have hmatch := h.redirected fair (runLabels_sewn fair fair' hsh) rfl
  obtain ⟨q, hq, hlab, hend⟩ := hmatch.link _ _ ⟨p, hp.labelled, rfl, rfl⟩
  have hsettles := (h.redirectAll_settles fair ht rfl hp.labelled).1
  rw [collectUpTo_relabelled hd.symm, h.relabelled_settles fair ht stack rfl hp, ← hsettles, ← hlab]
  have hgiven := h.given_label fair counts hq
  unfold GivenLabel at hgiven
  rwa [hend] at hgiven

/-- When the greys `blob_detect_par` paints the blobs in are unique, before it draws the box and
the cross over them: when the labels given to the starts at which they end differ modulo 128, and
none is a multiple of 128. What is shown of them then is unique, too. Where no stitch links
upwards it is enough that the labels given to the starts that survive are told apart. -/
theorem uniqueGreys_iff {stack : Buf (Blob w)} {biggest : Blob w} {d : Detection w}
    (fair : order.Perm bands) (fair' : stitches.Perm seams)
    (run : blobDetectPar order stitches stack biggest (Buf.all 0) input width 240 = some d) :
    (((∀ p, Moving input width 240 p → d.relabelled (idx width p) * 30 % 256 ≠ 0) ∧
        ∀ p q, Moving input width 240 p → Moving input width 240 q →
          (d.relabelled (idx width p) * 30 % 256 = d.relabelled (idx width q) * 30 % 256 ↔
            d.relabelled (idx width p) = d.relabelled (idx width q))) ↔
      EndsApart input width order stitches) ∧
    (EndsApart input width order stitches → UniqueGreys input width d) ∧
    ((∀ x ∈ seamPixels width stitches, ¬Rises input width order x) →
      SurvivorsApart input width order stitches → EndsApart input width order stitches) := by
  have hgiven := fun p => relabelled_given (p := p) fair fair' run
  have hiff := tellApart_iff (P := Moving input width 240)
    (f := fun p => d.relabelled (idx width p))
  have hsame : (TellApart fun l => ∃ p, Moving input width 240 p ∧
      d.relabelled (idx width p) = l) ↔ EndsApart input width order stitches := by
    refine iff_of_eq (congrArg TellApart (funext (fun l => propext (exists_congr (fun p =>
      and_congr_right (fun hp => ⟨?_, fun hl => (hgiven p hp).unique hl⟩))))))
    rintro rfl
    exact hgiven p hp
  obtain ⟨sh, hsh, hd⟩ := blobDetectPar_some run
  obtain ⟨hshown, hsettled⟩ := shown_settles fair fair' hsh run
  refine ⟨hiff.trans hsame, fun apart => ?_, fun level apart => hsame.mp (apart.mono ?_)⟩
  · have hgreys := hiff.mpr (hsame.mpr apart)
    refine ⟨fun p hp => ?_, fun p q hp hq => ?_⟩
    · rw [hshown p hp]
      exact hgreys.1 p hp.1
    · rw [hshown p hp, hshown q hq]
      exact hgreys.2 p q hp.1 hq.1
  · obtain ⟨top, h, counts⟩ := runLabels_counts fair hsh
    rintro l ⟨p, hp, rfl⟩
    rw [hsettled p hp, stitch_foldl]
    exact h.settles_survives fair fair' counts level hp.labelled

/-- Two poles that begin in one band are given its first two labels. -/
theorem uniqueGreys_iff_twoPoles : ∃ d : Detection 32,
    blobDetectPar bands seams (Buf.all Blob.zero) Blob.zero (Buf.all 0) twoPoles 3 240 = some d ∧
    UniqueGreys twoPoles 3 d := by
  obtain ⟨d, hd⟩ := blobDetectPar_narrow (List.Perm.refl bands) (by decide : 3 ≤ 5) seams
    (Buf.all (Blob.zero (w := 32))) Blob.zero twoPoles 240
  refine ⟨d, hd, (uniqueGreys_iff (List.Perm.refl _) (List.Perm.refl _) hd).2.1 ?_⟩
  have hband : ∀ b ∈ bands, IdxIn 3 b (idx 3 (1, 1)) ∨ IdxIn 3 b (idx 3 (59, 1)) →
      b = ⟨1, 59, 1⟩ := by decide
  -- neither label is past those that the pixels of the band would take
  have hfew : ∀ l, (∃ p, Moving twoPoles 3 240 p ∧ GivenTo twoPoles 3 bands
      (endLink twoPoles 3 bands seams (parStart twoPoles 3 bands p)) l) → 1 ≤ l ∧ l ≤ 60 := by
    rintro l ⟨p, hp, b, hb, hin, rfl⟩
    rw [twoPoles_labelled.endLink_eq] at hin
    have hfirst : b = ⟨1, 59, 1⟩ := by
      refine hband b hb (((twoPoles_column (by decide)).poles hp).imp (fun hrows => ?_)
        (fun hrows => ?_))
      · rwa [← twoPoles_labelled.parStart_eq poleRows_upper hrows]
      · rwa [← twoPoles_labelled.parStart_eq poleRows_lower hrows]
    have hle : ∀ n, labelsBefore twoPoles 3 bands ⟨1, 59, 1⟩ n ≤ 59 :=
      fun n => (List.length_filter_le _ _).trans (by decide)
    rw [hfirst]
    exact ⟨Nat.le_add_right 1 _, Nat.add_le_add_left (hle _) 1⟩
  refine ⟨fun l hl hdvd => ?_, fun l k hl hk he => ?_⟩
  · have := hfew l hl
    omega
  · have := hfew l hl
    have := hfew k hk
    omega

/-- The collecting passes over the slots with a link alone. -/
def collectLinked (n : Nat) (stack : Buf (Blob w)) (biggest : Blob w) (width height : Nat)
    (sh : Shared w) : Detection w :=
  collectOver ((upto 1 n).filter (fun i => links sh.blobs i ≠ 0)) stack biggest width height sh

/-- A redirect leaves slots without a link, as long as slot 0 is one of them. -/
theorem redirectEntry_unlinked {u : Table w} (hz : links t 0 = 0)
    (hu : ∀ i, links t i = 0 → links u i = 0) (x : Nat) :
    ∀ i, links t i = 0 → links (redirectEntry u x) i = 0 := by
  intro i hi
  by_cases hx : i = x
  · have hself : links (redirectEntry u x) i = links u (links u i) := by
      rw [hx]
      exact redirectEntry_self u x
    rw [hself, hu i hi, hu 0 hz]
  · unfold links
    rw [redirectEntry_other u hx]
    exact hu i hi

/-- In the other slots they have nothing to do, as long as slot 0 has no link. -/
theorem collectUpTo_linked {height : Nat} (n : Nat) (stack : Buf (Blob w)) (biggest : Blob w)
    {sh : Shared w} (hz : links sh.blobs 0 = 0) :
    collectUpTo n stack biggest width height sh =
      collectLinked n stack biggest width height sh := by
  have hredirect : (upto 1 n).foldl redirectEntry sh.blobs =
      ((upto 1 n).filter (fun i => links sh.blobs i ≠ 0)).foldl redirectEntry sh.blobs := by
    refine Fold.skip (I := fun u : Table w => ∀ i, links sh.blobs i = 0 → links u i = 0) _ _ _
      (fun _ h => h) (fun x _ u hu => redirectEntry_unlinked hz hu x) ?_
    intro x _ hx u hu
    refine redirectEntry_idle ?_
    rw [hu x (not_not.mp hx), hu 0 hz]
  have hlinks : ∀ i, links sh.blobs i = 0 →
      links ((upto 1 n).foldl redirectEntry sh.blobs) i = 0 :=
    Fold.invariant (P := fun u : Table w => ∀ i, links sh.blobs i = 0 → links u i = 0) _ _
      (fun _ h => h) (fun x _ u hu => redirectEntry_unlinked hz hu x)
  unfold collectLinked collectUpTo collectOver
  dsimp only
  rw [hredirect] at hlinks ⊢
  generalize ((upto 1 n).filter (fun i => links sh.blobs i ≠ 0)).foldl redirectEntry sh.blobs = u
    at hlinks ⊢
  have hmerge : (upto 1 n).reverse.foldl mergeUsed ⟨u, stack, 0⟩ =
      ((upto 1 n).filter (fun i => links sh.blobs i ≠ 0)).reverse.foldl mergeUsed
        ⟨u, stack, 0⟩ := by
    rw [← List.filter_reverse]
    refine Fold.skip (I := fun s : Merge w => ∀ i, links s.blobs i = links u i) _ _ _
      (fun _ => rfl) (fun x _ s hs i => (mergeUsed_label s x i).trans (hs i)) ?_
    intro x _ hx s hs
    exact mergeUsed_skip ((hs x).trans (hlinks x (not_not.mp hx)))
  rw [hmerge]

/-- Seventeen pixels in the first band and one in the third, no two of which touch. -/
def beads : Buf UInt8 :=
  drawing 3 ((upto 1 18).map (fun k => (2 * k, 1)) ++ [(122, 1)])

/-- Labels 17 and 401 are painted in one grey. -/
theorem beads_alike :
    ¬∀ (w width : Nat) (input : Buf UInt8) (order : List Band) (stitches : List Nat)
      (stack : Buf (Blob w)) (biggest : Blob w) (d : Detection w), 3 ≤ width →
      order.Perm bands → stitches.Perm seams →
      blobDetectPar order stitches stack biggest (Buf.all 0) input width 240 = some d →
      d.numBlobs ≤ 200 → UniqueGreys input width d := by
  intro hall
  have fair := List.Perm.refl bands
  have fair' := List.Perm.refl seams
  obtain ⟨sh, hsh, ⟨hlow, hhigh⟩, ⟨hself, hself', hslot⟩, hfew, hdrawn, hdrawn'⟩ :=
    runLabels_any (w := 32) (P := fun sh =>
      (sh.output (idx 3 (34, 1)) = 17 ∧ sh.output (idx 3 (122, 1)) = 401) ∧
      (links (seams.foldl (stitch 3) sh).blobs 17 = 17 ∧
        links (seams.foldl (stitch 3) sh).blobs 401 = 401 ∧
        links (seams.foldl (stitch 3) sh).blobs 0 = 0) ∧
      (collectLinked (maxBlobsPerThread * 4) (Buf.all Blob.zero) Blob.zero 3 240
        (seams.foldl (stitch 3) sh)).numBlobs ≤ 200 ∧
      ¬drawnShort (collectLinked (maxBlobsPerThread * 4) (Buf.all Blob.zero) Blob.zero 3 240
        (seams.foldl (stitch 3) sh)).biggestBlob (34, 1) = true ∧
      ¬drawnShort (collectLinked (maxBlobsPerThread * 4) (Buf.all Blob.zero) Blob.zero 3 240
        (seams.foldl (stitch 3) sh)).biggestBlob (122, 1) = true)
    (by rw [runActive_linked]; decide +kernel :
      (runActive beads 3 bands (Shared.fresh (Buf.all 0))).any _ = true)
  generalize hd : collectLinked (maxBlobsPerThread * 4) (Buf.all Blob.zero) Blob.zero 3 240
    (seams.foldl (stitch 3) sh) = d at hfew hdrawn hdrawn'
  have hrun : blobDetectPar bands seams (Buf.all Blob.zero) Blob.zero (Buf.all 0) beads 3 240 =
      some d := by
    unfold blobDetectPar
    rw [hsh, Option.map_some, collect_eq, ← hd, ← collectUpTo_linked _ _ _ hslot]
  obtain ⟨hgrey, hsettled⟩ := shown_settles fair fair' hsh hrun
  have hp : Shown d.biggestBlob beads 3 (34, 1) := ⟨by decide, hdrawn⟩
  have hq : Shown d.biggestBlob beads 3 (122, 1) := ⟨by decide, hdrawn'⟩
  have hlabel : d.relabelled (idx 3 (34, 1)) = 17 := by
    rw [hsettled _ hp.1, hlow, settles, Links.root_self hself, hself, hself]
  have hlabel' : d.relabelled (idx 3 (122, 1)) = 401 := by
    rw [hsettled _ hq.1, hhigh, settles, Links.root_self hself', hself', hself']
  have hiff := (hall 32 3 beads bands seams _ _ d (by decide) fair fair' hrun hfew).2 _ _ hp hq
  rw [hgrey _ hp, hgrey _ hq, hlabel, hlabel'] at hiff
  exact absurd (hiff.mp (by decide)) (by decide)

end Motion
