import Motion.Proofs.Agreement
import Motion.Proofs.Reduction

/-! What is detected of a whole image: its objects, one record for each. A call of `label` or
`stitch` may run in any order, and where the seams are quiet their turns may. -/

namespace Motion
open Labelling

/-- An entry's mass, sums and far corner are those of a set of pixels. -/
structure Reaches (b : Blob w) (T : Finset Pixel) : Prop extends Sums b T where
  xMax : b.xMax = T.sup Prod.snd
  yMax : b.yMax = T.sup Prod.fst

/-- A record's mass, far corner and centroid are those of a set of pixels, its sums having
`w` bits. -/
structure Records (b : Blob w) (T : Finset Pixel) : Prop where
  mass : b.mass = T.card
  xMax : b.xMax = T.sup Prod.snd
  yMax : b.yMax = T.sup Prod.fst
  centroidX : b.centroidX = (∑ p ∈ T, p.2) % 2 ^ w / (T.card % 2 ^ w)
  centroidY : b.centroidY = (∑ p ∈ T, p.1) % 2 ^ w / (T.card % 2 ^ w)

open Classical in
/-- The pixels of an object. -/
noncomputable def pixelsOf (input : Buf UInt8) (width height : Nat) (p : Pixel) : Finset Pixel :=
  (moving input width height).filter (Connected input width height p)

/-- A detection lists the objects of an image. -/
structure Inventory (input : Buf UInt8) (width : Nat) (d : Detection w) : Prop where
  numBlobs : d.numBlobs = (objects input width 240).ncard
  /-- The records fit their array. -/
  fits : d.numBlobs ≤ maxBlobsPerThread
  /-- Labels are those of objects, and none is left off them. -/
  labels : ∀ p q, Moving input width 240 p → Moving input width 240 q →
    (d.relabelled (idx width p) = d.relabelled (idx width q) ↔ Connected input width 240 p q)
  off : ∀ p, InFrame width 240 p →
    (d.relabelled (idx width p) = 0 ↔ ¬Moving input width 240 p)
  /-- Each object has its record, and each record its object; the last to begin comes first. -/
  records : ∃ number : Pixel → Nat,
    (∀ k < d.numBlobs, ∃ p, Moving input width 240 p ∧ number p = k) ∧
    ∀ p, Moving input width 240 p → number p < d.numBlobs ∧
      Records (d.consolidatedBlobs (number p)) (pixelsOf input width 240 p) ∧
      ∀ q, Moving input width 240 q → (number p < number q ↔
        firstOf input width 240 q < firstOf input width 240 p)
  biggest : (∃ p, Moving input width 240 p) →
    ∃ p, Largest input width 240 p ∧ Records d.biggestBlob (pixelsOf input width 240 p)

variable {w width height : Nat} {input : Buf UInt8} {order : List Band} {rows : List Nat}
  {labels stitches : List Act} {stack : Buf (Blob w)} {biggest : Blob w} {d d' : Detection w}
  {b c : Blob w} {S T : Finset Pixel} {p : Pixel}

theorem coe_pixelsOf (hp : Moving input width height p) :
    (pixelsOf input width height p : Set Pixel) = object input width height p := by
  ext q
  unfold pixelsOf object
  simp only [Finset.coe_filter, mem_moving, Set.mem_ofPred_eq]
  exact and_iff_right_of_imp (fun hc => hc.moving hp)

theorem Describes.reaches (h : Describes b T) : Reaches b T where
  toSums := h.toSums
  xMax := by
    apply Nat.le_antisymm
    · obtain ⟨p, hp, he⟩ := h.xMax.1
      exact he ▸ Finset.le_sup (f := Prod.snd) hp
    · exact Finset.sup_le (fun p hp => h.xMax.2 ⟨p, hp, rfl⟩)
  yMax := by
    apply Nat.le_antisymm
    · obtain ⟨p, hp, he⟩ := h.yMax.1
      exact he ▸ Finset.le_sup (f := Prod.fst) hp
    · exact Finset.sup_le (fun p hp => h.yMax.2 ⟨p, hp, rfl⟩)

/-- An entry nothing was written to. -/
theorem Reaches.empty (h : SameBut Blob.zero b) : Reaches b ∅ := by
  obtain ⟨l, rfl⟩ := h
  exact ⟨Sums.zero.relabel l, rfl, rfl⟩

theorem Reaches.absorbs : Absorbs (Reaches (w := w)) := by
  intro b c S T hb hc disj
  refine ⟨hb.toSums.absorb hc.toSums disj, ?_, ?_⟩
  · rw [Finset.sup_union, ← hb.xMax, ← hc.xMax, sup_comm]
    exact pick_max _ _
  · rw [Finset.sup_union, ← hb.yMax, ← hc.yMax, sup_comm]
    exact pick_max _ _

theorem Reaches.records (h : Reaches b T) (k : Nat) : Records (b.consolidate k) T where
  mass := h.mass
  xMax := h.xMax
  yMax := h.yMax
  centroidX := by simp [Blob.consolidate, h.sumX, h.mass]
  centroidY := by simp [Blob.consolidate, h.sumY, h.mass]

theorem Records.fill (h : Records c T) (biggest : Blob w) : Records (biggest.fill c) T :=
  ⟨h.mass, h.xMax, h.yMax, h.centroidX, h.centroidY⟩

/-- The near corner is not looked at. -/
theorem Records.congr (h : Records b T) (he : b.cornerless = c.cornerless) : Records c T := by
  have hfield : ∀ f : Blob w → Nat, f b.cornerless = f c.cornerless :=
    fun f => congrArg f he
  exact ⟨(hfield Blob.mass).symm.trans h.mass, (hfield Blob.xMax).symm.trans h.xMax,
    (hfield Blob.yMax).symm.trans h.yMax, (hfield Blob.centroidX).symm.trans h.centroidX,
    (hfield Blob.centroidY).symm.trans h.centroidY⟩

theorem SameButCorners.symm (h : SameButCorners d d') : SameButCorners d' d :=
  ⟨h.numBlobs.symm, h.relabelled.symm, fun k => (h.records k).symm, h.biggest.symm,
    fun he => (h.output he.symm).symm⟩

theorem Inventory.congr (h : Inventory input width d) (same : SameButCorners d d') :
    Inventory input width d' where
  numBlobs := same.numBlobs ▸ h.numBlobs
  fits := same.numBlobs ▸ h.fits
  labels := same.relabelled ▸ h.labels
  off := same.relabelled ▸ h.off
  records := by
    obtain ⟨number, honto, hnumber⟩ := h.records
    rw [same.numBlobs] at honto hnumber
    refine ⟨number, honto, fun p hp => ?_⟩
    obtain ⟨hlt, hrec, hafter⟩ := hnumber p hp
    exact ⟨hlt, hrec.congr (same.records _), hafter⟩
  biggest := by
    intro hmoves
    obtain ⟨p, hp, hrec⟩ := h.biggest hmoves
    exact ⟨p, hp, hrec.congr same.biggest⟩

namespace Run

variable {top : Band → Nat} {out : Buf Nat} {blobs t u : Table w} {r : Nat}
  (h : Bands w input width order top out blobs) (fair : order.Perm bands)

include h fair

/-- The record of a slot has the pixels that drain to it, but for the near corner. -/
theorem record_records (ht : Tied input width out blobs t)
    (hu : redirectAll (maxBlobsPerThread * 4) t = u) (stack : Buf (Blob w))
    (hr : r ∈ ownDown (maxBlobsPerThread * 4) u) :
    Records ((mergeAll (maxBlobsPerThread * 4) u stack).consolidatedBlobs
      ((ownDown (maxBlobsPerThread * 4) u).idxOf r)) (drainedTo width out u r) := by
  obtain ⟨b, hb, hreach⟩ := mergeAll_gathers Reaches.absorbs stack
    (fun i => (moving input width labelledHeight).filter (fun p => out (idx width p) = i)) hr
    (fun i hi => by
      by_cases hused : ∃ q, Moving input width labelledHeight q ∧ out (idx width q) = i
      · exact (h.redirected_describes fair ht hu hused).reaches
      · have hempty : (moving input width labelledHeight).filter
            (fun p => out (idx width p) = i) = ∅ :=
          Finset.filter_eq_empty_iff.mpr (fun q hq he => hused ⟨q, mem_moving.mp hq, he⟩)
        rw [hempty]
        exact Reaches.empty (redirected_unused ht hu (mem_drain.mp hi).1.1 hused))
    (fun i _ j _ hne => Finset.disjoint_filter.mpr (fun p _ hi hj => hne (hi.symm.trans hj)))
  rw [h.drain_biUnion fair] at hreach
  rw [hb]
  exact hreach.records _

variable (fair' : rows.Perm seams) (whole : Whole input width order rows)
  (hu : redirectAll (maxBlobsPerThread * 4)
    (stitchAll width out (seamPixels width rows) blobs) = u) (stack : Buf (Blob w))

include fair' whole hu

/-- On a whole image that is the object of the pixels that settle there. -/
theorem object_record (hp : Moving input width 240 p) :
    Records ((mergeAll (maxBlobsPerThread * 4) u stack).consolidatedBlobs
      ((ownDown (maxBlobsPerThread * 4) u).idxOf (links u (out (idx width p)))))
      (pixelsOf input width 240 p) := by
  have ht := h.stitchAll_tied fair
    (fun p (hp : p ∈ seamPixels width rows) => seam_inside fair' hp)
  have hlist := h.catalogue fair fair' whole hu
  have hset : drainedTo width out u (links u (out (idx width p))) = pixelsOf input width 240 p :=
    Finset.coe_injective ((hlist.grouped p hp).trans (coe_pixelsOf hp).symm)
  rw [← hset]
  exact h.record_records fair ht hu stack ((hlist.mem _).mpr ⟨p, hp, rfl⟩)

/-- The relabel loop leaves labels on the moving pixels alone. -/
theorem relabelled_zero_iff (hp : InFrame width 240 p) :
    relabel width 240 (mergeAll (maxBlobsPerThread * 4) u stack).blobs out (idx width p) = 0 ↔
      ¬Moving input width 240 p := by
  have ht := h.stitchAll_tied fair
    (fun p (hp : p ∈ seamPixels width rows) => seam_inside fair' hp)
  by_cases hm : Moving input width 240 p
  · have hmem := ((h.catalogue fair fair' whole hu).mem _).mpr ⟨p, hm, rfl⟩
    have hpos := (mem_ownDown.mp hmem).1.1
    rw [h.relabelled_settles fair ht stack hu hm,
      ← (h.redirectAll_settles fair ht hu hm.labelled).1]
    exact iff_of_false (by omega) (not_not.mpr hm)
  · have hclear := h.clear hp.2 (mt whole.moving_iff.mp hm)
    refine iff_of_true ?_ hm
    by_cases hin : Inside width 240 p
    · rw [relabel_apply _ _ hin, if_neg (not_not.mpr hclear)]
    · rw [relabel_border _ _ hp.2 hin, hclear]

end Run

theorem collectUpTo_records {n : Nat} {sh : Shared w}
    (hd : collectUpTo n stack biggest width 240 sh = d) :
    d.consolidatedBlobs = (mergeAll n (redirectAll n sh.blobs) stack).consolidatedBlobs := by
  subst hd
  rfl

theorem idxOf_lt_iff_of_falls {l : List Nat} (falls : l.Pairwise (fun a b => b < a)) {i j : Nat}
    (hi : i ∈ l) (hj : j ∈ l) : l.idxOf i < l.idxOf j ↔ j < i := by
  constructor
  · intro hlt
    by_contra hge
    rcases Nat.lt_or_eq_of_le (Nat.not_lt.mp hge) with hij | he
    · have := idxOf_lt_of_falls falls hj hi hij
      omega
    · rw [he] at hlt
      exact Nat.lt_irrefl _ hlt
  · exact idxOf_lt_of_falls falls hi hj

/-- Records in the order of falling numbers, one for each object. -/
theorem Catalogue.records {number : Pixel → Nat} {listed : List Nat} {group : Nat → Finset Pixel}
    {recorded : Buf (Blob w)} {n : Nat} (h : Catalogue input width height number listed group)
    (falls : listed.Pairwise (fun a b => b < a)) (hn : n = listed.length)
    (hrec : ∀ p, Moving input width height p →
      Records (recorded (listed.idxOf (number p))) (pixelsOf input width height p)) :
    (∀ k < n, ∃ p, Moving input width height p ∧ listed.idxOf (number p) = k) ∧
    ∀ p, Moving input width height p → listed.idxOf (number p) < n ∧
      Records (recorded (listed.idxOf (number p))) (pixelsOf input width height p) ∧
      ∀ q, Moving input width height q → (listed.idxOf (number p) < listed.idxOf (number q) ↔
        firstOf input width height q < firstOf input width height p) := by
  subst hn
  have hmem : ∀ p, Moving input width height p → number p ∈ listed :=
    fun p hp => (h.mem _).mpr ⟨p, hp, rfl⟩
  constructor
  · intro k hk
    obtain ⟨p, hp, he⟩ := (h.mem _).mp (List.getElem_mem hk)
    refine ⟨p, hp, ?_⟩
    rw [he]
    exact List.Nodup.idxOf_getElem (falls.imp (fun hlt => Nat.ne_of_gt hlt)) k hk
  · intro p hp
    refine ⟨List.idxOf_lt_length_of_mem (hmem p hp), hrec p hp, fun q hq => ?_⟩
    exact (idxOf_lt_iff_of_falls falls (hmem p hp) (hmem q hq)).trans (h.ordered q p hq hp)

/-- What the passes after the joins make of a whole image. -/
theorem collected_inventory {sh : Shared w} (fair : order.Perm bands) (fair' : rows.Perm seams)
    (whole : Whole input width order rows)
    (few : (objects input width 240).ncard ≤ maxBlobsPerThread)
    (hsh : runLabels input width order (Shared.fresh (Buf.all 0)) = some sh)
    (hd : collectUpTo (maxBlobsPerThread * 4) stack biggest width 240
      { sh with blobs := stitchAll width sh.output (seamPixels width rows) sh.blobs } = d) :
    Inventory input width d := by
  obtain ⟨top, h⟩ := runLabels_run fair hsh
  have ht := h.stitchAll_tied fair
    (fun p (hp : p ∈ seamPixels width rows) => seam_inside fair' hp)
  have hreport := collectUpTo_ownDown (maxBlobsPerThread * 4) stack biggest width 240
    { sh with blobs := stitchAll width sh.output (seamPixels width rows) sh.blobs }
  have hrecs := collectUpTo_records hd
  have hrelabelled := collectUpTo_relabelled hd
  dsimp only at hreport hrecs hrelabelled
  rw [hd] at hreport
  generalize hu : redirectAll (maxBlobsPerThread * 4)
    (stitchAll width sh.output (seamPixels width rows) sh.blobs) = u at hreport hrecs hrelabelled
  have hlist := h.catalogue fair fair' whole hu
  have hfalls := ownDown_sorted (maxBlobsPerThread * 4) u
  have hrecords := fun p hp => h.object_record fair fair' whole hu stack (p := p) hp
  rw [← hrecs] at hrecords
  generalize hroots : ownDown (maxBlobsPerThread * 4) u = roots at hreport hlist hfalls hrecords
  obtain ⟨hnum, hbiggest⟩ := hreport
  have hon : ∀ p, Moving input width 240 p →
      d.relabelled (idx width p) = links u (sh.output (idx width p)) := by
    intro p hp
    rw [hrelabelled, h.relabelled_settles fair ht stack hu hp]
    exact (h.redirectAll_settles fair ht hu hp.labelled).1.symm
  have hmem : ∀ p, Moving input width 240 p → links u (sh.output (idx width p)) ∈ roots :=
    fun p hp => (hlist.mem _).mpr ⟨p, hp, rfl⟩
  have hcount := hnum.trans (hlist.length (hfalls.imp (fun hlt => Nat.ne_of_gt hlt)))
  refine ⟨hcount, hcount.trans_le few, ?_, ?_, ?_, ?_⟩
  · intro p q hp hq
    rw [hon p hp, hon q hq]
    exact h.settled_iff fair fair' whole hu hp hq
  · intro p hp
    rw [hrelabelled]
    exact h.relabelled_zero_iff fair fair' whole hu stack hp
  · exact ⟨_, hlist.records hfalls hnum hrecords⟩
  · rintro ⟨q, hq⟩
    have hne : ownDown (maxBlobsPerThread * 4) u ≠ [] :=
      List.ne_nil_of_mem (hroots ▸ hmem q hq)
    obtain ⟨r, hfore, hidx⟩ := h.selected fair ht hu stack hrecs.symm hne
    unfold Foremost at hfore
    rw [hroots] at hfore hidx
    obtain ⟨p, hp, rfl⟩ := hlist.heaviest_iff.mp hfore
    refine ⟨p, hp, ?_⟩
    rw [hbiggest, ← hrecs, ← hidx]
    exact (hrecords p hp.moving).fill biggest

/-- Whole calls make the inventory of a whole image, in whatever order they come. -/
theorem blobDetectPar_inventory (fair : order.Perm bands) (fair' : rows.Perm seams)
    (whole : Whole input width order rows)
    (few : (objects input width 240).ncard ≤ maxBlobsPerThread)
    (run : blobDetectPar order rows stack biggest (Buf.all 0) input width 240 = some d) :
    Inventory input width d := by
  obtain ⟨sh, hsh, hd⟩ := blobDetectPar_some run
  exact collected_inventory fair fair' whole few hsh hd.symm

/-- A single stretch is one object. -/
theorem Column.single {on : Nat → Bool} {a b : Nat} (h : Column input on 240)
    (s : Stretch on a b) (only : ∀ r, on r → a ≤ r ∧ r ≤ b) :
    (objects input 3 240).ncard ≤ maxBlobsPerThread := by
  have hone : objects input 3 240 ⊆ {object input 3 240 (a, 1)} := by
    rintro _ ⟨p, hp, rfl⟩
    obtain ⟨hcol, hon⟩ := (h.moving p).mp hp
    exact object_eq_iff.mpr ((h.connected_iff s ⟨hcol, only _ hon⟩).mpr s.begins)
  have hle := Set.ncard_le_ncard hone
  rw [Set.ncard_singleton] at hle
  exact hle.trans (by decide)

theorem pole_only {a b r : Nat} (hr : decide (a ≤ r ∧ r ≤ b)) : a ≤ r ∧ r ≤ b :=
  of_decide_eq_true hr

/-- A pole is listed as one object, whatever the order of the calls. -/
theorem blobDetectPar_inventory_pole : ∃ d : Detection 32,
    blobDetectPar bands seams (Buf.all Blob.zero) Blob.zero (Buf.all 0) (pole 1 20) 3 240 =
      some d ∧ Inventory (pole 1 20) 3 d := by
  have h : Column (pole 1 20) _ 240 := pole_column (by decide) (by decide)
  obtain ⟨d, hd⟩ := blobDetectPar_narrow (List.Perm.refl bands) (by decide : 3 ≤ 5) seams
    (Buf.all Blob.zero) (Blob.zero (w := 32)) (pole 1 20) 240
  exact ⟨d, hd, blobDetectPar_inventory (List.Perm.refl bands) (List.Perm.refl seams)
    ((pole_column (by decide) (by decide)).whole h seams)
    (h.single (pole_stretch (by decide)) (fun _ => pole_only)) hd⟩

/-- So do the threads taking turns, where moreover no motion reaches across a seam. -/
theorem threads_inventory (quiet : SeamsQuiet input width) (fair : order.Perm bands)
    (fair' : rows.Perm seams) (whole : Whole input width order rows)
    (few : (objects input width 240).ncard ≤ maxBlobsPerThread)
    (hl : Interleave.Run (labelThreads width) labels)
    (hs : Interleave.Run (stitchThreads width) stitches)
    (run : blobDetectThreads labels stitches stack biggest (Buf.all 0) input width 240 = some d) :
    Inventory input width d := by
  rcases threads_alike quiet hl (calls_run fair) hs (stitches_calls fair') with
    ⟨hnone, _⟩ | ⟨e, d', he, hd', same⟩
  · rw [run] at hnone
    cases hnone
  · obtain rfl : d = e := Option.some.inj (run.symm.trans he)
    rw [← blobDetectPar_turns fair] at hd'
    obtain ⟨sh, hsh, hd⟩ := blobDetectPar_some hd'
    exact (collected_inventory fair fair' whole few hsh hd.symm).congr same.symm

/-- A column that ends above the first seam does not reach across one. -/
theorem Column.quiet {on : Nat → Bool} (h : Column input on labelledHeight)
    (low : ∀ r, on r → r < 60) : SeamsQuiet input 3 := by
  intro p q hrow _ hp _
  have := low p.1 ((h.moving p).mp hp).2
  have := seams_low hrow
  omega

theorem pole_low {a b : Nat} (hb : b < 60) (r : Nat) (hr : decide (a ≤ r ∧ r ≤ b)) : r < 60 := by
  have := pole_only hr
  omega

theorem threads_inventory_pole : ∃ d : Detection 32,
    blobDetectThreads (labelThreads 3).flatten (stitchThreads 3).flatten (Buf.all Blob.zero)
      Blob.zero (Buf.all 0) (pole 1 20) 3 240 = some d ∧ Inventory (pole 1 20) 3 d := by
  have h : Column (pole 1 20) _ 240 := pole_column (by decide) (by decide)
  have hlab : Column (pole 1 20) _ labelledHeight := pole_column (by decide) (by decide)
  obtain ⟨d, hd⟩ := blobDetectThreads_narrow (by decide : 3 ≤ 5) (Buf.all Blob.zero)
    (Blob.zero (w := 32)) (pole 1 20) 240
  exact ⟨d, hd, threads_inventory (hlab.quiet (pole_low (by decide))) (List.Perm.refl bands)
    (List.Perm.refl seams) (hlab.whole h seams)
    (h.single (pole_stretch (by decide)) (fun _ => pole_only)) (Interleave.Run.one_by_one _)
    (Interleave.Run.one_by_one _) hd⟩

end Motion
