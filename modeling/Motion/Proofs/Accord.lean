import Motion.Proofs.Inventory
import Motion.Proofs.Pipelines

/-! `blob_detect_par` against `blob_detect`, record by record: on whole images both make the
inventory of the objects, and there is one inventory to make. -/

namespace Motion
open Labelling

/-- Mass, far corner and centroid are the same. -/
structure SameFigures (b c : Blob w) : Prop where
  mass : b.mass = c.mass
  xMax : b.xMax = c.xMax
  yMax : b.yMax = c.yMax
  centroidX : b.centroidX = c.centroidX
  centroidY : b.centroidY = c.centroidY

/-- Two detections tell the same pixels apart and list the same figures in the same order. -/
structure Accord (width : Nat) (d d' : Detection w) : Prop where
  numBlobs : d.numBlobs = d'.numBlobs
  off : ∀ p, InFrame width 240 p →
    (d.relabelled (idx width p) = 0 ↔ d'.relabelled (idx width p) = 0)
  labels : ∀ p q, InFrame width 240 p → InFrame width 240 q →
    (d.relabelled (idx width p) = d.relabelled (idx width q) ↔
      d'.relabelled (idx width p) = d'.relabelled (idx width q))
  records : ∀ k < d.numBlobs, SameFigures (d.consolidatedBlobs k) (d'.consolidatedBlobs k)
  biggest : 0 < d.numBlobs → SameFigures d.biggestBlob d'.biggestBlob

section numbers

variable {α : Type*} {P : α → Prop} {f g : α → Nat} {n : Nat}

/-- There is one way to number things in order without gaps. -/
theorem number_unique (onto : ∀ k < n, ∃ a, P a ∧ f a = k) (onto' : ∀ k < n, ∃ a, P a ∧ g a = k)
    (below : ∀ a, P a → f a < n) (alike : ∀ a b, P a → P b → (f a < f b ↔ g a < g b)) {a : α}
    (ha : P a) : f a = g a := by
  induction hk : f a using Nat.strong_induction_on generalizing a with
  | _ k ih =>
    have hkn : k < n := hk ▸ below a ha
    rcases Nat.lt_trichotomy k (g a) with hlt | he | hgt
    · -- what has the number `k` comes before `a` in one order only
      obtain ⟨b, hb, hgb⟩ := onto' k hkn
      have hba : f b < k := by
        rw [← hk]
        exact (alike b a hb ha).mpr (hgb ▸ hlt)
      have := ih (f b) hba hb rfl
      omega
    · exact he
    · obtain ⟨b, hb, hfb⟩ := onto (g a) (by omega)
      have hgb := ih (g a) hgt hb hfb
      have hba := (alike b a hb ha).mp (by omega)
      omega

end numbers

variable {w width height : Nat} {input : Buf UInt8} {order : List Band} {rows : List Nat}
  {stack stack' : Buf (Blob w)} {biggest biggest' : Blob w}
  {d d' : Detection w} {b c : Blob w} {T : Finset Pixel} {p q : Pixel}

theorem Records.same (h : Records b T) (h' : Records c T) : SameFigures b c :=
  ⟨h.mass.trans h'.mass.symm, h.xMax.trans h'.xMax.symm, h.yMax.trans h'.yMax.symm,
    h.centroidX.trans h'.centroidX.symm, h.centroidY.trans h'.centroidY.symm⟩

/-- Objects that begin at one place are one. -/
theorem connected_of_first (hp : Moving input width height p) (hq : Moving input width height q)
    (he : firstOf input width height p = firstOf input width height q) :
    Connected input width height p q := by
  obtain ⟨x, hx, hxe⟩ := Nat.sInf_mem (s := idx width '' object input width height p)
    ⟨_, p, Linked.refl, rfl⟩
  obtain ⟨y, hy, hye⟩ := Nat.sInf_mem (s := idx width '' object input width height q)
    ⟨_, q, Linked.refl, rfl⟩
  have hxy : x = y := idx_inj (Connected.moving hx hp).inFrame.2
    (Connected.moving hy hq).inFrame.2 (hxe.trans (he.trans hye.symm))
  have hpx : Connected input width height p x := hx
  have hqy : Connected input width height q y := hy
  exact hpx.trans (hxy ▸ hqy.symm)

/-- There is one largest object. -/
theorem Largest.connected (hp : Largest input width height p) (hq : Largest input width height q) :
    Connected input width height p q := by
  apply connected_of_first hp.moving hq.moving
  have hpq := hp.most q hq.moving
  have hqp := hq.most p hp.moving
  rcases Nat.lt_trichotomy (firstOf input width height p) (firstOf input width height q) with
    hlt | he | hgt
  · have := hp.last q hq.moving hlt
    omega
  · exact he
  · have := hq.last p hp.moving hgt
    omega

theorem pixelsOf_eq (hp : Moving input width height p) (h : Connected input width height p q) :
    pixelsOf input width height p = pixelsOf input width height q := by
  apply Finset.coe_injective
  rw [coe_pixelsOf hp, coe_pixelsOf (h.moving hp)]
  exact object_eq_iff.mpr h

/-- Two inventories of an image are in accord. -/
theorem Inventory.accord (h : Inventory input width d) (h' : Inventory input width d') :
    Accord width d d' := by
  have hnum : d.numBlobs = d'.numBlobs := h.numBlobs.trans h'.numBlobs.symm
  obtain ⟨number, honto, hnumber⟩ := h.records
  obtain ⟨number', honto', hnumber'⟩ := h'.records
  have hoff : ∀ p, InFrame width 240 p →
      (d.relabelled (idx width p) = 0 ↔ d'.relabelled (idx width p) = 0) :=
    fun p hp => (h.off p hp).trans (h'.off p hp).symm
  refine ⟨hnum, hoff, fun p q hp hq => ?_, fun k hk => ?_, fun hpos => ?_⟩
  · by_cases hpm : Moving input width 240 p
    · by_cases hqm : Moving input width 240 q
      · exact (h.labels p q hpm hqm).trans (h'.labels p q hpm hqm).symm
      · rw [(h.off q hq).mpr hqm, (h'.off q hq).mpr hqm]
        exact hoff p hp
    · rw [(h.off p hp).mpr hpm, (h'.off p hp).mpr hpm, eq_comm,
        eq_comm (b := d'.relabelled (idx width q))]
      exact hoff q hq
  · obtain ⟨p, hp, rfl⟩ := honto k hk
    have hsame : number p = number' p :=
      number_unique honto (hnum ▸ honto') (fun a ha => (hnumber a ha).1)
        (fun a b ha hb => ((hnumber a ha).2.2 b hb).trans ((hnumber' a ha).2.2 b hb).symm) hp
    have hrec := (hnumber' p hp).2.1
    rw [← hsame] at hrec
    exact (hnumber p hp).2.1.same hrec
  · obtain ⟨p, hp, _⟩ := honto 0 hpos
    obtain ⟨a, ha, harec⟩ := h.biggest ⟨p, hp⟩
    obtain ⟨b, hb, hbrec⟩ := h'.biggest ⟨p, hp⟩
    rw [← pixelsOf_eq ha.moving (ha.connected hb)] at hbrec
    exact harec.same hbrec

/-- The root `blob_detect` finds for the label of a pixel. -/
def seqRoot (w width : Nat) (input : Buf UInt8) (p : Pixel) : Nat :=
  links (redirected (labelLoop w width 240 (Buf.all 0) input))
    (labelAt width (labelLoop w width 240 (Buf.all 0) input) p)

section sequential

variable (fit : (labelLoop w width 240 (Buf.all 0) input).labelCounter ≤ 65536)
  (met : StartsMet input width 240)

include fit met

theorem seqRoot_catalogue : Catalogue input width 240 (seqRoot w width input)
    (seqRoots w width input) (seqGroup w width input) :=
  (labelLoop_labelled (BorderZero.all width 240) fit).catalogue met

theorem seqGroup_root (hp : Moving input width 240 p) :
    seqGroup w width input (seqRoot w width input p) = pixelsOf input width 240 p :=
  Finset.coe_injective
    (((seqRoot_catalogue fit met).grouped p hp).trans (coe_pixelsOf hp).symm)

/-- The record of a root is that of an object. -/
theorem seqRoot_record (hp : Moving input width 240 p) (stack : Buf (Blob w)) (biggest : Blob w) :
    Records ((blobDetect stack biggest (Buf.all 0) input width 240).consolidatedBlobs
        ((seqRoots w width input).idxOf (seqRoot w width input p)))
      (pixelsOf input width 240 p) := by
  obtain ⟨b, hb, hdesc⟩ := seqRecord fit stack
    (((seqRoot_catalogue fit met).mem _).mpr ⟨p, hp, rfl⟩)
  rw [seqGroup_root fit met hp] at hdesc
  have hrec := hdesc.reaches.records ((seqRoots w width input).idxOf (seqRoot w width input p))
  rw [← hb] at hrec
  exact hrec

end sequential

/-- `blob_detect` makes the inventory where every start is met. -/
theorem blobDetect_inventory (fit : LabelsFit w width 240 (Buf.all 0) input)
    (met : StartsMet input width 240)
    (few : (objects input width 240).ncard ≤ maxBlobsPerThread) (stack : Buf (Blob w))
    (biggest : Blob w) :
    Inventory input width (blobDetect stack biggest (Buf.all 0) input width 240) := by
  have hfit := fit.counter_le
  have h := labelLoop_labelled (BorderZero.all width 240) hfit
  have hlist := seqRoot_catalogue hfit met
  have hfalls := seqRoots_sorted w width input
  have hnodup : (seqRoots w width input).Nodup := hfalls.imp (fun hlt => Nat.ne_of_gt hlt)
  have hnum : (blobDetect stack biggest (Buf.all 0) input width 240).numBlobs =
      (seqRoots w width input).length := seqCount hfit stack
  have hcount := hnum.trans (hlist.length hnodup)
  have hmem : ∀ p, Moving input width 240 p →
      seqRoot w width input p ∈ seqRoots w width input :=
    fun p hp => (hlist.mem _).mpr ⟨p, hp, rfl⟩
  have hon : ∀ p, Moving input width 240 p →
      (blobDetect stack biggest (Buf.all 0) input width 240).relabelled (idx width p) =
        seqRoot w width input p := fun p hp => h.relabelled_on hfit stack hp
  refine ⟨hcount, hcount.trans_le few, fun p q hp hq => ?_, fun p hp => ?_, ?_, ?_⟩
  · rw [hon p hp, hon q hq]
    exact hlist.number_eq_iff hp hq
  · by_cases hm : Moving input width 240 p
    · have hpos := (h.mergeable.range p (mem_moving.mpr hm)).1
      rw [hon p hm]
      obtain ⟨q, hq, he⟩ := h.mergeable.carried p (mem_moving.mpr hm)
      have hroot := (h.mergeable.range q hq).1
      rw [he] at hroot
      refine iff_of_false (fun h0 => ?_) (not_not.mpr hm)
      exact absurd (hroot.trans_eq h0) (by decide)
    · exact iff_of_true (h.relabelled_off stack hp hm) hm
  · exact ⟨_, hlist.records hfalls hnum (fun p hp => seqRoot_record hfit met hp stack biggest)⟩
  · rintro ⟨q, hq⟩
    obtain ⟨r, hheavy, b, k, hb, hdesc⟩ :=
      blobDetect_reports hfit stack biggest (List.ne_nil_of_mem (hmem q hq))
    obtain ⟨p, hp, rfl⟩ := hlist.heaviest_iff.mp hheavy
    rw [seqGroup_root hfit met hp.moving] at hdesc
    refine ⟨p, hp, ?_⟩
    rw [hb]
    exact (hdesc.reaches.records k).fill biggest

/-- On whole images `blob_detect_par` detects what `blob_detect` does, in whatever order its
calls come, but for the near corners. -/
theorem detectors_accord (fair : order.Perm bands) (fair' : rows.Perm seams)
    (whole : Whole input width order rows)
    (few : (objects input width 240).ncard ≤ maxBlobsPerThread)
    (fit : LabelsFit w width 240 (Buf.all 0) input)
    (run : blobDetectPar order rows stack biggest (Buf.all 0) input width 240 = some d) :
    Accord width d (blobDetect stack' biggest' (Buf.all 0) input width 240) := by
  obtain ⟨sh, hsh, hd⟩ := blobDetectPar_some run
  exact (collected_inventory fair fair' whole few hsh hd.symm).accord
    (blobDetect_inventory fit whole.met few stack' biggest')

theorem detectors_accord_pole : ∃ d : Detection 32,
    blobDetectPar bands seams (Buf.all Blob.zero) Blob.zero (Buf.all 0) (pole 1 20) 3 240 =
      some d ∧
    Accord 3 d (blobDetect (Buf.all Blob.zero) Blob.zero (Buf.all 0) (pole 1 20) 3 240) := by
  have h : Column (pole 1 20) _ 240 := pole_column (by decide) (by decide)
  obtain ⟨d, hd⟩ := blobDetectPar_narrow (List.Perm.refl bands) (by decide : 3 ≤ 5) seams
    (Buf.all Blob.zero) (Blob.zero (w := 32)) (pole 1 20) 240
  exact ⟨d, hd, detectors_accord (List.Perm.refl bands) (List.Perm.refl seams)
    ((pole_column (by decide) (by decide)).whole h seams)
    (h.single (pole_stretch (by decide)) (fun _ => pole_only)) (h.labelsFit 32) hd⟩

/-- Where the gaps between the stripes do no harm `seq` makes the inventory of the image `par`
sees. -/
theorem seq_inventory {stripes : List Nat} {frameWidth : Nat} {background frameRaw : Buf UInt8}
    (fair : stripes.Perm (List.range numThreads)) (hw : frameWidth < 32768)
    (gaps : GapsHarmless frameWidth background frameRaw)
    (met : StartsMet (parThresh stripes frameWidth 240 background frameRaw) frameWidth 240)
    (few : (objects (parThresh stripes frameWidth 240 background frameRaw) frameWidth
      240).ncard ≤ maxBlobsPerThread)
    (fit : LabelsFit w frameWidth 240 (Buf.all 0) (seqThresh frameWidth 240 background frameRaw))
    (stack : Buf (Blob w)) (biggest : Blob w) :
    Inventory (parThresh stripes frameWidth 240 background frameRaw) frameWidth
      (seq stack biggest (Buf.all 0) frameWidth 240 background frameRaw) := by
  have hloop := labelLoop_congr w (Buf.all 0) ((thresh_same_iff hw fair).mpr gaps)
  have hseq : seq stack biggest (Buf.all 0) frameWidth 240 background frameRaw =
      blobDetect stack biggest (Buf.all 0) (parThresh stripes frameWidth 240 background frameRaw)
        frameWidth 240 := by
    unfold seq blobDetect
    rw [short_eq hw, short_eq (by decide : 240 < 32768), hloop]
  unfold LabelsFit at fit
  rw [← hloop] at fit
  rw [hseq]
  exact blobDetect_inventory fit met few stack biggest

/-- There `par` detects of a frame what `seq` does, if its threshold image is whole. -/
theorem pipelines_accord {s : Schedule} {frameWidth : Nat} {background frameRaw : Buf UInt8}
    (fair : s.Fair) (hw : frameWidth < 32768) (gaps : GapsHarmless frameWidth background frameRaw)
    (whole : Whole (parThresh s.stripes frameWidth 240 background frameRaw) frameWidth s.labels
      s.stitches)
    (few : (objects (parThresh s.stripes frameWidth 240 background frameRaw) frameWidth
      240).ncard ≤ maxBlobsPerThread)
    (fit : LabelsFit w frameWidth 240 (Buf.all 0) (seqThresh frameWidth 240 background frameRaw))
    (run : par s stack biggest (Buf.all 0) frameWidth 240 background frameRaw = some d) :
    Accord frameWidth d
      (seq stack' biggest' (Buf.all 0) frameWidth 240 background frameRaw) := by
  unfold par at run
  rw [short_eq hw, short_eq (by decide : 240 < 32768)] at run
  obtain ⟨sh, hsh, hd⟩ := blobDetectPar_some run
  exact (collected_inventory fair.labels fair.stitches whole few hsh hd.symm).accord
    (seq_inventory fair.stripes hw gaps whole.met few fit stack' biggest')

/-- The labels of `seq` fit where those of the image do that the frame is the negative of. -/
theorem negative_labelsFit {img : Buf UInt8} (fit : LabelsFit w 3 240 (Buf.all 0) img) :
    LabelsFit w 3 240 (Buf.all 0) (seqThresh 3 240 (negative img) (Buf.all 0)) := by
  unfold LabelsFit at fit ⊢
  rwa [labelLoop_congr w (Buf.all 0) seqThresh_negative]

theorem pipelines_accord_pole : ∃ d : Detection 32,
    par Schedule.plain (Buf.all Blob.zero) Blob.zero (Buf.all 0) 3 240 (negative (pole 1 20))
      (Buf.all 0) = some d ∧
    Accord 3 d (seq (Buf.all Blob.zero) Blob.zero (Buf.all 0) 3 240 (negative (pole 1 20))
      (Buf.all 0)) := by
  obtain ⟨d, hd⟩ := blobDetectPar_narrow (List.Perm.refl bands) (by decide : 3 ≤ 5) seams
    (Buf.all Blob.zero) (Blob.zero (w := 32))
    (parThresh Schedule.plain.stripes 3 240 (negative (pole 1 20)) (Buf.all 0)) 240
  have hpar : par Schedule.plain (Buf.all Blob.zero) Blob.zero (Buf.all 0) 3 240
      (negative (pole 1 20)) (Buf.all 0) = some d := by
    unfold par
    rw [short_eq (by decide : 3 < 32768), short_eq (by decide : 240 < 32768)]
    exact hd
  have h : Column (pole 1 20) _ 240 := pole_column (by decide) (by decide)
  have hcut := negative_column_cut h
  exact ⟨d, hpar, pipelines_accord Schedule.plain_fair (by decide) negative_gaps
    ((negative_column (pole_column (by decide) (by decide))).whole hcut seams)
    (hcut.single (pole_stretch (by decide)) (fun _ => pole_only))
    (negative_labelsFit (h.labelsFit 32)) hpar⟩

end Motion
