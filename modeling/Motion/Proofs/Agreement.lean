import Motion.Proofs.Border
import Motion.Proofs.Capacity
import Motion.Proofs.Catalogue
import Motion.Proofs.Columns

/-! `blob_detect_par` against `blob_detect`: when both report the same biggest blob, told
from the pixels that go into the two records. -/

namespace Motion
open Labelling

/-- Whenever `blob_detect` reports a biggest blob of mass over 50, the assertions of
`blob_detect_par` are silent, its blobs fit their array and it reports the same one,
whatever the stacks and the callers' records hold. -/
def Agreement (w width : Nat) (order : List Band) (stitches : List Nat)
    (input input' : Buf UInt8) : Prop :=
  ∀ (stack stack' : Buf (Blob w)) (biggest biggest' : Blob w),
    50 < (blobDetect stack' biggest' (Buf.all 0) input' width 240).biggestBlob.mass →
    ∃ d, blobDetectPar order stitches stack biggest (Buf.all 0) input width 240 = some d ∧
      d.numBlobs ≤ maxBlobsPerThread ∧
      Agrees d.biggestBlob (blobDetect stack' biggest' (Buf.all 0) input' width 240).biggestBlob

/-- Two sets of pixels make one record: they have one number, one box and, with sums of
`w` bits, one mean. -/
structure SameStatistics (w : Nat) (P S : Finset Pixel) : Prop where
  card : P.card = S.card
  xMin : ∀ m, IsLeast (Prod.snd '' (P : Set Pixel)) m ↔ IsLeast (Prod.snd '' (S : Set Pixel)) m
  xMax : ∀ m, IsGreatest (Prod.snd '' (P : Set Pixel)) m ↔
    IsGreatest (Prod.snd '' (S : Set Pixel)) m
  yMin : ∀ m, IsLeast (Prod.fst '' (P : Set Pixel)) m ↔ IsLeast (Prod.fst '' (S : Set Pixel)) m
  yMax : ∀ m, IsGreatest (Prod.fst '' (P : Set Pixel)) m ↔
    IsGreatest (Prod.fst '' (S : Set Pixel)) m
  centroidX : (∑ p ∈ P, p.2) % 2 ^ w / (P.card % 2 ^ w) =
    (∑ p ∈ S, p.2) % 2 ^ w / (S.card % 2 ^ w)
  centroidY : (∑ p ∈ P, p.1) % 2 ^ w / (P.card % 2 ^ w) =
    (∑ p ∈ S, p.1) % 2 ^ w / (S.card % 2 ^ w)

/-- The root labels of `blob_detect` on a clean buffer, highest first. -/
def seqRoots (w width : Nat) (input : Buf UInt8) : List Nat :=
  roots (labelLoop w width 240 (Buf.all 0) input).labelCounter
    (redirected (labelLoop w width 240 (Buf.all 0) input)) (moving input width 240)
    (labelAt width (labelLoop w width 240 (Buf.all 0) input))

/-- The pixels of the blob it makes of a root. -/
def seqGroup (w width : Nat) (input : Buf UInt8) (r : Nat) : Finset Pixel :=
  group (redirected (labelLoop w width 240 (Buf.all 0) input)) (moving input width 240)
    (labelAt width (labelLoop w width 240 (Buf.all 0) input)) r

/-- The start most pixels come down to in `blob_detect`; of several, the last. -/
def HeaviestEnd (input : Buf UInt8) (width n : Nat) : Prop :=
  Heaviest (seqEnds input width 240).toList (fun n => (seqFallingTo input width 240 n).card) n

/-- What the starts say of the two reports: `blob_detect` has something to report and, should
it have more than 50 pixels, no band runs out of labels, the starts that come back to
themselves fit their array, slot 0 does not leak into the foremost of them and the pixels that
come down to that one have the statistics of those `blob_detect` reports. -/
def StartsAgree (w width : Nat) (order : List Band) (stitches : List Nat)
    (input input' : Buf UInt8) : Prop :=
  ∃ m, HeaviestEnd input' width m ∧ (50 < (seqFallingTo input' width 240 m).card →
    Roomy input width order ∧
    (returningStarts input width order stitches).card ≤ maxBlobsPerThread ∧
    ∃ n, ForemostStart input width order stitches n ∧
      ¬SlotLeaks input width order stitches n ∧
      SameStatistics w (fallingTo input width order stitches n) (seqFallingTo input' width 240 m))

/-- An image that meets none of the faults: something moves and, if an object has more than
50 pixels, no band runs out of labels, the image is whole and its largest object safe. -/
def Faultless (input : Buf UInt8) (width : Nat) (order : List Band) (stitches : List Nat) :
    Prop :=
  (∃ p, Moving input width 240 p) ∧
    ((∀ p, Moving input width 240 p → (object input width 240 p).ncard ≤ 50) ∨
      Roomy input width order ∧ Whole input width order stitches ∧
        LargestSafe input width order stitches)

variable {w width : Nat} {input input' : Buf UInt8} {order : List Band} {stitches : List Nat}
  {P S : Finset Pixel} {b c : Blob w}

theorem SameStatistics.refl (w : Nat) (P : Finset Pixel) : SameStatistics w P P :=
  ⟨rfl, fun _ => Iff.rfl, fun _ => Iff.rfl, fun _ => Iff.rfl, fun _ => Iff.rfl, rfl, rfl⟩

/-- Records of what they describe agree exactly if the described pixels make one record. -/
theorem Describes.agrees_iff (hb : Describes b P) (hc : Describes c S) (biggest biggest' : Blob w)
    (j k : Nat) :
    Agrees (biggest.fill (b.consolidate j)) (biggest'.fill (c.consolidate k)) ↔
      SameStatistics w P S := by
  have hbx : (b.consolidate j).centroidX = (∑ p ∈ P, p.2) % 2 ^ w / (P.card % 2 ^ w) := by
    simp [Blob.consolidate, hb.sumX, hb.mass]
  have hby : (b.consolidate j).centroidY = (∑ p ∈ P, p.1) % 2 ^ w / (P.card % 2 ^ w) := by
    simp [Blob.consolidate, hb.sumY, hb.mass]
  have hcx : (c.consolidate k).centroidX = (∑ p ∈ S, p.2) % 2 ^ w / (S.card % 2 ^ w) := by
    simp [Blob.consolidate, hc.sumX, hc.mass]
  have hcy : (c.consolidate k).centroidY = (∑ p ∈ S, p.1) % 2 ^ w / (S.card % 2 ^ w) := by
    simp [Blob.consolidate, hc.sumY, hc.mass]
  constructor
  · intro h
    have hxMin : b.xMin = c.xMin := h.xMin
    have hxMax : b.xMax = c.xMax := h.xMax
    have hyMin : b.yMin = c.yMin := h.yMin
    have hyMax : b.yMax = c.yMax := h.yMax
    refine ⟨hb.mass.symm.trans (h.mass.trans hc.mass), fun m => ?_, fun m => ?_, fun m => ?_,
      fun m => ?_, hbx.symm.trans (h.centroidX.trans hcx), hby.symm.trans (h.centroidY.trans hcy)⟩
    · exact ⟨fun hm => hm.unique hb.xMin ▸ hxMin ▸ hc.xMin,
        fun hm => hm.unique hc.xMin ▸ hxMin ▸ hb.xMin⟩
    · exact ⟨fun hm => hm.unique hb.xMax ▸ hxMax ▸ hc.xMax,
        fun hm => hm.unique hc.xMax ▸ hxMax ▸ hb.xMax⟩
    · exact ⟨fun hm => hm.unique hb.yMin ▸ hyMin ▸ hc.yMin,
        fun hm => hm.unique hc.yMin ▸ hyMin ▸ hb.yMin⟩
    · exact ⟨fun hm => hm.unique hb.yMax ▸ hyMax ▸ hc.yMax,
        fun hm => hm.unique hc.yMax ▸ hyMax ▸ hb.yMax⟩
  · intro h
    exact ⟨((h.xMin _).mp hb.xMin).unique hc.xMin, ((h.xMax _).mp hb.xMax).unique hc.xMax,
      ((h.yMin _).mp hb.yMin).unique hc.yMin, ((h.yMax _).mp hb.yMax).unique hc.yMax,
      hbx.trans (h.centroidX.trans hcx.symm), hby.trans (h.centroidY.trans hcy.symm),
      hb.mass.trans (h.card.trans hc.mass.symm)⟩

theorem seqRoots_sorted (w width : Nat) (input : Buf UInt8) :
    (seqRoots w width input).Pairwise (fun a b => b < a) :=
  roots_sorted _ _ _ _

section sequential

variable (fit : (labelLoop w width 240 (Buf.all 0) input).labelCounter ≤ 65536)
  (stack : Buf (Blob w))

include fit

theorem seqRecord {i : Nat} (hi : i ∈ seqRoots w width input) :
    ∃ b, (merged stack (labelLoop w width 240 (Buf.all 0) input)).consolidatedBlobs
        ((seqRoots w width input).idxOf i) =
          b.consolidate ((seqRoots w width input).idxOf i) ∧
      Describes b (seqGroup w width input i) := by
  have h := labelLoop_labelled (BorderZero.all width 240) fit
  obtain ⟨b, hb, _, hdesc⟩ := (h.merging stack).recorded _ i (List.getElem?_idxOf hi)
  exact ⟨b, hb, hdesc trivial⟩

omit stack in
/-- The starts of the labels order them, and links lead as the starts say. -/
theorem seqLinked : Links.Matches (fun i n => ∃ q, Moving input width 240 q ∧
      labelAt width (labelLoop w width 240 (Buf.all 0) input) q = i ∧
      startOf input width 240 q = n)
    (links (labelLoop w width 240 (Buf.all 0) input).blobs) (seqLink input width 240) := by
  have h := labelLoop_labelled (BorderZero.all width 240) fit
  have hmatch := h.trails.matches h.ordered.order
  have hcarries : ∀ i n, Carries (scene w input width 240) (startOf input width 240)
      (interior width 240).toFinset (marks width (labelLoop w width 240 (Buf.all 0) input).output
        (labelLoop w width 240 (Buf.all 0) input).blobs) i n ↔
      ∃ q, Moving input width 240 q ∧
        labelAt width (labelLoop w width 240 (Buf.all 0) input) q = i ∧
        startOf input width 240 q = n :=
    fun i n => exists_congr (fun q => and_congr_left (fun _ => Labelled.live_iff w))
  exact ⟨fun i n hi => (hcarries _ _).mp (hmatch.link i n ((hcarries i n).mpr hi)),
    fun i n k m hi hk => hmatch.order i n k m ((hcarries i n).mpr hi) ((hcarries k m).mpr hk)⟩

omit stack in
/-- The heaviest root is that of the heaviest end. -/
theorem seqHeaviest_iff {P : Finset Pixel → Prop} :
    (∃ i, Heaviest (seqRoots w width input) (fun i => (seqGroup w width input i).card) i ∧
      P (seqGroup w width input i)) ↔
    ∃ m, HeaviestEnd input width m ∧ P (seqFallingTo input width 240 m) := by
  have h := labelLoop_labelled (BorderZero.all width 240) fit
  have hmatch := seqLinked fit
  have hgroup : ∀ i n, (∃ q, Moving input width 240 q ∧
      labelAt width (labelLoop w width 240 (Buf.all 0) input) q = i ∧
      startOf input width 240 q = n) →
      seqGroup w width input i = seqFallingTo input width 240 n := by
    intro i n hi
    ext p
    unfold seqGroup group seqFallingTo
    rw [Finset.mem_filter, Finset.mem_filter, mem_moving]
    refine and_congr_right (fun hp => ?_)
    rw [h.links_root hp]
    exact hmatch.eq_iff (hmatch.root ⟨p, hp, rfl, rfl⟩) hi
  refine Heaviest.exists_iff ?_ ?_ hmatch.order
    (fun i n hi => congrArg Finset.card (hgroup i n hi)) (fun i n hi => by rw [hgroup i n hi])
  · intro i hi
    obtain ⟨p, hp, rfl⟩ := (mem_roots h.mergeable).mp hi
    have hp' := mem_moving.mp hp
    refine ⟨_, Finset.mem_toList.mpr (Finset.mem_image_of_mem _ hp), ?_⟩
    rw [h.links_root hp']
    exact hmatch.root ⟨p, hp', rfl, rfl⟩
  · intro n hn
    obtain ⟨p, hp, rfl⟩ := Finset.mem_image.mp (Finset.mem_toList.mp hn)
    have hp' := mem_moving.mp hp
    refine ⟨_, (mem_roots h.mergeable).mpr ⟨p, hp, rfl⟩, ?_⟩
    rw [h.links_root hp']
    exact hmatch.root ⟨p, hp', rfl, rfl⟩

omit stack in
/-- A group lies within an object. -/
theorem seqGroup_object {i : Nat} (hi : i ∈ seqRoots w width input) :
    ∃ p, Moving input width 240 p ∧
      (seqGroup w width input i).card ≤ (object input width 240 p).ncard := by
  have h := labelLoop_labelled (BorderZero.all width 240) fit
  obtain ⟨p, hp, rfl⟩ := (mem_roots h.mergeable).mp hi
  have hp' := mem_moving.mp hp
  refine ⟨p, hp', ?_⟩
  rw [← Set.ncard_coe_finset]
  refine Set.ncard_le_ncard (fun q hq => ?_) (Set.Finite.subset
    (moving input width 240).finite_toSet (fun q hq => mem_moving.mpr (hq.moving hp')))
  obtain ⟨hq, he⟩ := Finset.mem_filter.mp (Finset.mem_coe.mp hq)
  exact (h.joined_of_root (mem_moving.mp hq) hp' he).symm

theorem seqCount : (merged stack (labelLoop w width 240 (Buf.all 0) input)).numBlobs =
    (seqRoots w width input).length :=
  ((labelLoop_labelled (BorderZero.all width 240) fit).merging stack).count

/-- The record `blob_detect` reports is that of its heaviest root. -/
theorem blobDetect_reports (biggest : Blob w) (hne : seqRoots w width input ≠ []) :
    ∃ r, Heaviest (seqRoots w width input) (fun i => (seqGroup w width input i).card) r ∧
      ∃ b k, (blobDetect stack biggest (Buf.all 0) input width 240).biggestBlob =
        biggest.fill (b.consolidate k) ∧ Describes b (seqGroup w width input r) := by
  have hcount := seqCount fit stack
  have hlt := (biggestIndex_spec (merged stack (labelLoop w width 240 (Buf.all 0)
    input)).consolidatedBlobs _ (List.length_pos_of_ne_nil hne)).1
  have hmass : ∀ i ∈ seqRoots w width input,
      ((merged stack (labelLoop w width 240 (Buf.all 0) input)).consolidatedBlobs
        ((seqRoots w width input).idxOf i)).mass = (seqGroup w width input i).card := by
    intro i hi
    obtain ⟨b, hb, hdesc⟩ := seqRecord fit stack hi
    rw [hb, Blob.consolidate_mass]
    exact hdesc.mass
  obtain ⟨hheavy, hidx⟩ := biggestIndex_selects (seqRoots_sorted w width input) hmass
    (List.getElem?_eq_getElem hlt)
  obtain ⟨b, hb, hdesc⟩ := seqRecord fit stack hheavy.mem
  rw [hidx, ← hcount] at hb
  exact ⟨_, hheavy, b, _, congrArg biggest.fill hb, hdesc⟩

/-- With nothing recorded it reports what its stack held. -/
theorem blobDetect_reports_stack (biggest : Blob w) (hnone : seqRoots w width input = []) :
    (blobDetect stack biggest (Buf.all 0) input width 240).biggestBlob = biggest.fill (stack 0) := by
  have hcount := seqCount fit stack
  rw [hnone, List.length_nil] at hcount
  have hzero : biggestIndex
      (merged stack (labelLoop w width 240 (Buf.all 0) input)).consolidatedBlobs
      (merged stack (labelLoop w width 240 (Buf.all 0) input)).numBlobs = 0 := by
    rw [hcount]
    rfl
  have hkept : (merged stack (labelLoop w width 240 (Buf.all 0) input)).consolidatedBlobs 0 =
      stack 0 :=
    merge_keeps mergeEntry_records _ _ (Or.inr (Nat.le_of_eq hcount))
  refine congrArg biggest.fill (Eq.trans ?_ hkept)
  exact congrArg _ hzero

end sequential

/-- The record of the foremost slot agrees with one of other pixels exactly if slot 0 does
not leak into it and the pixels that drain to it make the same record. -/
theorem Run.agrees_iff {top : Band → Nat} {out : Buf Nat} {blobs t u : Table w} {r k : Nat}
    (h : Bands w input width order top out blobs) (fair : order.Perm bands)
    (ht : Tied input width out blobs t) (hu : redirectAll (maxBlobsPerThread * 4) t = u)
    (hr : r ∈ ownDown (maxBlobsPerThread * 4) u) (hc : Describes c S)
    (off : ∀ p ∈ S, 1 ≤ p.2) (stack : Buf (Blob w)) (biggest biggest' : Blob w) :
    Agrees (biggest.fill ((mergeAll (maxBlobsPerThread * 4) u stack).consolidatedBlobs
        ((ownDown (maxBlobsPerThread * 4) u).idxOf r))) (biggest'.fill (c.consolidate k)) ↔
      ¬Leaks width out u r ∧ SameStatistics w (drainedTo width out u r) S := by
  by_cases hleak : Leaks width out u r
  · refine iff_of_false (fun hp => ?_) (fun hs => hs.1 hleak)
    obtain ⟨i, hi, hun⟩ := (h.leaks_iff fair ht hu hr).mp hleak
    obtain ⟨p, hp', he⟩ := hc.xMin.1
    have hzero := hp.xMin
    rw [Blob.fill_xMin, Blob.fill_xMin, Blob.consolidate_xMin,
      record_spoilt ht hu stack hr hi hun] at hzero
    have := off p (Finset.mem_coe.mp hp')
    omega
  · obtain ⟨b, hb, hdesc⟩ := h.record_describes fair ht hu stack hr (fun i hi => by
      by_contra hun
      exact hleak ((h.leaks_iff fair ht hu hr).mpr ⟨i, hi, hun⟩))
    rw [hb, hdesc.agrees_iff hc]
    exact ⟨fun hs => ⟨hleak, hs⟩, fun hs => hs.2⟩

theorem seqGroup_off {i : Nat} {p : Pixel} (hp : p ∈ seqGroup w width input i) : 1 ≤ p.2 := by
  have hin := (mem_moving.mp (Finset.mem_filter.mp hp).1).1
  unfold Inside at hin
  omega

/-- With nothing recorded what is selected is what the stack held. -/
theorem mergeAll_none {n : Nat} {u : Table w} (stack : Buf (Blob w)) (hnone : ownDown n u = []) :
    (mergeAll n u stack).consolidatedBlobs
      (biggestIndex (mergeAll n u stack).consolidatedBlobs (ownDown n u).length) = stack 0 := by
  have hcount := mergeAll_numBlobs_eq n u stack
  rw [hnone, List.length_nil] at hcount ⊢
  exact merge_keeps mergeUsed_records _ _ (Or.inr (Nat.le_of_eq hcount))

/-- What `blob_detect_par` reports under a schedule whose assertions are silent. -/
theorem blobDetectPar_reports {sh : Shared w} {u : Table w} (fair : order.Perm bands)
    (fair' : stitches.Perm seams)
    (run : runLabels input width order (Shared.fresh (Buf.all 0)) = some sh)
    (hu : redirectAll (maxBlobsPerThread * 4) (stitches.foldl (stitch width) sh).blobs = u)
    (stack : Buf (Blob w)) (biggest : Blob w) :
    ∃ d, blobDetectPar order stitches stack biggest (Buf.all 0) input width 240 = some d ∧
      d.numBlobs = (ownDown (maxBlobsPerThread * 4) u).length ∧
      (ownDown (maxBlobsPerThread * 4) u = [] → d.biggestBlob = biggest.fill (stack 0)) ∧
      (ownDown (maxBlobsPerThread * 4) u ≠ [] → ∃ r, Foremost width sh.output u r ∧
        d.biggestBlob = biggest.fill ((mergeAll (maxBlobsPerThread * 4) u stack).consolidatedBlobs
          ((ownDown (maxBlobsPerThread * 4) u).idxOf r))) := by
  obtain ⟨top, h⟩ := runLabels_run fair run
  have ht := h.stitchAll_tied fair
    (fun p (hp : p ∈ seamPixels width stitches) => seam_inside fair' hp)
  rw [stitch_foldl] at hu
  dsimp only at hu
  have hcollect := collectUpTo_ownDown (maxBlobsPerThread * 4) stack biggest width 240
    ⟨sh.output, stitchAll width sh.output (seamPixels width stitches) sh.blobs⟩
  dsimp only at hcollect
  rw [hu] at hcollect
  refine ⟨_, ?_, hcollect.1, fun hnone => ?_, fun hne => ?_⟩
  · unfold blobDetectPar
    rw [run, Option.map_some, stitch_foldl, collect_eq]
  · rw [hcollect.2, mergeAll_none stack hnone]
  · obtain ⟨r, hr, hidx⟩ := h.selected fair ht hu stack rfl hne
    exact ⟨r, hr, by rw [hcollect.2, hidx]⟩

/-- The mass `blob_detect` reports is that of its heaviest group. -/
theorem blobDetect_mass (fit : (labelLoop w width 240 (Buf.all 0) input).labelCounter ≤ 65536)
    {i : Nat} (hi : Heaviest (seqRoots w width input) (fun i => (seqGroup w width input i).card) i)
    (stack : Buf (Blob w)) (biggest : Blob w) :
    (blobDetect stack biggest (Buf.all 0) input width 240).biggestBlob.mass =
      (seqGroup w width input i).card := by
  obtain ⟨j, hj, b, k, hb, hdesc⟩ :=
    blobDetect_reports fit stack biggest (List.ne_nil_of_mem hi.mem)
  rw [← hi.unique hj] at hdesc
  rw [hb, Blob.fill_mass, Blob.consolidate_mass, hdesc.mass]

/-- Where the two agree something is there: else the stack of `blob_detect` may hold a mass that
is not what the other reports. -/
theorem Agreement.roots (h : Agreement w width order stitches input input')
    (fit : (labelLoop w width 240 (Buf.all 0) input').labelCounter ≤ 65536) :
    seqRoots w width input' ≠ [] := by
  intro hne
  have hstack := fun n => blobDetect_reports_stack fit
    (Buf.all { Blob.zero with mass := 51 + n }) Blob.zero hne
  have hall := fun n => h (Buf.all Blob.zero) _ Blob.zero Blob.zero (by
    rw [hstack n]
    exact Nat.lt_of_lt_of_le (by decide) (Nat.le_add_right 51 n))
  cases hd : blobDetectPar order stitches (Buf.all Blob.zero) Blob.zero (Buf.all 0) input width
      240 with
  | none =>
    obtain ⟨e, he, _⟩ := hall 0
    rw [hd] at he
    cases he
  | some d =>
    obtain ⟨e, he, _, hag⟩ := hall d.biggestBlob.mass
    have hmass := hag.mass
    rw [hd, Option.some_inj] at he
    rw [← he, hstack, Blob.fill_mass] at hmass
    change _ = 51 + _ at hmass
    omega

/-- When the two agree on a run whose assertions are silent: when the foremost slot of the
one and the heaviest root of the other have the same statistics, and slot 0 does not leak. -/
theorem agreement_of_run_iff {sh : Shared w} {u : Table w} (fair : order.Perm bands)
    (fair' : stitches.Perm seams)
    (fit : (labelLoop w width 240 (Buf.all 0) input').labelCounter ≤ 65536)
    (run : runLabels input width order (Shared.fresh (Buf.all 0)) = some sh)
    (hu : redirectAll (maxBlobsPerThread * 4) (stitches.foldl (stitch width) sh).blobs = u) :
    Agreement w width order stitches input input' ↔
    ∃ i, Heaviest (seqRoots w width input') (fun i => (seqGroup w width input' i).card) i ∧
      (50 < (seqGroup w width input' i).card →
        (ownDown (maxBlobsPerThread * 4) u).length ≤ maxBlobsPerThread ∧
        ∃ r, Foremost width sh.output u r ∧ ¬Leaks width sh.output u r ∧
          SameStatistics w (drainedTo width sh.output u r) (seqGroup w width input' i)) := by
  obtain ⟨top, h⟩ := runLabels_run fair run
  have ht := h.stitchAll_tied fair
    (fun p (hp : p ∈ seamPixels width stitches) => seam_inside fair' hp)
  have hu' : redirectAll (maxBlobsPerThread * 4)
      (stitchAll width sh.output (seamPixels width stitches) sh.blobs) = u := by
    rw [stitch_foldl] at hu
    exact hu
  have hreports := blobDetectPar_reports fair fair' run hu
  constructor
  · intro hall
    obtain ⟨i, hi, b, k, hb, hdesc⟩ :=
      blobDetect_reports fit (Buf.all Blob.zero) Blob.zero (hall.roots fit)
    refine ⟨i, hi, fun hmore => ?_⟩
    have hagree := fun stack => hall stack (Buf.all Blob.zero) Blob.zero Blob.zero (by
      rwa [blobDetect_mass fit hi])
    rw [hb] at hagree
    -- with nothing recorded the stack would decide the mass
    obtain ⟨d, hd, hcount, hnone, hsome⟩ := hreports (Buf.all { Blob.zero with
      mass := (seqGroup w width input' i).card + 1 }) Blob.zero
    obtain ⟨e, he, hfew, hag⟩ := hagree (Buf.all { Blob.zero with
      mass := (seqGroup w width input' i).card + 1 })
    rw [hd, Option.some_inj] at he
    rw [← he] at hfew hag
    have hown : ownDown (maxBlobsPerThread * 4) u ≠ [] := by
      intro hempty
      have hmass := hag.mass
      rw [hnone hempty, Blob.fill_mass, Blob.fill_mass, Blob.consolidate_mass,
        hdesc.mass] at hmass
      change _ + 1 = _ at hmass
      omega
    obtain ⟨r, hr, hbig⟩ := hsome hown
    rw [hbig] at hag
    exact ⟨hcount ▸ hfew, r, hr, (h.agrees_iff fair ht hu' hr.mem hdesc
      (fun p hp => seqGroup_off hp) _ _ _).mp hag⟩
  · rintro ⟨i, hi, himp⟩ stack stack' biggest biggest' hmore
    rw [blobDetect_mass fit hi] at hmore
    obtain ⟨j, hj, b, k, hb, hdesc⟩ :=
      blobDetect_reports fit stack' biggest' (List.ne_nil_of_mem hi.mem)
    rw [← hi.unique hj] at hdesc
    obtain ⟨hfew, r, hr, hsame⟩ := himp hmore
    obtain ⟨d, hd, hcount, _, hsome⟩ := hreports stack biggest
    obtain ⟨r', hr', hbig⟩ := hsome (List.ne_nil_of_mem hr.mem)
    rw [← Heaviest.unique hr hr'] at hbig
    refine ⟨d, hd, hcount ▸ hfew, ?_⟩
    rw [hbig, hb]
    exact (h.agrees_iff fair ht hu' hr.mem hdesc (fun p hp => seqGroup_off hp) _ _ _).mpr hsame

/-- Where an assertion fires, nothing of more than 50 pixels may be there to report. -/
theorem agreement_of_none_iff
    (fit : (labelLoop w width 240 (Buf.all 0) input').labelCounter ≤ 65536)
    (hnone : runLabels (w := w) input width order (Shared.fresh (Buf.all 0)) = none) :
    Agreement w width order stitches input input' ↔
    ∃ i, Heaviest (seqRoots w width input') (fun i => (seqGroup w width input' i).card) i ∧
      ¬50 < (seqGroup w width input' i).card := by
  have hpar : ∀ (stack : Buf (Blob w)) (biggest : Blob w),
      blobDetectPar order stitches stack biggest (Buf.all 0) input width 240 = none := by
    intro stack biggest
    unfold blobDetectPar
    rw [hnone, Option.map_none]
  constructor
  · intro hall
    obtain ⟨i, hi, _⟩ := blobDetect_reports fit (Buf.all Blob.zero) Blob.zero (hall.roots fit)
    refine ⟨i, hi, fun hmore => ?_⟩
    rw [← blobDetect_mass fit hi (Buf.all Blob.zero) Blob.zero] at hmore
    obtain ⟨d, hd, _⟩ := hall (Buf.all Blob.zero) (Buf.all Blob.zero) Blob.zero Blob.zero hmore
    rw [hpar] at hd
    cases hd
  · rintro ⟨i, hi, hfew⟩ stack stack' biggest biggest' hmore
    rw [blobDetect_mass fit hi] at hmore
    exact absurd hmore hfew

/-- When the two agree, whether or not an assertion fires, told by the starts. -/
theorem agreement_of_starts_iff (fair : order.Perm bands) (fair' : stitches.Perm seams)
    (fit : (labelLoop w width 240 (Buf.all 0) input').labelCounter ≤ 65536) :
    Agreement w width order stitches input input' ↔
      StartsAgree w width order stitches input input' := by
  unfold StartsAgree
  cases run : runLabels (w := w) input width order (Shared.fresh (Buf.all 0)) with
  | none =>
    have hfull : ¬Roomy input width order := by
      rw [← runLabels_isSome_iff w fair, run]
      exact Bool.false_ne_true
    rw [agreement_of_none_iff fit run, seqHeaviest_iff fit (P := fun S => ¬50 < S.card)]
    exact exists_congr (fun m => and_congr_right (fun _ =>
      ⟨fun hn hmore => absurd hmore hn, fun himp hmore => hfull (himp hmore).1⟩))
  | some sh =>
    have roomy : Roomy input width order := by
      rw [← runLabels_isSome_iff w fair, run]
      rfl
    obtain ⟨top, h, counts⟩ := runLabels_counts fair run
    have ht := h.stitchAll_tied fair
      (fun p (hp : p ∈ seamPixels width stitches) => seam_inside fair' hp)
    have hs := runLabels_sewn fair fair' run
    have hcount := h.numBlobs_eq fair ht hs (Buf.all Blob.zero)
    rw [mergeAll_numBlobs_eq] at hcount
    rw [agreement_of_run_iff fair fair' fit run (by rw [stitch_foldl])]
    dsimp only
    generalize hu : redirectAll (maxBlobsPerThread * 4)
      (stitchAll width sh.output (seamPixels width stitches) sh.blobs) = u at hcount ⊢
    rw [hcount, seqHeaviest_iff fit (P := fun S => 50 < S.card →
      (returningStarts input width order stitches).card ≤ maxBlobsPerThread ∧
      ∃ r, Foremost width sh.output u r ∧ ¬Leaks width sh.output u r ∧
        SameStatistics w (drainedTo width sh.output u r) S)]
    refine exists_congr (fun m => and_congr_right (fun _ => imp_congr_right (fun _ => ?_)))
    rw [h.foremost_starts fair hu hs ht (fun r n hr => by
      rw [h.leaks_starts fair hu hs counts hr, h.drained_starts fair hu hs hr])]
    exact ⟨fun hand => ⟨roomy, hand⟩, fun hand => hand.2⟩

/-- With no object of more than 50 pixels there is nothing to agree on. -/
theorem agreement_of_small (fit : (labelLoop w width 240 (Buf.all 0) input').labelCounter ≤ 65536)
    (moves : ∃ p, Moving input' width 240 p)
    (small : ∀ p, Moving input' width 240 p → (object input' width 240 p).ncard ≤ 50) :
    Agreement w width order stitches input input' := by
  intro stack stack' biggest biggest' hmore
  have hne : seqRoots w width input' ≠ [] := by
    obtain ⟨p, hp⟩ := moves
    exact List.ne_nil_of_mem ((mem_roots (labelLoop_labelled (BorderZero.all width 240)
      fit).mergeable).mpr ⟨p, mem_moving.mpr hp, rfl⟩)
  obtain ⟨i, hi, _⟩ := blobDetect_reports fit stack' biggest' hne
  rw [blobDetect_mass fit hi] at hmore
  obtain ⟨p, hp, hle⟩ := seqGroup_object fit hi.mem
  have := small p hp
  omega

section pole

/-- A line down a frame of three columns. -/
def pole (a b : Nat) : Buf UInt8 := painted 3 fun p => p.2 = 1 ∧ a ≤ p.1 ∧ p.1 ≤ b

variable {a b height : Nat} {p q : Pixel}

theorem pole_column (ha : 1 ≤ a) (hb : b + 2 ≤ height) :
    Column (pole a b) (fun r => a ≤ r ∧ r ≤ b) height := by
  refine painted_column (fun p => by simp) (fun r hr => ?_)
  rw [decide_eq_true_eq] at hr
  omega

theorem pole_stretch (hab : a ≤ b) : Stretch (fun r => a ≤ r ∧ r ≤ b) a b := by
  refine ⟨hab, fun r h1 h2 => decide_eq_true ⟨h1, h2⟩, fun r hr => ?_, ?_⟩
  · rw [decide_eq_true_eq]
    omega
  · rw [decide_eq_true_eq]
    omega

theorem moving_pole (ha : 1 ≤ a) (hb : b + 2 ≤ height) :
    Moving (pole a b) 3 height p ↔ AlongRows a b p := by
  rw [(pole_column ha hb).moving, decide_eq_true_eq]
  rfl

/-- Slot 0 is written for it, by every row but the first. -/
theorem pole_slot (ha : 1 ≤ a) (hab : a < b) (hb : b ≤ 58) :
    slotStart (pole a b) 3 bands (bands.flatMap (Band.pixels 3)) (seamPixels 3 seams) =
      some (idx 3 (a, 1)) := by
  have h : Column (pole a b) _ labelledHeight :=
    pole_column ha (by unfold labelledHeight; omega)
  have s := pole_stretch (Nat.le_of_lt hab)
  have hrows : ∀ q, Moving (pole a b) 3 labelledHeight q → AlongRows a b q :=
    fun q => (moving_pole ha (by unfold labelledHeight; omega)).mp
  have hwrite : ∀ x, Spills (pole a b) 3 bands x →
      spillWrite (pole a b) 3 bands x = some (idx 3 (a, 1)) := by
    intro x hx
    obtain ⟨y, hy⟩ := hx.1
    rw [← h.parStart_eq s (hrows x hy.1)]
    exact if_pos hx
  have hseam : Interleave.lastWrite (seamSpillWrite (pole a b) 3 bands) (seamPixels 3 seams) =
      none := by
    refine Interleave.lastWrite_none_iff.mpr (fun x hx => if_neg ?_)
    rintro ⟨⟨q, hq⟩, _⟩
    have := seams_low (mem_seamPixels.mp hx).1
    have := (hrows q hq.2).2
    have := hq.1.1
    omega
  have hspill : Spills (pole a b) 3 bands (a + 1, 1) := by
    obtain ⟨hfoot, htop, hbehind⟩ := h.above s (Nat.le_refl a) hab
    have hsees := h.sees_above (s.all a (Nat.le_refl a) s.le) (s.all (a + 1) (by omega) hab)
    refine ⟨⟨(a, 1), hfoot, htop, hbehind, hsees⟩, (a, 0), Or.inl ⟨rfl, Or.inl rfl⟩, fun hb => ?_⟩
    have := (hrows _ hb.2.1).1
    simp at this
  have hmem : (a + 1, 1) ∈ bands.flatMap (Band.pixels 3) :=
    List.mem_flatMap.mpr ⟨⟨1, 59, 1⟩, by decide, mem_pixels.mpr
      ⟨⟨by dsimp only; omega, by dsimp only; omega⟩, by dsimp only; omega, by dsimp only; omega⟩⟩
  unfold slotStart
  rw [hseam, Interleave.lastWrite_eq_some hmem (hwrite _ hspill)]
  · rfl
  · intro x _ u hu
    by_cases hs : Spills (pole a b) 3 bands x
    · exact Option.some.inj (hu.symm.trans (hwrite x hs))
    · exact absurd (hu.symm.trans (if_neg hs)) (Option.some_ne_none u)

/-- So the zeros of unused slots come with it. -/
theorem pole_spills (ha : 1 ≤ a) (hab : a < b) (hb : b ≤ 58)
    (hp : Moving (pole a b) 3 labelledHeight p) : SpillsFrom (pole a b) 3 bands seams p := by
  have h : Column (pole a b) _ labelledHeight :=
    pole_column ha (by unfold labelledHeight; omega)
  have s := pole_stretch (Nat.le_of_lt hab)
  have hstart := h.parStart_eq s s.begins
  refine ⟨(a, 1), h.along s s.begins, ?_, fun hfull => ?_, (h.connected_iff s s.begins).mpr
    ((moving_pole ha (by unfold labelledHeight; omega)).mp hp)⟩
  · rw [hstart]
    exact pole_slot ha hab hb
  · rw [hstart] at hfull
    have hlow := hfull.1.1
    unfold lastBand idx at hlow
    dsimp only at hlow
    omega

end pole

/-- On a whole image the two agree when its largest object is safe. -/
theorem agreement_of_whole_iff {sh : Shared w} (fair : order.Perm bands)
    (fair' : stitches.Perm seams)
    (fit : (labelLoop w width 240 (Buf.all 0) input).labelCounter ≤ 65536)
    (run : runLabels input width order (Shared.fresh (Buf.all 0)) = some sh)
    (whole : Whole input width order stitches) :
    Agreement w width order stitches input input ↔ LargestSafe input width order stitches := by
  obtain ⟨top, h, counts⟩ := runLabels_counts fair run
  have hs := runLabels_sewn fair fair' run
  generalize hu : redirectAll (maxBlobsPerThread * 4)
    (stitchAll width sh.output (seamPixels width stitches) sh.blobs) = u
  have hseq := (labelLoop_labelled (BorderZero.all width 240) fit).catalogue whole.met
  have hpar := h.catalogue fair fair' whole hu
  have hu' : redirectAll (maxBlobsPerThread * 4) (stitches.foldl (stitch width) sh).blobs = u := by
    rw [stitch_foldl]
    exact hu
  rw [agreement_of_run_iff fair fair' fit run hu',
    hpar.length ((ownDown_sorted _ u).imp (fun hlt => Nat.ne_of_gt hlt))]
  constructor
  · rintro ⟨i, hi, himp⟩
    obtain ⟨p, hp, rfl⟩ := hseq.heaviest_iff.mp hi
    refine ⟨p, hp, fun hmore => ?_⟩
    rw [← hseq.card hp.moving] at hmore
    obtain ⟨hfew, r, hr, hleak, _⟩ := himp hmore
    obtain ⟨q, hq, rfl⟩ := hpar.heaviest_iff.mp hr
    have hsame := Heaviest.unique hr (hpar.heaviest_iff.mpr ⟨p, hp, rfl⟩)
    rw [hsame, h.leaks_spills fair fair' whole hu counts hs hp.moving] at hleak
    exact ⟨hfew, hleak⟩
  · rintro ⟨p, hp, himp⟩
    refine ⟨_, hseq.heaviest_iff.mpr ⟨p, hp, rfl⟩, fun hmore => ?_⟩
    obtain ⟨hfew, hspill⟩ := himp ((hseq.card hp.moving).symm ▸ hmore)
    refine ⟨hfew, _, hpar.heaviest_iff.mpr ⟨p, hp, rfl⟩, ?_, ?_⟩
    · rwa [h.leaks_spills fair fair' whole hu counts hs hp.moving]
    · have hset : drainedTo width sh.output u (links u (sh.output (idx width p))) =
          seqGroup w width input _ := Finset.coe_injective
        ((hpar.grouped p hp.moving).trans (hseq.grouped p hp.moving).symm)
      rw [hset]
      exact SameStatistics.refl w _

/-- Whole images that are safe, and images without an object of more than 50 pixels. -/
theorem agreement_of_faultless (fair : order.Perm bands) (fair' : stitches.Perm seams)
    (fit : (labelLoop w width 240 (Buf.all 0) input).labelCounter ≤ 65536)
    (faultless : Faultless input width order stitches) :
    Agreement w width order stitches input input := by
  obtain ⟨moves, small | ⟨roomy, whole, safe⟩⟩ := faultless
  · exact agreement_of_small fit moves small
  · obtain ⟨sh, hsh⟩ := Option.isSome_iff_exists.mp (runLabels_isSome w fair roomy)
    exact (agreement_of_whole_iff fair fair' fit hsh whole).mpr safe

/-- When the detectors agree on an image: when it meets none of the faults. Exactly when the
starts agree; on whole images, exactly when the largest object is safe. -/
theorem agreement_iff {sh : Shared w} (fair : order.Perm bands) (fair' : stitches.Perm seams)
    (fit : LabelsFit w width 240 (Buf.all 0) input)
    (run : runLabels input width order (Shared.fresh (Buf.all 0)) = some sh) :
    (Faultless input width order stitches → Agreement w width order stitches input input) ∧
    (Agreement w width order stitches input input ↔
      StartsAgree w width order stitches input input) ∧
    (Whole input width order stitches →
      (Agreement w width order stitches input input ↔ LargestSafe input width order stitches)) :=
  ⟨agreement_of_faultless fair fair' fit.counter_le,
    agreement_of_starts_iff fair fair' fit.counter_le,
    agreement_of_whole_iff fair fair' fit.counter_le run⟩

/-- Both report the upper of two poles, which has more than fifty pixels. -/
theorem agreement_twoPoles : Agreement 32 3 bands seams twoPoles twoPoles := by
  have h : Column twoPoles poleRows 240 := twoPoles_column (by decide)
  have roomy := roomy_of_narrow twoPoles bands (by decide : 3 ≤ 5)
  obtain ⟨sh, hsh⟩ := Option.isSome_iff_exists.mp
    (runLabels_isSome 32 (List.Perm.refl bands) roomy)
  exact (agreement_iff (List.Perm.refl bands) (List.Perm.refl seams) (h.labelsFit 32) hsh).1
    ⟨⟨_, h.along poleRows_upper poleRows_upper.begins⟩,
      Or.inr ⟨roomy, twoPoles_labelled.whole h seams, twoPoles_labelled.poles_safe h⟩⟩

/-- `blob_detect` reports the pole as it is, `blob_detect_par` from the edge of the frame. -/
theorem pole_disagrees :
    ¬∀ (w width : Nat) (input : Buf UInt8) (order : List Band) (stitches : List Nat), 3 ≤ width →
      order.Perm bands → stitches.Perm seams →
      (runLabels (w := w) input width order (Shared.fresh (Buf.all 0))).isSome →
      LabelsFit w width 240 (Buf.all 0) input → Agreement w width order stitches input input := by
  intro hall
  have hrun := runLabels_isSome 32 (List.Perm.refl bands)
    (roomy_of_narrow (pole 1 55) bands (by decide : 3 ≤ 5))
  have h : Column (pole 1 55) _ 240 := pole_column (Nat.le_refl 1) (by decide)
  have hwhole := (pole_column (Nat.le_refl 1) (by decide : 55 + 2 ≤ labelledHeight)).whole h seams
  obtain ⟨sh, hsh⟩ := Option.isSome_iff_exists.mp hrun
  obtain ⟨p, hp, himp⟩ := (agreement_of_whole_iff (List.Perm.refl bands) (List.Perm.refl seams)
    (h.labelsFit 32).counter_le hsh hwhole).mp (hall 32 3 (pole 1 55) bands seams (by decide)
      (List.Perm.refl bands) (List.Perm.refl seams) hrun (h.labelsFit 32))
  have hmass := h.object_ncard (pole_stretch (by decide : 1 ≤ 55))
    ((moving_pole (Nat.le_refl 1) (by decide)).mp hp.moving)
  exact (himp (by omega)).2 (pole_spills (Nat.le_refl 1) (by decide) (by decide)
    (hwhole.moving_iff.mpr hp.moving))

end Motion
