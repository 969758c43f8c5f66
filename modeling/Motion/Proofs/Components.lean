import Motion.Proofs.Sequential

/-! Labels and objects: `blob_detect` never fuses two objects, and when it
splits none. -/

namespace Motion
open Labelling

namespace Labelled

variable {w width height : Nat} {output : Buf Nat} {input : Buf UInt8}
  {border : BorderZero width height output} {s : Scan w} {p q : Pixel}
  (h : Labelled border input s)

include h

/-- The number of recorded blobs is the number of roots. -/
theorem numBlobs_eq (stack : Buf (Blob w)) :
    (merged stack s).numBlobs = (roots s.labelCounter (redirected s) (moving input width height)
      (labelAt width s)).toFinset.card := by
  rw [List.toFinset_card_of_nodup (roots_nodup _ _ _ _)]
  exact (h.merging stack).count

theorem objects_le (stack : Buf (Blob w)) :
    (objects input width height).ncard ≤ (merged stack s).numBlobs := by
  rw [h.numBlobs_eq stack]
  refine objects_ncard_le (f := fun p => links (redirected s) (labelAt width s p)) ?_
    (fun p q hp hq he => h.joined_of_root hp hq he)
  intro p hp
  rw [List.mem_toFinset, mem_roots h.mergeable]
  exact ⟨p, mem_moving.mpr hp, rfl⟩

/-- Pixels of one root are joined by pixels of that root. -/
theorem linked_of_root (hp : Moving input width height p) (hq : Moving input width height q)
    (he : links (redirected s) (labelAt width s p) =
      links (redirected s) (labelAt width s q)) :
    Linked Adj8 {r | Moving input width height r ∧ links (redirected s) (labelAt width s r) =
      links (redirected s) (labelAt width s p)} p q := by
  rw [h.links_root hp, h.links_root hq] at he
  refine (h.progress.scanned.linked_of_root ((live_iff w).mpr hp) ((live_iff w).mpr hq) he).mono ?_
  rintro r ⟨hr, hroot⟩
  have hr' := (live_iff w).mp hr
  exact ⟨hr', by rw [h.links_root hr', h.links_root hp]; exact hroot⟩

/-- A label leads elsewhere exactly when some visit met it, told from the starts. -/
theorem met_iff (hq : Moving input width height q) :
    links s.blobs (labelAt width s q) ≠ labelAt width s q ↔
      ∃ x y, Moving input width height x ∧ Moving input width height y ∧ Behind x y ∧
        startOf input width height y = startOf input width height q ∧
        startOf input width height x < startOf input width height q := by
  have hin : ∀ r, Moving input width height r → r ∈ (interior width height).toFinset :=
    fun r hr => by simpa using mem_interior.mpr hr.1
  have hlive : ∀ r, Moving input width height r →
      r ∈ live (scene w input width height) (interior width height).toFinset :=
    fun r hr => (live_iff w).mpr hr
  refine (h.progress.scanned.met q (hin q hq) hq).trans ?_
  constructor
  · rintro ⟨x, _, y, hb, hl, hlt⟩
    refine ⟨x, y, hb.1, hb.2.1, hb.2.2.1, ?_, ?_⟩
    · exact (h.ordered.lab_eq_iff (hlive y hb.2.1) (hlive q hq)).mp hl
    · exact (h.ordered.order x (hlive x hb.1) q (hlive q hq)).mp hlt
  · rintro ⟨x, y, hx, hy, hb, hl, hlt⟩
    refine ⟨x, hin x hx, y, ⟨hx, hy, hb, trivial⟩, ?_, ?_⟩
    · exact (h.ordered.lab_eq_iff (hlive y hy) (hlive q hq)).mpr hl
    · exact (h.ordered.order x (hlive x hx) q (hlive q hq)).mpr hlt

/-- A label is not its object's least exactly when the object reaches back
before the label's start. -/
theorem below_iff (hq : Moving input width height q) :
    (∃ r ∈ live (scene w input width height) (interior width height).toFinset,
      Labelling.Joined (scene w input width height) (interior width height).toFinset q r ∧
        (marks width s.output s.blobs).lab r < (marks width s.output s.blobs).lab q) ↔
    ∃ r, Connected input width height q r ∧ idx width r < startOf input width height q := by
  have hpos : ∀ x y, (scene w input width height).back x y → idx width y < idx width x :=
    fun x y hb => (whole border input).back_idx hb
  rw [h.ordered.below_iff hpos h.progress.scanned.closed ((live_iff w).mpr hq), joined_scene]
  constructor
  · rintro ⟨r, _, hj, hlt⟩
    exact ⟨r, hj, hlt⟩
  · rintro ⟨r, hj, hlt⟩
    exact ⟨r, (live_iff w).mpr (hj.moving hq), hj, hlt⟩

/-- Adjacent pixels get one root exactly when every start that should be met is. -/
theorem complete_iff :
    (∀ p q, Moving input width height p → Moving input width height q → Adj8 p q →
      links (redirected s) (labelAt width s p) = links (redirected s) (labelAt width s q)) ↔
    StartsMet input width height := by
  have hroot : (∀ p q, Moving input width height p → Moving input width height q → Adj8 p q →
      links (redirected s) (labelAt width s p) = links (redirected s) (labelAt width s q)) ↔
      ∀ p ∈ live (scene w input width height) (interior width height).toFinset,
        ∀ q ∈ live (scene w input width height) (interior width height).toFinset,
          (scene w input width height).near p q →
            Links.root (marks width s.output s.blobs).link
              ((marks width s.output s.blobs).lab p) =
            Links.root (marks width s.output s.blobs).link
              ((marks width s.output s.blobs).lab q) := by
    constructor
    · intro hall p hp q hq hn
      have hp' := (live_iff w).mp hp
      have hq' := (live_iff w).mp hq
      have := hall p q hp' hq' hn
      rwa [h.links_root hp', h.links_root hq'] at this
    · intro hall p q hp hq hn
      rw [h.links_root hp, h.links_root hq]
      exact hall p ((live_iff w).mpr hp) q ((live_iff w).mpr hq) hn
  rw [hroot, h.sound.complete_iff]
  unfold StartsMet
  constructor
  · intro hall q hq hbelow
    exact (h.met_iff hq).mp (hall q ((live_iff w).mpr hq) ((h.below_iff hq).mpr hbelow))
  · intro hall q hq hbelow
    have hq' := (live_iff w).mp hq
    exact (h.met_iff hq').mpr (hall q hq' ((h.below_iff hq').mp hbelow))

/-- Then there are no more blobs than objects. -/
theorem le_objects (stack : Buf (Blob w))
    (hall : ∀ p q, Moving input width height p → Moving input width height q → Adj8 p q →
      links (redirected s) (labelAt width s p) = links (redirected s) (labelAt width s q)) :
    (merged stack s).numBlobs ≤ (objects input width height).ncard := by
  rw [h.numBlobs_eq stack]
  refine le_objects_ncard (f := fun p => links (redirected s) (labelAt width s p)) ?_ ?_
  · intro l hl
    rw [List.mem_toFinset, mem_roots h.mergeable] at hl
    obtain ⟨p, hp, he⟩ := hl
    exact ⟨p, mem_moving.mp hp, he⟩
  · intro p q _ _ hc
    exact hc.keeps (P := fun r => links (redirected s) (labelAt width s p) =
      links (redirected s) (labelAt width s r))
      (fun a b hn ha hb he => he.trans (hall a b ha hb hn)) rfl

end Labelled

variable {w width height : Nat} {output : Buf Nat} {input : Buf UInt8}

/-- `blob_detect` never fuses objects: one label, one path of pixels that carry it. -/
theorem blobDetect_separates (stack : Buf (Blob w)) (biggest : Blob w)
    (border : BorderZero width height output) (fit : LabelsFit w width height output input) :
    let d := blobDetect stack biggest output input width height
    (∀ p q, InFrame width height p → InFrame width height q →
      d.relabelled (idx width p) ≠ 0 →
      d.relabelled (idx width p) = d.relabelled (idx width q) →
      Linked Adj8 {r | Moving input width height r ∧
        d.relabelled (idx width r) = d.relabelled (idx width p)} p q) ∧
    (∀ p, InFrame width height p →
      (d.relabelled (idx width p) ≠ 0 ↔ Moving input width height p)) ∧
    (objects input width height).ncard ≤ d.numBlobs := by
  have hfit := fit.counter_le
  have h := labelLoop_labelled border hfit
  intro d
  have hon : ∀ p, Moving input width height p → d.relabelled (idx width p) =
      links (redirected (labelLoop w width height output input))
        (labelAt width (labelLoop w width height output input) p) :=
    fun p hp => h.relabelled_on hfit stack hp
  have hiff : ∀ p, InFrame width height p →
      (d.relabelled (idx width p) ≠ 0 ↔ Moving input width height p) := by
    intro p hf
    constructor
    · intro hne
      by_contra hn
      exact hne (h.relabelled_off stack hf hn)
    · intro hp
      obtain ⟨q, hq, he⟩ := h.mergeable.carried p (mem_moving.mpr hp)
      have := h.range (mem_moving.mp hq)
      rw [hon p hp]
      omega
  refine ⟨?_, hiff, h.objects_le stack⟩
  intro p q hfp hfq hne he
  have hp := (hiff p hfp).mp hne
  have hq := (hiff q hfq).mp (he ▸ hne)
  refine (h.linked_of_root hp hq (by rw [← hon p hp, ← hon q hq, he])).mono ?_
  rintro r ⟨hr, hl⟩
  exact ⟨hr, by rw [hon r hr, hon p hp, hl]⟩

/-- Two arms that meet late: the label of the middle one is linked to the right
one first, and the link is then written over from the left. -/
def twoArms : Buf UInt8 := drawing 7 [(1, 5), (2, 1), (2, 3), (2, 4), (3, 2)]

theorem twoArms_labelsFit : LabelsFit 32 7 5 (Buf.all 0) twoArms :=
  LabelsFit.of_counter (by decide +kernel) (by decide +kernel)

theorem blobDetect_separates_twoArms :
    let d := blobDetect (w := 32) (Buf.all Blob.zero) Blob.zero (Buf.all 0) twoArms 7 5
    (∀ p q, InFrame 7 5 p → InFrame 7 5 q → d.relabelled (idx 7 p) ≠ 0 →
      d.relabelled (idx 7 p) = d.relabelled (idx 7 q) →
      Linked Adj8 {r | Moving twoArms 7 5 r ∧
        d.relabelled (idx 7 r) = d.relabelled (idx 7 p)} p q) ∧
    (∀ p, InFrame 7 5 p → (d.relabelled (idx 7 p) ≠ 0 ↔ Moving twoArms 7 5 p)) ∧
    (objects twoArms 7 5).ncard ≤ d.numBlobs :=
  blobDetect_separates (Buf.all Blob.zero) Blob.zero (BorderZero.all 7 5) twoArms_labelsFit

/-- When touching pixels always end up with one label, and blobs are no more than
objects: exactly when every start that should be met is met. -/
theorem blobDetect_complete_iff (stack : Buf (Blob w)) (biggest : Blob w)
    (border : BorderZero width height output) (fit : LabelsFit w width height output input) :
    let d := blobDetect stack biggest output input width height
    ((∀ p q, Moving input width height p → Moving input width height q → Adj8 p q →
        d.relabelled (idx width p) = d.relabelled (idx width q)) ∧
      d.numBlobs ≤ (objects input width height).ncard) ↔
    StartsMet input width height := by
  have hfit := fit.counter_le
  have h := labelLoop_labelled border hfit
  intro d
  have hon : ∀ p, Moving input width height p → d.relabelled (idx width p) =
      links (redirected (labelLoop w width height output input))
        (labelAt width (labelLoop w width height output input) p) :=
    fun p hp => h.relabelled_on hfit stack hp
  rw [← h.complete_iff]
  constructor
  · rintro ⟨hall, _⟩ p q hp hq hn
    rw [← hon p hp, ← hon q hq]
    exact hall p q hp hq hn
  · intro hall
    refine ⟨?_, h.le_objects stack hall⟩
    intro p q hp hq hn
    rw [hon p hp, hon q hq]
    exact hall p q hp hq hn

theorem blobDetect_complete_iff_twoArms :
    let d := blobDetect (w := 32) (Buf.all Blob.zero) Blob.zero (Buf.all 0) twoArms 7 5
    ((∀ p q, Moving twoArms 7 5 p → Moving twoArms 7 5 q → Adj8 p q →
        d.relabelled (idx 7 p) = d.relabelled (idx 7 q)) ∧
      d.numBlobs ≤ (objects twoArms 7 5).ncard) ↔
    StartsMet twoArms 7 5 :=
  blobDetect_complete_iff (Buf.all Blob.zero) Blob.zero (BorderZero.all 7 5) twoArms_labelsFit

/-- Touching pixels with different labels. -/
theorem twoArms_split :
    ¬∀ (w width height : Nat) (output : Buf Nat) (input : Buf UInt8) (stack : Buf (Blob w))
      (biggest : Blob w), BorderZero width height output →
      LabelsFit w width height output input →
      (∀ p q, Moving input width height p → Moving input width height q → Adj8 p q →
        (blobDetect stack biggest output input width height).relabelled (idx width p) =
        (blobDetect stack biggest output input width height).relabelled (idx width q)) ∧
      (blobDetect stack biggest output input width height).numBlobs ≤
        (objects input width height).ncard := by
  intro hall
  obtain ⟨hsame, _⟩ := hall 32 7 5 (Buf.all 0) twoArms (Buf.all Blob.zero) Blob.zero
    (BorderZero.all 7 5) twoArms_labelsFit
  have h := hsame (2, 3) (2, 4) (by decide) (by decide) (by unfold Adj8; decide)
  revert h
  decide +kernel

end Motion
