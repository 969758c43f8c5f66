import Motion.Proofs.Components
import Motion.Proofs.Leak
import Motion.Proofs.Statistics
import Motion.Spec.Whole

/-! Labels that list the objects of an image in the order in which they begin: those of
`blob_detect` where every start is met, and those of `blob_detect_par` on whole images. -/

namespace Motion
open Labelling

/-- Numbers given to the moving pixels that list the objects as they begin. -/
structure Catalogue (input : Buf UInt8) (width height : Nat) (number : Pixel → Nat)
    (listed : List Nat) (group : Nat → Finset Pixel) : Prop where
  mem : ∀ i, i ∈ listed ↔ ∃ p, Moving input width height p ∧ number p = i
  grouped : ∀ p, Moving input width height p →
    (group (number p) : Set Pixel) = object input width height p
  ordered : ∀ p q, Moving input width height p → Moving input width height q →
    (number p < number q ↔ firstOf input width height p < firstOf input width height q)

namespace Catalogue

variable {input : Buf UInt8} {width height : Nat} {number : Pixel → Nat} {listed : List Nat}
  {group : Nat → Finset Pixel} {p : Pixel} {r : Nat}
  (h : Catalogue input width height number listed group)

include h

theorem card (hp : Moving input width height p) :
    (group (number p)).card = (object input width height p).ncard := by
  rw [← h.grouped p hp, Set.ncard_coe_finset]

/-- The heaviest number is the one given to the largest object. -/
theorem heaviest_iff : Heaviest listed (fun i => (group i).card) r ↔
    ∃ p, Largest input width height p ∧ number p = r := by
  constructor
  · intro hr
    obtain ⟨p, hp, rfl⟩ := (h.mem r).mp hr.mem
    refine ⟨p, ⟨hp, fun q hq => ?_, fun q hq hlt => ?_⟩, rfl⟩
    · rw [← h.card hp, ← h.card hq]
      exact hr.most _ ((h.mem _).mpr ⟨q, hq, rfl⟩)
    · rw [← h.card hp, ← h.card hq]
      exact hr.first _ ((h.mem _).mpr ⟨q, hq, rfl⟩) ((h.ordered p q hp hq).mpr hlt)
  · rintro ⟨p, hp, rfl⟩
    refine ⟨(h.mem _).mpr ⟨p, hp.moving, rfl⟩, fun i hi => ?_, fun i hi hlt => ?_⟩
    · obtain ⟨q, hq, rfl⟩ := (h.mem i).mp hi
      rw [h.card hp.moving, h.card hq]
      exact hp.most q hq
    · obtain ⟨q, hq, rfl⟩ := (h.mem i).mp hi
      rw [h.card hp.moving, h.card hq]
      exact hp.last q hq ((h.ordered p q hp.moving hq).mp hlt)

/-- One number, one object. -/
theorem number_eq_iff {q : Pixel} (hp : Moving input width height p)
    (hq : Moving input width height q) :
    number p = number q ↔ Connected input width height p q := by
  constructor
  · intro he
    rw [← object_eq_iff, ← h.grouped p hp, ← h.grouped q hq, he]
  · intro hc
    have he := firstOf_eq hc
    have h1 := h.ordered p q hp hq
    have h2 := h.ordered q p hq hp
    omega

/-- As many numbers are listed as there are objects. -/
theorem length (nodup : listed.Nodup) :
    listed.length = (objects input width height).ncard := by
  rw [← List.toFinset_card_of_nodup nodup]
  apply Nat.le_antisymm
  · refine le_objects_ncard (f := number) (fun l hl => ?_) (fun p q hp hq hc => ?_)
    · exact (h.mem l).mp (List.mem_toFinset.mp hl)
    · exact (h.number_eq_iff hp hq).mpr hc
  · refine objects_ncard_le (f := number) (fun p hp => ?_) (fun p q hp hq he => ?_)
    · exact List.mem_toFinset.mpr ((h.mem _).mpr ⟨p, hp, rfl⟩)
    · exact (h.number_eq_iff hp hq).mp he

end Catalogue

namespace Labelled

variable {w width height : Nat} {output : Buf Nat} {input : Buf UInt8}
  {border : BorderZero width height output} {s : Scan w} {q : Pixel}
  (h : Labelled border input s) (met : StartsMet input width height)

include h met

theorem leads (hq : q ∈ live (scene w input width height) (interior width height).toFinset)
    (below : ∃ r ∈ live (scene w input width height) (interior width height).toFinset,
      Labelling.Joined (scene w input width height) (interior width height).toFinset q r ∧
        (marks width s.output s.blobs).lab r < (marks width s.output s.blobs).lab q) :
    (marks width s.output s.blobs).link ((marks width s.output s.blobs).lab q) ≠
      (marks width s.output s.blobs).lab q := by
  have hq' := (live_iff w).mp hq
  exact (h.met_iff hq').mpr (met q hq' ((h.below_iff hq').mp below))

/-- The roots of `blob_detect` list the objects where every start is met. -/
theorem catalogue : Catalogue input width height
    (fun p => links (redirected s) (labelAt width s p))
    (roots s.labelCounter (redirected s) (moving input width height) (labelAt width s))
    (group (redirected s) (moving input width height) (labelAt width s)) where
  mem := by
    intro i
    rw [mem_roots h.mergeable]
    exact exists_congr (fun p => and_congr_left (fun _ => mem_moving))
  grouped := by
    intro p hp
    ext q
    unfold group
    rw [Finset.mem_coe, Finset.mem_filter, mem_moving]
    constructor
    · rintro ⟨hq, he⟩
      exact h.joined_of_root hp hq he.symm
    · intro hc
      have hall := h.complete_iff.mpr met
      exact ⟨hc.moving hp, (hc.keeps (P := fun r => links (redirected s) (labelAt width s p) =
        links (redirected s) (labelAt width s r))
        (fun a b hn ha hb he => he.trans (hall a b ha hb hn)) rfl).symm⟩
  ordered := by
    intro p q hp hq
    rw [h.links_root hp, h.links_root hq]
    have hlt := h.ordered.root_lt_iff h.sound (fun x y hb => (whole border input).back_idx hb)
      h.progress.scanned.closed (fun q hq hbelow => h.leads met hq hbelow)
      ((live_iff w).mpr hp) ((live_iff w).mpr hq)
    rw [joined_scene] at hlt
    exact hlt

end Labelled

namespace Run

variable {w width : Nat} {input : Buf UInt8} {order : List Band} {stitches : List Nat}
  {top : Band → Nat} {out : Buf Nat} {blobs t u : Table w} {p q x : Pixel}
  (h : Bands w input width order top out blobs) (fair : order.Perm bands)

include h fair

/-- Where it links no labels upwards and none of separate objects, a step of `stitch` leaves
links that fall and stay within objects. -/
theorem stitchPixel_sound (hx : Inside width labelledHeight x)
    (level : ¬Rises input width order x)
    (bridged : ¬Moving input width labelledHeight x → ∀ q r, OverSeam input width x q →
      OverSeam input width x r → Connected input width labelledHeight q r)
    (hs : Sound (parScene w input width order) (order.flatMap (Band.pixels width)).toFinset
      (marks width out t)) :
    Sound (parScene w input width order) (order.flatMap (Band.pixels width)).toFinset
      (marks width out (stitchPixel width x.1 out t x.2)) := by
  cases h.stitchPixel_step fair hx t with
  | idle _ same => rwa [same]
  | join a ha least write keep =>
    refine hs.relink (fun _ _ => rfl) (fun q hq => ?_)
    by_cases hk : Touched width out x (out (idx width q)) ∧ out (idx width q) ≠ out (idx width a)
    · have h0 : out (idx width q) ≠ 0 := hs.nonzero q hq
      obtain ⟨y, hy, hym, he⟩ := h.touched_used hx h0 hk.1
      have hlink : (stitchPixel width x.1 out t x.2 (out (idx width q))).label =
          out (idx width a) := by
        rw [write _ hk.1 hk.2]
      refine Or.inr ⟨a, (live_iff w fair).mpr ha.2, hlink.symm, ?_,
        h.touched_least fair hx level ha least h0 hk.1⟩
      have hqy := h.sound.joined q hq y ((live_iff w fair).mpr hym) he.symm
      rw [joined_par w input width fair] at hqy ⊢
      refine hqy.trans ?_
      -- the label is that of a pixel that touches `x`, as `a` does
      have touch : ∀ z, OverSeam input width x z → Moving input width labelledHeight x →
          Connected input width labelledHeight x z :=
        fun z hz hon => Linked.single (Behind.adj (Or.inl hz.1)) hon hz.2
      by_cases hon : Moving input width labelledHeight x
      · rcases hy with rfl | hy
        · exact touch a ha hon
        · exact (touch y ⟨hy, hym⟩ hon).symm.trans (touch a ha hon)
      · rcases hy with rfl | hy
        · exact absurd hym hon
        · exact bridged hon y a ⟨hy, hym⟩ ha
    · refine Or.inl ?_
      change (stitchPixel width x.1 out t x.2 (out (idx width q))).label =
        (t (out (idx width q))).label
      rw [keep _ (by tauto)]

variable (fair' : stitches.Perm seams) (whole : Whole input width order stitches)

include fair' whole

/-- So they do once all stitches are through with a whole image. -/
theorem stitched_sound : Sound (parScene w input width order)
    (order.flatMap (Band.pixels width)).toFinset
    (marks width out (stitchAll width out (seamPixels width stitches) blobs)) :=
  Fold.invariant (P := fun t : Table w => Sound (parScene w input width order)
      (order.flatMap (Band.pixels width)).toFinset (marks width out t))
    (seamPixels width stitches) blobs h.sound (fun x hx _ hs =>
      h.stitchPixel_sound fair (seam_inside fair' hx) (whole.level x hx) (whole.bridged x hx) hs)

/-- And every label that is not its object's least leads elsewhere. -/
theorem stitched_leads (hq : q ∈ live (parScene w input width order)
      (order.flatMap (Band.pixels width)).toFinset)
    (below : ∃ r ∈ live (parScene w input width order)
        (order.flatMap (Band.pixels width)).toFinset,
      Labelling.Joined (parScene w input width order)
        (order.flatMap (Band.pixels width)).toFinset q r ∧ out (idx width r) < out (idx width q)) :
    links (stitchAll width out (seamPixels width stitches) blobs) (out (idx width q)) ≠
      out (idx width q) := by
  have hbelow := (h.ordered.below_iff (fun _ _ hb => par_back_idx hb) h.marked.closed hq).mp below
  obtain ⟨r, _, hj, hlt⟩ := hbelow
  rw [joined_par w input width fair] at hj
  exact fun hself => whole.sewn q r hj hlt ((h.stitchAll_self_iff fair
    (fun p hp => seam_inside fair' hp) ((live_iff w fair).mp hq)).mp hself)

end Run

namespace Whole

variable {input : Buf UInt8} {width : Nat} {order : List Band} {stitches : List Nat} {p q : Pixel}
  (h : Whole input width order stitches)

include h

/-- Off row 239 the two detectors look at the same pixels. -/
theorem moving_iff : Moving input width labelledHeight p ↔ Moving input width 240 p := by
  constructor
  · intro hp
    have hrow : p.1 ≠ 239 := fun he => h.dark p he hp
    have hin := hp.1
    unfold Inside labelledHeight at hin
    exact ⟨⟨by omega, by omega, hin.2.2.1, hin.2.2.2⟩, hp.2⟩
  · intro hp
    have hin := hp.1
    unfold Inside at hin
    exact ⟨⟨by omega, by unfold labelledHeight; omega, hin.2.2.1, hin.2.2.2⟩, hp.2⟩

theorem connected_iff :
    Connected input width labelledHeight p q ↔ Connected input width 240 p q := by
  have hset : {r | Moving input width labelledHeight r} = {r | Moving input width 240 r} :=
    Set.ext (fun _ => h.moving_iff)
  unfold Connected
  rw [hset]

theorem object_eq : object input width labelledHeight p = object input width 240 p :=
  Set.ext (fun _ => h.connected_iff)

end Whole

namespace Run

variable {w width : Nat} {input : Buf UInt8} {order : List Band} {stitches : List Nat}
  {top : Band → Nat} {out : Buf Nat} {blobs u : Table w} {p q x : Pixel}
  (h : Bands w input width order top out blobs) (fair : order.Perm bands)
  (fair' : stitches.Perm seams) (whole : Whole input width order stitches)
  (hu : redirectAll (maxBlobsPerThread * 4)
    (stitchAll width out (seamPixels width stitches) blobs) = u)

include h fair fair' whole hu

/-- On a whole image two labels settle at one root exactly within an object. -/
theorem settled_iff (hp : Moving input width 240 p) (hq : Moving input width 240 q) :
    links u (out (idx width p)) = links u (out (idx width q)) ↔ Connected input width 240 p q := by
  have hp' := whole.moving_iff.mpr hp
  have hq' := whole.moving_iff.mpr hq
  have hfalls := h.stitched_falls fair (fun x hx => seam_inside fair' hx) whole.level
  rw [h.settled fair hu hfalls hp', h.settled fair hu hfalls hq', ← whole.connected_iff,
    ← joined_par w input width fair]
  exact (h.stitched_sound fair fair' whole).root_iff
    (fun _ hr hbelow => h.stitched_leads fair fair' whole hr hbelow)
    ((live_iff w fair).mpr hp') ((live_iff w fair).mpr hq')

/-- The slots of `blob_detect_par` list the objects of a whole image. -/
theorem catalogue : Catalogue input width 240 (fun p => links u (out (idx width p)))
    (ownDown (maxBlobsPerThread * 4) u) (drainedTo width out u) where
  mem := by
    intro i
    have hfalls := h.stitched_falls fair (fun x hx => seam_inside fair' hx) whole.level
    have ht := h.stitchAll_tied fair
      (fun p (hp : p ∈ seamPixels width stitches) => seam_inside fair' hp)
    rw [mem_ownDown]
    constructor
    · rintro ⟨hi, hself⟩
      obtain ⟨q, hq, rfl⟩ := used_of_self ht hi.1 hi.2 (hu ▸ hself)
      exact ⟨q, whole.moving_iff.mp hq, hself⟩
    · rintro ⟨p, hp, rfl⟩
      have hp' := whole.moving_iff.mpr hp
      have hself := h.settled_self fair hu hfalls hp'
      obtain ⟨r, hr, he⟩ := Links.root_used hfalls ⟨p, hp', rfl⟩
      rw [← h.settled fair hu hfalls hp'] at he
      have hrange := h.label_range fair hr
      rw [he] at hrange
      exact ⟨hrange, hself⟩
  grouped := by
    intro p hp
    have hfalls := h.stitched_falls fair (fun x hx => seam_inside fair' hx) whole.level
    ext q
    rw [Finset.mem_coe, h.drained_eq_linked fair hu hfalls, h.mem_linkedTo fair, whole.moving_iff]
    constructor
    · rintro ⟨hq, he⟩
      exact (h.settled_iff fair fair' whole hu hp hq).mp he.symm
    · intro hc
      have hq := hc.moving hp
      exact ⟨hq, ((h.settled_iff fair fair' whole hu hp hq).mpr hc).symm⟩
  ordered := by
    intro p q hp hq
    have hp' := whole.moving_iff.mpr hp
    have hq' := whole.moving_iff.mpr hq
    have hfalls := h.stitched_falls fair (fun x hx => seam_inside fair' hx) whole.level
    have hordered : Ordered (parScene w input width order) 9999 Set.univ (idx width)
        (order.flatMap (Band.pixels width)).toFinset
        (marks width out (stitchAll width out (seamPixels width stitches) blobs)) :=
      ⟨h.ordered.low, h.ordered.order⟩
    have hlt := hordered.root_lt_iff (h.stitched_sound fair fair' whole)
      (fun _ _ hb => par_back_idx hb) h.marked.closed
      (fun _ hr hbelow => h.stitched_leads fair fair' whole hr hbelow)
      ((live_iff w fair).mpr hp') ((live_iff w fair).mpr hq')
    rw [joined_par w input width fair] at hlt
    rw [h.settled fair hu hfalls hp', h.settled fair hu hfalls hq']
    unfold firstOf
    rw [← whole.object_eq, ← whole.object_eq]
    exact hlt

/-- On a whole image slot 0 leaks into the object it is last written for. -/
theorem leaks_spills (counts : ∀ b ∈ bands, top b = b.startLabel + labelsTaken input width order b)
    (hs : Sewn input width order stitches out
      (stitchAll width out (seamPixels width stitches) blobs)) (hp : Moving input width 240 p) :
    Leaks width out u (links u (out (idx width p))) ↔ SpillsFrom input width order stitches p := by
  have hfalls := h.stitched_falls fair (fun x hx => seam_inside fair' hx) whole.level
  have hends := h.ends fair hu hs
  have hend := hends.link _ _ ⟨p, whole.moving_iff.mpr hp, rfl, rfl⟩
  have hjoins : ∀ q, Moving input width labelledHeight q →
      (Links.root (endLink input width order stitches) (parStart input width order q) =
          endLink input width order stitches (parStart input width order p) ↔
        Connected input width labelledHeight q p) := by
    intro q hq
    rw [← hends.eq_iff (hends.root ⟨q, hq, rfl, rfl⟩) hend, h.settled_root fair hu hfalls hq,
      h.settled_iff fair fair' whole hu (whole.moving_iff.mp hq) hp, whole.connected_iff]
  rw [h.leaks_starts fair hu hs counts hend]
  unfold SlotLeaks SpillsFrom
  constructor
  · rintro ⟨z, hz, hroot, habove⟩
    obtain ⟨q, hq, _, rfl⟩ := (startOf_iff fair _).mp (hs.spilt z hz)
    exact ⟨q, hq, hz, habove, (hjoins q hq).mp hroot⟩
  · rintro ⟨q, hq, hz, habove, hc⟩
    exact ⟨_, hz, (hjoins q hq).mpr hc, habove⟩

end Run

end Motion
