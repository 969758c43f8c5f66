import Motion.Proofs.Fusion
import Motion.Proofs.Reduction
import Motion.Proofs.Weave

/-! What the threads may take for one object. A label leads to labels of its object, or across
a gap above a seam, whatever the order of the turns. -/

namespace Motion

/-- Touching, or two columns apart right above a seam. -/
def NearBy (p q : Pixel) : Prop :=
  Adj8 p q ∨ p.1 = q.1 ∧ p.1 + 1 ∈ seams ∧ (p.2 + 2 = q.2 ∨ q.2 + 2 = p.2)

/-- Joined by a path of active pixels each near the one before. -/
abbrev Close (input : Buf UInt8) (width : Nat) : Pixel → Pixel → Prop :=
  Linked NearBy {p | Moving input width labelledHeight p}

/-- The link of each label leads to a label of a pixel that is close. -/
def LeadsClose (input : Buf UInt8) (width : Nat) (output : Buf Nat) (t : Table w) : Prop :=
  ∀ p, Moving input width labelledHeight p → ∃ q, Moving input width labelledHeight q ∧
    Close input width p q ∧ output (idx width q) = links t (output (idx width p))

variable {w width : Nat} {input : Buf UInt8} {output : Buf Nat} {labels stitches : List Act}
  {t t' : Table w} {s s' : Machine w} {stack : Buf (Blob w)} {biggest : Blob w} {d : Detection w}
  {x p q y z : Pixel}

theorem NearBy.symm (h : NearBy p q) : NearBy q p := by
  cases h with
  | inl hadj => exact Or.inl hadj.symm
  | inr hgap =>
    obtain ⟨hrow, hseam, hcol⟩ := hgap
    exact Or.inr ⟨hrow.symm, hrow ▸ hseam, hcol.symm⟩

theorem Close.symm (h : Close input width p q) : Close input width q p :=
  Linked.symm (fun _ _ h => h.symm) h

theorem Linked.close (h : Connected input width labelledHeight p q) : Close input width p q := by
  induction h with
  | refl => exact Linked.refl
  | tail _ h ih => exact ih.trans (Linked.single (Or.inl h.1) h.2.1 h.2.2)

/-- Of a pixel of a seam and those above it any two that are active are close. -/
theorem seam_close (hrow : x.1 ∈ seams) (hy : Above x y) (hz : z = x ∨ Above x z)
    (hym : Moving input width labelledHeight y) (hzm : Moving input width labelledHeight z) :
    Close input width z y := by
  by_cases he : z = y
  · rw [he]
    exact Linked.refl
  · have hnear : NearBy z y := by
      cases hz with
      | inl hself =>
        subst hself
        exact Or.inl (Behind.adj (Or.inl hy))
      | inr habove =>
        unfold Above at hy habove
        by_cases hfar : z.2 + 2 = y.2 ∨ y.2 + 2 = z.2
        · refine Or.inr ⟨by omega, ?_, hfar⟩
          rw [habove.1]
          exact hrow
        · exact Or.inl ⟨he, by omega⟩
    exact Linked.single hnear hzm hym

theorem mem_visits (hl : Interleave.Run (labelThreads width) labels)
    (hp : Moving input width labelledHeight p) : p ∈ visitsOf labels :=
  (visits_perm hl).mem_iff.mpr (mem_interior.mpr hp.1)

section labelled

variable (h : LabelledSoFar input width (visitsOf labels) output t)
  (hl : Interleave.Run (labelThreads width) labels)

include h hl

theorem LabelledSoFar.moving (hp : p.2 < width) (h0 : output (idx width p) ≠ 0) :
    Moving input width labelledHeight p := by
  by_contra hn
  apply h0
  by_cases hin : Inside width labelledHeight p
  · have hp := (visits_perm hl).mem_iff.mpr (mem_interior.mpr hin)
    by_contra hne
    exact hn ((h.active p hp).mp hne)
  · apply h.rest
    intro q hq he
    have hq' := mem_interior.mp ((visits_perm hl).mem_iff.mp hq)
    have hcol := hq'
    unfold Inside at hcol
    exact hin (idx_inj hp (by omega) he ▸ hq')

theorem LabelledSoFar.labelled (hp : Moving input width labelledHeight p) :
    output (idx width p) ≠ 0 :=
  (h.active p (mem_visits hl hp)).mpr hp

theorem LabelledSoFar.leadsClose : LeadsClose input width output t := by
  intro p hp
  obtain ⟨_, q, hq, he, hc⟩ := h.linked p (mem_visits hl hp) (h.labelled hl hp)
  exact ⟨q, hc.moving hp, Linked.close hc, he⟩

/-- One turn of a stitch thread. -/
theorem LabelledSoFar.stitch_leadsClose {u : Table w} (hrow : x.1 ∈ seams)
    (hcol : 1 ≤ x.2 ∧ x.2 + 1 < width) (hu : LeadsClose input width output u) :
    LeadsClose input width output (stitchPixel width x.1 output u x.2) := by
  have hseams : ∀ row ∈ seams, 1 ≤ row := by decide
  intro p hp
  rw [stitchPixel_links]
  cases hsew : sewTo width output (x.1, x.2) (output (idx width p)) with
  | none => exact hu p hp
  | some m =>
    obtain ⟨hmin, hfound, htouch, _⟩ := (sewTo_iff (hseams _ hrow) hcol.1).mp hsew
    rw [← hmin] at hfound
    obtain ⟨hmem, hm0, _⟩ := minLabel_mem hfound
    rw [hmin] at hmem hm0
    obtain ⟨y, hy, hym⟩ := (mem_above (hseams _ hrow) hcol.1).mp hmem
    have hp0 := h.labelled hl hp
    -- the pixel whose label is relinked, and the one whose label it is linked to
    have hnear : ∀ z, Above (x.1, x.2) z → z.2 < width := by
      intro z hz
      have hzc := hz.near
      dsimp only at hzc
      omega
    obtain ⟨z, hz, hzl⟩ : ∃ z, (z = x ∨ Above x z) ∧
        output (idx width z) = output (idx width p) := by
      cases htouch with
      | inl hself => exact ⟨x, Or.inl rfl, hself.symm⟩
      | inr habove =>
        obtain ⟨z, hz, he⟩ := habove
        exact ⟨z, Or.inr hz, he⟩
    have hzc : z.2 < width := by
      cases hz with
      | inl hself =>
        rw [hself]
        omega
      | inr habove => exact hnear z habove
    have hymoving := h.moving hl (hnear y hy) (hym ▸ hm0)
    have hzmoving := h.moving hl hzc (hzl ▸ hp0)
    have hpz := h.joined p (mem_visits hl hp) z (mem_visits hl hzmoving) hp0 hzl.symm
    refine ⟨y, hymoving, (Linked.close hpz).trans ?_, hym⟩
    exact seam_close hrow hy hz hymoving hzmoving

end labelled

/-- The redirect of one entry. -/
theorem LeadsClose.redirect (h : LeadsClose input width output t) (i : Nat) :
    LeadsClose input width output (redirectEntry t i) := by
  intro p hp
  obtain ⟨q, hq, hpq, he⟩ := h p hp
  by_cases hi : output (idx width p) = i
  · obtain ⟨r, hr, hqr, he'⟩ := h q hq
    refine ⟨r, hr, hpq.trans hqr, ?_⟩
    rw [he', he, hi]
    exact (redirectEntry_self t i).symm
  · refine ⟨q, hq, hpq, ?_⟩
    unfold links at he ⊢
    rw [redirectEntry_other t hi]
    exact he

theorem LeadsClose.redirectAll (h : LeadsClose input width output t) (n : Nat) :
    LeadsClose input width output (redirectAll n t) :=
  Fold.invariant (P := LeadsClose input width output) _ _ h (fun i _ _ hu => hu.redirect i)

/-- All the turns of the stitch threads: they write no label. -/
theorem stitches_leadsClose
    (h : LabelledSoFar input width (visitsOf labels) s.output s.blobs)
    (hl : Interleave.Run (labelThreads width) labels)
    (hs : Interleave.Run (stitchThreads width) stitches)
    (run : stitches.foldlM (step input width) s = some s') :
    s'.output = s.output ∧ LeadsClose input width s.output s'.blobs := by
  refine Fold.prefix_induction_option (P := fun _ (u : Machine w) => u.output = s.output ∧
    LeadsClose input width s.output u.blobs) stitches s s' ⟨rfl, h.leadsClose hl⟩ ?_ run
  rintro pre a post u u' hsplit ⟨hout, hu⟩ hstep
  obtain ⟨row, hrow, col, h1, hcol, rfl⟩ := mem_stitches hs (a := a) (by simp [hsplit])
  obtain rfl := Option.some.inj hstep
  refine ⟨hout, ?_⟩
  dsimp only
  rw [hout]
  exact h.stitch_leadsClose hl (x := (row, col)) hrow ⟨h1, by dsimp only; omega⟩ hu

/-- After the passes of `blob_detect_par` a pixel has the label of one that is close. -/
theorem relabelled_close {counter : Band → Nat} (h : LeadsClose input width output t)
    (hclosed : Closed counter output t')
    (labelled : ∀ p, Moving input width labelledHeight p → output (idx width p) ≠ 0)
    (stack : Buf (Blob w)) (hp : Moving input width 240 p) :
    ∃ q, Moving input width labelledHeight q ∧ Close input width p q ∧
      relabel width 240 (mergeAll (maxBlobsPerThread * 4)
        (redirectAll (maxBlobsPerThread * 4) t) stack).blobs output (idx width p) =
        output (idx width q) := by
  obtain ⟨q, hq, hpq, he⟩ := h.redirectAll (maxBlobsPerThread * 4) p hp.labelled
  refine ⟨q, hq, hpq, ?_⟩
  have hlab := (hclosed.labels (idx width q)).resolve_left (labelled q hq)
  have hrange := (hclosed.label_range hlab).2
  have hmerged := mergeAll_links (maxBlobsPerThread * 4)
    (redirectAll (maxBlobsPerThread * 4) t) stack (output (idx width p))
  rw [relabel_small hp.1 (labelled p hp.labelled), hmerged, he]
  rw [hmerged, ← he]
  exact Nat.lt_trans hrange (by decide)

/-- In whatever order the threads take their turns, the pixels that end up with one label are
close, if the blobs recorded fit their array: objects are taken for one at most across a gap of
one column right above a seam. -/
theorem threads_fuse (hl : Interleave.Run (labelThreads width) labels)
    (hs : Interleave.Run (stitchThreads width) stitches)
    (run : blobDetectThreads labels stitches stack biggest (Buf.all 0) input width 240 = some d) :
    d.numBlobs ≤ maxBlobsPerThread →
    (∀ p, Inside width 240 p → (d.relabelled (idx width p) ≠ 0 ↔ Moving input width 240 p)) ∧
    ∀ p q, Moving input width 240 p → Moving input width 240 q →
      d.relabelled (idx width p) = d.relabelled (idx width q) → Close input width p q := by
  intro _
  obtain ⟨t, ht, hd⟩ := Option.map_eq_some_iff.mp run
  rw [List.foldlM_append] at ht
  obtain ⟨s, hlabels, hstitches⟩ := Option.bind_eq_some_iff.mp ht
  have hweave := woven hl (List.append_nil labels).symm hlabels
  have h := hweave.labelledSoFar
  obtain ⟨hout, hleads⟩ := stitches_leadsClose h hl hs hstitches
  rw [collect_eq] at hd
  have hrelabelled := collectUpTo_relabelled hd
  dsimp only at hrelabelled
  rw [hout] at hrelabelled
  have hon : ∀ p, Moving input width 240 p → ∃ q, Moving input width labelledHeight q ∧
      Close input width p q ∧ d.relabelled (idx width p) = s.output (idx width q) := by
    intro p hp
    rw [hrelabelled]
    exact relabelled_close hleads hweave.closed (fun _ => h.labelled hl) stack hp
  constructor
  · intro p hin
    constructor
    · intro hne
      by_contra hn
      apply hne
      rw [hrelabelled, relabel_apply _ _ hin, if_neg]
      intro h0
      have hcol : p.2 < width := by
        unfold Inside at hin
        omega
      exact hn ⟨hin, (h.moving hl hcol h0).2⟩
    · intro hp
      obtain ⟨q, hq, _, he⟩ := hon p hp
      rw [he]
      exact h.labelled hl hq
  · intro p q hp hq he
    obtain ⟨p', hp', hpp, hpe⟩ := hon p hp
    obtain ⟨q', hq', hqq, hqe⟩ := hon q hq
    have hsame := h.joined p' (mem_visits hl hp') q' (mem_visits hl hq') (h.labelled hl hp')
      (hpe.symm.trans (he.trans hqe))
    exact (hpp.trans (Linked.close hsame)).trans hqq.symm

theorem threads_fuse_apart : ∃ d : Detection 32,
    blobDetectThreads (labelThreads 3).flatten (stitchThreads 3).flatten (Buf.all Blob.zero)
      Blob.zero (Buf.all 0) apart 3 240 = some d ∧
    (∀ p, Inside 3 240 p → (d.relabelled (idx 3 p) ≠ 0 ↔ Moving apart 3 240 p)) ∧
    ∀ p q, Moving apart 3 240 p → Moving apart 3 240 q →
      d.relabelled (idx 3 p) = d.relabelled (idx 3 q) → Close apart 3 p q := by
  obtain ⟨d, hd⟩ := blobDetectThreads_narrow (by decide : 3 ≤ 5) (Buf.all Blob.zero)
    (Blob.zero (w := 32)) apart 240
  have hl := Interleave.Run.one_by_one (labelThreads 3)
  have hs := Interleave.Run.one_by_one (stitchThreads 3)
  have hfew := (recorded_few hl hs hd).trans apart_few
  exact ⟨d, hd, threads_fuse hl hs hd hfew⟩

end Motion
