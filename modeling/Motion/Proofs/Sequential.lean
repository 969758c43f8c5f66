import Motion.Proofs.LabelLoop
import Motion.Proofs.Records

/-! `blob_detect` after its labelling loop: what the redirected table says of
the labelled image. -/

namespace Motion
open Labelling

/-- The table once every entry is redirected. -/
def redirected (s : Scan w) : Table w := (upto 1 s.labelCounter).foldl redirectEntry s.blobs

/-- The label of a pixel before the relabel loop. -/
def labelAt (width : Nat) (s : Scan w) (p : Pixel) : Nat := s.output (idx width p)

namespace Labelled

variable {w width height : Nat} {output : Buf Nat} {input : Buf UInt8}
  {border : BorderZero width height output} {s : Scan w} {p q : Pixel}

theorem live_iff (w : Nat) : p ∈ live (scene w input width height)
    (interior width height).toFinset ↔ Moving input width height p := by
  rw [live_scene]
  rfl

variable (h : Labelled border input s)

include h

theorem sound : Sound (scene w input width height) (interior width height).toFinset
    (marks width s.output s.blobs) :=
  h.progress.scanned.sound

theorem range (hp : Moving input width height p) :
    1 ≤ labelAt width s p ∧ labelAt width s p < s.labelCounter :=
  ⟨h.progress.floor p ((live_iff w).mpr hp), h.progress.below p (mem_interior.mpr hp.1)⟩

theorem off (hf : InFrame width height p) (hp : ¬Moving input width height p) :
    labelAt width s p = 0 := by
  by_cases hin : Inside width height p
  · exact (h.progress.scanned.zero p (by simpa using mem_interior.mpr hin)).mpr hp
  · unfold labelAt
    rw [h.progress.frame]
    · exact border p hf.1 hf.2 hin
    · intro q hq he
      have hq' : Inside width height q := mem_interior.mp hq
      have hq'' := hq'
      unfold Inside at hq''
      exact hin (idx_inj hf.2 (by omega) he ▸ hq')

/-- Redirecting leaves the root of every label in its entry. -/
theorem links_root (hp : Moving input width height p) :
    links (redirected s) (labelAt width s p) =
      Links.root (links s.blobs) (labelAt width s p) := by
  have turn : Links.Redirects (used (scene w input width height) (interior width height).toFinset
      (marks width s.output s.blobs)) (links (w := w)) redirectEntry := redirectEntry_redirects _
  refine Links.redirect_root turn ?_ h.sound.falls _ ⟨p, (live_iff w).mpr hp, rfl⟩
  rintro l ⟨q, hq, rfl⟩
  exact h.range ((live_iff w).mp hq)

theorem joined_of_root (hp : Moving input width height p) (hq : Moving input width height q)
    (he : links (redirected s) (labelAt width s p) =
      links (redirected s) (labelAt width s q)) : Connected input width height p q := by
  rw [h.links_root hp, h.links_root hq] at he
  have hj := h.sound.joined_of_root ((live_iff w).mpr hp) ((live_iff w).mpr hq) he
  rwa [joined_scene] at hj

/-- The redirected table is one the merge loop can be run on, boxes and all. -/
theorem mergeable : Mergeable s.labelCounter (redirected s) (moving input width height)
    (labelAt width s) (fun _ => True) := by
  have hroot : ∀ p, Moving input width height p → ∃ q, Moving input width height q ∧
      labelAt width s q = Links.root (links s.blobs) (labelAt width s p) := by
    intro p hp
    obtain ⟨q, hq, hl, _⟩ := h.sound.root_carried ((live_iff w).mpr hp)
    exact ⟨q, (live_iff w).mp hq, hl⟩
  have hdesc : ∀ p ∈ moving input width height, Describes (redirected s (labelAt width s p))
      ((moving input width height).filter (fun q => labelAt width s q = labelAt width s p)) := by
    intro p hp
    rw [mem_moving] at hp
    have hg := h.progress.gathered p (by simpa using mem_interior.mpr hp.1) hp
    have hr : region (interior width height).toFinset (marks width s.output s.blobs)
        (labelAt width s p) =
        (moving input width height).filter (fun q => labelAt width s q = labelAt width s p) := by
      ext q
      simp only [region, moving, Finset.mem_filter]
      constructor
      · rintro ⟨hq, he⟩
        exact ⟨⟨hq, h.progress.scanned.on_of_eq (by simpa using mem_interior.mpr hp.1) hq hp he⟩,
          he⟩
      · rintro ⟨⟨hq, _⟩, he⟩
        exact ⟨hq, he⟩
    rw [← hr]
    exact (redirect_same s.blobs _ _).describes hg
  constructor
  · intro p hp
    exact h.range (mem_moving.mp hp)
  · intro p hp
    rw [mem_moving] at hp
    obtain ⟨q, hq, he⟩ := hroot p hp
    exact ⟨q, mem_moving.mpr hq, by rw [h.links_root hp, he]⟩
  · intro p hp
    rw [h.links_root (mem_moving.mp hp)]
    exact Links.root_le _ _
  · intro p hp
    rw [mem_moving] at hp
    obtain ⟨q, hq, he⟩ := hroot p hp
    rw [h.links_root hp, ← he, h.links_root hq, he]
    exact Links.root_self (Links.root_fixed h.sound.falls ⟨p, (live_iff w).mpr hp, rfl⟩)
  · intro p hp
    exact (hdesc p hp).toSums
  · intro p hp _
    exact hdesc p hp
  · intro _ _ _
    trivial
  · intro i h1 hi hnone
    obtain ⟨q, hq, he⟩ := h.progress.started i h1 hi
    exact absurd he (hnone q (mem_moving.mpr ((live_iff w).mp hq)))

end Labelled

/-- The state of the merge loop when `blob_detect` is through with it. -/
def merged (stack : Buf (Blob w)) (s : Scan w) : Merge w :=
  (upto 1 s.labelCounter).reverse.foldl mergeEntry ⟨redirected s, stack, 0⟩

namespace Labelled

variable {w width height : Nat} {output : Buf Nat} {input : Buf UInt8}
  {border : BorderZero width height output} {s : Scan w} {p q : Pixel}
  (h : Labelled border input s)

include h

/-- Here no entry is unused, so this is the loop that would skip unused entries. -/
theorem merging (stack : Buf (Blob w)) :
    Merging (redirected s) (moving input width height) (labelAt width s) (fun _ => True)
      (upto 1 s.labelCounter).reverse (merged stack s) := by
  have hused : ∀ i ∈ (upto 1 s.labelCounter).reverse, (redirected s i).label ≠ 0 := by
    intro i hi
    rw [List.mem_reverse, mem_upto] at hi
    obtain ⟨q, hq, rfl⟩ := h.progress.started i hi.1 hi.2
    obtain ⟨r, hr, he⟩ := h.mergeable.carried q (mem_moving.mpr ((live_iff w).mp hq))
    have := h.range (mem_moving.mp hr)
    unfold links labelAt at *
    omega
  unfold merged
  rw [mergeEntry_foldl hused]
  exact merge_records h.mergeable stack

/-- The relabel loop leaves roots on the moving pixels. -/
theorem relabelled_on (fit : s.labelCounter ≤ 65536) (stack : Buf (Blob w))
    (hp : Moving input width height p) :
    relabel width height (merged stack s).blobs s.output (idx width p) =
      links (redirected s) (labelAt width s p) := by
  have hr := h.range hp
  have hle := h.mergeable.le p (mem_moving.mpr hp)
  have hne : s.output (idx width p) ≠ 0 := by
    unfold labelAt at hr
    omega
  rw [relabel_apply _ _ hp.1, if_pos hne, (h.merging stack).label]
  exact Nat.mod_eq_of_lt (by unfold labelAt at *; omega)

theorem relabelled_off (stack : Buf (Blob w)) (hf : InFrame width height p)
    (hp : ¬Moving input width height p) :
    relabel width height (merged stack s).blobs s.output (idx width p) = 0 := by
  have h0 : s.output (idx width p) = 0 := h.off hf hp
  by_cases hin : Inside width height p
  · rw [relabel_apply _ _ hin, if_neg (not_not.mpr h0)]
  · rw [relabel_border _ _ hf.2 hin, h0]

end Labelled

end Motion
