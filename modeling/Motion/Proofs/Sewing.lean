import Motion.Proofs.Sparse
import Motion.Proofs.StitchLinks

/-! What a call of `stitch` does to labels that are joined already. A label has one link,
so a label that is sewn gives up the link it had, and with it whatever that link joined. -/

namespace Motion
open Walks

/-- Where a label leads when a row is sewn: to the label it is sewn to, else where it led. -/
def sewnLink (width : Nat) (sh : Shared w) (row l : Nat) : Nat :=
  (sewnTo width sh.output row l).getD (links sh.blobs l)

/-- Joined by the links of the labels taken. -/
abbrev JoinedLabels (t : Table w) : Nat → Nat → Prop := Threaded (Taken t) (links t)

variable {w width row : Nat} {input : Buf UInt8} {order : List Band} {top : Band → Nat}
  {out : Buf Nat} {blobs t : Table w} {sh : Shared w}

/-- A label taken leads to one. -/
theorem Run.taken_closed (h : Bands w input width order top out blobs) (fair : order.Perm bands)
    (ht : Run.Tied input width out blobs t) {l : Nat} (hl : Taken t l) : Taken t (links t l) := by
  obtain ⟨q, hq, rfl⟩ := (h.tied_taken fair ht l).mp hl
  obtain ⟨r, hr, he⟩ := ht.carried q hq
  exact (h.tied_taken fair ht _).mpr ⟨r, hr, he⟩

/-- The stitches leave labels taken that lead to labels taken. -/
theorem Run.stitches_tied (h : Bands w input width order top sh.output sh.blobs)
    (fair : order.Perm bands) (rows : List Nat) (hrows : ∀ r ∈ rows, r ∈ seams) :
    Run.Tied input width sh.output sh.blobs (rows.foldl (stitch width) sh).blobs := by
  rw [stitch_foldl]
  refine h.stitchAll_tied fair ?_
  intro p hp
  obtain ⟨hr, hc⟩ := mem_seamPixels.mp hp
  exact seam_inside (List.Perm.refl seams) (mem_seamPixels.mpr ⟨hrows _ hr, hc⟩)

/-- Setting links parts nothing where each label whose link is set is still joined to where
it led: it led nowhere else, or there, or both ends come together. -/
theorem stitch_parts_iff (taken : ∀ l, Taken (stitch width sh row).blobs l ↔ Taken sh.blobs l)
    (closed : ∀ l, Taken sh.blobs l → Taken sh.blobs (links sh.blobs l))
    (closed' : ∀ l, Taken sh.blobs l → Taken sh.blobs (links (stitch width sh row).blobs l)) :
    (∀ a b, Taken sh.blobs a → Taken sh.blobs b → JoinedLabels sh.blobs a b →
      JoinedLabels (stitch width sh row).blobs a b) ↔
    ∀ l m, Taken sh.blobs l → sewnTo width sh.output row l = some m →
      links sh.blobs l = l ∨ links sh.blobs l = m ∨
        Meet (sewnLink width sh row) (links sh.blobs l) m := by
  have htaken : Taken (stitch width sh row).blobs = Taken sh.blobs :=
    funext (fun l => propext (taken l))
  have hlinks : links (stitch width sh row).blobs = sewnLink width sh row :=
    funext (fun l => stitch_links width sh row l)
  rw [hlinks] at closed'
  have hmeet : (∀ a b, Taken sh.blobs a → Taken sh.blobs b → JoinedLabels sh.blobs a b →
      JoinedLabels (stitch width sh row).blobs a b) ↔
      ∀ l, Taken sh.blobs l → Meet (sewnLink width sh row) l (links sh.blobs l) := by
    rw [← parted_iff closed, JoinedLabels, JoinedLabels, htaken, hlinks]
    refine forall₄_congr (fun a b ha hb => ?_)
    rw [threaded_iff closed ha hb, threaded_iff closed' ha hb]
  rw [hmeet]
  constructor
  · intro h l m hl hm
    have hstep : sewnLink width sh row l = m := by rw [sewnLink, hm, Option.getD_some]
    exact Or.inr (Or.inr ((h l hl).symm.trans (hstep ▸ Meet.step)))
  · intro h l hl
    cases hm : sewnTo width sh.output row l with
    | none =>
      have hstep : sewnLink width sh row l = links sh.blobs l := by
        rw [sewnLink, hm, Option.getD_none]
      exact hstep ▸ Meet.step
    | some m =>
      have hstep : sewnLink width sh row l = m := by rw [sewnLink, hm, Option.getD_some]
      obtain hself | hsame | hends := h l m hl hm
      · rw [hself]
        exact Meet.refl
      · rw [hsame, ← hstep]
        exact Meet.step
      · have hto : Meet (sewnLink width sh row) l m := hstep ▸ Meet.step
        exact hto.trans hends.symm

/-- When a call of `stitch` only adds joins, in whatever state the calls of `label` and
stitches before it have left. -/
theorem stitch_keeps_joins_iff {rows : List Nat} (fair : order.Perm bands)
    (run : runLabels input width order (Shared.fresh (Buf.all 0)) = some sh)
    (done : ∀ r ∈ rows, r ∈ seams) (hrow : row ∈ seams) :
    let s := rows.foldl (stitch width) sh
    (∀ a b, Taken s.blobs a → Taken s.blobs b → JoinedLabels s.blobs a b →
      JoinedLabels (stitch width s row).blobs a b) ↔
    ∀ l m, Taken s.blobs l → sewnTo width s.output row l = some m →
      links s.blobs l = l ∨ links s.blobs l = m ∨
        Meet (sewnLink width s row) (links s.blobs l) m := by
  obtain ⟨top, h⟩ := runLabels_run fair run
  have hbefore := h.stitches_tied fair rows done
  have hafter := h.stitches_tied fair (rows ++ [row]) (by
    intro r hr
    cases List.mem_append.mp hr with
    | inl hr => exact done r hr
    | inr hr => exact List.mem_singleton.mp hr ▸ hrow)
  rw [List.foldl_append, List.foldl_cons, List.foldl_nil] at hafter
  intro s
  have htaken : ∀ l, Taken (stitch width s row).blobs l ↔ Taken s.blobs l :=
    fun l => (h.tied_taken fair hafter l).trans (h.tied_taken fair hbefore l).symm
  exact stitch_parts_iff htaken (fun l hl => h.taken_closed fair hbefore hl)
    (fun l hl => (htaken _).mp (h.taken_closed fair hafter ((htaken l).mpr hl)))

/-- Two pixels joined by one below them, and a pixel above the right one. -/
def vee : Buf UInt8 := drawing 5 [(59, 3), (60, 1), (60, 3), (61, 2)]

theorem stitch_keeps_joins_iff_vee : ∃ sh : Shared 32,
    runLabels vee 5 bands.reverse (Shared.fresh (Buf.all 0)) = some sh ∧
    ((∀ a b, Taken sh.blobs a → Taken sh.blobs b → JoinedLabels sh.blobs a b →
      JoinedLabels (stitch 5 sh 60).blobs a b) ↔
    ∀ l m, Taken sh.blobs l → sewnTo 5 sh.output 60 l = some m →
      links sh.blobs l = l ∨ links sh.blobs l = m ∨
        Meet (sewnLink 5 sh 60) (links sh.blobs l) m) := by
  obtain ⟨sh, hsh⟩ := Option.isSome_iff_exists.mp (runLabels_isSome 32 (List.reverse_perm bands)
    (roomy_of_narrow vee bands.reverse (by decide : 5 ≤ 5)))
  exact ⟨sh, hsh, stitch_keeps_joins_iff (List.reverse_perm bands) hsh
    (fun r (h : r ∈ []) => absurd h List.not_mem_nil) (by decide)⟩

/-- Labelled from bottom to top, the right pixel's label is linked to the left one's, and
then to that of the pixel above. -/
theorem vee_parted : ¬∀ (w width : Nat) (input : Buf UInt8) (order : List Band) (row : Nat)
    (sh : Shared w), 3 ≤ width → order.Perm bands → row ∈ seams →
      runLabels input width order (Shared.fresh (Buf.all 0)) = some sh →
      ∀ a b, Taken sh.blobs a → Taken sh.blobs b → JoinedLabels sh.blobs a b →
        JoinedLabels (stitch width sh row).blobs a b := by
  intro hall
  obtain ⟨sh, hsh, hleft, hright, hsewn, htop, hself⟩ := runLabels_any (w := 32) (P := fun sh =>
    links sh.blobs 201 = 201 ∧ links sh.blobs 202 = 201 ∧
      links (stitch 5 sh 60).blobs 202 = 1 ∧ links (stitch 5 sh 60).blobs 1 = 1 ∧
      links (stitch 5 sh 60).blobs 201 = 201)
    (by rw [runActive_linked]; decide +kernel :
      (runActive vee 5 bands.reverse (Shared.fresh (Buf.all 0))).any _ = true)
  have hjoined := hall 32 5 vee bands.reverse 60 sh (by decide) (List.reverse_perm bands)
    (by decide) hsh 202 201 ⟨by decide, by rw [hright]; decide⟩ ⟨by decide, by rw [hleft]; decide⟩
    (.rel _ _ ⟨⟨by decide, by rw [hright]; decide⟩, hright⟩)
  obtain ⟨k, l, he⟩ := Threaded.meet hjoined
  rw [Function.iterate_fixed hself] at he
  cases k with
  | zero =>
    rw [Function.iterate_zero_apply] at he
    exact absurd he (by decide)
  | succ k =>
    rw [Function.iterate_succ_apply, hsewn, Function.iterate_fixed htop] at he
    exact absurd he (by decide)

end Motion
