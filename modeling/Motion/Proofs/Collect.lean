import Motion.Proofs.MergeLoop
import Motion.Proofs.Stitches

/-! What follows the joins in `blob_detect_par`: the redirect pass, the merge loop over a
table with unused slots, the record of the biggest blob. -/

namespace Motion
open Labelling

variable {w n : Nat} {t : Table w}

/-- What a merge loop down from `n` leaves. -/
def mergeAll (n : Nat) (t : Table w) (stack : Buf (Blob w)) : Merge w :=
  (upto 1 n).reverse.foldl mergeUsed ⟨t, stack, 0⟩

/-- A blob is recorded for each entry that is its own link. -/
theorem mergeAll_numBlobs (n : Nat) (t : Table w) (stack : Buf (Blob w)) :
    (mergeAll n t stack).numBlobs = ((upto 1 n).filter (fun i => links t i = i)).length := by
  unfold mergeAll
  rw [merge_numBlobs mergeUsed_label (fun s x hx => mergeUsed_count s ?_), List.filter_reverse,
    List.length_reverse]
  have := (mem_upto.mp (List.mem_reverse.mp hx)).1
  omega

/-- The table a redirect loop up to `n` leaves. -/
def redirectAll (n : Nat) (t : Table w) : Table w := (upto 1 n).foldl redirectEntry t

theorem redirectAll_same (n : Nat) (t : Table w) (i : Nat) : SameBut (t i) (redirectAll n t i) :=
  redirect_same t _ i

theorem redirectAll_zero (n : Nat) (t : Table w) : links (redirectAll n t) 0 = links t 0 := by
  unfold links redirectAll
  rw [redirect_outside t _ (fun hm => by have := mem_upto.mp hm; omega)]

/-- The redirect pass, entry by entry: a link that leads down is followed to where its
end leads by then, another one is followed once. -/
theorem redirectAll_links {i : Nat} (t : Table w) (h1 : 1 ≤ i) (hn : i < n) :
    links (redirectAll n t) i =
      if links t i < i then links (redirectAll n t) (links t i) else links t (links t i) := by
  unfold redirectAll
  rw [upto_split h1 hn, List.foldl_append, List.foldl_cons]
  generalize hu : (upto 1 i).foldl redirectEntry t = u
  have hui : u i = t i := by
    rw [← hu]
    exact redirect_outside t _ (fun hm => by have := mem_upto.mp hm; omega)
  have hout : ∀ j ≤ i, (upto (i + 1) n).foldl redirectEntry (redirectEntry u i) j =
      redirectEntry u i j := by
    intro j hj
    exact redirect_outside _ _ (fun hm => by have := mem_upto.mp hm; omega)
  have hself : links ((upto (i + 1) n).foldl redirectEntry (redirectEntry u i)) i =
      links u (links t i) := by
    unfold links
    rw [hout i (Nat.le_refl i), redirectEntry_self, hui]
  rw [hself]
  split
  · rename_i hlt
    unfold links at hlt ⊢
    rw [hout _ (Nat.le_of_lt hlt), redirectEntry_other u (Nat.ne_of_lt hlt)]
  · rename_i hge
    unfold links at hge ⊢
    rw [← hu, redirect_outside t _ (fun hm => by have := mem_upto.mp hm; omega)]

/-- So every label ends two links past where its path stops falling. -/
theorem redirectAll_root (used : Nat → Prop) {i : Nat} (t : Table w)
    (range : ∀ i, used i → 1 ≤ i ∧ i < n) (carried : ∀ i, used i → used (links t i))
    (hi : used i) :
    links (redirectAll n t) i = links t (links t (Links.root (links t) i)) := by
  induction i using Nat.strongRecOn with
  | ind i ih =>
    have hr := range i hi
    rw [redirectAll_links t hr.1 hr.2]
    split
    · rename_i hlt
      rw [ih _ hlt (carried i hi), Links.root_below hlt]
    · rename_i hge
      rw [Links.root, dif_neg hge]

/-- A label that two links past where its path stops falling comes back to itself. -/
def Returns (t : Table w) (i : Nat) : Prop := links t (links t (Links.root (links t) i)) = i

/-- A link upwards that is followed by one that does not come back. -/
def Climbs (t : Table w) (i : Nat) : Prop := i < links t i ∧ i < links t (links t i)

instance (t : Table w) (i : Nat) : Decidable (Climbs t i) :=
  inferInstanceAs (Decidable (_ ∧ _))

/-- After the redirect pass no link leads up exactly where no link climbs. -/
theorem redirectAll_falls_iff (used : Nat → Prop) (t : Table w)
    (range : ∀ i, used i → 1 ≤ i ∧ i < n) (carried : ∀ i, used i → used (links t i)) :
    (∀ i, used i → links (redirectAll n t) i ≤ i) ↔
      ∀ i, used i → ¬Climbs t i := by
  constructor
  · rintro hall i hi ⟨hup, hon⟩
    have hr := range i hi
    have hle := hall i hi
    rw [redirectAll_links t hr.1 hr.2, if_neg (by omega)] at hle
    omega
  · intro hall i hi
    induction i using Nat.strongRecOn with
    | ind i ih =>
      have hr := range i hi
      rw [redirectAll_links t hr.1 hr.2]
      split
      · rename_i hlt
        exact Nat.le_trans (ih _ hlt (carried i hi)) (Nat.le_of_lt hlt)
      · rename_i hge
        by_contra hlt
        by_cases hself : links t i = i
        · rw [hself, hself] at hlt
          omega
        · exact hall i hi ⟨by omega, by omega⟩

namespace Run

variable {width : Nat} {input : Buf UInt8} {order : List Band} {top : Band → Nat}
  {out : Buf Nat} {blobs : Table w}
  (h : Bands w input width order top out blobs) (fair : order.Perm bands)
  (ht : Tied input width out blobs t)

include h fair ht

/-- What leads from labels in use to labels in use still does once redirected. -/
theorem redirect_carried {i : Nat}
    (hi : ∃ q, Moving input width labelledHeight q ∧ out (idx width q) = i) :
    ∃ q, Moving input width labelledHeight q ∧
      out (idx width q) = links (redirectAll (maxBlobsPerThread * 4) t) i := by
  induction i using Nat.strongRecOn with
  | ind i ih =>
    obtain ⟨q, hq, rfl⟩ := hi
    have hr := h.label_range fair hq
    obtain ⟨r, hrm, hl⟩ := ht.carried q hq
    rw [redirectAll_links t hr.1 hr.2]
    split
    · rename_i hlt
      exact ih _ hlt ⟨r, hrm, hl⟩
    · rw [← hl]
      exact ht.carried r hrm

omit h fair in
/-- An entry without pixels is redirected to what slot 0 says. -/
theorem redirect_unused {i : Nat} (h1 : 1 ≤ i) (hn : i < maxBlobsPerThread * 4)
    (hi : ∀ q, Moving input width labelledHeight q → out (idx width q) ≠ i) :
    links (redirectAll (maxBlobsPerThread * 4) t) i = links t 0 := by
  have hzero : links t i = 0 := by
    unfold links
    rw [ht.unused i (by omega) hi]
    rfl
  rw [redirectAll_links t h1 hn, hzero, if_pos (by omega), redirectAll_zero]

omit h fair in
/-- Only a label in use can be its own link. -/
theorem used_of_self {i : Nat} (h1 : 1 ≤ i) (hn : i < maxBlobsPerThread * 4)
    (hself : links (redirectAll (maxBlobsPerThread * 4) t) i = i) :
    ∃ q, Moving input width labelledHeight q ∧ out (idx width q) = i := by
  by_contra hi
  rw [redirect_unused ht h1 hn (fun q hq he => hi ⟨q, hq, he⟩)] at hself
  obtain ⟨q, hq, he⟩ := ht.slot.resolve_left (by omega)
  exact hi ⟨q, hq, he.trans hself⟩

omit h fair in
/-- There are no more blobs than moving pixels. -/
theorem numBlobs_le (stack : Buf (Blob w)) :
    (mergeAll (maxBlobsPerThread * 4) (redirectAll (maxBlobsPerThread * 4) t) stack).numBlobs ≤
      (moving input width labelledHeight).card := by
  rw [mergeAll_numBlobs, ← List.toFinset_card_of_nodup
    ((List.Pairwise.imp (fun h => Nat.ne_of_lt h) (upto_sorted _ _)).filter _)]
  refine le_trans (Finset.card_le_card ?_)
    (Finset.card_image_le (s := moving input width labelledHeight)
      (f := fun p => out (idx width p)))
  intro i hi
  rw [List.mem_toFinset, List.mem_filter, mem_upto] at hi
  obtain ⟨q, hq, he⟩ := used_of_self ht hi.1.1 hi.1.2 (by simpa using hi.2)
  exact Finset.mem_image.mpr ⟨q, mem_moving.mpr hq, he⟩

end Run

/-- `collect` over any list of slots: the proofs need not know how many there are. -/
def collectOver (is : List Nat) (stack : Buf (Blob w)) (biggest : Blob w) (width height : Nat)
    (sh : Shared w) : Detection w :=
  let blobs := is.foldl redirectEntry sh.blobs
  let m := is.reverse.foldl mergeUsed ⟨blobs, stack, 0⟩
  let relabelled := relabel width height m.blobs sh.output
  let found := m.consolidatedBlobs (biggestIndex m.consolidatedBlobs m.numBlobs)
  let biggest := biggest.fill found
  { numBlobs := m.numBlobs
    biggestBlob := biggest
    output := draw (fun v => v * 30 % 256) (drawnShort biggest) width height relabelled
    consolidatedBlobs := m.consolidatedBlobs
    relabelled := relabelled }

theorem collect_eq (stack : Buf (Blob w)) (biggest : Blob w) (width height : Nat)
    (sh : Shared w) : collect stack biggest width height sh =
      collectOver (upto 1 (maxBlobsPerThread * 4)) stack biggest width height sh := by
  delta collect collectOver
  with_reducible rfl

/-- The collecting passes of a table with `n` slots. -/
abbrev collectUpTo (n : Nat) (stack : Buf (Blob w)) (biggest : Blob w) (width height : Nat)
    (sh : Shared w) : Detection w := collectOver (upto 1 n) stack biggest width height sh

theorem collectUpTo_numBlobs (n : Nat) (stack : Buf (Blob w)) (biggest : Blob w)
    (width height : Nat) (sh : Shared w) :
    (collectUpTo n stack biggest width height sh).numBlobs =
      (mergeAll n (redirectAll n sh.blobs) stack).numBlobs := rfl

/-- What a run of `blob_detect_par` returns, in terms of its passes. -/
theorem blobDetectPar_some {width height : Nat} {input : Buf UInt8} {order : List Band}
    {stitches : List Nat} {stack : Buf (Blob w)} {biggest : Blob w} {d : Detection w}
    (run : blobDetectPar order stitches stack biggest (Buf.all 0) input width height = some d) :
    ∃ sh : Shared w, runLabels input width order (Shared.fresh (Buf.all 0)) = some sh ∧
      d = collectUpTo (maxBlobsPerThread * 4) stack biggest width height
        { sh with blobs := stitchAll width sh.output (seamPixels width stitches) sh.blobs } := by
  obtain ⟨sh, hsh, he⟩ := Option.map_eq_some_iff.mp run
  rw [stitch_foldl, collect_eq] at he
  exact ⟨sh, hsh, he.symm⟩

/-- In a frame of few columns every run comes to an end. -/
theorem blobDetectPar_narrow {width : Nat} {order : List Band} (fair : order.Perm bands)
    (narrow : width ≤ 5) (stitches : List Nat) (stack : Buf (Blob w)) (biggest : Blob w)
    (input : Buf UInt8) (height : Nat) :
    ∃ d, blobDetectPar order stitches stack biggest (Buf.all 0) input width height = some d := by
  refine Option.isSome_iff_exists.mp ?_
  unfold blobDetectPar
  rw [Option.isSome_map]
  exact runLabels_isSome w fair (roomy_of_narrow input order narrow)

end Motion
