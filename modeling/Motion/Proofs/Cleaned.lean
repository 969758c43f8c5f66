import Motion.Proofs.Shading
import Motion.Proofs.Tallies

/-! What the passes after the joins make of a table does not depend on what the slots of
labels not taken hold, but for the corners of the boxes. -/

namespace Motion

/-- An entry but for the corner of its box. -/
def Blob.cornerless (b : Blob w) : Blob w := { b with xMin := 0, yMin := 0 }

/-- A table without the corners, and without what the slots of labels not taken hold. -/
def cleaned (used : Nat → Prop) [DecidablePred used] (t : Table w) : Table w :=
  ⟨fun i => if used i then (t i).cornerless else Blob.zero⟩

def Merge.cleaned (used : Nat → Prop) [DecidablePred used] (s : Merge w) : Merge w where
  blobs := Motion.cleaned used s.blobs
  consolidatedBlobs := ⟨fun k => (s.consolidatedBlobs k).cornerless⟩
  numBlobs := s.numBlobs

/-- Labels taken lead to labels taken, and the slots of the others are empty but for a link. -/
structure Tidy (used : Nat → Prop) (t : Table w) : Prop where
  zero : ¬used 0
  follow : ∀ i, used i → used (links t i)
  linked : ∀ i, links t i = 0 ∨ used (links t i)
  empty : ∀ i ≠ 0, ¬used i → SameBut Blob.zero (t i)

/-- Two detections that differ at most in the corners of the boxes and in what is drawn there. -/
structure SameButCorners (d d' : Detection w) : Prop where
  numBlobs : d.numBlobs = d'.numBlobs
  relabelled : d.relabelled = d'.relabelled
  records : ∀ k, (d.consolidatedBlobs k).cornerless = (d'.consolidatedBlobs k).cornerless
  biggest : d.biggestBlob.cornerless = d'.biggestBlob.cornerless
  output : d.biggestBlob = d'.biggestBlob → d.output = d'.output

variable {w n width height : Nat} {used : Nat → Prop} {t t' : Table w}
  {s : Merge w} {b d : Blob w} {i k : Nat} {output : Buf Nat}

theorem cornerless_absorb (d b : Blob w) :
    (d.absorb b).cornerless = d.cornerless.absorb b.cornerless := by
  simp only [Blob.absorb, Blob.cornerless]
  rfl

/-- An empty entry may draw the corner to 0, and changes nothing else. -/
theorem cornerless_absorb_empty (d : Blob w) (h : SameBut Blob.zero b) :
    (d.absorb b).cornerless = d.cornerless := by
  obtain ⟨l, rfl⟩ := h
  simp [Blob.absorb, Blob.cornerless, Blob.zero]

/-- The redirect pass follows links of labels taken alone. -/
theorem redirectAll_congr (h : Tidy used t)
    (range : ∀ i, used i → 1 ≤ i ∧ i < n) (same : ∀ i, used i → links t i = links t' i)
    (hi : used i) : links (redirectAll n t) i = links (redirectAll n t') i := by
  induction i using Nat.strongRecOn with
  | ind i ih =>
    have hr := range i hi
    rw [redirectAll_links t hr.1 hr.2, redirectAll_links t' hr.1 hr.2, ← same i hi]
    split
    · rename_i hlt
      exact ih _ hlt (h.follow i hi)
    · exact same _ (h.follow i hi)

theorem Tidy.redirect (h : Tidy used t) (n : Nat) : Tidy used (redirectAll n t) := by
  unfold redirectAll
  refine Fold.invariant (P := fun t : Table w => Tidy used t) _ t h ?_
  intro i _ t ht
  have hlink : ∀ k, links (redirectEntry t i) k = links t k ∨
      links (redirectEntry t i) k = links t (links t k) := by
    intro k
    by_cases hk : k = i
    · rw [hk]
      exact Or.inr (redirectEntry_self t i)
    · unfold links
      rw [redirectEntry_other t hk]
      exact Or.inl rfl
  refine ⟨ht.zero, ?_, ?_, ?_⟩
  · intro k hk
    cases hlink k with
    | inl he => rw [he]; exact ht.follow k hk
    | inr he => rw [he]; exact ht.follow _ (ht.follow k hk)
  · intro k
    cases hlink k with
    | inl he => rw [he]; exact ht.linked k
    | inr he => rw [he]; exact ht.linked _
  · intro k hk hu
    obtain ⟨l, hl⟩ := redirectEntry_same t i k
    rw [hl]
    exact (ht.empty k hk hu).relabel l

/-- Relabelling follows the links of the labels in the image, and leaves labels taken. -/
theorem relabel_congr (small : ∀ l, used l → l < 65536)
    (follow : ∀ l, used l → used (links t l)) (same : ∀ l, used l → links t l = links t' l)
    (held : ∀ i, output i = 0 ∨ used (output i)) :
    relabel width height t output = relabel width height t' output := by
  unfold relabel
  have hloop := Fold.related
    (R := fun (u v : Buf Nat) => u = v ∧ ∀ i, u i = 0 ∨ used (u i))
    (f := fun out p => if out (idx width p) ≠ 0 then
      out.write (idx width p) (ushort (t (out (idx width p))).label) else out)
    (g := fun out p => if out (idx width p) ≠ 0 then
      out.write (idx width p) (ushort (t' (out (idx width p))).label) else out)
    (interior width height) output output ⟨rfl, held⟩ ?_
  · exact hloop.1
  · intro p _ u v huv
    obtain ⟨rfl, hu⟩ := huv
    by_cases h0 : u (idx width p) = 0
    · rw [if_neg (not_not.mpr h0), if_neg (not_not.mpr h0)]
      exact ⟨rfl, hu⟩
    · have hl := (hu (idx width p)).resolve_left h0
      have hto := follow _ hl
      have hsame := same _ hl
      unfold links at hto hsame
      rw [if_pos h0, if_pos h0, ← hsame]
      refine ⟨rfl, fun i => ?_⟩
      rw [Buf.write_apply]
      split
      · right
        unfold ushort
        rwa [Nat.mod_eq_of_lt (small _ hto)]
      · exact hu i

theorem cornerless_fill {b c c' : Blob w} (h : c.cornerless = c'.cornerless) :
    (b.fill c).cornerless = (b.fill c').cornerless := by
  unfold Blob.cornerless at h
  injection h
  simp [Blob.fill, Blob.cornerless, *]

/-- The merge loop keeps the table tidy. -/
theorem Tidy.merge (h : Tidy used s.blobs) (i : Nat) : Tidy used (mergeUsed s i).blobs where
  zero := h.zero
  follow := by
    intro k hk
    unfold links
    rw [mergeUsed_label]
    exact h.follow k hk
  linked := by
    intro k
    unfold links
    rw [mergeUsed_label]
    exact h.linked k
  empty := by
    intro k hk hu
    by_cases h0 : (s.blobs i).label = 0
    · rw [mergeUsed_skip h0]
      exact h.empty k hk hu
    · rw [mergeUsed_eq h0]
      by_cases hself : (s.blobs i).label = i
      · rw [mergeEntry_record hself]
        exact h.empty k hk hu
      · have hd : used (s.blobs i).label := (h.linked i).resolve_left h0
        have hne : k ≠ (s.blobs i).label := fun he => hu (he ▸ hd)
        rw [mergeEntry_merge hself]
        dsimp only
        rw [Buf.write_other _ _ hne]
        exact h.empty k hk hu

section cleaned

variable [DecidablePred used]

theorem cleaned_apply (hk : used k) : cleaned used t k = (t k).cornerless := if_pos hk

theorem cleaned_unused (hk : ¬used k) : cleaned used t k = Blob.zero := if_neg hk

theorem cleaned_links (hk : used k) : links (cleaned used t) k = links t k := by
  unfold links
  rw [cleaned_apply hk]
  rfl

theorem cleaned_write (hk : used k) (b : Blob w) :
    cleaned used (t.write k b) = (cleaned used t).write k b.cornerless := by
  ext i
  rw [Buf.write_apply]
  by_cases he : i = k
  · rw [if_pos he, he, cleaned_apply hk, Buf.write_same]
  · rw [if_neg he]
    unfold cleaned
    dsimp only
    rw [Buf.write_other _ _ he]

/-- A turn of the merge loop on the cleaned table. -/
theorem mergeUsed_cleaned (h : Tidy used s.blobs) (hi : i ≠ 0) :
    mergeUsed (s.cleaned used) i = (mergeUsed s i).cleaned used := by
  have hblobs : (s.cleaned used).blobs = cleaned used s.blobs := rfl
  by_cases hu : used i
  · have hd : used (s.blobs i).label := h.follow i hu
    have hd0 : (s.blobs i).label ≠ 0 := fun h0 => h.zero (h0 ▸ hd)
    have hlabel : ((s.cleaned used).blobs i).label = (s.blobs i).label := cleaned_links hu
    rw [mergeUsed_eq hd0, mergeUsed_eq (hlabel ▸ hd0)]
    by_cases hself : (s.blobs i).label = i
    · rw [mergeEntry_record hself, mergeEntry_record (hlabel.trans hself), hblobs,
        cleaned_apply hu]
      unfold Merge.cleaned
      congr 1
      ext k
      rw [Buf.write_apply]
      dsimp only
      rw [Buf.write_apply]
      split <;> rfl
    · rw [mergeEntry_merge hself, mergeEntry_merge (hlabel ▸ hself), hlabel, hblobs,
        cleaned_apply hu, cleaned_apply hd, ← cornerless_absorb]
      unfold Merge.cleaned
      dsimp only
      rw [cleaned_write hd]
  · have hidle : ((s.cleaned used).blobs i).label = 0 := by
      rw [hblobs, cleaned_unused hu]
      rfl
    rw [mergeUsed_skip hidle]
    by_cases h0 : (s.blobs i).label = 0
    · rw [mergeUsed_skip h0]
    · have hd : used (s.blobs i).label := (h.linked i).resolve_left h0
      have hself : (s.blobs i).label ≠ i := fun he => hu (he ▸ hd)
      rw [mergeUsed_eq h0, mergeEntry_merge hself]
      unfold Merge.cleaned
      dsimp only
      rw [cleaned_write hd, cornerless_absorb_empty _ (h.empty i hi hu), ← cleaned_apply hd]
      congr 1
      ext k
      rw [Buf.write_apply]
      split
      · rename_i he
        rw [he]
      · rfl

/-- The merge loop, cleaned, is the merge loop over the cleaned table. -/
theorem mergeAll_cleaned (h : Tidy used t) (n : Nat) (stack : Buf (Blob w)) :
    (mergeAll n t stack).cleaned used =
      mergeAll n (cleaned used t) ⟨fun k => (stack k).cornerless⟩ := by
  unfold mergeAll
  have hloop := Fold.related
    (R := fun (s u : Merge w) => Tidy used s.blobs ∧ s.cleaned used = u)
    (f := mergeUsed) (g := mergeUsed) (upto 1 n).reverse ⟨t, stack, 0⟩
    ⟨cleaned used t, ⟨fun k => (stack k).cornerless⟩, 0⟩ ⟨h, rfl⟩ ?_
  · exact hloop.2
  · intro i hi s u hs
    have h1 := (mem_upto.mp (List.mem_reverse.mp hi)).1
    refine ⟨hs.1.merge i, ?_⟩
    rw [← hs.2, mergeUsed_cleaned hs.1 (by omega)]

/-- Tables that agree where labels are taken are cleaned to the same once redirected. -/
theorem redirectAll_cleaned (h : Tidy used t)
    (range : ∀ i, used i → 1 ≤ i ∧ i < n) (same : ∀ i, used i → t i = t' i) :
    cleaned used (redirectAll n t) = cleaned used (redirectAll n t') := by
  ext i
  by_cases hu : used i
  · have hlink : links (redirectAll n t) i = links (redirectAll n t') i :=
      redirectAll_congr h range (fun k hk => congrArg Blob.label (same k hk)) hu
    rw [cleaned_apply hu, cleaned_apply hu]
    obtain ⟨l, hl⟩ := redirectAll_same n t i
    obtain ⟨l', hl'⟩ := redirectAll_same n t' i
    unfold links at hlink
    rw [hl, hl'] at hlink ⊢
    dsimp only at hlink
    rw [hlink, same i hu]
  · rw [cleaned_unused hu, cleaned_unused hu]

/-- Two tables that agree where labels are taken are collected the same but for the corners. -/
theorem collectUpTo_cleaned (h : Tidy used t) (h' : Tidy used t')
    (range : ∀ i, used i → 1 ≤ i ∧ i < n) (small : ∀ l, used l → l < 65536)
    (held : ∀ i, output i = 0 ∨ used (output i)) (same : ∀ i, used i → t i = t' i)
    (stack : Buf (Blob w)) (biggest : Blob w) :
    SameButCorners (collectUpTo n stack biggest width height ⟨output, t⟩)
      (collectUpTo n stack biggest width height ⟨output, t'⟩) := by
  have hr := h.redirect n
  have hr' := h'.redirect n
  have hclean : (mergeAll n (redirectAll n t) stack).cleaned used =
      (mergeAll n (redirectAll n t') stack).cleaned used := by
    rw [mergeAll_cleaned hr, mergeAll_cleaned hr', redirectAll_cleaned h range same]
  have hlinks : ∀ l, used l → links (mergeAll n (redirectAll n t) stack).blobs l =
      links (mergeAll n (redirectAll n t') stack).blobs l := by
    intro l hl
    rw [mergeAll_links, mergeAll_links]
    exact redirectAll_congr h range (fun k hk => congrArg Blob.label (same k hk)) hl
  have hrelabel : relabel width height (mergeAll n (redirectAll n t) stack).blobs output =
      relabel width height (mergeAll n (redirectAll n t') stack).blobs output := by
    refine relabel_congr small (fun l hl => ?_) hlinks held
    rw [mergeAll_links]
    exact hr.follow l hl
  have hnum := congrArg Merge.numBlobs hclean
  have hrec : ∀ k, ((mergeAll n (redirectAll n t) stack).consolidatedBlobs k).cornerless =
      ((mergeAll n (redirectAll n t') stack).consolidatedBlobs k).cornerless :=
    fun k => congrFun (congrArg (fun m : Merge w => m.consolidatedBlobs.read) hclean) k
  have hindex : biggestIndex (mergeAll n (redirectAll n t) stack).consolidatedBlobs
        (mergeAll n (redirectAll n t) stack).numBlobs =
      biggestIndex (mergeAll n (redirectAll n t') stack).consolidatedBlobs
        (mergeAll n (redirectAll n t') stack).numBlobs := by
    have hn : (mergeAll n (redirectAll n t) stack).numBlobs =
        (mergeAll n (redirectAll n t') stack).numBlobs := hnum
    rw [← hn]
    refine biggestIndex_congr (fun k _ => ?_)
    have hmass := congrArg Blob.mass (hrec k)
    exact hmass
  refine ⟨hnum, hrelabel, hrec, ?_, fun hbig => ?_⟩
  · apply cornerless_fill
    dsimp only
    exact (congrArg (fun k => ((mergeAll n (redirectAll n t) stack).consolidatedBlobs
      k).cornerless) hindex).trans (hrec _)
  · exact congrArg₂ (fun b => draw (fun v => v * 30 % 256) (drawnShort b) width height) hbig
      hrelabel

end cleaned

end Motion
