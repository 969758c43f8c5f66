import Motion.Proofs.Tables

/-! The backward merge. Every used entry has been redirected to a root, so an
entry is complete when the loop reaches it: all entries that point to it lie above. -/

namespace Motion

/-- A redirected table over labelled pixels. A clean entry's box is to be
trusted; an unused entry is empty and, if it has a link at all, spoils only
entries that are not clean. -/
structure Mergeable (n : Nat) (t : Table w) (P : Finset Pixel) (lab : Pixel → Nat)
    (clean : Nat → Prop) : Prop where
  range : ∀ p ∈ P, 1 ≤ lab p ∧ lab p < n
  carried : ∀ p ∈ P, ∃ q ∈ P, lab q = links t (lab p)
  le : ∀ p ∈ P, links t (lab p) ≤ lab p
  fixed : ∀ p ∈ P, links t (links t (lab p)) = links t (lab p)
  sums : ∀ p ∈ P, Sums (t (lab p)) (P.filter (fun q => lab q = lab p))
  describes : ∀ p ∈ P, clean (lab p) → Describes (t (lab p)) (P.filter (fun q => lab q = lab p))
  clean_of_root : ∀ p ∈ P, clean (links t (lab p)) → clean (lab p)
  unused : ∀ i, 1 ≤ i → i < n → (∀ p ∈ P, lab p ≠ i) → Sums (t i) ∅ ∧
    (links t i ≠ 0 → (∃ q ∈ P, lab q = links t i) ∧ ¬clean (links t i))

/-- The pixels whose label has a given root. -/
def group (t : Table w) (P : Finset Pixel) (lab : Pixel → Nat) (r : Nat) : Finset Pixel :=
  P.filter (fun q => links t (lab q) = r)

/-- The labels that are their own link, from the highest down: what the merge loop records. -/
def rootsDown (t : Table w) (P : Finset Pixel) (lab : Pixel → Nat) (is : List Nat) : List Nat :=
  is.filter (fun i => (∃ p ∈ P, lab p = i) ∧ links t i = i)

/-- What entry `d` has gathered once the entries in `pre` are merged. -/
def gathering (t : Table w) (P : Finset Pixel) (lab : Pixel → Nat) (pre : List Nat) (d : Nat) :
    Finset Pixel :=
  P.filter (fun q => lab q = d ∨ lab q ∈ pre ∧ links t (lab q) = d)

/-- The state of the merge loop after the entries in `pre`. -/
structure Merging (t : Table w) (P : Finset Pixel) (lab : Pixel → Nat) (clean : Nat → Prop)
    (pre : List Nat) (s : Merge w) : Prop where
  label : ∀ i, (s.blobs i).label = links t i
  sums : ∀ p ∈ P, lab p ∉ pre → Sums (s.blobs (lab p)) (gathering t P lab pre (lab p))
  describes : ∀ p ∈ P, lab p ∉ pre → clean (lab p) →
    Describes (s.blobs (lab p)) (gathering t P lab pre (lab p))
  unused : ∀ i ≠ 0, (∀ p ∈ P, lab p ≠ i) → s.blobs i = t i
  count : s.numBlobs = (rootsDown t P lab pre).length
  recorded : ∀ k r, (rootsDown t P lab pre)[k]? = some r →
    ∃ b, s.consolidatedBlobs k = b.consolidate k ∧ Sums b (group t P lab r) ∧
      (clean r → Describes b (group t P lab r))

variable {w n : Nat} {t : Table w} {P : Finset Pixel} {lab : Pixel → Nat} {clean : Nat → Prop}
  {pre : List Nat} {s : Merge w} {x d : Nat}

theorem mergeUsed_skip (h : (s.blobs x).label = 0) : mergeUsed s x = s := by
  simp [mergeUsed, h]

theorem mergeUsed_eq (h : (s.blobs x).label ≠ 0) : mergeUsed s x = mergeEntry s x := by
  simp [mergeUsed, h]

theorem mergeEntry_merge (h : (s.blobs x).label ≠ x) :
    mergeEntry s x = { s with
      blobs := s.blobs.write (s.blobs x).label
        ((s.blobs (s.blobs x).label).absorb (s.blobs x)) } := by
  simp [mergeEntry, h]

theorem mergeEntry_record (h : (s.blobs x).label = x) :
    mergeEntry s x = { s with
      consolidatedBlobs :=
        s.consolidatedBlobs.write s.numBlobs ((s.blobs x).consolidate s.numBlobs)
      numBlobs := s.numBlobs + 1 } := by
  simp [mergeEntry, h]

/-- Merging leaves every label as it is. -/
theorem mergeEntry_label (s : Merge w) (x i : Nat) :
    ((mergeEntry s x).blobs i).label = (s.blobs i).label := by
  by_cases h : (s.blobs x).label = x
  · rw [mergeEntry_record h]
  · rw [mergeEntry_merge h]
    by_cases hi : i = (s.blobs x).label
    · subst hi
      simp [Blob.absorb]
    · simp [hi]

theorem mergeUsed_label (s : Merge w) (x i : Nat) :
    ((mergeUsed s x).blobs i).label = (s.blobs i).label := by
  unfold mergeUsed
  split
  · rfl
  · exact mergeEntry_label s x i

theorem mergeEntry_count (s : Merge w) (x : Nat) :
    (mergeEntry s x).numBlobs = s.numBlobs + if links s.blobs x = x then 1 else 0 := by
  unfold links
  split
  · rename_i h
    rw [mergeEntry_record h]
  · rename_i h
    rw [mergeEntry_merge h]
    rfl

theorem mergeUsed_count (s : Merge w) (h0 : x ≠ 0) :
    (mergeUsed s x).numBlobs = s.numBlobs + if links s.blobs x = x then 1 else 0 := by
  by_cases hl : (s.blobs x).label = 0
  · unfold links
    rw [mergeUsed_skip hl, if_neg (by omega), Nat.add_zero]
  · rw [mergeUsed_eq hl, mergeEntry_count]

/-- A merge loop records a blob for each entry that is its own link. -/
theorem merge_numBlobs {f : Merge w → Nat → Merge w} {is : List Nat}
    (label : ∀ s x i, ((f s x).blobs i).label = (s.blobs i).label)
    (count : ∀ s, ∀ x ∈ is, (f s x).numBlobs = s.numBlobs + if links s.blobs x = x then 1 else 0)
    (t : Table w) (stack : Buf (Blob w)) :
    (is.foldl f ⟨t, stack, 0⟩).numBlobs = (is.filter (fun i => links t i = i)).length := by
  have hloop := Fold.prefix_induction
    (P := fun pre (s : Merge w) => (∀ i, links s.blobs i = links t i) ∧
      s.numBlobs = (pre.filter (fun i => links t i = i)).length)
    (f := f) is ⟨t, stack, 0⟩ ⟨fun _ => rfl, rfl⟩ (by
      rintro pre x post s hl ⟨hlabel, hcount⟩
      refine ⟨fun i => (label s x i).trans (hlabel i), ?_⟩
      rw [count s x (by simp [hl]), hlabel, hcount, List.filter_append, List.length_append]
      by_cases hself : links t x = x <;> simp [hself])
  exact hloop.2

/-- Where no entry is unused there is nothing to skip. -/
theorem mergeEntry_foldl {is : List Nat} {stack : Buf (Blob w)} (h : ∀ i ∈ is, (t i).label ≠ 0) :
    is.foldl mergeEntry ⟨t, stack, 0⟩ = is.foldl mergeUsed ⟨t, stack, 0⟩ := by
  have hrel := Fold.related
    (R := fun (a b : Merge w) => a = b ∧ ∀ i, (b.blobs i).label = (t i).label)
    (f := mergeEntry) (g := mergeUsed) is ⟨t, stack, 0⟩ ⟨t, stack, 0⟩ ⟨rfl, fun _ => rfl⟩ (by
      rintro x hx a b ⟨rfl, hl⟩
      refine ⟨(mergeUsed_eq (by rw [hl]; exact h x hx)).symm, fun i => ?_⟩
      rw [mergeUsed_label, hl])
  exact hrel.1

theorem gathering_concat : gathering t P lab (pre ++ [x]) d =
    gathering t P lab pre d ∪ P.filter (fun q => lab q = x ∧ links t (lab q) = d) := by
  ext q
  simp only [gathering, List.mem_append, List.mem_singleton, Finset.mem_union, Finset.mem_filter]
  tauto

/-- Entries no merged entry points to gather nothing new. -/
theorem gathering_same (h : ∀ q ∈ P, lab q = x → links t (lab q) ≠ d) :
    gathering t P lab (pre ++ [x]) d = gathering t P lab pre d := by
  rw [gathering_concat, Finset.filter_eq_empty_iff.mpr, Finset.union_empty]
  rintro q hq ⟨hx, hd⟩
  exact h q hq hx hd

/-- A turn at `x` adds the pixels labelled `x` to what the root of `x` has gathered. -/
theorem gathering_root (hd : links t x = d) : gathering t P lab (pre ++ [x]) d =
    gathering t P lab pre d ∪ P.filter (fun q => lab q = x) := by
  rw [gathering_concat]
  congr 1
  apply Finset.filter_congr
  intro q _
  constructor
  · exact fun h => h.1
  · intro he
    exact ⟨he, by rw [he, hd]⟩

theorem gathering_apart (hne : d ≠ x) (hnx : x ∉ pre) :
    Disjoint (gathering t P lab pre d) (P.filter (fun q => lab q = x)) := by
  rw [Finset.disjoint_left]
  intro q hq hq'
  obtain ⟨_, hor⟩ := Finset.mem_filter.mp hq
  have he := (Finset.mem_filter.mp hq').2
  rcases hor with hor | ⟨hor, _⟩
  · exact hne (hor.symm.trans he)
  · exact hnx (he ▸ hor)

/-- An entry that is not a root gathers its own pixels only: links lead to roots. -/
theorem Mergeable.gathering_own (m : Mergeable n t P lab clean) (hne : links t x ≠ x) :
    gathering t P lab pre x = P.filter (fun q => lab q = x) := by
  apply Finset.filter_congr
  intro q hq
  constructor
  · rintro (he | ⟨_, he⟩)
    · exact he
    · have hfixed := m.fixed q hq
      rw [he] at hfixed
      exact absurd hfixed hne
  · exact Or.inl

theorem rootsDown_concat : rootsDown t P lab (pre ++ [x]) =
    rootsDown t P lab pre ++ if (∃ p ∈ P, lab p = x) ∧ links t x = x then [x] else [] := by
  simp only [rootsDown, List.filter_append, List.filter_singleton]
  congr 1
  by_cases h : (∃ p ∈ P, lab p = x) ∧ links t x = x
  · rw [if_pos h, decide_eq_true h, cond_true]
  · rw [if_neg h, decide_eq_false h, cond_false]

theorem Merging.start (m : Mergeable n t P lab clean) (stack : Buf (Blob w)) :
    Merging t P lab clean [] ⟨t, stack, 0⟩ where
  label := fun _ => rfl
  sums := by simpa [gathering] using m.sums
  describes := by simpa [gathering] using m.describes
  unused := fun _ _ _ => rfl
  count := by simp [rootsDown]
  recorded := by simp [rootsDown]

namespace Merging

/-- What a turn leaves of the gatherings when the current entry is not used. -/
theorem unused_step (h : Merging t P lab clean pre s) (hx : ∀ p ∈ P, lab p ≠ x) {s' : Merge w}
    (label : ∀ i, (s'.blobs i).label = (s.blobs i).label)
    (cells : ∀ p ∈ P, lab p ∉ pre →
      Sums (s.blobs (lab p)) (gathering t P lab pre (lab p)) →
        Sums (s'.blobs (lab p)) (gathering t P lab pre (lab p)))
    (boxes : ∀ p ∈ P, clean (lab p) → s'.blobs (lab p) = s.blobs (lab p))
    (others : ∀ i, (∀ p ∈ P, lab p ≠ i) → s'.blobs i = s.blobs i)
    (hc : s'.consolidatedBlobs = s.consolidatedBlobs) (hn : s'.numBlobs = s.numBlobs) :
    Merging t P lab clean (pre ++ [x]) s' := by
  have hroots : rootsDown t P lab (pre ++ [x]) = rootsDown t P lab pre := by
    rw [rootsDown_concat, if_neg, List.append_nil]
    rintro ⟨⟨p, hp, he⟩, _⟩
    exact hx p hp he
  have hg : ∀ d, gathering t P lab (pre ++ [x]) d = gathering t P lab pre d :=
    fun d => gathering_same (fun q hq he => absurd he (hx q hq))
  have hpre : ∀ p ∈ P, lab p ∉ pre ++ [x] → lab p ∉ pre :=
    fun p _ hnot hm => hnot (List.mem_append_left _ hm)
  constructor
  · intro i
    rw [label, h.label]
  · intro p hp hnot
    rw [hg]
    exact cells p hp (hpre p hp hnot) (h.sums p hp (hpre p hp hnot))
  · intro p hp hnot hcl
    rw [hg, boxes p hp hcl]
    exact h.describes p hp (hpre p hp hnot) hcl
  · intro i h0 hi
    rw [others i hi]
    exact h.unused i h0 hi
  · rw [hn, h.count, hroots]
  · rw [hc, hroots]
    exact h.recorded

/-- A used entry that is not a root is added to its root. -/
theorem merge_step (m : Mergeable n t P lab clean) (h : Merging t P lab clean pre s)
    (hnx : x ∉ pre) (hu : ∃ p ∈ P, lab p = x) (hne : links t x ≠ x) :
    Merging t P lab clean (pre ++ [x]) (mergeEntry s x) := by
  obtain ⟨p0, hp0, rfl⟩ := hu
  generalize hd : links t (lab p0) = d at hne
  have hlab : (s.blobs (lab p0)).label = d := by rw [h.label, hd]
  have hs : mergeEntry s (lab p0) = { s with
      blobs := s.blobs.write d ((s.blobs d).absorb (s.blobs (lab p0))) } := by
    rw [mergeEntry_merge (by rw [hlab]; exact hne), hlab]
  have hroots : rootsDown t P lab (pre ++ [lab p0]) = rootsDown t P lab pre := by
    rw [rootsDown_concat, if_neg, List.append_nil]
    rintro ⟨_, he⟩
    exact hne (hd ▸ he)
  have hself : gathering t P lab pre (lab p0) = P.filter (fun q => lab q = lab p0) :=
    m.gathering_own (hd ▸ hne)
  have hgd : gathering t P lab (pre ++ [lab p0]) d =
      gathering t P lab pre d ∪ P.filter (fun q => lab q = lab p0) := gathering_root hd
  have hdisj : Disjoint (gathering t P lab pre d) (P.filter (fun q => lab q = lab p0)) :=
    gathering_apart hne hnx
  have hgo : ∀ e, e ≠ d → gathering t P lab (pre ++ [lab p0]) e = gathering t P lab pre e := by
    intro e hed
    apply gathering_same
    intro q _ he hl
    rw [he, hd] at hl
    exact hed hl.symm
  have hpre : ∀ p ∈ P, lab p ∉ pre ++ [lab p0] → lab p ∉ pre :=
    fun p _ hnot hm => hnot (List.mem_append_left _ hm)
  obtain ⟨q0, hq0, hq0d⟩ := m.carried p0 hp0
  rw [hd] at hq0d
  constructor
  · intro i
    rw [mergeEntry_label, h.label]
  · intro p hp hnot
    rw [hs]
    by_cases he : lab p = d
    · simp only [he, Buf.write_same]
      rw [hgd]
      have h1 := h.sums p hp (hpre p hp hnot)
      have h2 := h.sums p0 hp0 hnx
      rw [he] at h1
      rw [hself] at h2
      exact h1.absorb h2 hdisj
    · simp only [Buf.write_other _ _ he]
      rw [hgo _ he]
      exact h.sums p hp (hpre p hp hnot)
  · intro p hp hnot hcl
    rw [hs]
    by_cases he : lab p = d
    · simp only [he, Buf.write_same]
      rw [hgd]
      have h1 := h.describes p hp (hpre p hp hnot) hcl
      have h2 := h.describes p0 hp0 hnx (m.clean_of_root p0 hp0 (by rw [hd, ← he]; exact hcl))
      rw [he] at h1
      rw [hself] at h2
      exact h1.absorb h2 hdisj
    · simp only [Buf.write_other _ _ he]
      rw [hgo _ he]
      exact h.describes p hp (hpre p hp hnot) hcl
  · intro i h0 hi
    have hid : i ≠ d := fun he => hi q0 hq0 (hq0d.trans he.symm)
    rw [hs]
    simp only [Buf.write_other _ _ hid]
    exact h.unused i h0 hi
  · rw [hs, hroots]
    exact h.count
  · rw [hs, hroots]
    exact h.recorded

/-- A root is complete when it is reached: all labels that point to it lie above. -/
theorem record_step (m : Mergeable n t P lab clean) (h : Merging t P lab clean pre s)
    (hnx : x ∉ pre) (habove : ∀ i, x < i → i < n → i ∈ pre) (hu : ∃ p ∈ P, lab p = x)
    (hroot : links t x = x) :
    Merging t P lab clean (pre ++ [x]) (mergeEntry s x) := by
  obtain ⟨p0, hp0, rfl⟩ := hu
  have hlab : (s.blobs (lab p0)).label = lab p0 := by rw [h.label, hroot]
  have hgroup : gathering t P lab pre (lab p0) = group t P lab (lab p0) := by
    apply Finset.filter_congr
    intro q hq
    constructor
    · rintro (he | ⟨_, he⟩)
      · rw [he, hroot]
      · exact he
    · intro he
      have h1 := m.le q hq
      have h2 := m.range q hq
      by_cases hqe : lab q = lab p0
      · exact Or.inl hqe
      · exact Or.inr ⟨habove _ (by omega) h2.2, he⟩
  have hroots : rootsDown t P lab (pre ++ [lab p0]) = rootsDown t P lab pre ++ [lab p0] := by
    rw [rootsDown_concat, if_pos ⟨⟨p0, hp0, rfl⟩, hroot⟩]
  have hpre : ∀ p ∈ P, lab p ∉ pre ++ [lab p0] → lab p ∉ pre :=
    fun p _ hnot hm => hnot (List.mem_append_left _ hm)
  have hg : ∀ p ∈ P, lab p ∉ pre ++ [lab p0] →
      gathering t P lab (pre ++ [lab p0]) (lab p) = gathering t P lab pre (lab p) := by
    intro p _ hnot
    apply gathering_same
    intro q _ he hl
    rw [he, hroot] at hl
    exact hnot (by simp [hl])
  rw [mergeEntry_record hlab]
  constructor
  · exact h.label
  · intro p hp hnot
    rw [hg p hp hnot]
    exact h.sums p hp (hpre p hp hnot)
  · intro p hp hnot hcl
    rw [hg p hp hnot]
    exact h.describes p hp (hpre p hp hnot) hcl
  · exact h.unused
  · rw [hroots, List.length_append, h.count]
    rfl
  · intro k r hk
    rw [hroots] at hk
    by_cases hlt : k < s.numBlobs
    · rw [List.getElem?_append_left (by rw [← h.count]; exact hlt)] at hk
      simp only [Buf.write_other _ _ (Nat.ne_of_lt hlt)]
      exact h.recorded k r hk
    · have hkn : k = s.numBlobs := by
        have := (List.getElem?_eq_some_iff.mp hk).1
        rw [List.length_append, ← h.count, List.length_singleton] at this
        omega
      rw [hkn, h.count, List.getElem?_append_right (Nat.le_refl _)] at hk
      simp only [Nat.sub_self, List.getElem?_cons_zero, Option.some.injEq] at hk
      subst hk
      refine ⟨s.blobs (lab p0), by simp [hkn], ?_, ?_⟩
      · rw [← hgroup]
        exact h.sums p0 hp0 hnx
      · intro hcl
        rw [← hgroup]
        exact h.describes p0 hp0 hnx hcl

theorem step (m : Mergeable n t P lab clean) (h : Merging t P lab clean pre s) (hx : 1 ≤ x)
    (hxn : x < n) (hnx : x ∉ pre) (habove : ∀ i, x < i → i < n → i ∈ pre) :
    Merging t P lab clean (pre ++ [x]) (mergeUsed s x) := by
  by_cases hu : ∃ p ∈ P, lab p = x
  · have hne : (s.blobs x).label ≠ 0 := by
      obtain ⟨p, hp, rfl⟩ := hu
      obtain ⟨q, hq, he⟩ := m.carried p hp
      have := (m.range q hq).1
      rw [h.label]
      omega
    rw [mergeUsed_eq hne]
    by_cases hroot : links t x = x
    · exact h.record_step m hnx habove hu hroot
    · exact h.merge_step m hnx hu hroot
  · have hun : ∀ p ∈ P, lab p ≠ x := fun p hp he => hu ⟨p, hp, he⟩
    obtain ⟨hempty, hlink⟩ := m.unused x hx hxn hun
    by_cases h0 : (s.blobs x).label = 0
    · rw [mergeUsed_skip h0]
      exact h.unused_step hun (fun _ => rfl) (fun _ _ _ hs => hs) (fun _ _ _ => rfl)
        (fun _ _ => rfl) rfl rfl
    · rw [mergeUsed_eq h0]
      rw [h.label] at h0
      obtain ⟨⟨q, hq, hqd⟩, hdirty⟩ := hlink h0
      have hne : (s.blobs x).label ≠ x := by
        rw [h.label, ← hqd]
        exact hun q hq
      rw [mergeEntry_merge hne]
      refine h.unused_step hun ?_ ?_ ?_ ?_ rfl rfl
      · intro i
        by_cases hi : i = (s.blobs x).label
        · subst hi
          simp [Blob.absorb]
        · simp [hi]
      · intro p hp hnot hs
        by_cases hi : lab p = (s.blobs x).label
        · rw [← hi]
          simp only [Buf.write_same]
          rw [h.unused x (by omega) hun]
          simpa using hs.absorb hempty (by simp)
        · simpa [hi] using hs
      · intro p hp hcl
        have hi : lab p ≠ (s.blobs x).label := by
          rw [h.label]
          exact fun he => hdirty (he ▸ hcl)
        simp [hi]
      · intro i hi
        have hid : i ≠ (s.blobs x).label := by
          rw [h.label, ← hqd]
          exact (hi q hq).symm
        simp [hid]

end Merging

/-- After the merge loop there is one recorded blob per root, the highest root
first, and it sums up the pixels of that root. -/
theorem merge_records (m : Mergeable n t P lab clean) (stack : Buf (Blob w)) :
    Merging t P lab clean (upto 1 n).reverse
      ((upto 1 n).reverse.foldl mergeUsed ⟨t, stack, 0⟩) := by
  apply Fold.prefix_induction (P := Merging t P lab clean)
  · exact Merging.start m stack
  · intro pre x post s hl h
    have hsorted : ((upto 1 n).reverse).Pairwise (fun a b => b < a) :=
      List.pairwise_reverse.mpr (upto_sorted 1 n)
    rw [hl, List.pairwise_append, List.pairwise_cons] at hsorted
    obtain ⟨_, ⟨hpost, _⟩, hpre⟩ := hsorted
    have hmem : ∀ i, i ∈ pre ++ x :: post ↔ 1 ≤ i ∧ i < n := by
      intro i
      rw [← hl, List.mem_reverse, mem_upto]
    have hx := (hmem x).mp (by simp)
    refine h.step m hx.1 hx.2 ?_ ?_
    · intro hm
      exact Nat.lt_irrefl x (hpre x hm x (by simp))
    · intro i hlt hn
      rcases List.mem_append.mp ((hmem i).mpr ⟨by omega, hn⟩) with hi | hi
      · exact hi
      · rcases List.mem_cons.mp hi with rfl | hi
        · omega
        · have := hpost i hi
          omega

end Motion
