import Motion.Proofs.Collect

/-! The merge loop over any table of links: an entry is recorded with all that comes down
to it by falling links, slots without pixels included. -/

namespace Motion
open Labelling

/-- The slots that are their own link, from the highest down: the merge loop records these. -/
def ownDown (n : Nat) (t : Table w) : List Nat :=
  (upto 1 n).reverse.filter (fun i => links t i = i)

/-- The slots that come down to `r` by falling links. -/
def drain (n : Nat) (t : Table w) (r : Nat) : Finset Nat :=
  (Finset.Ico 1 n).filter (fun i => Links.root (links t) i = r)

variable {w n k r i j : Nat} {t : Table w} {s : Merge w} {ι : Type}

theorem mem_drain : i ∈ drain n t r ↔ (1 ≤ i ∧ i < n) ∧ Links.root (links t) i = r := by
  unfold drain
  rw [Finset.mem_filter, Finset.mem_Ico]

theorem ownDown_succ (hk : 1 ≤ k) (t : Table w) :
    ownDown (k + 1) t = (if links t k = k then [k] else []) ++ ownDown k t := by
  unfold ownDown
  rw [upto_split hk (Nat.lt_succ_self k), upto_self, List.reverse_append, List.reverse_singleton,
    List.singleton_append, List.filter_cons]
  by_cases hself : links t k = k <;> simp [hself]

theorem mem_ownDown : i ∈ ownDown n t ↔ (1 ≤ i ∧ i < n) ∧ links t i = i := by
  unfold ownDown
  rw [List.mem_filter, List.mem_reverse, mem_upto, decide_eq_true_eq]

theorem ownDown_sorted (n : Nat) (t : Table w) : (ownDown n t).Pairwise (fun a b => b < a) :=
  (List.pairwise_reverse.mpr (upto_sorted 1 n)).filter _

theorem mergeAll_numBlobs_eq (n : Nat) (t : Table w) (stack : Buf (Blob w)) :
    (mergeAll n t stack).numBlobs = (ownDown n t).length := by
  rw [mergeAll_numBlobs]
  unfold ownDown
  rw [List.filter_reverse, List.length_reverse]

/-- A root lies below all that comes down to it. -/
theorem drain_succ_of_not (h : Links.root (links t) k ≠ r) :
    drain (k + 1) t r = drain k t r := by
  ext i
  rw [mem_drain, mem_drain]
  constructor
  · rintro ⟨hi, he⟩
    have hne : i ≠ k := fun hik => h (hik ▸ he)
    exact ⟨by omega, he⟩
  · rintro ⟨hi, he⟩
    exact ⟨by omega, he⟩

theorem drain_succ_of (hk : 1 ≤ k) (h : Links.root (links t) k = r) :
    drain (k + 1) t r = insert k (drain k t r) := by
  ext i
  rw [Finset.mem_insert, mem_drain, mem_drain]
  constructor
  · rintro ⟨hi, he⟩
    by_cases hik : i = k
    · exact Or.inl hik
    · exact Or.inr ⟨by omega, he⟩
  · rintro (rfl | ⟨hi, he⟩)
    · exact ⟨by omega, h⟩
    · exact ⟨by omega, he⟩

/-- A turn of a merge loop records nothing, or one blob after those recorded. -/
def RecordsNext (s s' : Merge w) : Prop :=
  s'.consolidatedBlobs = s.consolidatedBlobs ∧ s'.numBlobs = s.numBlobs ∨
  ∃ b, s'.consolidatedBlobs = s.consolidatedBlobs.write s.numBlobs b ∧
    s'.numBlobs = s.numBlobs + 1

theorem mergeEntry_records (s : Merge w) (x : Nat) : RecordsNext s (mergeEntry s x) := by
  by_cases hself : (s.blobs x).label = x
  · rw [mergeEntry_record hself]
    exact Or.inr ⟨_, rfl, rfl⟩
  · rw [mergeEntry_merge hself]
    exact Or.inl ⟨rfl, rfl⟩

theorem mergeUsed_records (s : Merge w) (x : Nat) : RecordsNext s (mergeUsed s x) := by
  by_cases h0 : (s.blobs x).label = 0
  · rw [mergeUsed_skip h0]
    exact Or.inl ⟨rfl, rfl⟩
  · rw [mergeUsed_eq h0]
    exact mergeEntry_records s x

/-- What is recorded stays as it is, and so does the array past what is recorded. -/
theorem merge_keeps {f : Merge w → Nat → Merge w} (records : ∀ s x, RecordsNext s (f s x))
    (is : List Nat) (s : Merge w) (hj : j < s.numBlobs ∨ (is.foldl f s).numBlobs ≤ j) :
    (is.foldl f s).consolidatedBlobs j = s.consolidatedBlobs j := by
  have hloop := Fold.invariant
    (P := fun u : Merge w => s.numBlobs ≤ u.numBlobs ∧ ∀ j, j < s.numBlobs ∨ u.numBlobs ≤ j →
      u.consolidatedBlobs j = s.consolidatedBlobs j)
    (f := f) is s ⟨Nat.le_refl _, fun _ _ => rfl⟩ (by
      rintro x - u ⟨hle, he⟩
      cases records u x with
      | inl h =>
        rw [h.1, h.2]
        exact ⟨hle, he⟩
      | inr h =>
        obtain ⟨b, hb, hn⟩ := h
        rw [hb, hn]
        refine ⟨by omega, fun j hj => ?_⟩
        rw [Buf.write_other _ _ (by omega)]
        exact he j (by omega))
  exact hloop.2 j hj

/-- What an entry holds of finite sets adds up when another is merged into it. -/
def Absorbs (holds : Blob w → Finset ι → Prop) [DecidableEq ι] : Prop :=
  ∀ b c S U, holds b S → holds c U → Disjoint S U → holds (b.absorb c) (S ∪ U)

/-- What `k` holds, handed over to `d`. -/
def handOver [DecidableEq ι] (F : Nat → Finset ι) (k d : Nat) : Nat → Finset ι :=
  Function.update F d (F d ∪ F k)

section handOver

variable [DecidableEq ι] {F : Nat → Finset ι} {D : Finset Nat} {d : Nat}

theorem handOver_self (F : Nat → Finset ι) (k d : Nat) : handOver F k d d = F d ∪ F k :=
  Function.update_self d _ F

theorem handOver_other (F : Nat → Finset ι) (k : Nat) (h : i ≠ d) : handOver F k d i = F i :=
  Function.update_of_ne h _ F

theorem handOver_apart (hd : d ∈ D) (hk : k ∉ D)
    (apart : ∀ i ∈ insert k D, ∀ j ∈ insert k D, i ≠ j → Disjoint (F i) (F j)) :
    ∀ i ∈ D, ∀ j ∈ D, i ≠ j → Disjoint (handOver F k d i) (handOver F k d j) := by
  have hsub : ∀ i ∈ D, i ∈ insert k D := fun i hi => Finset.mem_insert_of_mem hi
  have hk' : k ∈ insert k D := Finset.mem_insert_self k D
  have hne : ∀ i ∈ D, i ≠ k := fun i hi he => hk (he ▸ hi)
  intro i hi j hj hij
  by_cases hid : i = d
  · have hjd : j ≠ d := fun he => hij (hid.trans he.symm)
    rw [hid, handOver_self, handOver_other F k hjd, Finset.disjoint_union_left]
    exact ⟨apart d (hsub d hd) j (hsub j hj) hjd.symm, apart k hk' j (hsub j hj) (hne j hj).symm⟩
  · rw [handOver_other F k hid]
    by_cases hjd : j = d
    · rw [hjd, handOver_self, Finset.disjoint_union_right]
      exact ⟨apart i (hsub i hi) d (hsub d hd) hid, apart i (hsub i hi) k hk' (hne i hi)⟩
    · rw [handOver_other F k hjd]
      exact apart i (hsub i hi) j (hsub j hj) hij

theorem handOver_biUnion (hd : d ∈ D) : D.biUnion (handOver F k d) = (insert k D).biUnion F := by
  rw [Finset.biUnion_insert]
  ext a
  rw [Finset.mem_union, Finset.mem_biUnion, Finset.mem_biUnion]
  constructor
  · rintro ⟨i, hi, ha⟩
    by_cases hid : i = d
    · rw [hid, handOver_self, Finset.mem_union] at ha
      cases ha with
      | inl ha => exact Or.inr ⟨d, hd, ha⟩
      | inr ha => exact Or.inl ha
    · rw [handOver_other F k hid] at ha
      exact Or.inr ⟨i, hi, ha⟩
  · rintro (ha | ⟨i, hi, ha⟩)
    · refine ⟨d, hd, ?_⟩
      rw [handOver_self, Finset.mem_union]
      exact Or.inr ha
    · refine ⟨i, hi, ?_⟩
      by_cases hid : i = d
      · rw [hid, handOver_self, Finset.mem_union, ← hid]
        exact Or.inl ha
      · rwa [handOver_other F k hid]

end handOver

/-- The state of a merge loop that has come down to slot `k`: the entries below it that
drain to `r` hold each its own, and nothing in common. -/
structure Holding [DecidableEq ι] (holds : Blob w → Finset ι → Prop) (t : Table w) (r k : Nat)
    (F : Nat → Finset ι) (s : Merge w) : Prop where
  label : ∀ i, links s.blobs i = links t i
  holds : ∀ i ∈ drain k t r, holds (s.blobs i) (F i)
  apart : ∀ i ∈ drain k t r, ∀ j ∈ drain k t r, i ≠ j → Disjoint (F i) (F j)

section holding

variable [DecidableEq ι] {holds : Blob w → Finset ι → Prop} {F : Nat → Finset ι}

/-- A turn hands what its entry holds down to where it drains, and leaves the rest. -/
theorem Holding.turn (absorb : Absorbs holds) (h : Holding holds t r (k + 1) F s) (hk : 1 ≤ k)
    (hr : 1 ≤ r) (hrk : r < k) (self : links t r = r) :
    ∃ G, Holding holds t r k G (mergeUsed s k) ∧
      (drain k t r).biUnion G = (drain (k + 1) t r).biUnion F := by
  have hlabel : ∀ i, links (mergeUsed s k).blobs i = links t i :=
    fun i => (mergeUsed_label s k i).trans (h.label i)
  have hlink : (s.blobs k).label = links t k := h.label k
  by_cases hroot : Links.root (links t) k = r
  · -- the entry is merged into one below, which drains to `r`, too
    have hfall : links t k < k := by
      by_contra hge
      rw [Links.root, dif_neg hge] at hroot
      omega
    have hd : links t k ∈ drain k t r := by
      rw [Links.root_below hfall] at hroot
      refine mem_drain.mpr ⟨⟨?_, hfall⟩, hroot⟩
      by_contra h0
      have hz : links t k = 0 := by omega
      have := Links.root_le (links t) 0
      rw [hz] at hroot
      omega
    have hd1 := (mem_drain.mp hd).1.1
    have hsucc := drain_succ_of hk hroot
    have hk' : k ∉ drain k t r := fun hin => by
      have := (mem_drain.mp hin).1
      omega
    have hsub : ∀ i ∈ drain k t r, i ∈ drain (k + 1) t r := by
      intro i hi
      rw [hsucc]
      exact Finset.mem_insert_of_mem hi
    have hkm : k ∈ drain (k + 1) t r := by
      rw [hsucc]
      exact Finset.mem_insert_self k _
    have hmerge : mergeUsed s k = { s with
        blobs := s.blobs.write (links t k) ((s.blobs (links t k)).absorb (s.blobs k)) } := by
      rw [mergeUsed_eq (by omega), mergeEntry_merge (by omega), hlink]
    refine ⟨handOver F k (links t k), ⟨hlabel, ?_, handOver_apart hd hk' (hsucc ▸ h.apart)⟩, ?_⟩
    · intro i hi
      rw [hmerge]
      dsimp only
      by_cases hid : i = links t k
      · rw [hid, Buf.write_same, handOver_self]
        exact absorb _ _ _ _ (h.holds _ (hsub _ hd)) (h.holds k hkm)
          (h.apart _ (hsub _ hd) k hkm hfall.ne)
      · rw [Buf.write_other _ _ hid, handOver_other F k hid]
        exact h.holds i (hsub i hi)
    · rw [hsucc]
      exact handOver_biUnion hd
  · -- no entry that drains to `r` is written
    have hsame : ∀ i ∈ drain k t r, (mergeUsed s k).blobs i = s.blobs i := by
      intro i hi
      obtain ⟨hrange, hir⟩ := mem_drain.mp hi
      by_cases h0 : (s.blobs k).label = 0
      · rw [mergeUsed_skip h0]
      · rw [mergeUsed_eq h0]
        by_cases hself : (s.blobs k).label = k
        · rw [mergeEntry_record hself]
        · rw [mergeEntry_merge hself, hlink]
          refine Buf.write_other _ _ (fun he => ?_)
          by_cases hfall : links t k < k
          · exact hroot ((Links.root_below hfall).trans (he ▸ hir))
          · omega
    have hsucc := drain_succ_of_not hroot
    rw [hsucc]
    refine ⟨F, ⟨hlabel, fun i hi => ?_, fun i hi j hj => ?_⟩, rfl⟩
    · rw [hsame i hi]
      exact h.holds i (hsucc ▸ hi)
    · exact h.apart i (hsucc ▸ hi) j (hsucc ▸ hj)

/-- The loop from slot `k` down records `r` with all that drains to it, after the slots
above it that are their own link. -/
theorem Holding.run (absorb : Absorbs holds) (hr : 1 ≤ r) (self : links t r = r) (hk : r + 1 ≤ k) :
    ∀ (s : Merge w) (F : Nat → Finset ι), Holding holds t r k F s →
      ∃ b, ((upto 1 k).reverse.foldl mergeUsed s).consolidatedBlobs
          (s.numBlobs + (ownDown k t).idxOf r) =
            b.consolidate (s.numBlobs + (ownDown k t).idxOf r) ∧
        holds b ((drain k t r).biUnion F) := by
  induction k, hk using Nat.le_induction with
  | base =>
    intro s F h
    have hlabel : (s.blobs r).label = r := (h.label r).trans self
    have hsing : drain (r + 1) t r = {r} := by
      ext i
      rw [mem_drain, Finset.mem_singleton]
      constructor
      · rintro ⟨hi, he⟩
        have := Links.root_le (links t) i
        omega
      · rintro rfl
        exact ⟨by omega, Links.root_self self⟩
    rw [ownDown_succ hr, if_pos self, List.singleton_append, List.idxOf_cons_self, Nat.add_zero,
      upto_split hr (Nat.lt_succ_self r), upto_self, List.reverse_append, List.reverse_singleton,
      List.singleton_append, List.foldl_cons, mergeUsed_eq (by omega), mergeEntry_record hlabel,
      merge_keeps mergeUsed_records _ _ (Or.inl (Nat.lt_succ_self _))]
    refine ⟨s.blobs r, Buf.write_same _ _ _, ?_⟩
    rw [hsing, Finset.singleton_biUnion]
    exact h.holds r (by simp [hsing])
  | succ k hk ih =>
    intro s F h
    obtain ⟨G, hG, hunion⟩ := h.turn absorb (by omega) hr hk self
    obtain ⟨b, hb, hholds⟩ := ih (mergeUsed s k) G hG
    have hpos : s.numBlobs + (ownDown (k + 1) t).idxOf r =
        (mergeUsed s k).numBlobs + (ownDown k t).idxOf r := by
      rw [mergeUsed_count s (by omega), h.label, ownDown_succ (by omega)]
      by_cases hself : links t k = k
      · rw [if_pos hself, if_pos hself, List.singleton_append,
          List.idxOf_cons_ne _ (by omega : k ≠ r)]
        omega
      · rw [if_neg hself, if_neg hself, List.nil_append, Nat.add_zero]
    rw [hpos, ← hunion, upto_split (by omega : 1 ≤ k) (Nat.lt_succ_self k), upto_self,
      List.reverse_append, List.reverse_singleton, List.singleton_append, List.foldl_cons]
    exact ⟨b, hb, hholds⟩

/-- What the merge loop records for each slot that is its own link. -/
theorem mergeAll_gathers (absorb : Absorbs holds) (stack : Buf (Blob w)) (F : Nat → Finset ι)
    (hr : r ∈ ownDown n t) (hholds : ∀ i ∈ drain n t r, holds (t i) (F i))
    (apart : ∀ i ∈ drain n t r, ∀ j ∈ drain n t r, i ≠ j → Disjoint (F i) (F j)) :
    ∃ b, (mergeAll n t stack).consolidatedBlobs ((ownDown n t).idxOf r) =
        b.consolidate ((ownDown n t).idxOf r) ∧ holds b ((drain n t r).biUnion F) := by
  obtain ⟨hrange, hself⟩ := mem_ownDown.mp hr
  have h := Holding.run absorb hrange.1 hself hrange.2 ⟨t, stack, 0⟩ F
    ⟨fun _ => rfl, hholds, apart⟩
  unfold mergeAll
  simpa only [Nat.zero_add] using h

end holding

/-- A heaviest member of a list, the highest of those. -/
structure Heaviest (l : List Nat) (weight : Nat → Nat) (r : Nat) : Prop where
  mem : r ∈ l
  most : ∀ i ∈ l, weight i ≤ weight r
  first : ∀ i ∈ l, r < i → weight i < weight r

theorem Heaviest.unique {l : List Nat} {weight : Nat → Nat} {r r' : Nat}
    (h : Heaviest l weight r) (h' : Heaviest l weight r') : r = r' := by
  rcases Nat.lt_trichotomy r r' with hlt | he | hlt
  · have := h.first r' h'.mem hlt
    have := h'.most r h.mem
    omega
  · exact he
  · have := h'.first r h.mem hlt
    have := h.most r' h'.mem
    omega

section matched

variable {l l' : List Nat} {weight weight' : Nat → Nat} {R : Nat → Nat → Prop}
  (fill : ∀ i ∈ l, ∃ j ∈ l', R i j) (fill' : ∀ j ∈ l', ∃ i ∈ l, R i j)
  (order : ∀ i j k m, R i j → R k m → (i < k ↔ j < m))
  (weighs : ∀ i j, R i j → weight i = weight' j)

include fill fill' order weighs

/-- In lists that correspond in order and in weight so do the heaviest members. -/
theorem Heaviest.of_matches {r k : Nat} (hr : R r k) (h : Heaviest l weight r) :
    Heaviest l' weight' k := by
  refine ⟨?_, fun j hj => ?_, fun j hj hlt => ?_⟩
  · obtain ⟨m, hm, hrm⟩ := fill r h.mem
    have h1 := order r k r m hr hrm
    have h2 := order r m r k hrm hr
    have he : k = m := by omega
    rwa [he]
  · obtain ⟨i, hi, hij⟩ := fill' j hj
    rw [← weighs i j hij, ← weighs r k hr]
    exact h.most i hi
  · obtain ⟨i, hi, hij⟩ := fill' j hj
    rw [← weighs i j hij, ← weighs r k hr]
    exact h.first i hi ((order r k i j hr hij).mpr hlt)

/-- What holds of the one then holds of the other. -/
theorem Heaviest.exists_iff {P Q : Nat → Prop} (same : ∀ i j, R i j → (P i ↔ Q j)) :
    (∃ i, Heaviest l weight i ∧ P i) ↔ ∃ j, Heaviest l' weight' j ∧ Q j := by
  constructor
  · rintro ⟨i, hi, hp⟩
    obtain ⟨j, _, hij⟩ := fill i hi.mem
    exact ⟨j, Heaviest.of_matches fill fill' order weighs hij hi, (same i j hij).mp hp⟩
  · rintro ⟨j, hj, hq⟩
    obtain ⟨i, _, hij⟩ := fill' j hj.mem
    refine ⟨i, ?_, (same i j hij).mpr hq⟩
    exact Heaviest.of_matches (R := fun j i => R i j) fill' fill
      (fun j i m k hij hkm => (order i j k m hij hkm).symm) (fun j i hij => (weighs i j hij).symm)
      hij hj

end matched

/-- In a list that falls the higher member comes first. -/
theorem idxOf_lt_of_falls {l : List Nat} (falls : l.Pairwise (fun a b => b < a)) {a b : Nat}
    (ha : a ∈ l) (hb : b ∈ l) (h : b < a) : l.idxOf a < l.idxOf b := by
  have ha' := List.idxOf_lt_length_of_mem ha
  have hb' := List.idxOf_lt_length_of_mem hb
  by_contra hge
  rcases Nat.lt_or_eq_of_le (Nat.not_lt.mp hge) with hlt | he
  · have := List.pairwise_iff_getElem.mp falls _ _ hb' ha' hlt
    rw [List.getElem_idxOf, List.getElem_idxOf] at this
    omega
  · have := List.getElem_idxOf hb'
    simp only [he, List.getElem_idxOf] at this
    omega

/-- Of the records made from a list that falls the selection picks one of the heaviest,
and of these the one made first. -/
theorem biggestIndex_selects {l : List Nat} (falls : l.Pairwise (fun a b => b < a))
    {c : Buf (Blob w)} {weight : Nat → Nat} (mass : ∀ i ∈ l, (c (l.idxOf i)).mass = weight i)
    (hr : l[biggestIndex c l.length]? = some r) :
    Heaviest l weight r ∧ l.idxOf r = biggestIndex c l.length := by
  obtain ⟨hlt, he⟩ := List.getElem?_eq_some_iff.mp hr
  have hmem : r ∈ l := List.mem_of_getElem? hr
  have hidx : l.idxOf r = biggestIndex c l.length := by
    rw [← he]
    exact List.Nodup.idxOf_getElem (falls.imp (fun h => (Nat.ne_of_lt h).symm)) _ hlt
  refine ⟨⟨hmem, fun i hi => ?_, fun i hi hri => ?_⟩, hidx⟩
  · have hmax := (biggestIndex_spec c l.length (by omega)).2 _ (List.idxOf_lt_length_of_mem hi)
    rwa [← hidx, mass i hi, mass r hmem] at hmax
  · have hfirst := biggestIndex_first c l.length (l.idxOf i)
      (hidx ▸ idxOf_lt_of_falls falls hi hmem hri)
    rwa [← hidx, mass i hi, mass r hmem] at hfirst

/-- What the collecting passes report, in terms of the slots that are their own link. -/
theorem collectUpTo_ownDown (n : Nat) (stack : Buf (Blob w)) (biggest : Blob w)
    (width height : Nat) (sh : Shared w) :
    (collectUpTo n stack biggest width height sh).numBlobs =
      (ownDown n (redirectAll n sh.blobs)).length ∧
    (collectUpTo n stack biggest width height sh).biggestBlob =
      biggest.fill ((mergeAll n (redirectAll n sh.blobs) stack).consolidatedBlobs
        (biggestIndex (mergeAll n (redirectAll n sh.blobs) stack).consolidatedBlobs
          (ownDown n (redirectAll n sh.blobs)).length)) := by
  rw [← mergeAll_numBlobs_eq n (redirectAll n sh.blobs) stack]
  exact ⟨rfl, rfl⟩

end Motion
