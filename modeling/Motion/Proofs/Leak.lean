import Motion.Proofs.Columns
import Motion.Proofs.Drains
import Motion.Proofs.Sparse
import Motion.Proofs.Survivors

/-! What the record `blob_detect_par` returns says of pixels: the box and the centroid of
those whose labels drain to its root, spoilt where unused slots drain to it as well. -/

namespace Motion
open Labelling

/-- The labelled pixels whose label the table links to `r`. -/
def linkedTo (width : Nat) (out : Buf Nat) (t : Table w) (r : Nat) : Finset Pixel :=
  (frame width 240).filter (fun p => out (idx width p) ≠ 0 ∧ links t (out (idx width p)) = r)

/-- Those whose label comes down to `r` by falling links: what is merged into its entry. -/
def drainedTo (width : Nat) (out : Buf Nat) (t : Table w) (r : Nat) : Finset Pixel :=
  (frame width 240).filter
    (fun p => out (idx width p) ≠ 0 ∧ Links.root (links t) (out (idx width p)) = r)

/-- A record's box is the tight one and its centroid the floored mean of some pixels. -/
structure Pictures (b : Blob w) (S : Finset Pixel) : Prop where
  xMin : IsLeast (Prod.snd '' (S : Set Pixel)) b.xMin
  xMax : IsGreatest (Prod.snd '' (S : Set Pixel)) b.xMax
  yMin : IsLeast (Prod.fst '' (S : Set Pixel)) b.yMin
  yMax : IsGreatest (Prod.fst '' (S : Set Pixel)) b.yMax
  centroidX : b.centroidX = (∑ p ∈ S, p.2) / S.card
  centroidY : b.centroidY = (∑ p ∈ S, p.1) / S.card

/-- The record returned was made from a slot that is its own link, it pictures the pixels
linked to that slot, and no slot without a pixel has been merged into it. -/
def RealRecord (width : Nat) (out : Buf Nat) (t : Table w) (d : Detection w) : Prop :=
  ∃ r, (ownDown (maxBlobsPerThread * 4) t)[biggestIndex d.consolidatedBlobs d.numBlobs]? = some r ∧
    Pictures d.biggestBlob (linkedTo width out t r) ∧
    ∀ i ∈ drain (maxBlobsPerThread * 4) t r, ∃ p, InFrame width 240 p ∧ out (idx width p) = i

/-- The slot most pixels drain to, of those that are their own link; the highest such slot. -/
def Foremost (width : Nat) (out : Buf Nat) (t : Table w) (r : Nat) : Prop :=
  Heaviest (ownDown (maxBlobsPerThread * 4) t) (fun i => (drainedTo width out t i).card) r

/-- Slot 0 leads to a label that drains to `r`, and above that label there is a slot no
pixel carries: redirected to it, the slot takes its zeros along. -/
def Leaks (width : Nat) (out : Buf Nat) (t : Table w) (r : Nat) : Prop :=
  links t 0 ≠ 0 ∧ Links.root (links t) (links t 0) = r ∧
    ∃ i, links t 0 < i ∧ i < maxBlobsPerThread * 4 ∧
      ∀ p, InFrame width 240 p → out (idx width p) ≠ i

/-- The start most moving pixels come down to, of those that come back to themselves; the last
such start. -/
def ForemostStart (input : Buf UInt8) (width : Nat) (order : List Band) (stitches : List Nat)
    (n : Nat) : Prop :=
  Heaviest (returningStarts input width order stitches).toList
    (fun n => (fallingTo input width order stitches n).card) n

/-- The pixels in `P` have the box of those in `S`, and with sums of `w` bits their means. -/
structure SameShape (w : Nat) (P S : Finset Pixel) : Prop where
  xMin : ∀ m, IsLeast (Prod.snd '' (P : Set Pixel)) m → IsLeast (Prod.snd '' (S : Set Pixel)) m
  xMax : ∀ m, IsGreatest (Prod.snd '' (P : Set Pixel)) m →
    IsGreatest (Prod.snd '' (S : Set Pixel)) m
  yMin : ∀ m, IsLeast (Prod.fst '' (P : Set Pixel)) m → IsLeast (Prod.fst '' (S : Set Pixel)) m
  yMax : ∀ m, IsGreatest (Prod.fst '' (P : Set Pixel)) m →
    IsGreatest (Prod.fst '' (S : Set Pixel)) m
  centroidX : (∑ p ∈ P, p.2) % 2 ^ w / (P.card % 2 ^ w) = (∑ p ∈ S, p.2) / S.card
  centroidY : (∑ p ∈ P, p.1) % 2 ^ w / (P.card % 2 ^ w) = (∑ p ∈ S, p.1) / S.card

variable {w width : Nat} {input : Buf UInt8} {order : List Band} {stitches : List Nat}
  {top : Band → Nat} {out : Buf Nat} {blobs t : Table w} {p q : Pixel} {r i : Nat}
  {P S : Finset Pixel} {b : Blob w}

/-- A record of what it describes pictures other pixels exactly if they have that shape. -/
theorem Describes.pictures_iff (h : Describes b P) (biggest : Blob w) (k : Nat) :
    Pictures (biggest.fill (b.consolidate k)) S ↔ SameShape w P S := by
  have hx : (b.consolidate k).centroidX = (∑ p ∈ P, p.2) % 2 ^ w / (P.card % 2 ^ w) := by
    simp [Blob.consolidate, h.sumX, h.mass]
  have hy : (b.consolidate k).centroidY = (∑ p ∈ P, p.1) % 2 ^ w / (P.card % 2 ^ w) := by
    simp [Blob.consolidate, h.sumY, h.mass]
  constructor
  · intro hp
    refine ⟨fun m hm => ?_, fun m hm => ?_, fun m hm => ?_, fun m hm => ?_, ?_, ?_⟩
    · rw [hm.unique h.xMin]
      exact hp.xMin
    · rw [hm.unique h.xMax]
      exact hp.xMax
    · rw [hm.unique h.yMin]
      exact hp.yMin
    · rw [hm.unique h.yMax]
      exact hp.yMax
    · rw [← hx]
      exact hp.centroidX
    · rw [← hy]
      exact hp.centroidY
  · intro hs
    exact ⟨hs.xMin _ h.xMin, hs.xMax _ h.xMax, hs.yMin _ h.yMin, hs.yMax _ h.yMax,
      hx.trans hs.centroidX, hy.trans hs.centroidY⟩

/-- Sums that fit make the shape of some pixels their own. -/
theorem SameShape.refl (off : ∀ p ∈ S, 1 ≤ p.1 ∧ 1 ≤ p.2) (hx : ∑ p ∈ S, p.2 < 2 ^ w)
    (hy : ∑ p ∈ S, p.1 < 2 ^ w) : SameShape w S S := by
  have hm := card_le_sum (f := Prod.snd) (fun p hp => (off p hp).2)
  have hmass : S.card % 2 ^ w = S.card := Nat.mod_eq_of_lt (by omega)
  refine ⟨fun _ h => h, fun _ h => h, fun _ h => h, fun _ h => h, ?_, ?_⟩
  · rw [Nat.mod_eq_of_lt hx, hmass]
  · rw [Nat.mod_eq_of_lt hy, hmass]

@[simp] theorem Blob.consolidate_mass (b : Blob w) (k : Nat) : (b.consolidate k).mass = b.mass :=
  rfl

@[simp] theorem Blob.consolidate_xMin (b : Blob w) (k : Nat) : (b.consolidate k).xMin = b.xMin :=
  rfl

@[simp] theorem Blob.fill_xMin (b c : Blob w) : (b.fill c).xMin = c.xMin := rfl

@[simp] theorem Blob.fill_mass (b c : Blob w) : (b.fill c).mass = c.mass := rfl

/-- All bands but the last end below its labels. -/
theorem bands_last {b : Band} (hb : b ∈ bands) : b = lastBand ∨
    b.startLabel + maxBlobsPerThread ≤ maxBlobsPerThread * 3 + 1 := by
  have hall : ∀ b ∈ bands, b = lastBand ∨
      b.startLabel + maxBlobsPerThread ≤ maxBlobsPerThread * 3 + 1 := by decide
  exact hall b hb

theorem Sums.absorbs : Absorbs (Sums (w := w)) :=
  fun _ _ _ _ hd hb disj => hd.absorb hb disj

theorem Describes.absorbs : Absorbs (Describes (w := w)) :=
  fun _ _ _ _ hd hb disj => hd.absorb hb disj

/-- An entry's least column is no more than that of any entry merged into it. -/
theorem xMin_absorbs (t : Table w) :
    Absorbs (fun (b : Blob w) (S : Finset Nat) => ∀ i ∈ S, b.xMin ≤ (t i).xMin) := by
  intro b c S U hb hc _ i hi
  dsimp only [Blob.absorb]
  rw [pick_min]
  cases Finset.mem_union.mp hi with
  | inl hi => exact Nat.le_trans (Nat.min_le_right _ _) (hb i hi)
  | inr hi => exact Nat.le_trans (Nat.min_le_left _ _) (hc i hi)

namespace Run

variable (h : Bands w input width order top out blobs) (fair : order.Perm bands)
  (ht : Tied input width out blobs t)

include h fair

/-- In the frame the pixels with a label are the moving ones. -/
theorem labelled_iff : (InFrame width 240 p ∧ out (idx width p) ≠ 0) ↔
    Moving input width labelledHeight p := by
  constructor
  · rintro ⟨hf, h0⟩
    by_contra hn
    exact h0 (h.clear hf.2 hn)
  · intro hp
    have hin := hp.1
    unfold Inside labelledHeight at hin
    have := (h.label_range fair hp).1
    exact ⟨⟨by omega, by omega⟩, by omega⟩

theorem mem_linkedTo : p ∈ linkedTo width out t r ↔
    Moving input width labelledHeight p ∧ links t (out (idx width p)) = r := by
  unfold linkedTo
  rw [Finset.mem_filter, mem_frame, ← and_assoc, h.labelled_iff fair]

theorem mem_drainedTo : p ∈ drainedTo width out t r ↔
    Moving input width labelledHeight p ∧ Links.root (links t) (out (idx width p)) = r := by
  unfold drainedTo
  rw [Finset.mem_filter, mem_frame, ← and_assoc, h.labelled_iff fair]

/-- Together the slots that drain to `r` hold the pixels that do. -/
theorem drain_biUnion : (drain (maxBlobsPerThread * 4) t r).biUnion
    (fun i => (moving input width labelledHeight).filter (fun p => out (idx width p) = i)) =
      drainedTo width out t r := by
  ext p
  rw [Finset.mem_biUnion, h.mem_drainedTo fair]
  constructor
  · rintro ⟨i, hi, hp⟩
    obtain ⟨hm, rfl⟩ := Finset.mem_filter.mp hp
    exact ⟨mem_moving.mp hm, (mem_drain.mp hi).2⟩
  · rintro ⟨hm, hroot⟩
    exact ⟨_, mem_drain.mpr ⟨h.label_range fair hm, hroot⟩,
      Finset.mem_filter.mpr ⟨mem_moving.mpr hm, rfl⟩⟩

variable {u : Table w} (hu : redirectAll (maxBlobsPerThread * 4) t = u)

include ht hu

theorem redirected_describes
    (hi : ∃ q, Moving input width labelledHeight q ∧ out (idx width q) = i) :
    Describes (u i) ((moving input width labelledHeight).filter
      (fun p => out (idx width p) = i)) := by
  obtain ⟨q, hq, rfl⟩ := hi
  rw [← hu]
  exact (redirectAll_same _ t _).describes ((ht.same _).describes (h.describes fair hq))

omit h fair in
/-- A slot no pixel carries holds zeros. -/
theorem redirected_unused (h1 : 1 ≤ i)
    (hi : ¬∃ q, Moving input width labelledHeight q ∧ out (idx width q) = i) :
    SameBut Blob.zero (u i) := by
  have hsame := redirectAll_same (maxBlobsPerThread * 4) t i
  rwa [ht.unused i (by omega) (fun q hq he => hi ⟨q, hq, he⟩), hu] at hsame

theorem redirected_sums (h1 : 1 ≤ i) : Sums (u i)
    ((moving input width labelledHeight).filter (fun p => out (idx width p) = i)) := by
  by_cases hi : ∃ q, Moving input width labelledHeight q ∧ out (idx width q) = i
  · exact (h.redirected_describes fair ht hu hi).toSums
  · have hempty : (moving input width labelledHeight).filter
        (fun p => out (idx width p) = i) = ∅ :=
      Finset.filter_eq_empty_iff.mpr (fun q hq he => hi ⟨q, mem_moving.mp hq, he⟩)
    rw [hempty]
    exact (redirected_unused ht hu h1 hi).sums Sums.zero

section record

variable (stack : Buf (Blob w)) (hr : r ∈ ownDown (maxBlobsPerThread * 4) u)

include hr

/-- The mass recorded for a slot is the number of pixels that drain to it. -/
theorem record_mass : ((mergeAll (maxBlobsPerThread * 4) u stack).consolidatedBlobs
    ((ownDown (maxBlobsPerThread * 4) u).idxOf r)).mass = (drainedTo width out u r).card := by
  obtain ⟨b, hb, hsums⟩ := mergeAll_gathers Sums.absorbs stack
    (fun i => (moving input width labelledHeight).filter (fun p => out (idx width p) = i)) hr
    (fun i hi => h.redirected_sums fair ht hu (mem_drain.mp hi).1.1)
    (fun i _ j _ hne => Finset.disjoint_filter.mpr (fun p _ hi hj => hne (hi.symm.trans hj)))
  rw [h.drain_biUnion fair] at hsums
  rw [hb, Blob.consolidate_mass]
  exact hsums.mass

/-- Where every slot that drains to it is carried, the record describes those pixels. -/
theorem record_describes (tight : ∀ i ∈ drain (maxBlobsPerThread * 4) u r,
      ∃ q, Moving input width labelledHeight q ∧ out (idx width q) = i) :
    ∃ b, (mergeAll (maxBlobsPerThread * 4) u stack).consolidatedBlobs
          ((ownDown (maxBlobsPerThread * 4) u).idxOf r) =
        b.consolidate ((ownDown (maxBlobsPerThread * 4) u).idxOf r) ∧
      Describes b (drainedTo width out u r) := by
  rw [← h.drain_biUnion fair]
  exact mergeAll_gathers Describes.absorbs stack _ hr
    (fun i hi => h.redirected_describes fair ht hu (tight i hi))
    (fun i _ j _ hne => Finset.disjoint_filter.mpr (fun p _ hi hj => hne (hi.symm.trans hj)))

omit h fair in
/-- Where one is not, its zeros are the record's least column. -/
theorem record_spoilt (hi : i ∈ drain (maxBlobsPerThread * 4) u r)
    (unused : ¬∃ q, Moving input width labelledHeight q ∧ out (idx width q) = i) :
    ((mergeAll (maxBlobsPerThread * 4) u stack).consolidatedBlobs
      ((ownDown (maxBlobsPerThread * 4) u).idxOf r)).xMin = 0 := by
  obtain ⟨b, hb, hle⟩ := mergeAll_gathers (xMin_absorbs u) stack (fun i => {i}) hr
    (fun i _ j hj => by rw [Finset.mem_singleton.mp hj])
    (fun i _ j _ hne => Finset.disjoint_singleton.mpr hne)
  obtain ⟨l, hl⟩ := redirected_unused ht hu (mem_drain.mp hi).1.1 unused
  have hzero := hle i (Finset.mem_biUnion.mpr ⟨i, hi, Finset.mem_singleton_self i⟩)
  rw [hl] at hzero
  rw [hb, Blob.consolidate_xMin]
  exact Nat.le_zero.mp hzero

/-- Slot 0 leaks into a record exactly where an unused slot drains to it. -/
theorem leaks_iff : Leaks width out u r ↔ ∃ i ∈ drain (maxBlobsPerThread * 4) u r,
    ¬∃ q, Moving input width labelledHeight q ∧ out (idx width q) = i := by
  obtain ⟨hrange, hself⟩ := mem_ownDown.mp hr
  have hlink : ∀ i, 1 ≤ i → i < maxBlobsPerThread * 4 →
      (¬∃ q, Moving input width labelledHeight q ∧ out (idx width q) = i) →
      links u i = links u 0 := by
    intro i h1 hn hun
    rw [← hu, redirect_unused ht h1 hn (fun q hq he => hun ⟨q, hq, he⟩), redirectAll_zero]
  unfold Leaks
  constructor
  · rintro ⟨h0, hroot, i, hzi, hn, hi⟩
    have hun : ¬∃ q, Moving input width labelledHeight q ∧ out (idx width q) = i :=
      fun ⟨q, hq, he⟩ => hi q ((h.labelled_iff fair).mpr hq).1 he
    have hzero := hlink i (by omega) hn hun
    refine ⟨i, mem_drain.mpr ⟨⟨by omega, hn⟩, ?_⟩, hun⟩
    rw [Links.root_below (by omega), hzero, hroot]
  · rintro ⟨i, hi, hun⟩
    obtain ⟨⟨h1, hn⟩, hroot⟩ := mem_drain.mp hi
    have hzero := hlink i h1 hn hun
    have hfall : links u i < i := by
      by_contra hge
      rw [Links.root, dif_neg hge] at hroot
      exact hun (used_of_self ht h1 hn (by rw [hu, hroot, hself]))
    rw [Links.root_below hfall, hzero] at hroot
    refine ⟨fun h0 => ?_, hroot, i, by omega, hn, fun p hp he => hun ⟨p, ?_, he⟩⟩
    · have := Links.root_le (links u) 0
      rw [h0] at hroot
      omega
    · exact (h.labelled_iff fair).mp ⟨hp, by omega⟩

/-- A slot that does not leak has its pixels described; one that does begins at column 0. -/
theorem record_pictures_iff (stack : Buf (Blob w)) (biggest : Blob w) :
    (Pictures (biggest.fill ((mergeAll (maxBlobsPerThread * 4) u stack).consolidatedBlobs
        ((ownDown (maxBlobsPerThread * 4) u).idxOf r))) (linkedTo width out u r) ∧
      ∀ i ∈ drain (maxBlobsPerThread * 4) u r,
        ∃ p, InFrame width 240 p ∧ out (idx width p) = i) ↔
      ¬Leaks width out u r ∧
        SameShape w (drainedTo width out u r) (linkedTo width out u r) := by
  by_cases hleak : Leaks width out u r
  · refine iff_of_false (fun ⟨hp, _⟩ => ?_) (fun hs => hs.1 hleak)
    obtain ⟨i, hi, hun⟩ := (h.leaks_iff fair ht hu hr).mp hleak
    obtain ⟨p, hp, he⟩ := hp.xMin.1
    rw [Blob.fill_xMin, record_spoilt ht hu stack hr hi hun] at he
    have hin := ((h.mem_linkedTo fair).mp (Finset.mem_coe.mp hp)).1.1
    unfold Inside at hin
    omega
  · have tight : ∀ i ∈ drain (maxBlobsPerThread * 4) u r,
        ∃ q, Moving input width labelledHeight q ∧ out (idx width q) = i := by
      intro i hi
      by_contra hun
      exact hleak ((h.leaks_iff fair ht hu hr).mpr ⟨i, hi, hun⟩)
    obtain ⟨b, hb, hdesc⟩ := h.record_describes fair ht hu stack hr tight
    rw [hb, hdesc.pictures_iff]
    refine ⟨fun hs => ⟨hleak, hs.1⟩, fun hs => ⟨hs.2, fun i hi => ?_⟩⟩
    obtain ⟨q, hq, he⟩ := tight i hi
    exact ⟨q, ((h.labelled_iff fair).mpr hq).1, he⟩

end record

/-- The record selected is that of the foremost slot. -/
theorem selected (stack : Buf (Blob w)) {c : Buf (Blob w)}
    (hc : (mergeAll (maxBlobsPerThread * 4) u stack).consolidatedBlobs = c)
    (hne : ownDown (maxBlobsPerThread * 4) u ≠ []) :
    ∃ r, Foremost width out u r ∧ (ownDown (maxBlobsPerThread * 4) u).idxOf r =
      biggestIndex c (ownDown (maxBlobsPerThread * 4) u).length := by
  have hlt := (biggestIndex_spec c _ (List.length_pos_of_ne_nil hne)).1
  have hmass := fun i hi => h.record_mass fair ht hu stack (r := i) hi
  rw [hc] at hmass
  exact ⟨_, biggestIndex_selects (ownDown_sorted (maxBlobsPerThread * 4) u) hmass
    (List.getElem?_eq_getElem hlt)⟩

/-- When the record selected pictures the pixels linked to the slot it was made from. -/
theorem pictures_iff (stack : Buf (Blob w)) (biggest : Blob w) {c : Buf (Blob w)}
    (hc : (mergeAll (maxBlobsPerThread * 4) u stack).consolidatedBlobs = c) :
    (∃ r, (ownDown (maxBlobsPerThread * 4) u)[biggestIndex c
          (ownDown (maxBlobsPerThread * 4) u).length]? = some r ∧
      Pictures (biggest.fill (c (biggestIndex c (ownDown (maxBlobsPerThread * 4) u).length)))
        (linkedTo width out u r) ∧
      ∀ i ∈ drain (maxBlobsPerThread * 4) u r,
        ∃ p, InFrame width 240 p ∧ out (idx width p) = i) ↔
    ∃ r, Foremost width out u r ∧ ¬Leaks width out u r ∧
      SameShape w (drainedTo width out u r) (linkedTo width out u r) := by
  have hselects := fun r hk => biggestIndex_selects (r := r)
    (ownDown_sorted (maxBlobsPerThread * 4) u)
    (fun i hi => h.record_mass fair ht hu stack hi) hk
  rw [hc] at hselects
  have hpictures := fun r hr => h.record_pictures_iff fair ht hu (r := r) hr stack biggest
  rw [hc] at hpictures
  constructor
  · rintro ⟨r, hk, hp⟩
    obtain ⟨hheavy, hidx⟩ := hselects r hk
    rw [← hidx] at hp
    exact ⟨r, hheavy, (hpictures r hheavy.mem).mp hp⟩
  · rintro ⟨r, hr, hreal⟩
    have hlt := (biggestIndex_spec c _ (List.length_pos_of_mem hr.mem)).1
    have hk := List.getElem?_eq_getElem hlt
    have he := Heaviest.unique hr (hselects _ hk).1
    rw [← he] at hk
    refine ⟨r, hk, ?_⟩
    rw [← (hselects r hk).2]
    exact (hpictures r hr.mem).mpr hreal

omit ht hu in
/-- Once the scans have written slot 0 it leads to a label, whatever the stitches do. -/
theorem slot_written {l : List Pixel} (hl : ∀ p ∈ l, Inside width labelledHeight p)
    (spill : ∃ p ∈ order.flatMap (Band.pixels width), Spills input width order p) :
    links (stitchAll width out l blobs) 0 ≠ 0 := by
  have hstart : links blobs 0 ≠ 0 := by
    obtain ⟨p, hp, hs⟩ := spill
    obtain ⟨z, _, _, hz⟩ := lastSpill_of_spills hp hs
    obtain ⟨q, hq, he, _⟩ := h.spilled.2 z hz
    have := (h.label_range fair ((live_iff w fair).mp hq)).1
    unfold links
    omega
  refine Fold.invariant (P := fun t : Table w => links t 0 ≠ 0) l blobs hstart ?_
  intro p hp t h0
  cases h.stitchPixel_step fair (hl p hp) t with
  | idle _ same => rwa [same]
  | join a ha _ write keep =>
    have hpos := (h.label_range fair ha.2).1
    unfold links at h0 ⊢
    by_cases hk : Touched width out p 0 ∧ 0 ≠ out (idx width a)
    · rw [write 0 hk.1 hk.2]
      dsimp only
      omega
    · rwa [keep 0 (by tauto)]

section falls

variable (falls : Links.Falls
  (fun i => ∃ q, Moving input width labelledHeight q ∧ out (idx width q) = i) (links t))

include falls

omit ht in
/-- Where links fall the redirect pass settles every label in use at its root. -/
theorem settled (hq : Moving input width labelledHeight q) :
    links u (out (idx width q)) = Links.root (links t) (out (idx width q)) := by
  have hroot := redirectAll_root (n := maxBlobsPerThread * 4) _ t
    (by
      rintro j ⟨q, hq, rfl⟩
      exact h.label_range fair hq)
    (fun j hj => (falls j hj).1) ⟨q, hq, rfl⟩
  rw [← hu, hroot, Links.root_fixed falls ⟨q, hq, rfl⟩, Links.root_fixed falls ⟨q, hq, rfl⟩]

omit ht in
theorem settled_self (hq : Moving input width labelledHeight q) :
    links u (links u (out (idx width q))) = links u (out (idx width q)) := by
  rw [h.settled fair hu falls hq]
  obtain ⟨r, hr, he⟩ := Links.root_used falls ⟨q, hq, rfl⟩
  rw [← he, h.settled fair hu falls hr, he]
  exact Links.root_self (Links.root_fixed falls ⟨q, hq, rfl⟩)

omit ht in
theorem settled_root (hq : Moving input width labelledHeight q) :
    Links.root (links u) (out (idx width q)) = links u (out (idx width q)) := by
  have hle : links u (out (idx width q)) ≤ out (idx width q) := by
    rw [h.settled fair hu falls hq]
    exact Links.root_le _ _
  rw [Links.root_link hle, Links.root_self (h.settled_self fair hu falls hq)]

omit ht in
/-- There the pixels that drain to a slot are those linked to it. -/
theorem drained_eq_linked : drainedTo width out u r = linkedTo width out u r := by
  ext p
  rw [h.mem_drainedTo fair, h.mem_linkedTo fair]
  exact and_congr_right (fun hp => by rw [h.settled_root fair hu falls hp])

end falls

end Run

theorem collectUpTo_realRecord (n : Nat) (stack : Buf (Blob w)) (biggest : Blob w)
    (sh : Shared w) :
    RealRecord width out t (collectUpTo n stack biggest width 240 sh) ↔
    ∃ r, (ownDown (maxBlobsPerThread * 4) t)[biggestIndex
        (mergeAll n (redirectAll n sh.blobs) stack).consolidatedBlobs
        (ownDown n (redirectAll n sh.blobs)).length]? = some r ∧
      Pictures (biggest.fill ((mergeAll n (redirectAll n sh.blobs) stack).consolidatedBlobs
        (biggestIndex (mergeAll n (redirectAll n sh.blobs) stack).consolidatedBlobs
          (ownDown n (redirectAll n sh.blobs)).length))) (linkedTo width out t r) ∧
      ∀ i ∈ drain (maxBlobsPerThread * 4) t r,
        ∃ p, InFrame width 240 p ∧ out (idx width p) = i := by
  rw [← mergeAll_numBlobs_eq n (redirectAll n sh.blobs) stack]
  rfl

namespace Run

section starts

variable (h : Bands w input width order top out blobs) (fair : order.Perm bands)
  {u : Table w} (hu : redirectAll (maxBlobsPerThread * 4) t = u)
  (hs : Sewn input width order stitches out t) {n : Nat}

include h fair

/-- Above a label a slot is unused unless the label is of the last band, which takes all. -/
theorem slotAbove_iff
    (counts : ∀ b ∈ bands, top b = b.startLabel + labelsTaken input width order b)
    (hq : Moving input width labelledHeight q) :
    (∃ i, out (idx width q) < i ∧ i < maxBlobsPerThread * 4 ∧
      ∀ p, InFrame width 240 p → out (idx width p) ≠ i) ↔
    SlotAbove input width order (parStart input width order q) := by
  obtain ⟨b, hb, hlo, hhi, hin⟩ := h.home q ((live_iff w fair).mpr hq)
  have htop := h.tops b hb
  have hcount := counts b hb
  have hlast : lastBand ∈ bands := by decide
  constructor
  · rintro ⟨i, hqi, hi, hun⟩ ⟨hin', hfull⟩
    obtain rfl := hin.unique hb hlast hin'
    obtain ⟨x, hx, he⟩ := h.taken_carried fair counts hlast (i := i) (by omega) (by
      unfold lastBand maxBlobsPerThread at *
      dsimp only at *
      omega)
    exact hun x ((h.labelled_iff fair).mpr hx).1 he
  · intro habove
    refine ⟨top b, hhi, ?_, fun p hp he => ?_⟩
    · rcases bands_last hb with rfl | hle
      · have hnot : labelsTaken input width order lastBand + 1 ≠ maxBlobsPerThread :=
          fun hfull => habove ⟨hin, hfull⟩
        unfold lastBand maxBlobsPerThread at *
        dsimp only at *
        omega
      · omega
    · have hm := (h.labelled_iff fair).mp ⟨hp, (by omega : out (idx width p) ≠ 0)⟩
      obtain ⟨b', hb', hlo', hhi', _⟩ := h.home p ((live_iff w fair).mpr hm)
      have htop' := h.tops b' hb'
      rcases bands_apart hb hb' with rfl | hap | hap
      · omega
      · omega
      · omega

include hu hs

/-- The redirected links, told by the starts. -/
theorem ends : Links.Matches (StartOf input width order out) (links u)
    (endLink input width order stitches) :=
  h.redirected fair hs hu

theorem drained_starts (hr : StartOf input width order out r n) :
    drainedTo width out u r = fallingTo input width order stitches n := by
  have hends := h.ends fair hu hs
  ext p
  unfold fallingTo
  rw [h.mem_drainedTo fair, Finset.mem_filter, mem_moving]
  exact and_congr_right (fun hp => hends.eq_iff (hends.root ⟨p, hp, rfl, rfl⟩) hr)

theorem linked_starts (hr : StartOf input width order out r n) :
    linkedTo width out u r = endingAt input width order stitches n := by
  have hends := h.ends fair hu hs
  ext p
  unfold endingAt
  rw [h.mem_linkedTo fair, Finset.mem_filter, mem_moving]
  exact and_congr_right (fun hp => hends.eq_iff (hends.link _ _ ⟨p, hp, rfl, rfl⟩) hr)

/-- The foremost slot is that of the foremost start. -/
theorem foremost_starts (ht : Tied input width out blobs t) {P Q : Nat → Prop}
    (same : ∀ r n, StartOf input width order out r n → (P r ↔ Q n)) :
    (∃ r, Foremost width out u r ∧ P r) ↔
      ∃ n, ForemostStart input width order stitches n ∧ Q n := by
  have hends := h.ends fair hu hs
  have hself : ∀ i n, StartOf input width order out i n →
      (links u i = i ↔ endLink input width order stitches n = n) :=
    fun i n hi => hends.eq_iff (hends.link i n hi) hi
  refine Heaviest.exists_iff ?_ ?_ hends.order
    (fun r n hr => congrArg Finset.card (h.drained_starts fair hu hs hr)) same
  · intro i hi
    obtain ⟨hrange, he⟩ := mem_ownDown.mp hi
    obtain ⟨q, hq, rfl⟩ := used_of_self ht hrange.1 hrange.2 (hu ▸ he)
    refine ⟨_, ?_, q, hq, rfl, rfl⟩
    rw [Finset.mem_toList]
    exact Finset.mem_filter.mpr ⟨Finset.mem_image_of_mem _ (mem_moving.mpr hq),
      (hself _ _ ⟨q, hq, rfl, rfl⟩).mp he⟩
  · intro n hn
    rw [Finset.mem_toList] at hn
    obtain ⟨himage, he⟩ := Finset.mem_filter.mp hn
    obtain ⟨q, hq, rfl⟩ := Finset.mem_image.mp himage
    have hq := mem_moving.mp hq
    exact ⟨_, mem_ownDown.mpr ⟨h.label_range fair hq, (hself _ _ ⟨q, hq, rfl, rfl⟩).mpr he⟩,
      q, hq, rfl, rfl⟩

/-- And slot 0 leaks into it where it leads to a start that comes down to that one. -/
theorem leaks_starts
    (counts : ∀ b ∈ bands, top b = b.startLabel + labelsTaken input width order b)
    (hr : StartOf input width order out r n) :
    Leaks width out u r ↔ SlotLeaks input width order stitches n := by
  have hends := h.ends fair hu hs
  have hzero : links u 0 = links t 0 := by rw [← hu, redirectAll_zero]
  unfold Leaks SlotLeaks
  rw [hzero]
  cases hslot : slotStart input width order (order.flatMap (Band.pixels width))
      (seamPixels width stitches) with
  | none => simp [hs.unspilt hslot]
  | some z =>
    obtain ⟨q, hq, he, rfl⟩ := (startOf_iff fair t).mp (hs.spilt z hslot)
    have hpos := (h.label_range fair hq).1
    have hroot := hends.eq_iff (hends.root ⟨q, hq, rfl, rfl⟩) hr
    rw [← he, hroot, h.slotAbove_iff fair counts hq]
    constructor
    · rintro ⟨_, hn, habove⟩
      exact ⟨_, rfl, hn, habove⟩
    · rintro ⟨_, hz, hn, habove⟩
      obtain rfl := Option.some.inj hz
      exact ⟨by omega, hn, habove⟩

end starts

end Run

/-- Most pixels come down to the start of the upper pole. -/
theorem twoPoles_foremost : ForemostStart twoPoles 3 bands seams (idx 3 (1, 1)) := by
  have hupper := twoPoles_labelled.fallingTo_card poleRows_upper seams
  have hlower := twoPoles_labelled.fallingTo_card poleRows_lower seams
  have hmem : ∀ n, n ∈ (returningStarts twoPoles 3 bands seams).toList ↔
      n = idx 3 (1, 1) ∨ n = idx 3 (59, 1) :=
    fun n => Finset.mem_toList.trans mem_returning_poles
  refine ⟨(hmem _).mpr (Or.inl rfl), fun n hn => ?_, fun n hn hlt => ?_⟩
  · rcases (hmem n).mp hn with rfl | rfl
    · exact Nat.le_refl _
    · exact (hlower.trans_le (by decide)).trans hupper.ge
  · rcases (hmem n).mp hn with rfl | rfl
    · exact absurd hlt (Nat.lt_irrefl _)
    · exact (hlower.trans_lt (by decide)).trans_le hupper.ge

/-- And slot 0 does not leak there. -/
theorem twoPoles_tight : ¬SlotLeaks twoPoles 3 bands seams (idx 3 (1, 1)) := by
  rintro ⟨z, hz, hroot, _⟩
  rw [twoPoles_labelled.poles_slot] at hz
  obtain rfl := Option.some.inj hz
  rw [twoPoles_labelled.endLink_eq, Links.root_self rfl] at hroot
  exact absurd hroot (by decide)

theorem sum_lt_of_small {S : Finset Pixel} {f : Pixel → Nat} {c m n : Nat} (few : S.card ≤ c)
    (small : ∀ p ∈ S, f p ≤ m) (fits : c * m < n) : ∑ p ∈ S, f p < n := by
  have hle := Finset.sum_le_card_nsmul S f m small
  rw [smul_eq_mul] at hle
  exact Nat.lt_of_le_of_lt (hle.trans (Nat.mul_le_mul_right m few)) fits

/-- When the record `blob_detect_par` returns describes real pixels: when slot 0 does not
leak into the start most pixels come down to, and those pixels have the shape of the ones
that end there. Where no stitch writes a link upwards and sums fit, when slot 0 does not leak. -/
theorem biggest_real_iff {stack : Buf (Blob w)} {biggest : Blob w} {d : Detection w}
    (fair : order.Perm bands) (fair' : stitches.Perm seams)
    (run : blobDetectPar order stitches stack biggest (Buf.all 0) input width 240 = some d) :
    ∃ sh : Shared w, runLabels input width order (Shared.fresh (Buf.all 0)) = some sh ∧
      ∃ u, u = redirectAll (maxBlobsPerThread * 4) (stitches.foldl (stitch width) sh).blobs ∧
      (RealRecord width sh.output u d ↔ ∃ n, ForemostStart input width order stitches n ∧
        ¬SlotLeaks input width order stitches n ∧
        SameShape w (fallingTo input width order stitches n)
          (endingAt input width order stitches n)) ∧
      ((∀ p ∈ seamPixels width stitches, ¬Rises input width order p) →
        ∑ p ∈ moving input width labelledHeight, p.2 < 2 ^ w →
        ∑ p ∈ moving input width labelledHeight, p.1 < 2 ^ w →
        (RealRecord width sh.output u d ↔ ∃ n, ForemostStart input width order stitches n ∧
          ¬SlotLeaks input width order stitches n)) := by
  obtain ⟨sh, hsh, rfl⟩ := blobDetectPar_some run
  obtain ⟨top, h, counts⟩ := runLabels_counts fair hsh
  have hin : ∀ p ∈ seamPixels width stitches, Inside width labelledHeight p :=
    fun p hp => seam_inside fair' hp
  have ht := h.stitchAll_tied fair hin
  have hs := runLabels_sewn fair fair' hsh
  refine ⟨sh, hsh, _, rfl, ?_⟩
  rw [stitch_foldl, collectUpTo_realRecord]
  dsimp only
  generalize hu : redirectAll (maxBlobsPerThread * 4)
    (stitchAll width sh.output (seamPixels width stitches) sh.blobs) = u
  have hleaks := fun r n hr => not_congr (h.leaks_starts fair hu hs counts (r := r) (n := n) hr)
  have hpictures := h.pictures_iff fair ht hu stack biggest rfl
  refine ⟨hpictures.trans (h.foremost_starts fair hu hs ht (fun r n hr => ?_)),
    fun level hx hy => hpictures.trans (Iff.trans (exists_congr fun r => and_congr_right
      fun _ => ?_) (h.foremost_starts fair hu hs ht hleaks))⟩
  · rw [hleaks r n hr, h.drained_starts fair hu hs hr, h.linked_starts fair hu hs hr]
  · rw [h.drained_eq_linked fair hu (h.stitched_falls fair hin level)]
    have hfit : ∀ f : Pixel → Nat, ∑ p ∈ moving input width labelledHeight, f p < 2 ^ w →
        ∑ p ∈ linkedTo width sh.output u r, f p < 2 ^ w := by
      intro f hf
      refine Nat.lt_of_le_of_lt (Finset.sum_le_sum_of_subset (fun p hp => ?_)) hf
      exact mem_moving.mpr ((h.mem_linkedTo fair).mp hp).1
    refine ⟨fun hs => hs.1, fun hleak => ⟨hleak, SameShape.refl (fun p hp => ?_) (hfit _ hx)
      (hfit _ hy)⟩⟩
    have hp' := ((h.mem_linkedTo fair).mp hp).1.1
    unfold Inside at hp'
    omega

/-- So the record of the upper pole is that of its pixels. -/
theorem biggest_real_twoPoles : ∃ d : Detection 32,
    blobDetectPar bands seams (Buf.all Blob.zero) Blob.zero (Buf.all 0) twoPoles 3 240 = some d ∧
    ∃ sh : Shared 32, runLabels twoPoles 3 bands (Shared.fresh (Buf.all 0)) = some sh ∧
      RealRecord 3 sh.output
        (redirectAll (maxBlobsPerThread * 4) (seams.foldl (stitch 3) sh).blobs) d := by
  obtain ⟨d, hd⟩ := blobDetectPar_narrow (List.Perm.refl bands) (by decide : 3 ≤ 5) seams
    (Buf.all (Blob.zero (w := 32))) Blob.zero twoPoles 240
  obtain ⟨sh, hsh, u, hu, _, hreal⟩ := biggest_real_iff (List.Perm.refl _) (List.Perm.refl _) hd
  have hrow : ∀ p ∈ moving twoPoles 3 labelledHeight, p.1 ≤ 60 ∧ p.2 ≤ 60 := by
    intro p hp
    rcases twoPoles_labelled.poles (mem_moving.mp hp) with ⟨hc, hr⟩ | ⟨hc, hr⟩
    · omega
    · omega
  have hfew : (moving twoPoles 3 labelledHeight).card ≤ 61 * 61 := by
    have hsub : moving twoPoles 3 labelledHeight ⊆ Finset.range 61 ×ˢ Finset.range 61 := by
      intro p hp
      have := hrow p hp
      rw [Finset.mem_product, Finset.mem_range, Finset.mem_range]
      omega
    simpa using Finset.card_le_card hsub
  refine ⟨d, hd, sh, hsh, ?_⟩
  rw [← hu]
  exact (hreal (twoPoles_labelled.whole (twoPoles_column (by decide)) seams).level
    (sum_lt_of_small hfew (fun p hp => (hrow p hp).2) (by norm_num))
    (sum_lt_of_small hfew (fun p hp => (hrow p hp).1) (by norm_num))).mpr
    ⟨_, twoPoles_foremost, twoPoles_tight⟩

/-- A bar of two pixels, the lower of which writes its label to slot 0. -/
def bar : Buf UInt8 := drawing 3 [(1, 1), (2, 1)]

/-- The zeros of every slot above are taken for pixels of the bar. -/
theorem bar_spoilt :
    ¬∀ (w width : Nat) (input : Buf UInt8) (order : List Band) (stitches : List Nat)
      (stack : Buf (Blob w)) (biggest : Blob w) (sh : Shared w) (d : Detection w), 3 ≤ width →
      order.Perm bands → stitches.Perm seams → (∃ p, Moving input width 240 p) →
      runLabels input width order (Shared.fresh (Buf.all 0)) = some sh →
      blobDetectPar order stitches stack biggest (Buf.all 0) input width 240 = some d →
      d.numBlobs ≤ 200 →
      RealRecord width sh.output
        (redirectAll (maxBlobsPerThread * 4) (stitches.foldl (stitch width) sh).blobs) d := by
  intro hall
  have fair := List.Perm.refl bands
  obtain ⟨sh, hsh, htop, hfoot⟩ := runLabels_any (w := 32) (P := fun sh =>
      sh.output (idx 3 (1, 1)) = 1 ∧ sh.output (idx 3 (2, 1)) = 1)
    (by decide +kernel : (runActive bar 3 bands (Shared.fresh (Buf.all 0))).any _ = true)
  obtain ⟨top, h⟩ := runLabels_run fair hsh
  have hin : ∀ p ∈ seamPixels 3 seams, Inside 3 labelledHeight p :=
    fun p hp => seam_inside (List.Perm.refl seams) hp
  have ht := h.stitchAll_tied fair hin
  -- every label is 1, and slot 0 has been written
  have hone : ∀ i, (∃ q, Moving bar 3 labelledHeight q ∧ sh.output (idx 3 q) = i) → i = 1 := by
    rintro i ⟨q, hq, rfl⟩
    have hm := moving_drawing (by decide) (mem_moving.mpr hq)
    simp only [List.mem_toFinset, List.mem_cons, List.not_mem_nil, or_false] at hm
    rcases hm with rfl | rfl
    · exact htop
    · exact hfoot
  have hspill : Spills bar 3 bands (2, 1) :=
    ⟨⟨(1, 1), by decide, by decide, Or.inl ⟨rfl, Or.inr (Or.inl rfl)⟩, Nat.le_refl 0⟩,
      (1, 0), Or.inl ⟨rfl, Or.inl rfl⟩, fun hb => absurd hb.2.1 (by decide)⟩
  have hslot := h.slot_written fair hin
    ⟨(2, 1), List.mem_flatMap.mpr ⟨⟨1, 59, 1⟩, by decide, mem_of_inRows (by decide) (by decide)⟩,
      hspill⟩
  have hz := hone _ (ht.slot.resolve_left hslot)
  have hd : blobDetectPar bands seams (Buf.all Blob.zero) Blob.zero (Buf.all 0) bar 3 240 =
      some (collectUpTo (maxBlobsPerThread * 4) (Buf.all Blob.zero) Blob.zero 3 240
        ⟨sh.output, stitchAll 3 sh.output (seamPixels 3 seams) sh.blobs⟩) := by
    unfold blobDetectPar
    rw [hsh, Option.map_some, stitch_foldl, collect_eq]
  have hfew : (mergeAll (maxBlobsPerThread * 4) (redirectAll (maxBlobsPerThread * 4)
      (stitchAll 3 sh.output (seamPixels 3 seams) sh.blobs)) (Buf.all Blob.zero)).numBlobs ≤ 2 :=
    Nat.le_trans (Run.numBlobs_le ht _) (Finset.card_le_card (moving_drawing (by decide)))
  have hreal := hall 32 3 bar bands seams _ _ sh _ (by decide) fair (List.Perm.refl seams)
    ⟨(1, 1), by decide⟩ hsh hd (by rw [collectUpTo_numBlobs]; dsimp only; omega)
  rw [stitch_foldl, collectUpTo_realRecord] at hreal
  dsimp only at hreal
  generalize hu : redirectAll (maxBlobsPerThread * 4)
    (stitchAll 3 sh.output (seamPixels 3 seams) sh.blobs) = u at hreal
  obtain ⟨r, hr, hleak, _⟩ := (h.pictures_iff fair ht hu _ _ rfl).mp hreal
  obtain ⟨hrange, hself⟩ := mem_ownDown.mp hr.mem
  have hr1 : r = 1 := hone r (Run.used_of_self ht hrange.1 hrange.2 (hu ▸ hself))
  have hzero : links u 0 = 1 := by rw [← hu, redirectAll_zero, hz]
  subst hr1
  refine hleak ⟨by omega, ?_, 2, by omega, by decide, fun p hp he => ?_⟩
  · rw [hzero, Links.root_self hself]
  · have := hone 2 ⟨p, (h.labelled_iff fair).mp ⟨hp, by omega⟩, he⟩
    omega

end Motion
