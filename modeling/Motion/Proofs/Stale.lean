import Motion.Proofs.ThreadsApart
import Motion.Proofs.Weave

/-! `blob_detect_par` on a buffer its caller has used before. A pixel labelled before one it
looks back at reads what was left there. -/

namespace Motion

/-- Off the rows and columns that are labelled the buffer is 0. -/
def EdgeZero (width : Nat) (output : Buf Nat) : Prop :=
  ∀ q, InFrame width 240 q → ¬Inside width labelledHeight q → output (idx width q) = 0

/-- Each active pixel has its turn after those it looks back at. -/
def LooksBack (input : Buf UInt8) (width : Nat) (labels : List Act) : Prop :=
  ∀ pre b p post, labels = pre ++ .label b p :: post → Moving input width labelledHeight p →
    ∀ q, Behind p q → Inside width labelledHeight q → q ∈ visitsOf pre

/-- Two runs of the threads that differ at most at pixels that have not had their turn. -/
structure Following (width : Nat) (done : List Pixel) (s t : Machine w) : Prop where
  blobs : s.blobs = t.blobs
  labelCounter : s.labelCounter = t.labelCounter
  output : ∀ q, InFrame width 240 q → q ∈ done ∨ ¬Inside width labelledHeight q →
    s.output (idx width q) = t.output (idx width q)

variable {w width : Nat} {input : Buf UInt8} {output output' : Buf Nat} {labels : List Act}
  {done : List Pixel} {s s' t t' : Machine w} {u v : Scan w} {stack stack' : Buf (Blob w)}
  {b : Band} {p q : Pixel} {a : Act}

theorem labelled_inFrame (hp : Inside width labelledHeight p) : InFrame width 240 p := by
  unfold Inside labelledHeight at hp
  exact ⟨by omega, by omega⟩

/-- The pixel turns read are in the frame. -/
theorem looked_inFrame (hp : Inside width labelledHeight p) (hb : Behind p q) :
    InFrame width 240 q := by
  have hr := hb.near_row
  have hc := hb.near_col
  unfold Inside labelledHeight at hp
  exact ⟨by omega, by omega⟩

/-- A visit that finds the same labels around it does the same. -/
theorem labelPixel_same (start : Nat)
    (same : input (idx width p) > 0 → around width u.output p = around width v.output p)
    (hblobs : u.blobs = v.blobs) (hcounter : u.labelCounter = v.labelCounter) :
    (labelPixel width input start u p = none ∧ labelPixel width input start v p = none) ∨
      ∃ l blobs counter,
        labelPixel width input start u p = some ⟨u.output.write (idx width p) l, blobs, counter⟩ ∧
        labelPixel width input start v p =
          some ⟨v.output.write (idx width p) l, blobs, counter⟩ := by
  have hscan : ∃ l blobs counter,
      scanPixel 9999 width input u p = ⟨u.output.write (idx width p) l, blobs, counter⟩ ∧
      scanPixel 9999 width input v p = ⟨v.output.write (idx width p) l, blobs, counter⟩ := by
    unfold scanPixel
    by_cases hon : input (idx width p) > 0
    · rw [if_pos hon, if_pos hon, same hon, hblobs, hcounter]
      dsimp only
      split
      · exact ⟨_, _, _, rfl, rfl⟩
      · exact ⟨_, _, _, rfl, rfl⟩
    · rw [if_neg hon, if_neg hon, hblobs, hcounter]
      exact ⟨_, _, _, rfl, rfl⟩
  obtain ⟨l, blobs, counter, hu, hv⟩ := hscan
  unfold labelPixel
  rw [hu, hv, hcounter]
  dsimp only
  split
  · exact Or.inl ⟨rfl, rfl⟩
  · exact Or.inr ⟨l, blobs, counter, rfl, rfl⟩

namespace Following

theorem start (stack : Buf (Blob w)) (edge : EdgeZero width output)
    (edge' : EdgeZero width output') :
    Following width [] (Machine.start stack output) (Machine.start stack output') where
  blobs := rfl
  labelCounter := rfl
  output := by
    intro q hq hor
    have hoff := hor.resolve_left List.not_mem_nil
    exact (edge q hq hoff).trans (edge' q hq hoff).symm

theorem around_eq (h : Following width done s t) (hp : Inside width labelledHeight p)
    (seen : ∀ q, Behind p q → Inside width labelledHeight q → q ∈ done) :
    around width s.output p = around width t.output p := by
  have hread : ∀ q, Behind p q → s.output (idx width q) = t.output (idx width q) := by
    intro q hb
    apply h.output q (looked_inFrame hp hb)
    by_cases hq : Inside width labelledHeight q
    · exact Or.inl (seen q hb hq)
    · exact Or.inr hq
  have hp' := hp
  unfold Inside at hp'
  unfold around
  rw [hread (p.1 - 1, p.2 - 1) (by unfold Behind; omega),
    hread (p.1 - 1, p.2) (by unfold Behind; omega),
    hread (p.1 - 1, p.2 + 1) (by unfold Behind; omega),
    hread (p.1, p.2 - 1) (by unfold Behind; omega)]

/-- One turn of a label thread in both runs. -/
theorem turn (h : Following width done s t) (hb : b ∈ bands) (ha : a ∈ labelActs width b)
    (seen : ∀ b p, a = .label b p → Moving input width labelledHeight p →
      ∀ q, Behind p q → Inside width labelledHeight q → q ∈ done) :
    (step input width s a = none ∧ step input width t a = none) ∨
      ∃ s' t', step input width s a = some s' ∧ step input width t a = some t' ∧
        Following width (done ++ visitsOf [a]) s' t' := by
  cases List.mem_append.mp ha with
  | inl hlabel =>
    obtain ⟨p, hp, rfl⟩ := List.mem_map.mp hlabel
    have hin := inside_of_mem hb hp
    rw [step_label, step_label, h.labelCounter]
    rcases labelPixel_same (u := ⟨s.output, s.blobs, t.labelCounter b⟩)
      (v := ⟨t.output, t.blobs, t.labelCounter b⟩) b.startLabel
      (fun hon => h.around_eq hin (seen b p rfl ⟨hin, hon⟩)) h.blobs rfl with
      ⟨hu, hv⟩ | ⟨l, blobs, counter, hu, hv⟩
    · left
      rw [hu, hv]
      exact ⟨rfl, rfl⟩
    · right
      rw [hu, hv]
      refine ⟨_, _, rfl, rfl, rfl, rfl, fun q hq hor => ?_⟩
      dsimp only
      rw [Buf.write_apply, Buf.write_apply]
      split
      · rfl
      · rename_i hne
        refine h.output q hq (hor.imp (fun hm => ?_) id)
        cases List.mem_append.mp hm with
        | inl hm => exact hm
        | inr hm => exact absurd (congrArg (idx width) (List.mem_singleton.mp hm)) hne
  | inr hredirect =>
    obtain ⟨i, _, rfl⟩ := List.mem_map.mp hredirect
    right
    refine ⟨_, _, rfl, rfl, ?_, h.labelCounter, ?_⟩
    · dsimp only
      rw [h.blobs]
    · intro q hq hor
      exact h.output q hq (by simpa [visitsOf, Act.pixel] using hor)

end Following

theorem mem_labels (hl : Interleave.Run (labelThreads width) labels) (ha : a ∈ labels) :
    ∃ b ∈ bands, a ∈ labelActs width b :=
  List.mem_flatMap.mp ((labels_perm hl).mem_iff.mp ha)

/-- The label threads find what they would on a buffer of zeros, where each active pixel has
its turn after those it looks back at. -/
theorem labels_alike (hl : Interleave.Run (labelThreads width) labels)
    (back : LooksBack input width labels) (stack : Buf (Blob w)) (edge : EdgeZero width output)
    (edge' : EdgeZero width output') :
    (labels.foldlM (step input width) (Machine.start stack output) = none ∧
      labels.foldlM (step input width) (Machine.start stack output') = none) ∨
    ∃ s t, labels.foldlM (step input width) (Machine.start stack output) = some s ∧
      labels.foldlM (step input width) (Machine.start stack output') = some t ∧
      Following width (visitsOf labels) s t := by
  refine Fold.prefix_related_option (R := fun pre (s t : Machine w) =>
    Following width (visitsOf pre) s t) labels _ _ (Following.start stack edge edge') ?_
  intro pre a post s t hsplit h
  obtain ⟨b, hb, ha⟩ := mem_labels hl (a := a) (by simp [hsplit])
  rw [visitsOf_append]
  apply h.turn hb ha
  rintro c p rfl hp q hbe hq
  exact back pre c p post hsplit hp q hbe hq

/-- Once all have had their turn the two agree on the frame. -/
theorem Following.frame (h : Following width (visitsOf labels) s t)
    (hl : Interleave.Run (labelThreads width) labels) (hq : InFrame width 240 q) :
    s.output (idx width q) = t.output (idx width q) := by
  apply h.output q hq
  by_cases hin : Inside width labelledHeight q
  · exact Or.inl ((visits_perm hl).mem_iff.mpr (mem_interior.mpr hin))
  · exact Or.inr hin

section order

/-- Whole calls from top to bottom look back at pixels labelled. -/
theorem calls_lookBack (input : Buf UInt8) (width : Nat) :
    LooksBack input width (bands.flatMap (labelActs width)) := by
  intro pre b p post hsplit hp q hbe hq
  have hvisits : visitsOf (bands.flatMap (labelActs width)) = interior width labelledHeight := by
    unfold visitsOf
    rw [List.filterMap_flatMap, ← bands_pixels]
    exact congrArg List.flatten (List.map_congr_left (fun b _ => visitsOf_labelActs width b))
  have hcut : interior width labelledHeight = visitsOf pre ++ p :: visitsOf post := by
    rw [← hvisits, hsplit]
    simp [visitsOf, Act.pixel]
  exact (mem_prefix_iff (interior_sorted width labelledHeight) hcut
    (mem_interior.mpr hq)).mpr hbe.before

/-- Of two steps of a thread the first has come by the turn of the second. -/
theorem before_turn {α : Type} {l pre post : List α} {x y : α} (hnodup : (pre ++ x :: post).Nodup)
    (hsub : l.Sublist (pre ++ x :: post)) (htwo : [y, x].Sublist l) : y ∈ pre := by
  have hx : x ∉ post := by
    have hright := (List.nodup_append.mp hnodup).2.1
    exact (List.nodup_cons.mp hright).1
  obtain ⟨first, last, he, hfirst, hlast⟩ := List.sublist_append_iff.mp (htwo.trans hsub)
  cases first with
  | nil =>
    rw [List.nil_append] at he
    rw [← he] at hlast
    cases hlast with
    | cons _ hrest => exact absurd (hrest.subset (by simp)) hx
    | cons_cons _ hrest => exact absurd (hrest.subset (by simp)) hx
  | cons z first =>
    obtain ⟨rfl, _⟩ := List.cons.inj he
    exact hfirst.subset (by simp)

theorem before_of_not (h : ¬Before q p) (hne : p ≠ q) : Before p q := by
  have hparts : ¬(p.1 = q.1 ∧ p.2 = q.2) := fun he => hne (Prod.ext he.1 he.2)
  unfold Before at h ⊢
  omega

/-- At the turn of a pixel the pixels of its band before it have had theirs, and those alone. -/
theorem visited_iff {pre post : List Act} (hl : Interleave.Run (labelThreads width) labels)
    (hb : b ∈ bands) (hp : p ∈ b.pixels width) (hsplit : labels = pre ++ .label b p :: post)
    (hq : q ∈ b.pixels width) : q ∈ visitsOf pre ↔ Before q p := by
  have hcut : visitsOf labels = visitsOf pre ++ p :: visitsOf post := by
    rw [hsplit]
    simp [visitsOf, Act.pixel]
  have hsub : (b.pixels width).Sublist (visitsOf pre ++ p :: visitsOf post) := by
    have hthread := (hl.sublist (List.mem_map_of_mem hb)).filterMap Act.pixel
    rw [← hcut, ← visitsOf_labelActs]
    exact hthread
  have hnodup := hcut ▸ visits_nodup hl
  have hearlier : ∀ {x y : Pixel}, x ∈ b.pixels width → y ∈ b.pixels width → Before x y →
      [x, y].Sublist (b.pixels width) := by
    intro x y hx hy hxy
    obtain ⟨first, last, hfirst⟩ := List.append_of_mem hy
    have hxf : x ∈ first := (mem_prefix_iff (pixels_sorted width b) hfirst hx).mpr hxy
    rw [hfirst]
    exact (List.singleton_sublist.mpr hxf).append (List.singleton_sublist.mpr (by simp))
  constructor
  · intro hvisited
    obtain ⟨first, last, hfirst⟩ := List.append_of_mem hvisited
    by_contra hn
    have hne : p ≠ q := by
      rintro rfl
      exact (List.nodup_append.mp hnodup).2.2 p hvisited p (by simp) rfl
    -- else it would have had its turn after `p`
    have hcut' : visitsOf pre ++ p :: visitsOf post =
        first ++ q :: (last ++ p :: visitsOf post) := by
      rw [hfirst]
      simp
    have hpf : p ∈ first :=
      before_turn (hcut' ▸ hnodup) (hcut' ▸ hsub) (hearlier hp hq (before_of_not hn hne))
    exact (List.nodup_append.mp hnodup).2.2 p (hfirst ▸ List.mem_append_left _ hpf) p (by simp) rfl
  · intro hbefore
    exact before_turn hnodup hsub (hearlier hq hp hbefore)

theorem mem_label (hl : Interleave.Run (labelThreads width) labels) (ha : .label b p ∈ labels) :
    b ∈ bands ∧ p ∈ b.pixels width := by
  obtain ⟨c, hc, hact⟩ := mem_labels hl ha
  cases List.mem_append.mp hact with
  | inl hlabel =>
    obtain ⟨x, hx, he⟩ := List.mem_map.mp hlabel
    cases he
    exact ⟨hc, hx⟩
  | inr hredirect =>
    obtain ⟨i, _, he⟩ := List.mem_map.mp hredirect
    cases he

/-- In any order of turns the threads look back at pixels labelled, unless at a seam. -/
theorem still_lookBack (hl : Interleave.Run (labelThreads width) labels)
    (still : ∀ p, p.1 ∈ seams → ¬Moving input width labelledHeight p) :
    LooksBack input width labels := by
  intro pre b p post hsplit hp q hbe hq
  obtain ⟨hb, hpb⟩ := mem_label hl (b := b) (p := p) (by simp [hsplit])
  have hqb : q ∈ b.pixels width := by
    have hall : ∀ b ∈ bands, b.startRow = 1 ∨ b.startRow ∈ seams := by decide
    have hrows := (mem_pixels.mp hpb).1
    have hrow := hbe.near_row
    unfold InRows at hrows
    unfold Inside at hq
    refine mem_pixels.mpr ⟨?_, hq.2.2⟩
    unfold InRows
    refine ⟨?_, by omega⟩
    by_contra hlow
    have hfirst : p.1 = b.startRow := by omega
    cases hall b hb with
    | inl hone => omega
    | inr hseam => exact still p (hfirst ▸ hseam) hp
  exact (visited_iff hl hb hpb hsplit hqb).mpr hbe.before

/-- And at a seam they need not. -/
theorem lookBack_iff : (∀ labels, Interleave.Run (labelThreads width) labels →
      LooksBack input width labels) ↔
    ∀ p, p.1 ∈ seams → ¬Moving input width labelledHeight p := by
  constructor
  · intro hall p hrow hp
    have hseam : ∀ row ∈ seams, 2 ≤ row ∧
        ∃ c ∈ bands, c.startRow = row ∧ c.startRow ≤ c.endRow := by decide
    obtain ⟨hlow, c, hc, hstart, hrange⟩ := hseam p.1 hrow
    have hin := hp.1
    have hpc : p ∈ c.pixels width := by
      unfold Inside at hin
      exact mem_pixels.mpr ⟨⟨by omega, by omega⟩, hin.2.2⟩
    obtain ⟨first, last, hfirst⟩ := List.append_of_mem hpc
    -- the band of the seam comes first
    have hrun : Interleave.Run (labelThreads width)
        ((c :: bands.erase c).flatMap (labelActs width)) :=
      calls_run (List.perm_cons_erase hc).symm
    have hq : (p.1 - 1, p.2) ∈ visitsOf (first.map (Act.label c)) := by
      refine hall _ hrun (first.map (Act.label c)) c p (last.map (Act.label c) ++
        (upto c.startLabel (c.startLabel + maxBlobsPerThread)).map Act.redirectUsed ++
        (bands.erase c).flatMap (labelActs width)) ?_ hp _ ?_ ?_
      · rw [List.flatMap_cons]
        unfold labelActs
        rw [hfirst]
        simp
      · unfold Behind
        dsimp only
        omega
      · unfold Inside at hin ⊢
        dsimp only
        omega
    have hqf : (p.1 - 1, p.2) ∈ c.pixels width := by
      rw [hfirst]
      simp only [visitsOf, List.filterMap_map, Function.comp_def, Act.pixel,
        List.filterMap_some] at hq
      exact List.mem_append_left _ hq
    have hrows := (mem_pixels.mp hqf).1
    unfold InRows at hrows
    dsimp only at hrows
    omega
  · intro still labels hl
    exact still_lookBack hl still

end order

section stained

/-- A buffer that holds the last declared entry's number wherever a label may come. -/
def stained (width : Nat) : Buf Nat :=
  ⟨fun i => if ∃ p ∈ interior width labelledHeight, idx width p = i then 803 else 0⟩

theorem stained_edge (width : Nat) : EdgeZero width (stained width) := by
  intro q hq hoff
  unfold stained
  dsimp only
  rw [if_neg]
  rintro ⟨p, hp, he⟩
  have hin := mem_interior.mp hp
  have hcol : p.2 < width := (labelled_inFrame hin).2
  exact hoff (idx_inj hcol hq.2 he ▸ hin)

/-- It has been taken for a label: a pixel carries it, or its entry has been linked. -/
def Stained (width : Nat) (p : Pixel) (s : Machine w) : Prop :=
  s.output (idx width p) = 803 ∨ links s.blobs 803 ≠ 0

/-- The counters of all calls have started. -/
def Counting (s : Machine w) : Prop := ∀ b ∈ bands, 1 ≤ s.labelCounter b

theorem counting_turn (h : Counting s) (hb : b ∈ bands) (ha : a ∈ labelActs width b)
    (hs : step input width s a = some s') : Counting s' := by
  intro c hc
  cases List.mem_append.mp ha with
  | inl hlabel =>
    obtain ⟨x, _, rfl⟩ := List.mem_map.mp hlabel
    obtain ⟨rfl, _⟩ := Machine.label_turn hs
    dsimp only
    by_cases he : c = b
    · rw [he, Function.update_self]
      exact Nat.le_trans (h b hb) (scanPixel_step 9999 width input
        ⟨s.output, s.blobs, s.labelCounter b⟩ x).counter_le
    · rw [Function.update_of_ne he]
      exact h c hc
  | inr hredirect =>
    obtain ⟨i, _, rfl⟩ := List.mem_map.mp hredirect
    obtain rfl := Option.some.inj hs
    exact h c hc

/-- A turn elsewhere does not wash it out. -/
theorem Stained.turn (h : Stained width p s) (counting : Counting s) (hb : b ∈ bands)
    (hp : p.2 < width) (ha : a ∈ labelActs width b) (hne : p ∉ visitsOf [a])
    (hs : step input width s a = some s') : Stained width p s' := by
  cases List.mem_append.mp ha with
  | inl hlabel =>
    obtain ⟨x, hx, rfl⟩ := List.mem_map.mp hlabel
    have hxc := (mem_pixels.mp hx).2
    have hpx : idx width p ≠ idx width x := by
      intro he
      exact hne (by simp [visitsOf, Act.pixel, idx_inj hp (by omega) he])
    obtain ⟨rfl, _⟩ := Machine.label_turn hs
    have hstep := scanPixel_step 9999 width input ⟨s.output, s.blobs, s.labelCounter b⟩ x
    refine h.imp (fun hout => ?_) (fun hlink => ?_)
    · exact (hstep.output_other hpx).trans hout
    · cases hstep with
      | idle he => rwa [he]
      | fresh _ he =>
        have hcount := counting b hb
        rw [he]
        unfold links
        dsimp only
        rw [Buf.write_apply]
        split
        · unfold Blob.start
          dsimp only
          omega
        · exact hlink
      | join m _ h0 _ _ he =>
        rw [he]
        dsimp only
        rw [linkAll_links]
        split
        · exact h0
        · unfold links
          rw [Buf.write_apply]
          split
          · rename_i hm
            unfold Blob.grow
            dsimp only
            exact hm ▸ hlink
          · exact hlink
  | inr hredirect =>
    obtain ⟨i, hi, rfl⟩ := List.mem_map.mp hredirect
    obtain rfl := Option.some.inj hs
    refine h.imp id (fun hlink => ?_)
    have hrange := bands_range hb
    have hupto := mem_upto.mp hi
    have h803 : 803 ≠ i := by
      unfold maxBlobsPerThread at hrange hupto
      omega
    unfold links redirectUsed
    dsimp only
    split
    · rw [Buf.write_other _ _ h803]
      exact hlink
    · exact hlink

/-- What a pixel that is looked back at too early does. -/
theorem Stained.start
    (hm : Moving input width labelledHeight p) (hbe : Behind p q)
    (hq : s.output (idx width q) = 803) (hs : step input width s (.label b p) = some s') :
    Stained width p s' := by
  have hin := hm.1
  unfold Inside at hin
  obtain ⟨rfl, _⟩ := Machine.label_turn hs
  have hmem : 803 ∈ around width s.output p :=
    (mem_around hin.1 hin.2.2.1).mpr ⟨q, hbe, hq⟩
  rcases scanPixel_on (u := 9999) (s := ⟨s.output, s.blobs, s.labelCounter b⟩) hm.2 with
    ⟨hnone, _⟩ | ⟨m, _, h0, _, hleast, he⟩
  · exact absurd (hnone 803 hmem (by decide)) (by decide)
  · unfold Stained
    rw [he]
    dsimp only
    by_cases h803 : m = 803
    · left
      rw [Buf.write_same, h803]
      rfl
    · right
      rw [linkAll_links, if_pos ⟨hmem, Ne.symm h803⟩]
      exact h0

/-- Pixels that have not had their turn keep the stain. -/
theorem stained_unvisited {pre : List Act} (hall : ∀ a ∈ pre, ∃ b ∈ bands, a ∈ labelActs width b)
    (run : pre.foldlM (step input width) (Machine.start stack (stained width)) = some s) :
    Counting s ∧ ∀ q, Inside width labelledHeight q → q ∉ visitsOf pre →
      s.output (idx width q) = 803 := by
  refine Fold.prefix_induction_option (P := fun pre (s : Machine w) => Counting s ∧
    ∀ q, Inside width labelledHeight q → q ∉ visitsOf pre → s.output (idx width q) = 803)
    pre _ s ⟨fun b hb => (bands_range hb).2.2.2.1, fun q hq _ => ?_⟩ ?_ run
  · exact if_pos ⟨q, mem_interior.mpr hq, rfl⟩
  · intro done a post t t' hsplit ht hs
    obtain ⟨b, hb, ha⟩ := hall a (by simp [hsplit])
    refine ⟨counting_turn ht.1 hb ha hs, fun q hq hmiss => ?_⟩
    rw [visitsOf_append, List.mem_append, not_or] at hmiss
    rw [← ht.2 q hq hmiss.1]
    cases List.mem_append.mp ha with
    | inl hlabel =>
      obtain ⟨x, hx, rfl⟩ := List.mem_map.mp hlabel
      have hxc := (mem_pixels.mp hx).2
      obtain ⟨rfl, _⟩ := Machine.label_turn hs
      apply (scanPixel_step 9999 width input _ x).output_other
      intro he
      apply hmiss.2
      simp [visitsOf, Act.pixel, idx_inj (labelled_inFrame hq).2 (by omega) he]
    | inr hredirect =>
      obtain ⟨i, _, rfl⟩ := List.mem_map.mp hredirect
      obtain rfl := Option.some.inj hs
      rfl

end stained

/-- Where the stain makes no difference each active pixel has its turn after those it looks
back at. -/
theorem lookBack_of_same (hl : Interleave.Run (labelThreads width) labels)
    (run : labels.foldlM (step input width) (Machine.start stack (Buf.all 0)) = some s)
    (hsame : ∃ t, labels.foldlM (step input width) (Machine.start stack (stained width)) = some t ∧
      t.blobs = s.blobs ∧
      ∀ q, InFrame width 240 q → t.output (idx width q) = s.output (idx width q)) :
    LooksBack input width labels := by
  intro pre b p post hsplit hm q hbe hq
  by_contra hmiss
  obtain ⟨t, ht, hblobs, hout⟩ := hsame
  have hall : ∀ a ∈ pre ++ .label b p :: post, ∃ b ∈ bands, a ∈ labelActs width b :=
    fun a ha => mem_labels hl (hsplit ▸ ha)
  have hvisits := visits_nodup hl
  rw [hsplit] at ht hvisits
  have honce : p ∉ visitsOf post := by
    have hright : (visitsOf pre ++ p :: visitsOf post).Nodup := by
      simpa [visitsOf, Act.pixel] using hvisits
    exact (List.nodup_cons.mp (List.nodup_append.mp hright).2.1).1
  rw [List.foldlM_append, Option.bind_eq_bind, Option.bind_eq_some_iff] at ht
  obtain ⟨u, hu, hrest⟩ := ht
  rw [List.foldlM_cons, Option.bind_eq_bind, Option.bind_eq_some_iff] at hrest
  obtain ⟨u', hturn, hpost⟩ := hrest
  obtain ⟨hcount, hleft⟩ := stained_unvisited (fun a ha => hall a (by simp [ha])) hu
  obtain ⟨c, hc, hact⟩ := hall (.label b p) (by simp)
  have hstain : Counting t ∧ Stained width p t := by
    refine Fold.prefix_induction_option
      (P := fun _ (s : Machine w) => Counting s ∧ Stained width p s) post _ t
      ⟨counting_turn hcount hc hact hturn, Stained.start hm hbe (hleft q hq hmiss) hturn⟩ ?_ hpost
    intro mid a last v v' hcut hv hs
    obtain ⟨c, hc, hact⟩ := hall a (by simp [hcut])
    refine ⟨counting_turn hv.1 hc hact hs,
      hv.2.turn hv.1 hc (labelled_inFrame hm.1).2 hact (fun hp => honce ?_) hs⟩
    rw [hcut, visitsOf_append, ← List.singleton_append, visitsOf_append]
    exact List.mem_append_right _ (List.mem_append_left _ hp)
  have hweave := woven hl (List.append_nil labels).symm run
  have hfree : ¬Allocated s.labelCounter 803 := by
    intro ha
    exact absurd (hweave.closed.label_range ha).2 (by decide)
  cases hstain.2 with
  | inl hcarried =>
    rw [hout p (labelled_inFrame hm.1)] at hcarried
    have hlab := hweave.closed.labels (idx width p)
    rw [hcarried] at hlab
    exact hfree (hlab.resolve_left (by decide))
  | inr hlinked =>
    rw [hblobs] at hlinked
    unfold links at hlinked
    rw [hweave.unused 803 (by decide) hfree] at hlinked
    exact hlinked rfl

/-- And there no buffer makes any. -/
theorem same_of_lookBack (hl : Interleave.Run (labelThreads width) labels)
    (run : labels.foldlM (step input width) (Machine.start stack (Buf.all 0)) = some s)
    (back : LooksBack input width labels) (edge : EdgeZero width output) :
    ∃ t, labels.foldlM (step input width) (Machine.start stack output) = some t ∧
      t.blobs = s.blobs ∧
      ∀ q, InFrame width 240 q → t.output (idx width q) = s.output (idx width q) := by
  rcases labels_alike hl back stack edge (fun _ _ _ => rfl : EdgeZero width (Buf.all 0)) with
    ⟨_, hnone⟩ | ⟨t, s', ht, hs', hfollow⟩
  · rw [run] at hnone
    cases hnone
  · obtain rfl := Option.some.inj (run.symm.trans hs')
    exact ⟨t, ht, hfollow.blobs, fun q hq => hfollow.frame hl hq⟩

/-- What the caller's buffer held before does not matter to a run of the label threads exactly
when each active pixel has its turn after those it looks back at. -/
theorem stale_iff (hl : Interleave.Run (labelThreads width) labels)
    (run : labels.foldlM (step input width) (Machine.start stack (Buf.all 0)) = some s) :
    (∀ output, EdgeZero width output → ∃ t,
      labels.foldlM (step input width) (Machine.start stack output) = some t ∧
        t.blobs = s.blobs ∧
        ∀ q, InFrame width 240 q → t.output (idx width q) = s.output (idx width q)) ↔
      LooksBack input width labels :=
  ⟨fun hsame => lookBack_of_same hl run (hsame (stained width) (stained_edge width)),
    fun back _ edge => same_of_lookBack hl run back edge⟩

theorem stale_iff_bright : ∃ s : Machine 32,
    (labelThreads 3).flatten.foldlM (step (Buf.all 255) 3)
      (Machine.start (Buf.all Blob.zero) (Buf.all 0)) = some s ∧
    ((∀ output, EdgeZero 3 output → ∃ t,
      (labelThreads 3).flatten.foldlM (step (Buf.all 255) 3)
          (Machine.start (Buf.all Blob.zero) output) = some t ∧
        t.blobs = s.blobs ∧
        ∀ q, InFrame 3 240 q → t.output (idx 3 q) = s.output (idx 3 q)) ↔
      LooksBack (Buf.all 255) 3 (labelThreads 3).flatten) := by
  obtain ⟨s, hs⟩ := labels_narrow 32 (Buf.all 255) (by decide : 3 ≤ 5) (Buf.all Blob.zero)
  exact ⟨s, hs, stale_iff (Interleave.Run.one_by_one _) hs⟩

/-- It matters to no run exactly when nothing moves in the first row of a band below the
first: the frame before shows through at the seams. -/
theorem stale_seams_iff
    (silent : ∀ labels, Interleave.Run (labelThreads width) labels → ∀ stack : Buf (Blob w),
      (labels.foldlM (step input width) (Machine.start stack (Buf.all 0))).isSome) :
    (∀ labels, Interleave.Run (labelThreads width) labels →
      ∀ (stack : Buf (Blob w)) (output : Buf Nat), EdgeZero width output → ∃ s t,
        labels.foldlM (step input width) (Machine.start stack (Buf.all 0)) = some s ∧
        labels.foldlM (step input width) (Machine.start stack output) = some t ∧
        t.blobs = s.blobs ∧
        ∀ q, InFrame width 240 q → t.output (idx width q) = s.output (idx width q)) ↔
      ∀ p, p.1 ∈ seams → ¬Moving input width labelledHeight p := by
  rw [← lookBack_iff]
  constructor
  · intro hall labels hl
    obtain ⟨s, run⟩ := Option.isSome_iff_exists.mp (silent labels hl (Buf.all Blob.zero))
    obtain ⟨s', t, hs', ht, hsame⟩ := hall labels hl (Buf.all Blob.zero) (stained width)
      (stained_edge width)
    obtain rfl := Option.some.inj (run.symm.trans hs')
    exact lookBack_of_same hl run ⟨t, ht, hsame⟩
  · intro hall labels hl stack output edge
    obtain ⟨s, run⟩ := Option.isSome_iff_exists.mp (silent labels hl stack)
    obtain ⟨t, ht, hsame⟩ := same_of_lookBack hl run (hall labels hl) edge
    exact ⟨s, t, run, ht, hsame⟩

theorem stale_seams_iff_apart :
    (∀ labels, Interleave.Run (labelThreads 3) labels →
      ∀ (stack : Buf (Blob 32)) (output : Buf Nat), EdgeZero 3 output → ∃ s t,
        labels.foldlM (step apart 3) (Machine.start stack (Buf.all 0)) = some s ∧
        labels.foldlM (step apart 3) (Machine.start stack output) = some t ∧
        t.blobs = s.blobs ∧
        ∀ q, InFrame 3 240 q → t.output (idx 3 q) = s.output (idx 3 q)) ↔
      ∀ p, p.1 ∈ seams → ¬Moving apart 3 labelledHeight p := by
  refine stale_seams_iff ?_
  intro labels hl stack
  obtain ⟨s, hs⟩ := labels_narrow 32 apart (by decide : 3 ≤ 5) stack
  exact apart_quiet.silent (Interleave.Run.one_by_one _) hl (by rw [hs]; rfl)

end Motion
