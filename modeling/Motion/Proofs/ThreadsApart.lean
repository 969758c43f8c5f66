import Motion.Proofs.Independence
import Motion.Proofs.Threads

/-! The label threads where no motion reaches across a seam: whatever the order of their
turns, each finds and leaves what it would alone. -/

namespace Motion

variable {w width : Nat} {input : Buf UInt8} {b c : Band} {p q x y : Pixel} {a : Act}
  {s s' t t' : Machine w} {stack : Buf (Blob w)}

/-- Where the seams are quiet a pixel sees motion in its own band only. -/
theorem SeamsQuiet.inRows (quiet : SeamsQuiet input width) (hb : b ∈ bands)
    (hx : x ∈ b.pixels width) (hon : Moving input width labelledHeight x) (hbe : Behind x y)
    (hy : Moving input width labelledHeight y) : InRows b y := by
  have hxr := (mem_pixels.mp hx).1
  have hyi := hy.1
  have hrow := hbe.near_row
  have hall : ∀ b ∈ bands, b.startRow = 1 ∨ b.startRow ∈ seams := by decide
  unfold InRows at hxr ⊢
  unfold Inside at hyi
  by_contra hout
  have hfirst : x.1 = b.startRow := by omega
  have hseam : x.1 ∈ seams := by
    rw [hfirst]
    exact (hall b hb).resolve_left (by omega)
  unfold Behind at hbe
  exact quiet x y hseam (hbe.resolve_right (by omega)) hon hy

/-- What the turns of the label threads keep where the seams are quiet: a band's pixels carry
labels of the band, and these lead to labels of the band. -/
structure Kept (input : Buf UInt8) (width : Nat) (s : Machine w) : Prop where
  closed : Closed s.labelCounter s.output s.blobs
  clear : Clear input width s.output
  own : ∀ b ∈ bands, ∀ p, InRows b p → p.2 < width →
    s.output (idx width p) = 0 ∨ Own b (s.output (idx width p))
  leads : ∀ b ∈ bands, ∀ i, Own b i → links s.blobs i = 0 ∨ Own b (links s.blobs i)

theorem Kept.start (input : Buf UInt8) (width : Nat) (stack : Buf (Blob w)) :
    Kept input width (Machine.start stack (Buf.all 0)) where
  closed := Closed.start
  clear := fun _ _ _ => rfl
  own := fun _ _ _ _ _ => Or.inl rfl
  leads := fun _ _ _ _ => Or.inl rfl

/-- A label read from behind is one of the band, or 0. -/
theorem Kept.read (h : Kept input width s) (quiet : SeamsQuiet input width) (hb : b ∈ bands)
    (hx : x ∈ b.pixels width) (hon : Moving input width labelledHeight x) {l : Nat}
    (hl : l ∈ around width s.output x) : l = 0 ∨ Own b l := by
  have hxp := mem_pixels.mp hx
  have hin := inside_of_mem hb hx
  unfold Inside at hin
  obtain ⟨y, hbe, rfl⟩ := (mem_around hin.1 hin.2.2.1).mp hl
  have hcol := hbe.near_col
  by_cases hy : Moving input width labelledHeight y
  · exact h.own b hb y (quiet.inRows hb hx hon hbe hy) (by omega)
  · exact Or.inl (h.clear y (by omega) hy)

/-- What a thread's turn leaves alone: what is not of its band. -/
structure Spared (width : Nat) (b : Band) (s s' : Machine w) : Prop where
  output : ∀ i, (∀ p ∈ b.pixels width, i ≠ idx width p) → s'.output i = s.output i
  blobs : ∀ i ≠ 0, ¬Own b i → s'.blobs i = s.blobs i
  counter : ∀ c ≠ b, s'.labelCounter c = s.labelCounter c

/-- The labels of two bands differ. -/
theorem own_apart (hb : b ∈ bands) (hc : c ∈ bands) (hne : c ≠ b) {i : Nat} (h : Own c i) :
    ¬Own b i := by
  intro h'
  unfold Own at h h'
  rcases bands_apart hc hb with he | hap | hap
  · exact hne he
  · omega
  · omega

theorem own_ne_zero (hb : b ∈ bands) {i : Nat} (h : Own b i) : i ≠ 0 := by
  have := bands_range hb
  unfold Own at h
  omega

/-- The pixels of two bands have different indices. -/
theorem pixel_apart (hb : b ∈ bands) (hc : c ∈ bands) (hne : c ≠ b) (hp : InRows c p)
    (hcol : p.2 < width) : ∀ x ∈ b.pixels width, idx width p ≠ idx width x := by
  intro x hx he
  have hxp := mem_pixels.mp hx
  obtain rfl : p = x := idx_inj hcol (by omega) he
  exact hne (bands_disjoint hc hb hp hxp.1)

/-- The label the turn gives its pixel. -/
theorem Kept.given (h : Kept input width s) (quiet : SeamsQuiet input width) (hb : b ∈ bands)
    (hx : x ∈ b.pixels width) (hs : step input width s (.label b x) = some s') :
    (¬Moving input width labelledHeight x ∧ s'.output (idx width x) = 0) ∨
      Own b (s'.output (idx width x)) := by
  have hin := inside_of_mem hb hx
  have hsize : parTableSize ≤ 65536 := by decide
  obtain ⟨rfl, hfits⟩ := Machine.label_turn hs
  by_cases hon : Moving input width labelledHeight x
  · right
    rcases scanPixel_on (u := 9999) (s := ⟨s.output, s.blobs, s.labelCounter b⟩) hon.2 with
      ⟨_, he⟩ | ⟨m, hm, h0, _, _, he⟩
    · rw [he] at hfits ⊢
      have hfit := hfits (Nat.lt_succ_self _)
      have hlow := (h.closed.counters b hb).1
      have hrange := bands_range hb
      have hlt : s.labelCounter b < 65536 := by
        dsimp only at hfit
        unfold maxBlobsPerThread at hfit hrange
        omega
      simp only [Buf.write_same, ushort, Nat.mod_eq_of_lt hlt]
      exact ⟨hlow, Nat.lt_of_succ_lt hfit⟩
    · have hown := (h.read quiet hb hx hon hm).resolve_left h0
      have hlt := h.closed.small (Machine.around_closed h.closed x m hm)
      rw [he]
      simp only [Buf.write_same, ushort]
      rwa [Nat.mod_eq_of_lt (by omega)]
  · left
    refine ⟨hon, ?_⟩
    rw [scanPixel_off (fun ha => hon ⟨hin, ha⟩)]
    exact Buf.write_same _ _ _

/-- What the turn does to the links of the table. -/
theorem Kept.relinked (h : Kept input width s) (quiet : SeamsQuiet input width) (hb : b ∈ bands)
    (hx : x ∈ b.pixels width) (hs : step input width s (.label b x) = some s') :
    (∀ i ≠ 0, ¬Own b i → s'.blobs i = s.blobs i) ∧
      ∀ i, links s'.blobs i = links s.blobs i ∨ Own b (links s'.blobs i) := by
  have hin := inside_of_mem hb hx
  obtain ⟨rfl, hfits⟩ := Machine.label_turn hs
  by_cases hon : Moving input width labelledHeight x
  · rcases scanPixel_on (u := 9999) (s := ⟨s.output, s.blobs, s.labelCounter b⟩) hon.2 with
      ⟨_, he⟩ | ⟨m, hm, h0, _, _, he⟩
    · rw [he] at hfits ⊢
      have hown : Own b (s.labelCounter b) :=
        ⟨(h.closed.counters b hb).1, Nat.lt_of_succ_lt (hfits (Nat.lt_succ_self _))⟩
      constructor
      · intro i _ hi
        have hne : i ≠ s.labelCounter b := fun e => hi (e ▸ hown)
        exact Buf.write_other _ _ hne
      · intro i
        dsimp only
        unfold links
        by_cases hi : i = s.labelCounter b
        · right
          rw [hi, Buf.write_same]
          exact hown
        · left
          rw [Buf.write_other _ _ hi]
    · have hown := (h.read quiet hb hx hon hm).resolve_left h0
      rw [he]
      constructor
      · intro i hi0 hi
        have hne : i ≠ m := fun e => hi (e ▸ hown)
        have hnot : i ∉ around width s.output x :=
          fun hmem => (h.read quiet hb hx hon hmem).elim hi0 hi
        dsimp only
        rw [linkAll_other (Or.inr hnot), Buf.write_other _ _ hne]
      · intro i
        dsimp only
        rw [linkAll_links]
        split
        · exact Or.inr hown
        · left
          unfold links
          rw [Buf.write_apply]
          split
          · rename_i he
            rw [he]
            rfl
          · rfl
  · rw [scanPixel_off (fun ha => hon ⟨hin, ha⟩)]
    exact ⟨fun _ _ _ => rfl, fun _ => Or.inl rfl⟩

theorem Kept.label (h : Kept input width s) (quiet : SeamsQuiet input width) (hb : b ∈ bands)
    (hx : x ∈ b.pixels width) (hs : step input width s (.label b x) = some s') :
    Kept input width s' ∧ Spared width b s s' := by
  have hxp := mem_pixels.mp hx
  have hgiven := h.given quiet hb hx hs
  obtain ⟨hother, hrelinked⟩ := h.relinked quiet hb hx hs
  have hclosed := Machine.label_closed h.closed hb hs
  have houtput : ∀ i, i ≠ idx width x → s'.output i = s.output i := by
    intro i hi
    obtain ⟨rfl, _⟩ := Machine.label_turn hs
    exact (scanPixel_step 9999 width input _ x).output_other hi
  refine ⟨⟨hclosed, ?_, ?_, ?_⟩, ⟨fun i hi => houtput i (hi x hx), hother, ?_⟩⟩
  · intro p hp hn
    by_cases he : p = x
    · subst he
      cases hgiven with
      | inl hoff => exact hoff.2
      | inr hown =>
        by_contra h0
        have hoff : ¬input (idx width p) > 0 := fun ha => hn ⟨inside_of_mem hb hx, ha⟩
        obtain ⟨rfl, _⟩ := Machine.label_turn hs
        rw [scanPixel_off hoff] at h0
        exact h0 (Buf.write_same _ _ _)
    · rw [houtput _ (fun e => he (idx_inj hp (by omega) e))]
      exact h.clear p hp hn
  · intro c hc p hrows hcol
    by_cases he : p = x
    · subst he
      obtain rfl := bands_disjoint hc hb hrows hxp.1
      exact hgiven.imp (fun hoff => hoff.2) id
    · rw [houtput _ (fun e => he (idx_inj hcol (by omega) e))]
      exact h.own c hc p hrows hcol
  · intro c hc i hi
    by_cases he : c = b
    · subst he
      cases hrelinked i with
      | inl hsame => rw [hsame]; exact h.leads c hc i hi
      | inr hown => exact Or.inr hown
    · unfold links
      rw [hother i (own_ne_zero hc hi) (own_apart hb hc he hi)]
      exact h.leads c hc i hi
  · intro c hc
    obtain ⟨rfl, _⟩ := Machine.label_turn hs
    exact Function.update_of_ne hc _ _

/-- The turn that redirects an entry of the band. -/
theorem Kept.redirect (h : Kept input width s) {i : Nat} (hi : Own b i) :
    Kept input width { s with blobs := redirectUsed s.blobs i } ∧
      Spared width b s { s with blobs := redirectUsed s.blobs i } := by
  have hother : ∀ k, k ≠ i → redirectUsed s.blobs i k = s.blobs k :=
    fun k hk => redirectUsed_keeps s.blobs (Or.inr hk)
  refine ⟨⟨h.closed.relink (redirectUsed_label s.blobs i), h.clear, h.own, ?_⟩,
    ⟨fun _ _ => rfl, fun k _ hk => hother k (fun e => hk (e ▸ hi)), fun _ _ => rfl⟩⟩
  intro c hc k hk
  have hlead := h.leads c hc k hk
  cases redirectUsed_label s.blobs i k with
  | inl he =>
    unfold links at hlead ⊢
    rwa [he]
  | inr he =>
    unfold links at hlead ⊢
    rw [he]
    cases hlead with
    | inl h0 =>
      left
      rw [h0]
      by_contra hne
      have hzero : redirectUsed s.blobs i k = s.blobs k := redirectUsed_keeps s.blobs (Or.inl h0)
      rw [hzero, h0] at he
      exact hne he.symm
    | inr hown => exact h.leads c hc _ hown

/-- Any turn of a band's thread. -/
theorem Kept.turn (h : Kept input width s) (quiet : SeamsQuiet input width) (hb : b ∈ bands)
    (ha : a ∈ labelActs width b) (hs : step input width s a = some s') :
    Kept input width s' ∧ Spared width b s s' := by
  cases List.mem_append.mp ha with
  | inl hlabel =>
    obtain ⟨x, hx, rfl⟩ := List.mem_map.mp hlabel
    exact h.label quiet hb hx hs
  | inr hredirect =>
    obtain ⟨i, hi, rfl⟩ := List.mem_map.mp hredirect
    obtain rfl := Option.some.inj hs
    exact h.redirect (mem_upto.mp hi)

/-- A band's thread finds the same in both states. -/
structure Alongside (width : Nat) (b : Band) (s t : Machine w) : Prop where
  counter : s.labelCounter b = t.labelCounter b
  output : ∀ p, InRows b p → p.2 < width → s.output (idx width p) = t.output (idx width p)
  blobs : ∀ i, Own b i → s.blobs i = t.blobs i

/-- Turns of another thread do not show. -/
theorem Alongside.spared (h : Alongside width c s t) (hb : b ∈ bands) (hc : c ∈ bands)
    (hne : c ≠ b) (hs : Spared width b s s') : Alongside width c s' t where
  counter := (hs.counter c hne).trans h.counter
  output := fun p hp hcol =>
    (hs.output _ (pixel_apart hb hc hne hp hcol)).trans (h.output p hp hcol)
  blobs := fun i hi =>
    (hs.blobs i (own_ne_zero hc hi) (own_apart hb hc hne hi)).trans (h.blobs i hi)

/-- What the turns of one pixel make of it, of the band's entries and of its counter. -/
theorem Alongside.scan (h : Alongside width b s t) (hs : Kept input width s)
    (ht : Kept input width t) (quiet : SeamsQuiet input width) (hb : b ∈ bands)
    (hx : x ∈ b.pixels width) {u v : Scan w}
    (hu : scanPixel 9999 width input ⟨s.output, s.blobs, s.labelCounter b⟩ x = u)
    (hv : scanPixel 9999 width input ⟨t.output, t.blobs, t.labelCounter b⟩ x = v) :
    u.labelCounter = v.labelCounter ∧
      (∀ p, InRows b p → p.2 < width → u.output (idx width p) = v.output (idx width p)) ∧
      ∀ i, Own b i → u.blobs i = v.blobs i := by
  have hin := inside_of_mem hb hx
  have hinside := hin
  unfold Inside at hinside
  subst hu hv
  have hwrite : ∀ l p, InRows b p → p.2 < width →
      s.output.write (idx width x) l (idx width p) =
        t.output.write (idx width x) l (idx width p) := by
    intro l p hp hcol
    rw [Buf.write_apply, Buf.write_apply, h.output p hp hcol]
  by_cases hon : Moving input width labelledHeight x
  · have hread : around width s.output x = around width t.output x := by
      apply around_congr hinside.1 hinside.2.2.1
      intro y hbe
      have hcol := hbe.near_col
      by_cases hy : Moving input width labelledHeight y
      · exact h.output y (quiet.inRows hb hx hon hbe hy) (by omega)
      · rw [hs.clear y (by omega) hy, ht.clear y (by omega) hy]
    by_cases hm : minLabel 9999 (around width s.output x) = 9999
    · rw [scanPixel_fresh hon.2 hm, scanPixel_fresh hon.2 (hread ▸ hm)]
      dsimp only
      rw [← h.counter]
      refine ⟨rfl, hwrite _, fun i hi => ?_⟩
      rw [Buf.write_apply, Buf.write_apply]
      split
      · rename_i he
        rw [h.blobs _ (he ▸ hi)]
      · exact h.blobs i hi
    · obtain ⟨hmem, h0, _⟩ := minLabel_mem hm
      have hown := (hs.read quiet hb hx hon hmem).resolve_left h0
      rw [scanPixel_join hon.2 rfl hm, scanPixel_join hon.2 rfl (hread ▸ hm), ← hread]
      refine ⟨h.counter, hwrite _, fun i hi => ?_⟩
      dsimp only
      rw [linkAll_apply, linkAll_apply, Buf.write_apply, Buf.write_apply, h.blobs i hi,
        h.blobs _ hown]
  · rw [scanPixel_off (fun ha => hon ⟨hin, ha⟩), scanPixel_off (fun ha => hon ⟨hin, ha⟩)]
    exact ⟨h.counter, hwrite 0, h.blobs⟩

/-- Its own labelling turn comes to the same in both. -/
theorem Alongside.label (h : Alongside width b s t) (hs : Kept input width s)
    (ht : Kept input width t) (quiet : SeamsQuiet input width) (hb : b ∈ bands)
    (hx : x ∈ b.pixels width) :
    (step input width s (.label b x) = none ∧ step input width t (.label b x) = none) ∨
      ∃ s' t', step input width s (.label b x) = some s' ∧
        step input width t (.label b x) = some t' ∧ Alongside width b s' t' := by
  rw [step_label, step_label]
  unfold labelPixel
  dsimp only
  generalize hu : scanPixel 9999 width input ⟨s.output, s.blobs, s.labelCounter b⟩ x = u
  generalize hv : scanPixel 9999 width input ⟨t.output, t.blobs, t.labelCounter b⟩ x = v
  obtain ⟨hcount, hout, hblobs⟩ := h.scan hs ht quiet hb hx hu hv
  rw [h.counter, hcount]
  by_cases hfull : t.labelCounter b < v.labelCounter ∧
      v.labelCounter ≥ b.startLabel + maxBlobsPerThread
  · rw [if_pos hfull, if_pos hfull]
    exact Or.inl ⟨rfl, rfl⟩
  · rw [if_neg hfull, if_neg hfull]
    refine Or.inr ⟨_, _, rfl, rfl, ?_, hout, hblobs⟩
    dsimp only
    rw [Function.update_self, Function.update_self, hcount]

theorem Alongside.redirect (h : Alongside width b s t) (hs : Kept input width s)
    (hb : b ∈ bands) {i : Nat} (hi : Own b i) :
    Alongside width b { s with blobs := redirectUsed s.blobs i }
      { t with blobs := redirectUsed t.blobs i } where
  counter := h.counter
  output := h.output
  blobs := by
    have halike : Alike b s.blobs t.blobs := ⟨h.blobs, hs.leads b hb⟩
    exact (halike.redirect hi).same

/-- So does any turn of its own. -/
theorem Alongside.turn (h : Alongside width b s t) (hs : Kept input width s)
    (ht : Kept input width t) (quiet : SeamsQuiet input width) (hb : b ∈ bands)
    (ha : a ∈ labelActs width b) :
    (step input width s a = none ∧ step input width t a = none) ∨
      ∃ s' t', step input width s a = some s' ∧ step input width t a = some t' ∧
        Alongside width b s' t' := by
  cases List.mem_append.mp ha with
  | inl hlabel =>
    obtain ⟨x, hx, rfl⟩ := List.mem_map.mp hlabel
    exact h.label hs ht quiet hb hx
  | inr hredirect =>
    obtain ⟨i, hi, rfl⟩ := List.mem_map.mp hredirect
    exact Or.inr ⟨_, _, rfl, rfl, h.redirect hs hb (mem_upto.mp hi)⟩

/-- The state of a run beside those each thread reaches alone. -/
structure Beside (input : Buf UInt8) (width : Nat) (t : Band → Machine w) (s : Machine w) :
    Prop where
  kept : Kept input width s
  alone : ∀ b ∈ bands, Kept input width (t b) ∧ Alongside width b s (t b)
  frame : ∀ i, (∀ b ∈ bands, ∀ p ∈ b.pixels width, i ≠ idx width p) → s.output i = 0

theorem Beside.turn {t : Band → Machine w} (h : Beside input width t s)
    (quiet : SeamsQuiet input width) (hb : b ∈ bands) (ha : a ∈ labelActs width b) :
    (step input width s a = none ∧ step input width (t b) a = none) ∨
      ∃ s' u, step input width s a = some s' ∧ step input width (t b) a = some u ∧
        Beside input width (Function.update t b u) s' := by
  obtain ⟨hkept, hbeside⟩ := h.alone b hb
  cases hbeside.turn h.kept hkept quiet hb ha with
  | inl hstop => exact Or.inl hstop
  | inr hgo =>
    obtain ⟨s', u, hs, hu, hnext⟩ := hgo
    obtain ⟨hk, hspared⟩ := h.kept.turn quiet hb ha hs
    refine Or.inr ⟨s', u, hs, hu, hk, ?_, ?_⟩
    · intro c hc
      by_cases he : c = b
      · rw [he, Function.update_self]
        exact ⟨(hkept.turn quiet hb ha hu).1, hnext⟩
      · rw [Function.update_of_ne he]
        exact ⟨(h.alone c hc).1, (h.alone c hc).2.spared hb hc he hspared⟩
    · intro i hi
      rw [hspared.output i (hi b hb)]
      exact h.frame i hi

/-- Every run of the label threads, beside the threads alone. -/
theorem labels_beside {labels : List Act} (quiet : SeamsQuiet input width)
    (hl : Interleave.Run (labelThreads width) labels) (stack : Buf (Blob w)) :
    (labels.foldlM (step input width) (Machine.start stack (Buf.all 0)) = none ∧
      ∃ b ∈ bands, (labelActs width b).foldlM (step input width)
        (Machine.start stack (Buf.all 0)) = none) ∨
    ∃ s u, labels.foldlM (step input width) (Machine.start stack (Buf.all 0)) = some s ∧
      (∀ b ∈ bands, (labelActs width b).foldlM (step input width)
        (Machine.start stack (Buf.all 0)) = some (u b)) ∧ Beside input width u s := by
  refine Interleave.Run.apart (by decide) hl (fun b hb a ha t s h => h.turn quiet hb ha)
    (fun _ => Machine.start stack (Buf.all 0)) _ ?_
  have hstart := Kept.start input width stack
  exact ⟨hstart, fun b _ => ⟨hstart, rfl, fun _ _ _ => rfl, fun _ _ => rfl⟩, fun _ _ => rfl⟩

/-- Two states beside the same. -/
theorem Beside.same {u u' : Band → Machine w} (h : Beside input width u s)
    (h' : Beside input width u' s') (hu : ∀ b ∈ bands, u b = u' b) :
    s.output = s'.output ∧ ∀ i, 1 ≤ i → i ≤ 799 → s.blobs i = s'.blobs i := by
  constructor
  · ext i
    by_cases hi : ∃ b ∈ bands, ∃ p ∈ b.pixels width, i = idx width p
    · obtain ⟨b, hb, p, hp, rfl⟩ := hi
      have hpp := mem_pixels.mp hp
      rw [(h.alone b hb).2.output p hpp.1 (by omega),
        (h'.alone b hb).2.output p hpp.1 (by omega), hu b hb]
    · rw [h.frame i (fun b hb p hp he => hi ⟨b, hb, p, hp, he⟩),
        h'.frame i (fun b hb p hp he => hi ⟨b, hb, p, hp, he⟩)]
  · intro i h1 h2
    obtain ⟨b, hb, hi⟩ := own_cover h1 h2
    rw [(h.alone b hb).2.blobs i hi, (h'.alone b hb).2.blobs i hi, hu b hb]

/-- Where the seams are quiet the assertion fires in all runs of the label threads or in none,
and these leave the same image and the same entries. -/
theorem labels_settled {labels labels' : List Act} (quiet : SeamsQuiet input width)
    (hl : Interleave.Run (labelThreads width) labels)
    (hl' : Interleave.Run (labelThreads width) labels') (stack : Buf (Blob w)) :
    (labels.foldlM (step input width) (Machine.start stack (Buf.all 0)) = none ∧
      labels'.foldlM (step input width) (Machine.start stack (Buf.all 0)) = none) ∨
    ∃ s s', labels.foldlM (step input width) (Machine.start stack (Buf.all 0)) = some s ∧
      labels'.foldlM (step input width) (Machine.start stack (Buf.all 0)) = some s' ∧
      Kept input width s ∧ Kept input width s' ∧
      (∀ b ∈ bands, s.labelCounter b = s'.labelCounter b) ∧ s.output = s'.output ∧
      ∀ i, 1 ≤ i → i ≤ 799 → s.blobs i = s'.blobs i := by
  rcases labels_beside quiet hl stack with ⟨hn, b, hb, hstop⟩ | ⟨s, u, hs, hu, h⟩ <;>
    rcases labels_beside quiet hl' stack with ⟨hn', b', hb', hstop'⟩ | ⟨s', u', hs', hu', h'⟩
  · exact Or.inl ⟨hn, hn'⟩
  · rw [hu' b hb] at hstop
    cases hstop
  · rw [hu b' hb'] at hstop'
    cases hstop'
  · have hsame : ∀ b ∈ bands, u b = u' b :=
      fun b hb => Option.some.inj ((hu b hb).symm.trans (hu' b hb))
    refine Or.inr ⟨s, s', hs, hs', h.kept, h'.kept, fun b hb => ?_, h.same h' hsame⟩
    rw [(h.alone b hb).2.counter, (h'.alone b hb).2.counter, hsame b hb]

/-- What a turn of `stitch` finds at a quiet seam, once it finds a label: 0, or labels of the
band above. -/
theorem Kept.seam_labels (h : Kept input width s) (quiet : SeamsQuiet input width) {row col : Nat}
    (hrow : row ∈ seams) (hcol : 1 ≤ col ∧ col < width - 1) {l : Nat}
    (hfound : minLabel 9999 [s.output (idx width (row - 1, col - 1)),
      s.output (idx width (row - 1, col)), s.output (idx width (row - 1, col + 1))] ≠ 9999)
    (hl : l ∈ [s.output (idx width (row, col)), s.output (idx width (row - 1, col - 1)),
      s.output (idx width (row - 1, col)), s.output (idx width (row - 1, col + 1))]) :
    l = 0 ∨ l ∈ [s.output (idx width (row - 1, col - 1)), s.output (idx width (row - 1, col)),
      s.output (idx width (row - 1, col + 1))] ∧ ∃ b ∈ bands, b.endRow + 1 = row ∧ Own b l := by
  have hbands : ∀ row ∈ seams,
      1 ≤ row ∧ ∃ b ∈ bands, b.endRow + 1 = row ∧ b.startRow ≤ b.endRow := by decide
  obtain ⟨h1, b, hb, hend, hstart⟩ := hbands row hrow
  have habc : ∀ k, k ∈ [s.output (idx width (row - 1, col - 1)),
      s.output (idx width (row - 1, col)), s.output (idx width (row - 1, col + 1))] ↔
        ∃ q, Above (row, col) q ∧ s.output (idx width q) = k :=
    fun k => mem_above (p := (row, col)) h1 hcol.1
  have hlow : ∀ q, Above (row, col) q → q.2 < width ∧ InRows b q := by
    intro q hq
    unfold Above at hq
    unfold InRows
    dsimp only at hq
    omega
  have hmoving : ∀ q, q.2 < width → s.output (idx width q) ≠ 0 →
      Moving input width labelledHeight q := by
    intro q hcol hne
    by_contra hn
    exact hne (h.clear q hcol hn)
  by_cases h0 : l = 0
  · exact Or.inl h0
  · right
    cases List.mem_cons.mp hl with
    | inl hx =>
      -- the pixel below the seam carries no label, as one above it does
      obtain ⟨hmin, hmin0, -⟩ := minLabel_mem hfound
      obtain ⟨q, hq, hqm⟩ := (habc _).mp hmin
      have hxm := hmoving (row, col) (by dsimp only; omega) (hx ▸ h0)
      exact absurd (hmoving q (hlow q hq).1 (hqm ▸ hmin0)) (quiet (row, col) q hrow hq hxm)
    | inr hin =>
      obtain ⟨r, hr, rfl⟩ := (habc l).mp hin
      exact ⟨hin, b, hb, hend, (h.own b hb r (hlow r hr).2 (hlow r hr).1).resolve_left h0⟩

/-- In whatever order the label threads take their turns, they leave the same image and the
same entries. -/
def TurnsIndependent (w : Nat) (input : Buf UInt8) (width : Nat) : Prop :=
  ∀ labels labels' : List Act, Interleave.Run (labelThreads width) labels →
    Interleave.Run (labelThreads width) labels' → ∀ (stack : Buf (Blob w)) (s s' : Machine w),
    labels.foldlM (step input width) (Machine.start stack (Buf.all 0)) = some s →
    labels'.foldlM (step input width) (Machine.start stack (Buf.all 0)) = some s' →
    s.output = s'.output ∧ ∀ i, 1 ≤ i → i ≤ 799 → s.blobs i = s'.blobs i

/-- When the order of the label threads' turns does not matter: exactly when no motion reaches
across a seam. -/
theorem turns_independent_iff
    (silent : ∀ labels, Interleave.Run (labelThreads width) labels → ∀ stack : Buf (Blob w),
      (labels.foldlM (step input width) (Machine.start stack (Buf.all 0))).isSome) :
    TurnsIndependent w input width ↔ SeamsQuiet input width := by
  constructor
  · intro hsame
    have hcall : ∀ order : List Band, order.Perm bands → ∃ c,
        (order.flatMap (labelActs width)).foldlM (step input width)
          (Machine.start (Buf.all Blob.zero) (Buf.all 0)) =
        (runLabels (w := w) input width order (Shared.fresh (Buf.all 0))).map fun sh =>
          { Machine.start (Buf.all Blob.zero) (Buf.all 0) with
            output := sh.output, blobs := sh.blobs, labelCounter := c } :=
      fun order fair => labels_run input width order (fair.nodup_iff.mpr (by decide)) _
        (fun _ _ => rfl)
    refine Independent.seamsQuiet (w := w) (fun order fair => ?_)
      (fun order order' fair fair' sh sh' hsh hsh' => ?_)
    · obtain ⟨c, hc⟩ := hcall order fair
      have hsome := silent _ (calls_run fair) (Buf.all Blob.zero)
      rwa [hc, Option.isSome_map] at hsome
    · obtain ⟨c, hc⟩ := hcall order fair
      obtain ⟨c', hc'⟩ := hcall order' fair'
      rw [hsh] at hc
      rw [hsh'] at hc'
      exact hsame _ _ (calls_run fair) (calls_run fair') _ _ _ hc hc'
  · intro quiet labels labels' hl hl' stack s s' hs hs'
    rcases labels_settled quiet hl hl' stack with ⟨hn, _⟩ | ⟨t, t', ht, ht', _, _, _, hsame⟩
    · rw [hs] at hn
      cases hn
    · obtain rfl := Option.some.inj (hs.symm.trans ht)
      obtain rfl := Option.some.inj (hs'.symm.trans ht')
      exact hsame

/-- Where the seams are quiet one run without the assertion is enough. -/
theorem SeamsQuiet.silent {labels labels' : List Act} (quiet : SeamsQuiet input width)
    (hl : Interleave.Run (labelThreads width) labels)
    (hl' : Interleave.Run (labelThreads width) labels')
    (run : (labels.foldlM (step input width) (Machine.start stack (Buf.all 0))).isSome) :
    (labels'.foldlM (step input width) (Machine.start stack (Buf.all 0))).isSome := by
  rcases labels_settled quiet hl hl' stack with ⟨hn, _⟩ | ⟨_, t, _, ht, _⟩
  · rw [hn] at run
    cases run
  · rw [ht]
    rfl

theorem turns_independent_iff_apart : TurnsIndependent 32 apart 3 := by
  refine (turns_independent_iff ?_).mpr apart_quiet
  intro labels hl stack
  obtain ⟨s, hs⟩ := labels_narrow 32 apart (by decide : 3 ≤ 5) stack
  exact apart_quiet.silent (Interleave.Run.one_by_one _) hl (by rw [hs]; rfl)

end Motion
