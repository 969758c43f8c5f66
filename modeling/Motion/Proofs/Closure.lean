import Motion.Proofs.Turns

/-! The label table of `blob_detect_par` is closed: whatever the image holds is a label
taken, and labels taken lead to labels taken. One turn of any loop keeps it so. -/

namespace Motion

/-- A label some call of `label` has taken. -/
def Allocated (counter : Band → Nat) (l : Nat) : Prop :=
  ∃ b ∈ bands, b.startLabel ≤ l ∧ l < counter b

/-- The invariant. Slot 0 and the unused slots may hold a link, to a label taken. -/
structure Closed (counter : Band → Nat) (output : Buf Nat) (blobs : Table w) : Prop where
  counters : ∀ b ∈ bands, b.startLabel ≤ counter b ∧
    counter b < b.startLabel + maxBlobsPerThread
  labels : ∀ i, output i = 0 ∨ Allocated counter (output i)
  linked : ∀ i, links blobs i = 0 ∨ Allocated counter (links blobs i)
  kept : ∀ l, Allocated counter l → links blobs l ≠ 0

variable {w width : Nat} {input : Buf UInt8} {counter counter' : Band → Nat}
  {output : Buf Nat} {blobs blobs' : Table w} {k l m : Nat} {lbls : List Nat}

theorem Allocated.mono (hc : ∀ b ∈ bands, counter b ≤ counter' b) (h : Allocated counter l) :
    Allocated counter' l := by
  obtain ⟨b, hb, hlo, hhi⟩ := h
  exact ⟨b, hb, hlo, Nat.lt_of_lt_of_le hhi (hc b hb)⟩

theorem linkAll_links (t : Table w) (m : Nat) (lbls : List Nat) (k : Nat) :
    links (linkAll t m lbls) k = if k ∈ lbls ∧ k ≠ m then m else links t k := by
  unfold links
  rw [linkAll_apply]
  split <;> rfl

namespace Closed

theorem start : Closed Band.startLabel (Buf.all 0) (Buf.all (Blob.zero (w := w))) where
  counters := fun _ _ => ⟨Nat.le_refl _, Nat.lt_add_of_pos_right (by decide)⟩
  labels := fun _ => Or.inl rfl
  linked := fun _ => Or.inl rfl
  kept := by
    rintro l ⟨b, _, hlo, hhi⟩
    omega

variable (h : Closed counter output blobs)

include h

theorem label_range (hl : Allocated counter l) : 1 ≤ l ∧ l < maxBlobsPerThread * 4 := by
  obtain ⟨b, hb, hlo, hhi⟩ := hl
  have := h.counters b hb
  have := bands_range hb
  omega

theorem follow (hl : Allocated counter l) : Allocated counter (links blobs l) :=
  (h.linked l).resolve_left (h.kept l hl)

/-- A value that is 0 or a label taken lies within the table. -/
theorem small (hl : l = 0 ∨ Allocated counter l) : l < parTableSize := by
  cases hl with
  | inl hl => exact hl ▸ (by decide)
  | inr hl =>
    have := h.label_range hl
    unfold parTableSize
    unfold maxBlobsPerThread at *
    omega

theorem ushort_eq (hl : l = 0 ∨ Allocated counter l) : ushort l = l := by
  have hlt := h.small hl
  have hsize : parTableSize ≤ 65536 := by decide
  exact Nat.mod_eq_of_lt (by omega)

/-- Links may be followed once more. -/
theorem relink (hl : ∀ k, links blobs' k = links blobs k ∨
      links blobs' k = links blobs (links blobs k)) :
    Closed counter output blobs' where
  counters := h.counters
  labels := h.labels
  linked := by
    intro k
    cases hl k with
    | inl he => rw [he]; exact h.linked k
    | inr he => rw [he]; exact h.linked _
  kept := by
    intro k hk
    cases hl k with
    | inl he => rw [he]; exact h.kept k hk
    | inr he => rw [he]; exact h.kept _ (h.follow hk)

/-- Any labels at all may be linked to a label taken. -/
theorem link (hm : Allocated counter m) : Closed counter output (linkAll blobs m lbls) where
  counters := h.counters
  labels := h.labels
  linked := by
    intro k
    rw [linkAll_links]
    split
    · exact Or.inr hm
    · exact h.linked k
  kept := by
    intro k hk
    rw [linkAll_links]
    split
    · have := (h.label_range hm).1
      omega
    · exact h.kept k hk

/-- A pixel may be given a label taken, or none. -/
theorem write (i : Nat) (hl : l = 0 ∨ Allocated counter l) :
    Closed counter (output.write i l) blobs where
  counters := h.counters
  labels := by
    intro j
    rw [Buf.write_apply]
    split
    · exact hl
    · exact h.labels j
  linked := h.linked
  kept := h.kept

omit h in
/-- The least of some labels of the image is one taken. -/
theorem least (hread : ∀ l ∈ lbls, l = 0 ∨ Allocated counter l)
    (hm : minLabel 9999 lbls ≠ 9999) : Allocated counter (minLabel 9999 lbls) := by
  obtain ⟨hin, h0, _⟩ := minLabel_mem hm
  exact (hread _ hin).resolve_left h0

/-- A new label is linked to itself. -/
theorem fresh {b : Band} (hb : b ∈ bands) (fits : counter b + 1 < b.startLabel + maxBlobsPerThread)
    (hnew : links blobs' (counter b) = counter b)
    (hkeep : ∀ k, k ≠ counter b → links blobs' k = links blobs k) :
    Closed (Function.update counter b (counter b + 1)) output blobs' := by
  have hle : ∀ c ∈ bands, counter c ≤ Function.update counter b (counter b + 1) c := by
    intro c _
    rw [Function.update_apply]
    split
    · rename_i he
      rw [he]
      exact Nat.le_succ _
    · exact Nat.le_refl _
  have hself : Allocated (Function.update counter b (counter b + 1)) (counter b) := by
    refine ⟨b, hb, (h.counters b hb).1, ?_⟩
    rw [Function.update_self]
    exact Nat.lt_succ_self _
  constructor
  · intro c hc
    have hcc := h.counters c hc
    rw [Function.update_apply]
    split
    · rename_i he
      rw [he] at hcc ⊢
      omega
    · exact hcc
  · intro i
    exact (h.labels i).imp id (Allocated.mono hle)
  · intro k
    by_cases hk : k = counter b
    · rw [hk, hnew]
      exact Or.inr hself
    · rw [hkeep k hk]
      exact (h.linked k).imp id (Allocated.mono hle)
  · rintro k ⟨c, hc, hlo, hhi⟩
    by_cases hk : k = counter b
    · rw [hk, hnew]
      have := (h.counters b hb).1
      have := (bands_range hb).2.2.2.1
      omega
    · rw [hkeep k hk]
      refine h.kept k ⟨c, hc, hlo, ?_⟩
      rw [Function.update_apply] at hhi
      split at hhi
      · rename_i he
        rw [he]
        omega
      · exact hhi

end Closed

/-- The bands and slots a turn may be about. -/
def Act.Declared : Act → Prop
  | .label b _ => b ∈ bands
  | .redirectUsed i | .redirect i | .merge i => i < parTableSize
  | .stitch _ | .relabel _ => True

namespace Machine

variable {s s' : Machine w} {a : Act}

/-- The labels read around a pixel are labels taken, or 0. -/
theorem around_closed (h : Closed s.labelCounter s.output s.blobs) (p : Pixel) :
    ∀ l ∈ around width s.output p, l = 0 ∨ Allocated s.labelCounter l := by
  intro l hl
  simp only [around, List.mem_cons, List.not_mem_nil, or_false] at hl
  rcases hl with rfl | rfl | rfl | rfl <;> exact h.labels _

theorem above_closed (h : Closed s.labelCounter s.output s.blobs) (p : Pixel) :
    ∀ l ∈ [s.output (idx width (p.1 - 1, p.2 - 1)), s.output (idx width (p.1 - 1, p.2)),
      s.output (idx width (p.1 - 1, p.2 + 1))], l = 0 ∨ Allocated s.labelCounter l := by
  intro l hl
  simp only [List.mem_cons, List.not_mem_nil, or_false] at hl
  rcases hl with rfl | rfl | rfl <;> exact h.labels _

theorem label_closed {b : Band} {p : Pixel} (h : Closed s.labelCounter s.output s.blobs)
    (hb : b ∈ bands) (hs : step input width s (.label b p) = some s') :
    Closed s'.labelCounter s'.output s'.blobs := by
  unfold step at hs
  obtain ⟨t, ht, rfl⟩ := Option.map_eq_some_iff.mp hs
  obtain ⟨rfl, hfits⟩ := labelPixel_some ht
  have hsame : Function.update s.labelCounter b (s.labelCounter b) = s.labelCounter :=
    Function.update_eq_self _ _
  have hpos := (h.counters b hb).1
  cases scanPixel_step 9999 width input ⟨s.output, s.blobs, s.labelCounter b⟩ p with
  | idle he =>
    rw [he]
    dsimp only
    rw [hsame]
    exact h.write _ (Or.inl rfl)
  | fresh _ he =>
    rw [he] at hfits ⊢
    dsimp only at hfits ⊢
    have hnew : Closed (Function.update s.labelCounter b (s.labelCounter b + 1)) s.output
        (s.blobs.write (s.labelCounter b)
          ((s.blobs (s.labelCounter b)).start (s.labelCounter b) p)) :=
      h.fresh hb (hfits (Nat.lt_succ_self _)) (by simp [links, Blob.start])
        (fun k hk => by simp [links, hk])
    have hself : Allocated (Function.update s.labelCounter b (s.labelCounter b + 1))
        (s.labelCounter b) := by
      refine ⟨b, hb, hpos, ?_⟩
      rw [Function.update_self]
      exact Nat.lt_succ_self _
    rw [hnew.ushort_eq (Or.inr hself)]
    exact hnew.write _ (Or.inr hself)
  | join m mem nonzero below least he =>
    have hm : Allocated s.labelCounter m := (around_closed h p m mem).resolve_left nonzero
    rw [he]
    dsimp only
    rw [hsame, h.ushort_eq (Or.inr hm)]
    have hgrow : Closed s.labelCounter s.output (s.blobs.write m ((s.blobs m).grow p)) := by
      refine h.relink (fun k => Or.inl ?_)
      unfold links
      rw [Buf.write_apply]
      split
      · rename_i hk
        rw [hk]
        rfl
      · rfl
    exact (hgrow.link hm).write _ (Or.inr hm)

/-- One turn keeps the table closed. -/
theorem step_closed (h : Closed s.labelCounter s.output s.blobs) (ha : a.Declared)
    (hs : step input width s a = some s') : Closed s'.labelCounter s'.output s'.blobs := by
  cases a with
  | label b p => exact label_closed h ha hs
  | redirectUsed i =>
    obtain rfl := Option.some.inj hs
    exact h.relink (redirectUsed_label s.blobs i)
  | stitch p =>
    obtain rfl := Option.some.inj hs
    unfold stitchPixel
    dsimp only
    split
    · rename_i hm
      exact h.link (Closed.least (above_closed h p) hm)
    · exact h
  | redirect i =>
    obtain rfl := Option.some.inj hs
    refine h.relink (fun k => ?_)
    by_cases hk : k = i
    · rw [hk]
      exact Or.inr (redirectEntry_self s.blobs i)
    · unfold links
      rw [redirectEntry_other s.blobs hk]
      exact Or.inl rfl
  | merge i =>
    obtain rfl := Option.some.inj hs
    exact h.relink (fun k => Or.inl (mergeUsed_label _ i k))
  | relabel p =>
    obtain rfl := Option.some.inj hs
    unfold relabelPixel
    dsimp only
    split
    · rename_i h0
      have hl : Allocated s.labelCounter (s.blobs (s.output (idx width p))).label :=
        h.follow ((h.labels (idx width p)).resolve_left h0)
      rw [h.ushort_eq (Or.inr hl)]
      exact h.write _ (Or.inr hl)
    · exact h

theorem linkUses_lt (h : Closed s.labelCounter s.output s.blobs)
    (hread : ∀ l ∈ lbls, l = 0 ∨ Allocated s.labelCounter l)
    (hm : Allocated s.labelCounter m) : ∀ k ∈ linkUses m lbls, k < parTableSize := by
  intro k hk
  unfold linkUses at hk
  cases List.mem_cons.mp hk with
  | inl he => exact h.small (Or.inr (he ▸ hm))
  | inr hk => exact h.small (hread k (List.mem_of_mem_filter hk))

theorem slot_mem (i j : Nat) (c : Prop) [Decidable c] : i ∈ if c then [i, j] else [i] := by
  split <;> exact List.mem_cons_self

/-- A slot and what it is linked to. -/
theorem pair_lt (h : Closed s.labelCounter s.output s.blobs) {i : Nat} (hi : i < parTableSize)
    (c : Prop) [Decidable c] :
    ∀ k ∈ if c then [i, (s.blobs i).label] else [i], k < parTableSize := by
  intro k hk
  split at hk
  · simp only [List.mem_cons, List.not_mem_nil, or_false] at hk
    cases hk with
    | inl he => exact he ▸ hi
    | inr he => exact he ▸ h.small (h.linked i)
  · exact List.mem_singleton.mp hk ▸ hi

/-- Every entry a turn uses is declared. -/
theorem uses_lt (h : Closed s.labelCounter s.output s.blobs) (ha : a.Declared)
    (hs : step input width s a = some s') : ∀ k ∈ uses input width s a, k < parTableSize := by
  cases a with
  | label b p =>
    intro k hk
    unfold uses at hk
    dsimp only at hk
    split at hk
    · rename_i hon
      split at hk
      · -- the counter was checked before its entry is written
        rename_i hm
        unfold step at hs
        obtain ⟨t, ht, _⟩ := Option.map_eq_some_iff.mp hs
        obtain ⟨rfl, hfits⟩ := labelPixel_some ht
        simp only [scanPixel, if_pos hon, if_pos hm] at hfits
        have := hfits (Nat.lt_succ_self _)
        have := bands_range ha
        rw [List.mem_singleton.mp hk]
        unfold parTableSize
        omega
      · rename_i hm
        exact linkUses_lt h (around_closed h p) (Closed.least (around_closed h p) hm) k hk
    · exact absurd hk List.not_mem_nil
  | stitch p =>
    intro k hk
    unfold uses at hk
    dsimp only at hk
    split at hk
    · rename_i hm
      refine linkUses_lt h ?_ (Closed.least (above_closed h p) hm) k hk
      intro l hl
      cases List.mem_cons.mp hl with
      | inl he => exact he ▸ h.labels _
      | inr hl => exact above_closed h p l hl
    · exact absurd hk List.not_mem_nil
  | redirectUsed i => exact pair_lt h ha _
  | redirect i => exact pair_lt h ha _
  | merge i => exact pair_lt h ha _
  | relabel p =>
    intro k hk
    unfold uses at hk
    dsimp only at hk
    split at hk
    · exact List.mem_singleton.mp hk ▸ h.small (h.labels _)
    · exact absurd hk List.not_mem_nil

theorem linkAll_unused (t : Table w) (hk : k ∉ linkUses m lbls) : linkAll t m lbls k = t k := by
  refine linkAll_other ?_
  unfold linkUses at hk
  by_cases he : k = m
  · exact Or.inl he
  · exact Or.inr (fun hin => hk (List.mem_cons_of_mem _ (by simp [hin, he])))

/-- An entry a turn does not use stays as it is. -/
theorem step_unused (hs : step input width s a = some s') (hk : k ∉ uses input width s a) :
    s'.blobs k = s.blobs k := by
  cases a with
  | label b p =>
    unfold step at hs
    obtain ⟨t, ht, rfl⟩ := Option.map_eq_some_iff.mp hs
    obtain ⟨rfl, _⟩ := labelPixel_some ht
    unfold uses at hk
    dsimp only at hk ⊢
    unfold scanPixel
    dsimp only
    split
    · rename_i hon
      rw [if_pos hon] at hk
      split
      · rename_i hm
        rw [if_pos hm] at hk
        exact Buf.write_other _ _ (by simpa using hk)
      · rename_i hm
        rw [if_neg hm] at hk
        dsimp only
        rw [linkAll_unused _ hk]
        refine Buf.write_other _ _ (fun he => hk ?_)
        rw [he]
        exact List.mem_cons_self
    · rfl
  | redirectUsed i =>
    obtain rfl := Option.some.inj hs
    exact redirectUsed_keeps _ (Or.inr (fun he => hk (he ▸ slot_mem i _ _)))
  | stitch p =>
    obtain rfl := Option.some.inj hs
    unfold uses at hk
    unfold stitchPixel
    dsimp only at hk ⊢
    split
    · rename_i hm
      rw [if_pos hm] at hk
      exact linkAll_unused _ hk
    · rfl
  | redirect i =>
    obtain rfl := Option.some.inj hs
    exact redirectEntry_other _ (fun he => hk (he ▸ slot_mem i _ _))
  | merge i =>
    obtain rfl := Option.some.inj hs
    unfold uses at hk
    unfold mergeUsed mergeEntry
    dsimp only at hk ⊢
    split
    · rfl
    · rename_i h0
      split
      · rename_i hne
        rw [if_pos ⟨h0, hne⟩] at hk
        exact Buf.write_other _ _ (fun he => hk (by simp [he]))
      · rfl
  | relabel p =>
    obtain rfl := Option.some.inj hs
    rfl

end Machine

/-- Every turn is about a band or a slot that is declared. -/
theorem acts_declared {order : List Band} {stitches : List Nat} {height : Nat} {a : Act}
    (fair : order.Perm bands) (ha : a ∈ acts width height order stitches) : a.Declared := by
  have hsize : parTableSize = maxBlobsPerThread * 4 + 4 := rfl
  simp only [acts, List.mem_append, List.mem_flatMap, labelActs, stitchActs, List.mem_map,
    List.mem_reverse, mem_upto] at ha
  rcases ha with (⟨b, hb, ⟨p, _, rfl⟩ | ⟨i, hi, rfl⟩⟩ | ⟨row, _, col, _, rfl⟩) |
    (⟨i, hi, rfl⟩ | ⟨i, hi, rfl⟩) | ⟨p, _, rfl⟩
  · exact fair.mem_iff.mp hb
  · have := bands_range (fair.mem_iff.mp hb)
    show i < parTableSize
    omega
  · trivial
  · show i < parTableSize
    omega
  · show i < parTableSize
    omega
  · trivial

/-- Closure at every turn of every schedule: of what the run has reached, every label in
the image is one a call of `label` has taken, a label taken leads to a label taken, and the
turn that follows uses declared entries only. The merge and relabel turns are those of a run
that records at most `maxBlobsPerThread` blobs: past the end of `consolidated_blobs` the source
writes over the table. -/
theorem table_closed {order : List Band} {stitches : List Nat} {height : Nat}
    {pre rest : List Act} {stack : Buf (Blob w)} {s : Machine w} (fair : order.Perm bands)
    (split : acts width height order stitches = pre ++ rest)
    (run : pre.foldlM (step input width) (Machine.start stack (Buf.all 0)) = some s) :
    (∀ i, s.output i ≠ 0 → Allocated s.labelCounter (s.output i) ∧
      1 ≤ s.output i ∧ s.output i ≤ 799) ∧
    (∀ l, Allocated s.labelCounter l →
      Allocated s.labelCounter (links s.blobs l) ∧ links s.blobs l ≠ 0) ∧
    ∀ a s', rest.head? = some a → step input width s a = some s' →
      ∀ k ∈ uses input width s a, k < 804 := by
  have hdeclared : ∀ a ∈ pre ++ rest, a.Declared :=
    fun a ha => acts_declared fair (split ▸ ha)
  have hclosed : Closed s.labelCounter s.output s.blobs :=
    Fold.prefix_induction_option (P := fun _ (s : Machine w) =>
        Closed s.labelCounter s.output s.blobs) pre _ s Closed.start
      (fun mid a post t t' hl ht hs => Machine.step_closed ht
        (hdeclared a (by rw [hl]; simp)) hs) run
  refine ⟨?_, ?_, ?_⟩
  · intro i h0
    have hl := (hclosed.labels i).resolve_left h0
    have := hclosed.label_range hl
    unfold maxBlobsPerThread at this
    exact ⟨hl, by omega, by omega⟩
  · exact fun l hl => ⟨hclosed.follow hl, hclosed.kept l hl⟩
  · intro a s' hhead hs
    refine Machine.uses_lt hclosed (hdeclared a ?_) hs
    exact List.mem_append_right _ (List.mem_of_mem_head? hhead)

/-- A frame all of which moves, once it is labelled and stitched. -/
theorem table_closed_bright : ∃ s : Machine 32,
    (bands.flatMap (labelActs 3) ++ seams.flatMap (stitchActs 3)).foldlM
      (step (Buf.all 255) 3) (Machine.start (Buf.all Blob.zero) (Buf.all 0)) = some s ∧
    (∀ i, s.output i ≠ 0 → Allocated s.labelCounter (s.output i) ∧
      1 ≤ s.output i ∧ s.output i ≤ 799) ∧
    (∀ l, Allocated s.labelCounter l →
      Allocated s.labelCounter (links s.blobs l) ∧ links s.blobs l ≠ 0) ∧
    ∀ a s', ((upto 1 (maxBlobsPerThread * 4)).map Act.redirect ++
        (upto 1 (maxBlobsPerThread * 4)).reverse.map Act.merge ++
        (interior 3 240).map Act.relabel).head? = some a →
      step (Buf.all 255) 3 s a = some s' → ∀ k ∈ uses (Buf.all 255) 3 s a, k < 804 := by
  have hsome := runLabels_isSome 32 (List.Perm.refl bands)
    (roomy_of_narrow (Buf.all 255) bands (by decide : 3 ≤ 5))
  obtain ⟨sh, hsh⟩ := Option.isSome_iff_exists.mp hsome
  obtain ⟨c, hc⟩ := labels_run (Buf.all 255) 3 bands (by decide)
    (Machine.start (Buf.all (Blob.zero (w := 32))) (Buf.all 0)) (fun _ _ => rfl)
  have hlabels := hc.trans (congrArg (Option.map _) hsh)
  have hrun : ∃ s, (bands.flatMap (labelActs 3) ++ seams.flatMap (stitchActs 3)).foldlM
      (step (Buf.all 255) 3) (Machine.start (Buf.all (Blob.zero (w := 32))) (Buf.all 0)) =
        some s := by
    rw [List.foldlM_append, hlabels]
    exact ⟨_, stitches_run seams _⟩
  obtain ⟨s, hs⟩ := hrun
  exact ⟨s, hs, table_closed (List.Perm.refl _) rfl hs⟩

end Motion
