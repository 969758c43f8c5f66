import Motion.Proofs.Threads

/-! The label threads of `blob_detect_par` one turn at a time, their turns in any order. What
a pixel sees of the band above it is what has been labelled there by the time of its turn. -/

namespace Motion
open Labelling

/-- `q` is visited before `p`. -/
def Earlier (visits : List Pixel) (p q : Pixel) : Prop := visits.idxOf q < visits.idxOf p

/-- The image the label threads work on, under an order of their pixels. -/
abbrev wovenScene (w : Nat) (input : Buf UInt8) (width : Nat) (visits : List Pixel) :
    Ground Pixel (Blob w) :=
  image w (Moving input width labelledHeight) (Earlier visits)

/-- What holds once the pixels in `done` have had their turn, of those in `visits`. -/
structure Weave (input : Buf UInt8) (width : Nat) (visits done : List Pixel) (s : Machine w) :
    Prop where
  closed : Closed s.labelCounter s.output s.blobs
  area : ∀ q ∈ done, Inside width labelledHeight q
  marked : Marked (wovenScene w input width visits) done.toFinset (marks width s.output s.blobs)
  sound : Sound (wovenScene w input width visits) done.toFinset (marks width s.output s.blobs)
  gathered : Gathered (wovenScene w input width visits) done.toFinset
    (marks width s.output s.blobs)
  frame : ∀ i, (∀ p ∈ done, i ≠ idx width p) → s.output i = 0
  /-- A band's labels so far are its own or those of bands above it. -/
  below : ∀ q ∈ live (wovenScene w input width visits) done.toFinset, ∀ b ∈ bands, InRows b q →
    s.output (idx width q) < s.labelCounter b
  taken : ∀ l, Allocated s.labelCounter l →
    ∃ q ∈ live (wovenScene w input width visits) done.toFinset, s.output (idx width q) = l
  unused : ∀ l ≠ 0, ¬Allocated s.labelCounter l → s.blobs l = Blob.zero

variable {w width : Nat} {input : Buf UInt8} {visits done rest : List Pixel} {p q x y : Pixel}
  {s s' : Machine w} {b : Band} {stack : Buf (Blob w)}

/-- What a pixel sees is what has had its turn before. -/
theorem earlier_iff (hnodup : (done ++ x :: rest).Nodup) :
    Earlier (done ++ x :: rest) x q ↔ q ∈ done := by
  have hx : x ∉ done := fun hm => (List.nodup_append.mp hnodup).2.2 x hm x (by simp) rfl
  unfold Earlier
  rw [List.idxOf_append_of_notMem hx, List.idxOf_cons_self, Nat.add_zero]
  by_cases hq : q ∈ done
  · rw [List.idxOf_append_of_mem hq]
    exact iff_of_true (List.idxOf_lt_length_of_mem hq) hq
  · rw [List.idxOf_append_of_notMem hq]
    exact iff_of_false (by omega) hq

namespace Weave

theorem start (input : Buf UInt8) (width : Nat) (visits : List Pixel) (stack : Buf (Blob w)) :
    Weave input width visits [] (Machine.start stack (Buf.all 0)) where
  closed := Closed.start
  area := by simp
  marked := Marked.empty
  sound := by constructor <;> simp [live]
  gathered := by simp [Gathered]
  frame := fun _ _ => rfl
  below := by simp [live]
  taken := by
    rintro l ⟨b, _, hlo, hhi⟩
    exact absurd hhi (Nat.not_lt.mpr hlo)
  unused := fun _ _ _ => rfl

variable (h : Weave input width visits done s)

include h

theorem col_lt (hq : q ∈ done) : q.2 < width := by
  have := h.area q hq
  unfold Inside at this
  omega

/-- Everything the turn of a pixel relies on. -/
theorem ready (hvisits : visits = done ++ x :: rest) (hnodup : visits.Nodup) (hb : b ∈ bands)
    (hx : x ∈ b.pixels width) :
    Ready (Moving input width labelledHeight) (Earlier visits) 9999 width input done.toFinset
      ⟨s.output, s.blobs, s.labelCounter b⟩ x := by
  have hin := inside_of_mem hb hx
  have hin' := hin
  unfold Inside at hin'
  have hrange := bands_range hb
  have hcount := h.closed.counters b hb
  have hsees : ∀ y, Earlier visits x y ↔ y ∈ done := by
    intro y
    rw [hvisits] at hnodup ⊢
    exact earlier_iff hnodup
  constructor
  · exact hin.1
  · omega
  · intro q hq
    exact h.col_lt (by simpa using hq)
  · rw [hvisits] at hnodup
    intro hm
    exact (List.nodup_append.mp hnodup).2.2 x (by simpa using hm) x (by simp) rfl
  · exact ⟨fun hm => hm.2, fun ha => ⟨hin, ha⟩⟩
  · intro hon y hbe hne
    have hnear := hbe.near_col
    obtain ⟨p, hp, he⟩ : ∃ p ∈ done, idx width y = idx width p := by
      by_contra hnone
      exact hne (h.frame _ (fun p hp he => hnone ⟨p, hp, he⟩))
    obtain rfl : y = p := idx_inj (by omega) (h.col_lt hp) he
    have hy : Moving input width labelledHeight y := by
      by_contra hn
      exact hne ((h.marked.zero y (by simpa using hp)).mpr hn)
    exact ⟨hon, hy, hbe, (hsees y).mpr hp⟩
  · intro y hy
    simpa using (hsees y).mp hy.2.2.2
  · have := hcount.1
    dsimp only
    omega
  · intro _ _
    unfold maxBlobsPerThread at hrange hcount
    dsimp only
    omega
  · intro q _ _
    have hlt := h.closed.small (h.closed.labels (idx width q))
    have hsize : parTableSize ≤ 65536 := by decide
    dsimp only
    omega
  · intro q _ he
    dsimp only at he
    cases h.closed.labels (idx width q) with
    | inl h0 => omega
    | inr hl =>
      rw [he] at hl
      exact h.closed.untaken hb hl
  · intro y hy
    have hyd : y ∈ live (wovenScene w input width visits) done.toFinset :=
      ⟨by simpa using (hsees y).mp hy.2.2.2, hy.2.1⟩
    obtain ⟨c, hc, hrows⟩ := bands_cover hy.2.1.1
    have hlow := h.below y hyd c hc hrows
    have hccount := h.closed.counters c hc
    have hbehind := hy.2.2.1.near_row
    have hxr := (mem_pixels.mp hx).1
    unfold InRows at hrows hxr
    dsimp only
    rcases bands_apart hb hc with he | hap | hap
    · rw [he]
      exact hlow
    · omega
    · omega

omit h in
theorem live_concat (hq : q ∈ live (wovenScene w input width visits) done.toFinset) :
    q ∈ live (wovenScene w input width visits) (done ++ [x]).toFinset :=
  ⟨by rw [toFinset_concat]; exact Finset.mem_insert_of_mem hq.1, hq.2⟩

/-- A label is on a pixel once it is taken, the one of this turn on this turn's pixel. -/
theorem taken_label {t : Scan w} (hb : b ∈ bands)
    (hkeep : ∀ q ∈ done, t.output (idx width q) = s.output (idx width q))
    (hcount : t.labelCounter = s.labelCounter b ∨ Moving input width labelledHeight x ∧
      t.labelCounter = s.labelCounter b + 1 ∧ t.output (idx width x) = s.labelCounter b) {l : Nat}
    (hl : Allocated (Function.update s.labelCounter b t.labelCounter) l) :
    ∃ q ∈ live (wovenScene w input width visits) (done ++ [x]).toFinset,
      t.output (idx width q) = l := by
  have hold : Allocated s.labelCounter l →
      ∃ q ∈ live (wovenScene w input width visits) (done ++ [x]).toFinset,
        t.output (idx width q) = l := by
    intro hl
    obtain ⟨q, hq, he⟩ := h.taken l hl
    exact ⟨q, live_concat hq, (hkeep q (by simpa using hq.1)).trans he⟩
  rcases hcount with hcount | ⟨hon, hcount, hlab⟩
  · rw [hcount, Function.update_eq_self] at hl
    exact hold hl
  · rw [hcount] at hl
    cases (h.closed.allocated_update hb).mp hl with
    | inl hl => exact hold hl
    | inr hl => exact ⟨x, ⟨by simp, hon⟩, hlab.trans hl.symm⟩

/-- A turn writes entries of labels taken. -/
theorem unused_label {t : Scan w} (hb : b ∈ bands)
    (hstep : PixelStep 9999 width ⟨s.output, s.blobs, s.labelCounter b⟩ t x) {l : Nat} (h0 : l ≠ 0)
    (hold : ¬Allocated s.labelCounter l)
    (hl : ¬Allocated (Function.update s.labelCounter b t.labelCounter) l) :
    t.blobs l = Blob.zero := by
  cases hstep with
  | idle he =>
    rw [he]
    exact h.unused l h0 hold
  | fresh _ he =>
    rw [he] at hl ⊢
    dsimp only at hl ⊢
    rw [h.closed.allocated_update hb, not_or] at hl
    rw [Buf.write_other _ _ hl.2]
    exact h.unused l h0 hold
  | join m mem nonzero _ _ he =>
    have hread : ∀ k ∈ around width s.output x, k = 0 ∨ Allocated s.labelCounter k :=
      Machine.around_closed h.closed x
    have hne : l ≠ m := fun e => hold (e ▸ (hread m mem).resolve_left nonzero)
    rw [he]
    dsimp only
    rw [linkAll_other (Or.inr (fun hm => (hread l hm).elim h0 hold)), Buf.write_other _ _ hne]
    exact h.unused l h0 hold

/-- The turn of a label thread at a pixel. -/
theorem label (hvisits : visits = done ++ x :: rest) (hnodup : visits.Nodup) (hb : b ∈ bands)
    (hx : x ∈ b.pixels width) (hs : step input width s (.label b x) = some s') :
    Weave input width visits (done ++ [x]) s' := by
  have r := h.ready hvisits hnodup hb hx
  have v := r.visit h.marked
  have hturn := r.turn h.marked
  have hclosed := Machine.label_closed h.closed hb hs
  obtain ⟨rfl, hfits⟩ := Machine.label_turn hs
  dsimp only at hclosed
  generalize ht : scanPixel 9999 width input ⟨s.output, s.blobs, s.labelCounter b⟩ x = t
    at v hturn hfits hclosed ⊢
  have hstep : PixelStep 9999 width ⟨s.output, s.blobs, s.labelCounter b⟩ t x :=
    ht ▸ scanPixel_step _ _ _ _ _
  have hkeep : ∀ q ∈ done, t.output (idx width q) = s.output (idx width q) :=
    fun q hq => v.keep q (by simpa using hq)
  have hnext : ∀ q ∈ live (wovenScene w input width visits) (done ++ [x]).toFinset,
      q ∈ live (wovenScene w input width visits) done.toFinset ∨ q = x := by
    rintro q ⟨hq, hon⟩
    rw [toFinset_concat] at hq
    cases Finset.mem_insert.mp hq with
    | inl he => exact Or.inr he
    | inr hq => exact Or.inl ⟨hq, hon⟩
  have hgrow : ∀ c, s.labelCounter c ≤ Function.update s.labelCounter b t.labelCounter c := by
    intro c
    by_cases he : c = b
    · rw [he, Function.update_self]
      exact hstep.counter_le
    · rw [Function.update_of_ne he]
  constructor
  · exact hclosed
  · intro q hq
    cases List.mem_append.mp hq with
    | inl hq => exact h.area q hq
    | inr hq => exact List.mem_singleton.mp hq ▸ inside_of_mem hb hx
  · rw [toFinset_concat]
    exact v.marked h.marked r.new r.seen
  · rw [toFinset_concat]
    exact v.sound h.marked h.sound r.new r.seen
  · rw [toFinset_concat]
    exact v.gathered h.marked h.gathered r.new r.seen
  · intro i hi
    dsimp only
    rw [hstep.output_other (hi x (by simp))]
    exact h.frame i (fun p hp => hi p (List.mem_append_left _ hp))
  · intro q hq c hc hrows
    dsimp only
    cases hnext q hq with
    | inl hq =>
      rw [hkeep q (by simpa using hq.1)]
      exact Nat.lt_of_lt_of_le (h.below q hq c hc hrows) (hgrow c)
    | inr he =>
      subst he
      obtain rfl := bands_disjoint hc hb hrows (mem_pixels.mp hx).1
      rw [Function.update_self]
      rcases hturn with ⟨hoff, _⟩ | ⟨_, _, hcount, hl⟩ | ⟨y, hy, _, hcount, hl⟩
      · exact absurd hq.2 hoff
      · dsimp only at hcount hl
        omega
      · rw [hcount, hl]
        exact r.above y hy
  · intro l hl
    refine h.taken_label hb hkeep ?_ hl
    rcases hturn with ⟨_, hcount, _⟩ | ⟨hon, _, hcount, hlab⟩ | ⟨_, _, _, hcount, _⟩
    · exact Or.inl hcount
    · exact Or.inr ⟨hon, hcount, hlab⟩
    · exact Or.inl hcount
  · intro l h0 hl
    exact h.unused_label hb hstep h0 (fun ha => hl (ha.mono (fun c _ => hgrow c))) hl

/-- The turn that redirects an entry. -/
theorem redirect (i : Nat) :
    Weave input width visits done { s with blobs := redirectUsed s.blobs i } where
  closed := h.closed.relink (redirectUsed_label s.blobs i)
  area := h.area
  marked := h.marked.shorten h.sound (fun _ _ => rfl) (fun _ _ => redirectUsed_label s.blobs i _)
  sound := h.sound.shorten (fun _ _ => rfl) (fun _ _ => redirectUsed_label s.blobs i _)
  gathered := fun q hq hon =>
    (redirectUsed_same s.blobs [i] (s.output (idx width q))).describes (h.gathered q hq hon)
  frame := h.frame
  below := h.below
  taken := h.taken
  unused := by
    intro l h0 hl
    have hz := h.unused l h0 hl
    dsimp only
    rw [redirectUsed_keeps s.blobs (Or.inl (by rw [hz]; rfl)), hz]

end Weave

/-- After any turns of the label threads, as long as no assertion fires. -/
theorem woven {labels pre post : List Act} (hl : Interleave.Run (labelThreads width) labels)
    (split : labels = pre ++ post)
    (run : pre.foldlM (step input width) (Machine.start stack (Buf.all 0)) = some s) :
    Weave input width (visitsOf labels) (visitsOf pre) s := by
  have hnodup := visits_nodup hl
  refine Fold.prefix_induction_option
    (P := fun pre (s : Machine w) => Weave input width (visitsOf labels) (visitsOf pre) s) pre _ s
    (Weave.start input width _ stack) ?_ run
  intro mid a last t t' hpre ht hs
  have ha : a ∈ labels := by simp [split, hpre]
  obtain ⟨b, hb, hab⟩ := List.mem_flatMap.mp ((labels_perm hl).mem_iff.mp ha)
  cases List.mem_append.mp hab with
  | inl hlabel =>
    obtain ⟨p, hp, rfl⟩ := List.mem_map.mp hlabel
    have hsplit : visitsOf labels = visitsOf mid ++ p :: visitsOf (last ++ post) := by
      simp [visitsOf, split, hpre, Act.pixel]
    have hnext := ht.label hsplit hnodup hb hp hs
    simpa [visitsOf, Act.pixel] using hnext
  | inr hredirect =>
    obtain ⟨i, _, rfl⟩ := List.mem_map.mp hredirect
    obtain rfl := Option.some.inj hs
    have hnext := ht.redirect i
    simpa [visitsOf, List.filterMap_cons, Act.pixel] using hnext

/-- What can be relied on once the pixels in `done` have had their turn. -/
structure LabelledSoFar (input : Buf UInt8) (width : Nat) (done : List Pixel) (output : Buf Nat)
    (blobs : Table w) : Prop where
  active : ∀ p ∈ done, output (idx width p) ≠ 0 ↔ Moving input width labelledHeight p
  rest : ∀ i, (∀ p ∈ done, i ≠ idx width p) → output i = 0
  /-- One label, one object. -/
  joined : ∀ p ∈ done, ∀ q ∈ done, output (idx width p) ≠ 0 →
    output (idx width p) = output (idx width q) → Connected input width labelledHeight p q
  /-- Links fall, to labels of the same object. -/
  linked : ∀ p ∈ done, output (idx width p) ≠ 0 →
    links blobs (output (idx width p)) ≤ output (idx width p) ∧
    ∃ q ∈ done, output (idx width q) = links blobs (output (idx width p)) ∧
      Connected input width labelledHeight p q
  entries : ∀ p ∈ done, output (idx width p) ≠ 0 →
    Describes (blobs (output (idx width p)))
      (done.toFinset.filter fun q => output (idx width q) = output (idx width p))
  unused : ∀ l ≠ 0, (∀ p ∈ done, output (idx width p) ≠ l) → blobs l = Blob.zero

theorem Weave.labelledSoFar (h : Weave input width visits done s) :
    LabelledSoFar input width done s.output s.blobs := by
  have hactive : ∀ p ∈ done, s.output (idx width p) ≠ 0 ↔ Moving input width labelledHeight p :=
    fun p hp => not_iff_comm.mp (h.marked.zero p (by simpa using hp)).symm
  have hlive : ∀ p ∈ done, s.output (idx width p) ≠ 0 →
      p ∈ live (wovenScene w input width visits) done.toFinset :=
    fun p hp hne => ⟨by simpa using hp, (hactive p hp).mp hne⟩
  have hconnected : ∀ {p q}, Labelling.Joined (wovenScene w input width visits) done.toFinset p q →
      Connected input width labelledHeight p q := fun hj => hj.mono (fun r hr => hr.2)
  constructor
  · exact hactive
  · exact h.frame
  · intro p hp q hq hne he
    exact hconnected (h.sound.joined p (hlive p hp hne) q (hlive q hq (he ▸ hne)) he)
  · intro p hp hne
    obtain ⟨q, hq, he, hj⟩ := h.sound.carried p (hlive p hp hne)
    exact ⟨h.sound.fall p (hlive p hp hne), q, by simpa using hq.1, he, hconnected hj⟩
  · intro p hp hne
    exact h.gathered p (hlive p hp hne).1 (hlive p hp hne).2
  · intro l h0 hl
    refine h.unused l h0 (fun ha => ?_)
    obtain ⟨q, hq, he⟩ := h.taken l ha
    exact hl q (by simpa using hq.1) he

end Motion
