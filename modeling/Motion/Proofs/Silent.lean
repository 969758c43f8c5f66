import Motion.Proofs.Gaps
import Motion.Proofs.Stale

/-! When the assertion of `label` can fire at all: how many labels the frame's width lets a
thread take, whatever the image and the order of the turns. -/

namespace Motion
open Labelling

/-- The pixels at which a band's thread has started a label: active, visited, and apart. -/
structure Scattered (input : Buf UInt8) (width : Nat) (done : List Pixel) (b : Band)
    (counter : Nat) (starts : List Pixel) : Prop where
  counter : counter = b.startLabel + starts.length
  mem : ∀ q ∈ starts, q ∈ done ∧ q ∈ b.pixels width ∧ Moving input width labelledHeight q
  apart : starts.Pairwise fun p q => p ≠ q ∧ ¬Adj8 p q

variable {w width counter : Nat} {input : Buf UInt8} {labels pre post : List Act}
  {done starts : List Pixel} {b : Band} {s s' : Machine w} {stack : Buf (Blob w)} {p q x : Pixel}

/-- Two by two cells hold at most one of them. -/
theorem Scattered.length_le (h : Scattered input width done b counter starts) (hb : b ∈ bands) :
    starts.length ≤ 30 * ((width - 2 + 1) / 2) := by
  have hnodup := h.apart.imp (fun hpq => hpq.1)
  have hall : ∀ b ∈ bands, (b.endRow - b.startRow + 1 + 1) / 2 ≤ 30 := by decide
  have hle := apart_card_le (T := starts.toFinset) b.startRow 1 (b.endRow - b.startRow + 1)
    (width - 2) ?_ ?_
  · rw [List.toFinset_card_of_nodup hnodup] at hle
    exact hle.trans (Nat.mul_le_mul_right _ (hall b hb))
  · intro q hq
    obtain ⟨hrows, hcols⟩ := mem_pixels.mp (h.mem q (List.mem_toFinset.mp hq)).2.1
    unfold InRows at hrows
    omega
  · intro p hp q hq hne
    have hsymm : Std.Symm (fun p q : Pixel => p ≠ q ∧ ¬Adj8 p q) :=
      ⟨fun _ _ h => ⟨h.1.symm, fun ha => h.2 ha.symm⟩⟩
    exact (h.apart.forall (List.mem_toFinset.mp hp) (List.mem_toFinset.mp hq) hne).2

theorem Scattered.later (h : Scattered input width done b counter starts) (p : Pixel) :
    Scattered input width (done ++ [p]) b counter starts where
  counter := h.counter
  mem := fun q hq => ⟨List.mem_append_left _ (h.mem q hq).1, (h.mem q hq).2⟩
  apart := h.apart

/-- A pixel that starts a label touches none of them. -/
theorem Scattered.start (h : Scattered input width (visitsOf pre) b counter starts)
    (hl : Interleave.Run (labelThreads width) labels) (hsplit : labels = pre ++ .label b x :: post)
    (hx : Moving input width labelledHeight x)
    (fresh : ∀ q ∈ visitsOf pre, Moving input width labelledHeight q → ¬Behind x q) :
    Scattered input width (visitsOf pre ++ [x]) b (counter + 1) (starts ++ [x]) := by
  obtain ⟨hb, hxb⟩ := mem_label hl (b := b) (p := x) (by simp [hsplit])
  constructor
  · rw [h.counter, List.length_append]
    rfl
  · intro q hq
    cases List.mem_append.mp hq with
    | inl hq => exact ⟨List.mem_append_left _ (h.mem q hq).1, (h.mem q hq).2⟩
    | inr hq =>
      obtain rfl := List.mem_singleton.mp hq
      exact ⟨by simp, hxb, hx⟩
  · refine List.pairwise_append.mpr ⟨h.apart, List.pairwise_singleton _ _, fun q hq p hp => ?_⟩
    obtain rfl := List.mem_singleton.mp hp
    obtain ⟨hvisited, hqb, hqm⟩ := h.mem q hq
    have hbefore := (visited_iff hl hb hxb hsplit hqb).mp hvisited
    refine ⟨?_, fun hadj => ?_⟩
    · rintro rfl
      exact Before.irrefl _ hbefore
    · cases hadj.symm.behind with
      | inl hbe => exact fresh q hvisited hqm hbe
      | inr hbe => exact hbefore.asymm hbe.before

/-- A turn keeps the starts of each band apart. -/
theorem Weave.scattered (h : Weave input width (visitsOf labels) (visitsOf pre) s)
    (hl : Interleave.Run (labelThreads width) labels) {a : Act} (hsplit : labels = pre ++ a :: post)
    (hs : step input width s a = some s') {c : Band}
    (hc : Scattered input width (visitsOf pre) c (s.labelCounter c) starts) :
    ∃ starts', Scattered input width (visitsOf (pre ++ [a])) c (s'.labelCounter c) starts' := by
  obtain ⟨b, hb, hact⟩ := mem_labels hl (a := a) (by simp [hsplit])
  rw [visitsOf_append]
  cases List.mem_append.mp hact with
  | inl hlabel =>
    obtain ⟨x, hx, rfl⟩ := List.mem_map.mp hlabel
    have hcut : visitsOf labels = visitsOf pre ++ x :: visitsOf post := by
      rw [hsplit]
      simp [visitsOf, Act.pixel]
    have hnodup := visits_nodup hl
    have hvisit : visitsOf [Act.label b x] = [x] := rfl
    have hturn := (h.ready hcut hnodup hb hx).turn h.marked
    obtain ⟨rfl, _⟩ := Machine.label_turn hs
    rw [hvisit]
    dsimp only
    by_cases he : c = b
    · subst he
      rw [Function.update_self]
      rcases hturn with ⟨_, hcount, _⟩ | ⟨hon, hnone, hcount, _⟩ | ⟨_, _, _, hcount, _⟩
      · rw [hcount]
        exact ⟨starts, hc.later x⟩
      · rw [hcount]
        refine ⟨_, hc.start hl hsplit hon (fun q hq hqm hbe => ?_)⟩
        -- its label would have been taken over
        have hearlier : Earlier (visitsOf labels) x q := by
          rw [hcut] at hnodup ⊢
          exact (earlier_iff hnodup).mpr hq
        have hbig := hnone q ⟨hon, hqm, hbe, hearlier⟩
        have hsmall := h.closed.small (h.closed.labels (idx width q))
        have hsize : parTableSize ≤ 9999 := by decide
        dsimp only at hbig
        omega
      · rw [hcount]
        exact ⟨starts, hc.later x⟩
    · rw [Function.update_of_ne he]
      exact ⟨starts, hc.later x⟩
  | inr hredirect =>
    obtain ⟨i, _, rfl⟩ := List.mem_map.mp hredirect
    obtain rfl := Option.some.inj hs
    have hvisit : visitsOf [Act.redirectUsed i] = [] := rfl
    rw [hvisit, List.append_nil]
    exact ⟨starts, hc⟩

/-- At every turn of every order of turns. -/
theorem threads_scattered (hl : Interleave.Run (labelThreads width) labels)
    (split : labels = pre ++ post)
    (run : pre.foldlM (step input width) (Machine.start stack (Buf.all 0)) = some s) {c : Band} :
    ∃ starts, Scattered input width (visitsOf pre) c (s.labelCounter c) starts := by
  have hrun := Fold.prefix_induction_option (P := fun pre (s : Machine w) =>
    pre.foldlM (step input width) (Machine.start stack (Buf.all 0)) = some s ∧
      ∃ starts, Scattered input width (visitsOf pre) c (s.labelCounter c) starts) pre _ s
    ⟨rfl, [], rfl, by simp, List.Pairwise.nil⟩ ?_ run
  · exact hrun.2
  · rintro done a rest t t' hpre ⟨hdone, starts, hc⟩ hs
    have hsplit : labels = done ++ a :: (rest ++ post) := by simp [split, hpre]
    refine ⟨?_, (woven hl hsplit hdone).scattered hl hsplit hs hc⟩
    rw [List.foldlM_append, hdone, Option.bind_eq_bind, Option.bind_some, List.foldlM_cons, hs]
    rfl

/-- In a frame of up to 14 columns no thread runs out of labels. -/
theorem threads_silent (narrow : width ≤ 14) (input : Buf UInt8)
    (hl : Interleave.Run (labelThreads width) labels) (stack : Buf (Blob w)) :
    (labels.foldlM (step input width) (Machine.start stack (Buf.all 0))).isSome := by
  refine Fold.option_isSome labels _ ?_
  intro pre a post s hsplit hs
  obtain ⟨b, hb, hact⟩ := mem_labels hl (a := a) (by simp [hsplit])
  cases List.mem_append.mp hact with
  | inl hlabel =>
    obtain ⟨x, hx, rfl⟩ := List.mem_map.mp hlabel
    obtain ⟨starts, hstarts⟩ := threads_scattered hl hsplit hs (c := b)
    have hle := hstarts.length_le hb
    have hcount := hstarts.counter
    have hsucc := (scanPixel_step 9999 width input
      ⟨s.output, s.blobs, s.labelCounter b⟩ x).counter_le_succ
    dsimp only at hsucc
    rw [step_label, Option.isSome_map]
    unfold labelPixel maxBlobsPerThread
    dsimp only
    rw [if_neg (by omega)]
    rfl
  | inr hredirect =>
    obtain ⟨i, _, rfl⟩ := List.mem_map.mp hredirect
    rfl

section dots

/-- Dots in every second row and column. -/
def dots (width : Nat) : Buf UInt8 := painted width fun p => p.1 % 2 = 0 ∧ p.2 % 2 = 1

theorem moving_dots : Moving (dots width) width labelledHeight p ↔
    Inside width labelledHeight p ∧ p.1 % 2 = 0 ∧ p.2 % 2 = 1 := by
  unfold dots
  rw [moving_painted, decide_eq_true_eq]

/-- No two of them touch. -/
theorem dots_apart (h : Connected (dots width) width labelledHeight p q) : q = p := by
  refine h.keeps (P := fun q => q = p) ?_ rfl
  rintro q r ⟨hne, hclose⟩ hq hr -
  obtain ⟨_, hqrow, hqcol⟩ := moving_dots.mp hq
  obtain ⟨_, hrrow, hrcol⟩ := moving_dots.mp hr
  refine absurd (Prod.ext ?_ ?_) hne <;> omega

/-- The dots of the first 15 columns. -/
def dotAt (k : Fin 119 × Fin 7) : Pixel := (2 * k.1 + 2, 2 * k.2 + 1)

theorem dotAt_injective : Function.Injective dotAt := by
  intro j k he
  simp only [dotAt, Prod.mk.injEq] at he
  refine Prod.ext ?_ ?_ <;> omega

theorem moving_dotAt (wide : 15 ≤ width) (k : Fin 119 × Fin 7) :
    Moving (dots width) width labelledHeight (dotAt k) := by
  rw [moving_dots]
  unfold Inside labelledHeight dotAt
  omega

/-- In a wider frame they are too many for the four threads together. -/
theorem dots_fire (wide : 15 ≤ width) (hl : Interleave.Run (labelThreads width) labels)
    (stack : Buf (Blob w)) :
    labels.foldlM (step (dots width) width) (Machine.start stack (Buf.all 0)) = none := by
  cases hrun : labels.foldlM (step (dots width) width) (Machine.start stack (Buf.all 0)) with
  | none => rfl
  | some s =>
    -- each of the dots would hold a label of its own
    have hwoven := woven hl (List.append_nil labels).symm hrun
    have hsofar := hwoven.labelledSoFar
    have hvisited : ∀ k, dotAt k ∈ visitsOf labels := fun k => mem_visits hl (moving_dotAt wide k)
    have hlabel : ∀ k, s.output (idx width (dotAt k)) ≠ 0 := fun k =>
      (hsofar.active _ (hvisited k)).mpr (moving_dotAt wide k)
    have hcard := Finset.card_le_card_of_injOn (s := Finset.univ)
      (t := Finset.Ioo 0 (maxBlobsPerThread * 4)) (fun k => s.output (idx width (dotAt k))) ?_ ?_
    · rw [Finset.card_univ, Fintype.card_prod, Fintype.card_fin, Fintype.card_fin,
        Nat.card_Ioo] at hcard
      unfold maxBlobsPerThread at hcard
      omega
    · intro k _
      have halloc := (hwoven.closed.labels (idx width (dotAt k))).resolve_left (hlabel k)
      exact Finset.mem_coe.mpr (Finset.mem_Ioo.mpr (hwoven.closed.label_range halloc))
    · intro j _ k _ he
      have hjoined := hsofar.joined _ (hvisited j) _ (hvisited k) (hlabel j) he
      exact dotAt_injective (dots_apart hjoined).symm

end dots

/-- The assertion can fire exactly in frames of 15 columns or more. -/
theorem threads_silent_iff : (∀ (input : Buf UInt8) (labels : List Act),
      Interleave.Run (labelThreads width) labels → ∀ stack : Buf (Blob w),
        (labels.foldlM (step input width) (Machine.start stack (Buf.all 0))).isSome) ↔
    width ≤ 14 := by
  constructor
  · intro hall
    by_contra hwide
    have hsome := hall (dots width) _ (Interleave.Run.one_by_one _) (Buf.all Blob.zero)
    rw [dots_fire (by omega) (Interleave.Run.one_by_one _)] at hsome
    cases hsome
  · intro narrow input labels hl stack
    exact threads_silent narrow input hl stack

end Motion
