import Motion.Proofs.LabelLoop

/-! How many labels `blob_detect` takes, and when its table holds them. Labels
are stored in 16 bits here, so nothing is assumed about how many there are. -/

namespace Motion
open Labelling

variable {w width height : Nat} {output : Buf Nat} {input : Buf UInt8}
  {pre post l : List Pixel} {x q : Pixel} {s : Scan w}

/-- The labelling loop beside the list of starts, after the pixels in `pre`. -/
structure Keeping (input : Buf UInt8) (width height : Nat) (output : Buf Nat) (pre : List Pixel)
    (s : Scan w) (l : List Pixel) : Prop where
  frame : ∀ i, (∀ p ∈ pre, i ≠ idx width p) → s.output i = output i
  counter : s.labelCounter = l.length + 1
  visited : ∀ p ∈ l, p ∈ pre
  idle : ∀ q ∈ pre, ¬Moving input width height q → s.output (idx width q) = 0
  absorbed : ∀ q ∈ pre, Moving input width height q →
    (s.output (idx width q) ≠ 0 ∧ s.output (idx width q) < 255 ↔
      Absorbed (scene 0 input width height) (absorbing l) q)

theorem scene_back_idx (h : (scene 0 input width height).back x q) :
    idx width q < idx width x := by
  have hx := h.1.1
  have hq := h.2.1.1
  unfold Inside at hx hq
  exact (before_iff_idx (by omega) (by omega)).mp h.2.2.1.before

/-- A later start changes nothing for the pixels before it. -/
theorem absorbed_concat (hq : idx width q < idx width x) :
    Absorbed (scene 0 input width height) (absorbing (l ++ [x])) q ↔
      Absorbed (scene 0 input width height) (absorbing l) q := by
  constructor
  · rintro ⟨p, ⟨n, hn, hlt⟩, hd⟩
    have hle := hd.pos_le (fun _ _ hb => scene_back_idx hb)
    by_cases hnl : n < l.length
    · rw [List.getElem?_append_left hnl] at hn
      exact ⟨p, ⟨n, hn, hlt⟩, hd⟩
    · rw [List.getElem?_append_right (by omega)] at hn
      have hpx : p = x := by
        have := List.mem_of_getElem? hn
        simpa using this
      rw [hpx] at hle
      omega
  · rintro ⟨p, ⟨n, hn, hlt⟩, hd⟩
    have hnl := (List.getElem?_eq_some_iff.mp hn).1
    exact ⟨p, ⟨n, by rw [List.getElem?_append_left hnl, hn], hlt⟩, hd⟩

/-- A new start absorbs when its number is small, modulo what a stored label keeps. -/
theorem mem_absorbing_concat (hx : x ∉ l) :
    x ∈ absorbing (l ++ [x]) ↔ l.length % 65536 < 254 := by
  constructor
  · rintro ⟨n, hn, hlt⟩
    by_cases hnl : n < l.length
    · rw [List.getElem?_append_left hnl] at hn
      exact absurd (List.mem_of_getElem? hn) hx
    · have := (List.getElem?_eq_some_iff.mp hn).1
      rw [List.length_append, List.length_singleton] at this
      have hnl' : n = l.length := by omega
      rwa [hnl'] at hlt
  · intro hlt
    exact ⟨l.length, by simp, hlt⟩

namespace Keeping

variable (h : Keeping input width height output pre s l) (border : BorderZero width height output)
  (hl : interior width height = pre ++ x :: post)

include h hl

include border in
/-- The labels read are the neighbours' labels or zero. -/
theorem reads (hx : Inside width height x) {k : Nat} :
    (k ∈ around width s.output x ∧ k ≠ 0 ∧ k < 255) ↔
      ∃ y, Behind x y ∧ y ∈ pre ∧ Moving input width height y ∧ s.output (idx width y) = k ∧
        k ≠ 0 ∧ k < 255 := by
  have hin := hx
  unfold Inside at hin
  rw [mem_around hin.1 hin.2.2.1]
  constructor
  · rintro ⟨⟨y, hb, rfl⟩, h0, hlt⟩
    have hr := hb.near_row
    have hc := hb.near_col
    by_cases hy : Inside width height y
    · have hv := (mem_prefix_iff (interior_sorted width height) hl
        (mem_interior.mpr hy)).mpr hb.before
      have hm : Moving input width height y := by
        by_contra hn
        exact h0 (h.idle y hv hn)
      exact ⟨y, hb, hv, hm, rfl, h0, hlt⟩
    · refine absurd ?_ h0
      rw [h.frame]
      · exact border y (by omega) (by omega) hy
      · intro p hp he
        have hp' : Inside width height p := mem_interior.mp (by simp [hl, hp])
        have hp'' := hp'
        unfold Inside at hp''
        exact hy (idx_inj (by omega) (by omega) he ▸ hp')
  · rintro ⟨y, hb, _, _, rfl, h0, hlt⟩
    exact ⟨⟨y, hb, rfl⟩, h0, hlt⟩

include border in
/-- No usable label is read exactly at the starts. -/
theorem none_iff (hx : Moving input width height x) :
    (∀ k ∈ around width s.output x, k ≠ 0 → 255 ≤ k) ↔
      StartsLabel input width height l x := by
  constructor
  · intro hnone
    refine ⟨hx, fun y hy ha => ?_⟩
    have hv := (mem_prefix_iff (interior_sorted width height) hl
      (mem_interior.mpr hy.2.1.1)).mpr hy.2.2.1.before
    obtain ⟨h0, hlt⟩ := (h.absorbed y hv hy.2.1).mpr ha
    obtain ⟨hk, _⟩ := (h.reads border hl hx.1).mpr ⟨y, hy.2.2.1, hv, hy.2.1, rfl, h0, hlt⟩
    have := hnone _ hk h0
    omega
  · rintro ⟨_, hnone⟩ k hk h0
    by_contra hlt
    obtain ⟨y, hb, hv, hy, rfl, _, hlt'⟩ := (h.reads border hl hx.1).mp ⟨hk, h0, by omega⟩
    exact hnone y ⟨hx, hy, hb, trivial⟩ ((h.absorbed y hv hy).mp ⟨h0, hlt'⟩)

/-- What a turn has to say of its own pixel; the others keep their labels, and
what they descend from. -/
theorem extend {l' : List Pixel} (hgrow : l' = l ∨ l' = l ++ [x])
    (counter : (scanPixel 255 width input s x).labelCounter = l'.length + 1)
    (idle : ¬Moving input width height x →
      (scanPixel 255 width input s x).output (idx width x) = 0)
    (absorbed : Moving input width height x →
      ((scanPixel 255 width input s x).output (idx width x) ≠ 0 ∧
        (scanPixel 255 width input s x).output (idx width x) < 255 ↔
        Absorbed (scene 0 input width height) (absorbing l') x)) :
    Keeping input width height output (pre ++ [x]) (scanPixel 255 width input s x) l' := by
  have hin : Inside width height x := mem_interior.mp (by simp [hl])
  have hpre : ∀ q ∈ pre, idx width q < idx width x := by
    intro q hq
    have hq' : q ∈ interior width height := by simp [hl, hq]
    have hqi := mem_interior.mp hq'
    have hxi := hin
    unfold Inside at hqi hxi
    exact (before_iff_idx (by omega) (by omega)).mp
      ((mem_prefix_iff (interior_sorted width height) hl hq').mp hq)
  have hkeep : ∀ q ∈ pre, (scanPixel 255 width input s x).output (idx width q) =
      s.output (idx width q) := fun q hq =>
    (scanPixel_step 255 width input s x).output_other (Nat.ne_of_lt (hpre q hq))
  constructor
  · intro i hi
    rw [(scanPixel_step 255 width input s x).output_other (hi x (by simp)),
      h.frame i (fun p hp => hi p (by simp [hp]))]
  · exact counter
  · intro p hp
    rcases hgrow with rfl | rfl
    · exact List.mem_append_left _ (h.visited p hp)
    · rcases List.mem_append.mp hp with hp | hp
      · exact List.mem_append_left _ (h.visited p hp)
      · exact List.mem_append_right _ hp
  · intro q hq hoff
    rcases List.mem_append.mp hq with hq | hq
    · rw [hkeep q hq]
      exact h.idle q hq hoff
    · obtain rfl := List.mem_singleton.mp hq
      exact idle hoff
  · intro q hq hon
    rcases List.mem_append.mp hq with hq | hq
    · rw [hkeep q hq, h.absorbed q hq hon]
      rcases hgrow with rfl | rfl
      · exact Iff.rfl
      · exact (absorbed_concat (hpre q hq)).symm
    · obtain rfl := List.mem_singleton.mp hq
      exact absorbed hon

include border in
open Classical in
theorem step : Keeping input width height output (pre ++ [x]) (detectPixel width input s x)
    (if StartsLabel input width height l x then l ++ [x] else l) := by
  have hin : Inside width height x := mem_interior.mp (by simp [hl])
  have hnl : x ∉ l := fun hm =>
    not_mem_prefix (interior_sorted width height) hl (h.visited x hm)
  rw [detectPixel_eq hin]
  by_cases hon : Moving input width height x
  · rcases scanPixel_on (u := 255) (s := s) hon.2 with ⟨hnone, he⟩ | ⟨m, hm, h0, hlt, _, he⟩
    · -- a start: its label is taken over when its number allows
      have hst := (h.none_iff border hl hon).mp hnone
      rw [if_pos hst]
      refine h.extend hl (Or.inr rfl) ?_ (fun hoff => absurd hon hoff) (fun _ => ?_)
      · rw [he, h.counter, List.length_append, List.length_singleton]
      · have hlab : (scanPixel 255 width input s x).output (idx width x) =
            (l.length + 1) % 65536 := by
          rw [he, ← h.counter]
          exact Buf.write_same _ _ _
        have hself : Absorbed (scene 0 input width height) (absorbing (l ++ [x])) x ↔
            x ∈ absorbing (l ++ [x]) := by
          rw [absorbed_iff]
          refine ⟨fun hor => hor.resolve_right ?_, Or.inl⟩
          rintro ⟨y, hy, ha⟩
          exact hst.2 y hy ((absorbed_concat (scene_back_idx hy)).mp ha)
        rw [hself, mem_absorbing_concat hnl, hlab]
        omega
    · -- taken over from a neighbour
      have hst : ¬StartsLabel input width height l x := by
        intro hst
        have := (h.none_iff border hl hon).mpr hst m hm h0
        omega
      obtain ⟨y, hb, hv, hy, rfl, _⟩ := (h.reads border hl hin).mp ⟨hm, h0, hlt⟩
      rw [if_neg hst]
      refine h.extend hl (Or.inl rfl) (by rw [he]; exact h.counter)
        (fun hoff => absurd hon hoff) (fun _ => ?_)
      have hlab : (scanPixel 255 width input s x).output (idx width x) =
          s.output (idx width y) := by
        rw [he]
        exact (Buf.write_same _ _ _).trans (Nat.mod_eq_of_lt (by omega))
      rw [hlab]
      exact iff_of_true ⟨h0, hlt⟩ (absorbed_iff.mpr
        (Or.inr ⟨y, ⟨hon, hy, hb, trivial⟩, (h.absorbed y hv hy).mp ⟨h0, hlt⟩⟩))
  · have he := scanPixel_off (u := 255) (s := s) (fun ha => hon ⟨hin, ha⟩)
    rw [if_neg (fun hst => hon hst.1)]
    refine h.extend hl (Or.inl rfl) (by rw [he]; exact h.counter) (fun _ => ?_)
      (fun hm => absurd hm hon)
    rw [he]
    exact Buf.write_same _ _ _

end Keeping

/-- As many labels are taken as there are starts. -/
theorem labelCounter_eq (border : BorderZero width height output) :
    (labelLoop w width height output input).labelCounter =
      (starts input width height).length + 1 := by
  have hrun := Fold.prefix_related (R := Keeping (w := w) input width height output)
    (f := detectPixel width input) (interior width height) ⟨output, Buf.all Blob.zero, 1⟩ []
    (by constructor <;> simp) (fun pre x post s l hl ih => ih.step border hl)
  exact hrun.counter

/-- Two seeds never touch: of two touching pixels one looks back at the other. -/
theorem Seed.apart {p q : Pixel} (hp : Seed input width height p) (hq : Seed input width height q) :
    ¬Adj8 p q := by
  intro h
  rcases h.behind with hb | hb
  · exact hp.2 q hb hq.1
  · exact hq.2 p hb hp.1

/-- So each two by two cell of the interior holds one seed at most. -/
theorem seeds_le (input : Buf UInt8) (width height : Nat) :
    {q | Seed input width height q}.ncard ≤ (height - 1) / 2 * ((width - 1) / 2) := by
  have hfin : {q | Seed input width height q}.Finite := by
    refine Set.Finite.subset (interior width height).toFinset.finite_toSet ?_
    intro q hq
    simpa using mem_interior.mpr hq.1.1
  have hle := apart_card_le (T := hfin.toFinset) 1 1 (height - 2) (width - 2) ?_ ?_
  · rw [Set.ncard_eq_toFinset_card _ hfin]
    refine Nat.le_trans hle (Nat.le_of_eq ?_)
    congr 1 <;> omega
  · intro q hq
    have hin := (hfin.mem_toFinset.mp hq).1.1
    unfold Inside at hin
    omega
  · intro p hp q hq _
    exact (hfin.mem_toFinset.mp hp).apart (hfin.mem_toFinset.mp hq)

/-- While there are few seeds, every label is taken over and only seeds start one. -/
structure Seeded (input : Buf UInt8) (width height : Nat) (pre l : List Pixel) : Prop where
  absorbed : ∀ q ∈ pre, Moving input width height q →
    Absorbed (scene 0 input width height) (absorbing l) q
  visited : ∀ p ∈ l, p ∈ pre
  count : {q | q ∈ pre ∧ Seed input width height q}.ncard = l.length

theorem seeds_in_le (few : {q | Seed input width height q}.ncard ≤ 254) (pre : List Pixel) :
    {q | q ∈ pre ∧ Seed input width height q}.ncard ≤ 254 := by
  refine Nat.le_trans (Set.ncard_le_ncard (fun q hq => hq.2) ?_) few
  refine Set.Finite.subset (interior width height).toFinset.finite_toSet ?_
  intro q hq
  simpa using mem_interior.mpr hq.1.1

open Classical in
theorem Seeded.step (few : {q | Seed input width height q}.ncard ≤ 254)
    (h : Seeded input width height pre l) (hl : interior width height = pre ++ x :: post) :
    Seeded input width height (pre ++ [x])
      (if StartsLabel input width height l x then l ++ [x] else l) := by
  have hsorted := interior_sorted width height
  have hnx := not_mem_prefix hsorted hl
  have hnl : x ∉ l := fun hm => hnx (h.visited x hm)
  have hpre : ∀ q ∈ pre, Moving input width height q → Moving input width height x →
      idx width q < idx width x := by
    intro q hq hqm hxm
    have hb := (mem_prefix_iff hsorted hl (mem_interior.mpr hqm.1)).mp hq
    have hqi := hqm.1
    have hxi := hxm.1
    unfold Inside at hqi hxi
    exact (before_iff_idx (by omega) (by omega)).mp hb
  have hback : ∀ y, (scene 0 input width height).back x y → y ∈ pre := fun y hy =>
    (mem_prefix_iff hsorted hl (mem_interior.mpr hy.2.1.1)).mpr hy.2.2.1.before
  by_cases hst : StartsLabel input width height l x
  · have hseed : Seed input width height x := by
      refine ⟨hst.1, fun y hb hy => ?_⟩
      have hby : (scene 0 input width height).back x y := ⟨hst.1, hy, hb, trivial⟩
      exact hst.2 y hby (h.absorbed y (hback y hby) hy)
    have hcard : {q | q ∈ pre ++ [x] ∧ Seed input width height q}.ncard = l.length + 1 := by
      rw [seeds_insert hseed, Set.ncard_insert_of_notMem (fun hm => hnx hm.1) (seeds_finite pre),
        h.count]
    rw [if_pos hst]
    constructor
    · intro q hq hqm
      rcases List.mem_append.mp hq with hq | hq
      · exact (absorbed_concat (hpre q hq hqm hst.1)).mpr (h.absorbed q hq hqm)
      · obtain rfl := List.mem_singleton.mp hq
        have := seeds_in_le few (pre ++ [q])
        exact absorbed_iff.mpr (Or.inl ((mem_absorbing_concat hnl).mpr (by omega)))
    · intro p hp
      rcases List.mem_append.mp hp with hp | hp
      · exact List.mem_append_left _ (h.visited p hp)
      · exact List.mem_append_right _ hp
    · rw [hcard, List.length_append, List.length_singleton]
  · rw [if_neg hst]
    have hback' : Moving input width height x → ∃ y, (scene 0 input width height).back x y ∧
        Absorbed (scene 0 input width height) (absorbing l) y := by
      intro hxm
      by_contra hnone
      exact hst ⟨hxm, fun y hy ha => hnone ⟨y, hy, ha⟩⟩
    constructor
    · intro q hq hqm
      rcases List.mem_append.mp hq with hq | hq
      · exact h.absorbed q hq hqm
      · obtain rfl := List.mem_singleton.mp hq
        exact absorbed_iff.mpr (Or.inr (hback' hqm))
    · exact fun p hp => List.mem_append_left _ (h.visited p hp)
    · rw [seeds_same, h.count]
      intro hs
      obtain ⟨y, hy, _⟩ := hback' hs.1
      exact hs.2 y hy.2.2.1 hy.2.1

theorem starts_length (few : {q | Seed input width height q}.ncard ≤ 254) :
    (starts input width height).length = {q | Seed input width height q}.ncard := by
  classical
  have hrun := Fold.prefix_induction (P := Seeded input width height)
    (f := fun l p => if StartsLabel input width height l p then l ++ [p] else l)
    (interior width height) [] (by constructor <;> simp)
    (fun pre x post l hl ih => ih.step few hl)
  have hall : {q | q ∈ interior width height ∧ Seed input width height q} =
      {q | Seed input width height q} := by
    ext q
    exact ⟨fun hq => hq.2, fun hq => ⟨mem_interior.mpr hq.1.1, hq⟩⟩
  have hcount := hrun.count
  rw [hall] at hcount
  exact hcount.symm

/-- Labels that the counter takes lie in a table of `n` entries where the starts do. -/
theorem labels_lt_iff (border : BorderZero width height output) (n : Nat) :
    (∀ l, 1 ≤ l → l < (labelLoop w width height output input).labelCounter → l < n) ↔
      starts input width height = [] ∨ (starts input width height).length < n := by
  rw [labelCounter_eq border]
  constructor
  · intro hall
    by_cases hnil : starts input width height = []
    · exact Or.inl hnil
    · have hpos := List.length_pos_iff.mpr hnil
      exact Or.inr (hall _ hpos (Nat.lt_succ_self _))
  · rintro (hnil | hlt) l h1 hl
    · rw [hnil, List.length_nil] at hl
      omega
    · omega

/-- The table holds the labels exactly when the starts are fewer than its entries,
and it does whenever there are no more than 254 seeds. -/
theorem blobDetect_table_holds_iff (border : BorderZero width height output) (hh : 3 ≤ height) :
    ((∀ l, 1 ≤ l → l < (labelLoop w width height output input).labelCounter →
        l < tableSize width height) ↔
      starts input width height = [] ∨
        (starts input width height).length < tableSize width height) ∧
    ({q | Seed input width height q}.ncard ≤ 254 →
      starts input width height = [] ∨
        (starts input width height).length < tableSize width height) := by
  constructor
  · exact labels_lt_iff border _
  · intro few
    rw [starts_length few]
    by_cases hnil : starts input width height = []
    · exact Or.inl hnil
    · right
      have hpos := List.length_pos_iff.mpr hnil
      rw [starts_length few] at hpos
      have hle := seeds_le input width height
      -- with at least one seed the frame has an interior
      obtain ⟨a, ha⟩ : ∃ a, (height - 1) / 2 = a + 1 := ⟨(height - 1) / 2 - 1, by omega⟩
      have hb : (width - 1) / 2 ≠ 0 := by
        intro h0
        rw [h0, Nat.mul_zero] at hle
        omega
      obtain ⟨b, hb⟩ : ∃ b, (width - 1) / 2 = b + 1 := ⟨(width - 1) / 2 - 1, by omega⟩
      rw [ha, hb] at hle
      have hbig : (2 * b + 3) * (2 * a + 3) ≤ width * height :=
        Nat.mul_le_mul (by omega) (by omega)
      have hroom : ({q | Seed input width height q}.ncard + 1) * 4 ≤ width * height := by
        nlinarith
      exact (Nat.le_div_iff_mul_le (by omega)).mpr hroom

theorem blobDetect_table_holds_iff_branch :
    {q | Seed branch 5 7 q}.ncard ≤ 254 ∧
    ∀ l, 1 ≤ l → l < (labelLoop 32 5 7 (Buf.all 0) branch).labelCounter → l < tableSize 5 7 := by
  have few : {q | Seed branch 5 7 q}.ncard ≤ 254 := (seeds_le branch 5 7).trans (by decide)
  obtain ⟨hiff, hfew⟩ := @blobDetect_table_holds_iff 32 5 7 (Buf.all 0) branch
    (BorderZero.all 5 7) (by decide)
  exact ⟨few, hiff.mpr (hfew few)⟩

/-- From an image of zeros the loop may leave out what is not active. -/
theorem labelLoop_active (w width height : Nat) (input : Buf UInt8) :
    labelLoop w width height (Buf.all 0) input =
      ((interior width height).filter (fun p => input (idx width p) > 0)).foldl
        (scanPixel 255 width input) ⟨Buf.all 0, Buf.all Blob.zero, 1⟩ := by
  unfold labelLoop
  refine (List.foldl_ext _ _ _ (fun s p hp => detectPixel_eq (mem_interior.mp hp))).trans ?_
  refine Fold.skip (I := fun s : Scan w => ∀ i, ¬input i > 0 → s.output i = 0) _ _ _
    (fun _ _ => rfl) ?_ ?_
  · intro p _ s hs i hi
    by_cases he : i = idx width p
    · rw [scanPixel_off (he ▸ hi), he, Buf.write_same]
    · rw [(scanPixel_step 255 width input s p).output_other he]
      exact hs i hi
  · intro p _ hp s hs
    have hsame : s.output.write (idx width p) 0 = s.output := by
      ext i
      by_cases he : i = idx width p
      · rw [he, Buf.write_same, hs _ hp]
      · rw [Buf.write_other _ _ he]
    rw [scanPixel_off hp, hsame]

/-- A frame of five by 294: 254 single pixels, then solid rows, each pixel of
which takes a label of its own. -/
def crowd : Buf UInt8 :=
  ⟨fun i => if i / 5 < 255 → i / 5 % 2 = 1 ∧ i % 5 % 2 = 1 then 255 else 0⟩

/-- The 368th label is taken where the table has 367 entries. -/
theorem crowd_overflows :
    ¬∀ (w width height : Nat) (output : Buf Nat) (input : Buf UInt8),
      BorderZero width height output → 3 ≤ height →
      ∀ l, 1 ≤ l → l < (labelLoop w width height output input).labelCounter →
        l < tableSize width height := by
  intro hall
  have h := hall 32 5 294 (Buf.all 0) crowd (BorderZero.all 5 294) (by omega) 368 (by omega)
  have hcounter : (labelLoop 32 5 294 (Buf.all 0) crowd).labelCounter = 369 := by
    rw [labelLoop_active]
    decide +kernel
  rw [hcounter] at h
  exact absurd (h (by omega)) (by decide)

end Motion
