import Motion.Proofs.Capacity
import Motion.Proofs.StitchLinks
import Motion.Spec.Whole

/-! Frames of three columns in which rows of the middle one move: either detector makes one
object of each stretch of such rows. -/

namespace Motion
open Labelling

/-- Of three columns the middle one moves, in some rows off the border. -/
structure Column (input : Buf UInt8) (on : Nat → Bool) (height : Nat) : Prop where
  off : ∀ r, on r → 1 ≤ r ∧ r + 2 ≤ height
  moving : ∀ p, Moving input 3 height p ↔ p.2 = 1 ∧ on p.1

/-- The rows from `a` to `b` move, and the rows next to them do not. -/
structure Stretch (on : Nat → Bool) (a b : Nat) : Prop where
  le : a ≤ b
  all : ∀ r, a ≤ r → r ≤ b → on r
  top : ∀ r, r + 1 = a → ¬on r
  foot : ¬on (b + 1)

/-- The pixels of a stretch. -/
def AlongRows (a b : Nat) (p : Pixel) : Prop := p.2 = 1 ∧ a ≤ p.1 ∧ p.1 ≤ b

variable {input : Buf UInt8} {on : Nat → Bool} {height a b r : Nat} {p q x : Pixel}

theorem painted_column {paint : Pixel → Bool} (shape : ∀ p, paint p ↔ p.2 = 1 ∧ on p.1)
    (off : ∀ r, on r → 1 ≤ r ∧ r + 2 ≤ height) : Column (painted 3 paint) on height := by
  refine ⟨off, fun p => ?_⟩
  rw [moving_painted, shape]
  refine ⟨fun h => h.2, fun h => ⟨?_, h⟩⟩
  have := off p.1 h.2
  unfold Inside
  omega

/-- A stretch begins with its first row. -/
theorem AlongRows.first (hp : AlongRows a b p) : idx 3 (a, 1) ≤ idx 3 p := by
  obtain ⟨hc, h1, _⟩ := hp
  unfold idx
  dsimp only
  omega

/-- Where every pixel looks back at the one above, one comes to its top. -/
theorem AlongRows.descends {G : Ground Pixel (Blob 0)}
    (back : ∀ r, a ≤ r → r + 1 ≤ b → G.back (r + 1, 1) (r, 1)) (hp : AlongRows a b p) :
    Descends G p (a, 1) := by
  obtain ⟨r, c⟩ := p
  obtain ⟨hc, h1, h2⟩ := hp
  dsimp only at hc h1 h2
  subst hc
  induction r, h1 using Nat.le_induction with
  | base => exact Relation.ReflTransGen.refl
  | succ r h1 ih => exact (ih (by omega)).head (back r h1 h2)

theorem Stretch.begins (s : Stretch on a b) : AlongRows a b (a, 1) :=
  ⟨rfl, Nat.le_refl a, s.le⟩

namespace Column

variable (h : Column input on height)

include h

/-- Every row that moves lies in a stretch. -/
theorem exists_stretch (hr : on r) : ∃ a b, Stretch on a b ∧ a ≤ r ∧ r ≤ b := by
  classical
  have hup : ∃ a, a ≤ r ∧ ∀ i, a ≤ i → i ≤ r → on i :=
    ⟨r, Nat.le_refl r, fun i h1 h2 => Nat.le_antisymm h1 h2 ▸ hr⟩
  have hdown : ∃ b, r ≤ b ∧ ¬on (b + 1) := by
    refine ⟨height + r, Nat.le_add_left r height, fun hon => ?_⟩
    have := h.off _ hon
    omega
  obtain ⟨hle, hall⟩ := Nat.find_spec hup
  obtain ⟨hge, hfoot⟩ := Nat.find_spec hdown
  refine ⟨Nat.find hup, Nat.find hdown,
    ⟨by omega, fun i h1 h2 => ?_, fun i hi hon => ?_, hfoot⟩, hle, hge⟩
  · by_cases hir : i ≤ r
    · exact hall i h1 hir
    · have hmin := Nat.find_min hdown (m := i - 1) (by omega)
      have hprev : i - 1 + 1 = i := by omega
      rw [hprev] at hmin
      by_contra hn
      exact hmin ⟨by omega, hn⟩
  · refine Nat.find_min hup (m := i) (by omega) ⟨by omega, fun j h1 h2 => ?_⟩
    by_cases hj : j = i
    · exact hj ▸ hon
    · exact hall j (by omega) h2

/-- The stretch of a moving pixel. -/
theorem stretch_of (hp : Moving input 3 height p) : ∃ a b, Stretch on a b ∧ AlongRows a b p := by
  obtain ⟨hcol, hon⟩ := (h.moving p).mp hp
  obtain ⟨a, b, s, hrows⟩ := h.exists_stretch hon
  exact ⟨a, b, s, hcol, hrows⟩

variable (s : Stretch on a b)

include s

theorem along (hp : AlongRows a b p) : Moving input 3 height p :=
  (h.moving p).mpr ⟨hp.1, s.all p.1 hp.2.1 hp.2.2⟩

/-- What touches a stretch is part of it. -/
theorem touch (hadj : Adj8 p q) (hq : Moving input 3 height q) (hp : AlongRows a b p) :
    AlongRows a b q := by
  obtain ⟨hcol, hon⟩ := (h.moving q).mp hq
  unfold Adj8 at hadj
  refine ⟨hcol, ?_, ?_⟩
  · by_contra hlt
    exact s.top q.1 (by have := hp.2; omega) hon
  · by_contra hlt
    have he : q.1 = b + 1 := by
      have := hp.2
      omega
    exact s.foot (he ▸ hon)

theorem above (h1 : a ≤ r) (h2 : r + 1 ≤ b) : Moving input 3 height (r + 1, 1) ∧
    Moving input 3 height (r, 1) ∧ Behind (r + 1, 1) (r, 1) :=
  ⟨h.along s ⟨rfl, by dsimp only; omega, h2⟩, h.along s ⟨rfl, h1, by dsimp only; omega⟩,
    Or.inl ⟨rfl, Or.inr (Or.inl rfl)⟩⟩

/-- It is an object. -/
theorem connected_iff (hp : AlongRows a b p) :
    Connected input 3 height p q ↔ AlongRows a b q := by
  constructor
  · exact fun hc => Linked.keeps (T := {r | Moving input 3 height r})
      (fun x y hadj _ hy hx => h.touch s hadj hy hx) hc hp
  · have hrow : ∀ q, AlongRows a b q → Connected input 3 height (a, 1) q := by
      rintro ⟨r, c⟩ ⟨hc, h1, h2⟩
      dsimp only at hc h1 h2
      subst hc
      induction r, h1 using Nat.le_induction with
      | base => exact Linked.refl
      | succ r h1 ih =>
        obtain ⟨hlow, hup, hbehind⟩ := h.above s h1 h2
        exact (ih (by omega)).trans (Linked.single hbehind.adj.symm hup hlow)
    exact fun hq => (hrow p hp).symm.trans (hrow q hq)

theorem object_ncard (hp : AlongRows a b p) : (object input 3 height p).ncard = b + 1 - a := by
  have hset : object input 3 height p =
      (((Finset.Ico a (b + 1)).image (fun r => ((r, 1) : Pixel)) : Finset Pixel) : Set Pixel) := by
    ext q
    unfold object
    rw [Set.mem_ofPred_eq, h.connected_iff s hp, Finset.mem_coe, Finset.mem_image]
    constructor
    · rintro ⟨hc, h1, h2⟩
      exact ⟨q.1, Finset.mem_Ico.mpr ⟨h1, by omega⟩, Prod.ext rfl hc.symm⟩
    · rintro ⟨r, hr, rfl⟩
      have := Finset.mem_Ico.mp hr
      exact ⟨rfl, this.1, by dsimp only; omega⟩
  rw [hset, Set.ncard_coe_finset,
    Finset.card_image_of_injective _ (fun a b he => by simpa using he), Nat.card_Ico]

/-- Its labels in `blob_detect` start at its top. -/
theorem startOf_le (short : height ≤ 255) (hp : AlongRows a b p) :
    startOf input 3 height p ≤ idx 3 (a, 1) := by
  have hseed : (a, 1) ∈ firstSeeds input 3 height := by
    refine ⟨⟨h.along s s.begins, fun y hbehind hy => ?_⟩, ?_⟩
    · have hrow := (h.touch s hbehind.adj hy s.begins).2.1
      obtain ⟨hcol, _⟩ := (h.moving y).mp hy
      unfold Behind at hbehind
      dsimp only at hbehind
      omega
    · have hsub : {q | Seed input 3 height q ∧ Before q (a, 1)} ⊆
          ((((Finset.range a).image (fun r => ((r, 1) : Pixel)) : Finset Pixel)) : Set Pixel) := by
        rintro q ⟨hq, hbefore⟩
        obtain ⟨hcol, _⟩ := (h.moving q).mp hq.1
        unfold Before at hbefore
        dsimp only at hbefore
        rw [Finset.mem_coe, Finset.mem_image]
        exact ⟨q.1, Finset.mem_range.mpr (by omega), Prod.ext rfl hcol.symm⟩
      have hcard := Set.ncard_le_ncard hsub
      rw [Set.ncard_coe_finset] at hcard
      have hle := hcard.trans Finset.card_image_le
      rw [Finset.card_range] at hle
      have := h.off a (s.all a (Nat.le_refl a) s.le)
      omega
  refine origin_le_of_descends hseed (hp.descends (fun r h1 h2 => ?_))
  obtain ⟨hlow, hup, hbehind⟩ := h.above s h1 h2
  exact ⟨hlow, hup, hbehind, trivial⟩

omit s

/-- So every start that has to be met is met. -/
theorem starts_met (short : height ≤ 255) : StartsMet input 3 height := by
  rintro q hq ⟨r, hc, hlt⟩
  obtain ⟨a, b, s, hrows⟩ := h.stretch_of hq
  have hle := h.startOf_le s short hrows
  have hfirst := ((h.connected_iff s hrows).mp hc).first
  omega

end Column

/-- Of two rows that each begin an object one lies two below the other at least. -/
theorem Column.seeds_few (h : Column input on 240) : {q | Seed input 3 240 q}.ncard ≤ 120 := by
  have hrow : ∀ q, Seed input 3 240 q → q.2 = 1 ∧ 1 ≤ q.1 ∧ q.1 ≤ 238 := by
    intro q hq
    obtain ⟨hcol, hon⟩ := (h.moving q).mp hq.1
    have := h.off q.1 hon
    exact ⟨hcol, by omega, by omega⟩
  have hnext : ∀ q r, Seed input 3 240 q → Seed input 3 240 r → r.1 ≠ q.1 + 1 := by
    intro q r hq hr he
    have := hrow q hq
    have := hrow r hr
    exact hr.2 q (Or.inl ⟨by omega, Or.inr (Or.inl (by omega))⟩) hq.1
  have hmap := Set.ncard_le_ncard_of_injOn (s := {q | Seed input 3 240 q})
    (t := (Finset.range 120 : Set Nat)) (fun q => q.1 / 2)
    (fun q hq => by
      have := hrow q hq
      rw [Finset.mem_coe, Finset.mem_range]
      omega)
    (fun q hq r hr he => by
      have := hrow q hq
      have := hrow r hr
      have := hnext q r hq hr
      have := hnext r q hr hq
      dsimp only at he
      exact Prod.ext (by omega) (by omega))
  rwa [Set.ncard_coe_finset, Finset.card_range] at hmap

/-- And the labels of `blob_detect` fit their table. -/
theorem Column.labelsFit (w : Nat) (h : Column input on 240) :
    LabelsFit w 3 240 (Buf.all 0) input := by
  have hfew := h.seeds_few
  have hcount : (labelLoop w 3 240 (Buf.all 0) input).labelCounter = _ :=
    labelCounter_eq (BorderZero.all 3 240)
  rw [starts_length (by omega)] at hcount
  have hsize : tableSize 3 240 = 180 := rfl
  exact LabelsFit.of_counter (by omega) (by omega)

theorem seams_low {r : Nat} (hr : r ∈ seams) : 60 ≤ r := by
  have hall : ∀ r ∈ seams, 60 ≤ r := by decide
  exact hall r hr

/-- The turns of the bands follow the rows. -/
theorem bands_rank (h1 : 1 ≤ r) (h2 : r ≤ 239) (c : Nat) : rank bands (r, c) =
    if r ≤ 59 then 0 else if r ≤ 119 then 1 else if r ≤ 179 then 2 else 3 := by
  have hall : ∀ r < 240, 1 ≤ r → rank bands (r, 0) =
      if r ≤ 59 then 0 else if r ≤ 119 then 1 else if r ≤ 179 then 2 else 3 := by decide +kernel
  exact hall r (by omega) h1

namespace Column

variable (h : Column input on labelledHeight)

include h

theorem sees_above (hr : on r) (hr' : on (r + 1)) : sees bands (r + 1, 1) (r, 1) := by
  have := h.off r hr
  have := h.off (r + 1) hr'
  unfold labelledHeight at *
  unfold sees
  rw [bands_rank (by omega) (by omega), bands_rank (by omega) (by omega)]
  split_ifs <;> omega

/-- Its labels in `blob_detect_par`, the bands labelled from the top, start there, too. -/
theorem parStart_eq (s : Stretch on a b) (hp : AlongRows a b p) :
    parStart input 3 bands p = idx 3 (a, 1) := by
  refine Nat.le_antisymm ?_ ?_
  · refine origin_le_of_descends (Set.mem_univ _) (hp.descends (fun r h1 h2 => ?_))
    obtain ⟨hlow, hup, hbehind⟩ := h.above s h1 h2
    exact ⟨hlow, hup, hbehind,
      h.sees_above (s.all r h1 (by omega)) (s.all (r + 1) (by omega) h2)⟩
  · obtain ⟨t, hd, he, _⟩ := origin_spec (parScene 0 input 3 bands) Set.univ (idx 3) p
    have ht : AlongRows a b t := by
      clear he
      clear * - hd hp h s
      induction hd with
      | refl => exact hp
      | tail _ hb ih => exact h.touch s hb.2.2.1.adj hb.2.1 ih
    unfold parStart
    rw [← he]
    exact ht.first

/-- Pixels that touch have one start. -/
theorem parStart_adj (hp : Moving input 3 labelledHeight p) (hq : Moving input 3 labelledHeight q)
    (hadj : Adj8 p q) : parStart input 3 bands p = parStart input 3 bands q := by
  obtain ⟨a, b, s, hrows⟩ := h.stretch_of hp
  rw [h.parStart_eq s hrows, h.parStart_eq s (h.touch s hadj hq hrows)]

/-- A pixel of a seam has one moving pixel above it at most. -/
theorem overSeam_unique (hp : OverSeam input 3 x p) (hq : OverSeam input 3 x q) : p = q := by
  have hpc := ((h.moving p).mp hp.2).1
  have hqc := ((h.moving q).mp hq.2).1
  have hrow : p.1 = q.1 := by
    have := hp.1.1
    have := hq.1.1
    omega
  exact Prod.ext hrow (hpc.trans hqc.symm)

theorem leastOver_eq (hp : OverSeam input 3 x p) :
    leastOver input 3 bands x = parStart input 3 bands p := by
  obtain ⟨q, hq, he⟩ := Nat.sInf_mem (⟨_, p, hp, rfl⟩ :
    {n | ∃ q, OverSeam input 3 x q ∧ parStart input 3 bands q = n}.Nonempty)
  rw [h.overSeam_unique hp hq]
  exact he.symm

/-- Labelled from the top such a frame is whole. -/
theorem whole (h' : Column input on 240) (stitches : List Nat) :
    Whole input 3 bands stitches := by
  constructor
  · intro p hrow hp
    have := h'.off p.1 ((h.moving p).mp hp).2
    omega
  · rintro x hx ⟨hm, ⟨q, ha, hq⟩, hrise⟩
    have hlt := hrise q ⟨ha, hq⟩
    rw [h.parStart_adj hm hq (Behind.adj (Or.inl ha))] at hlt
    exact Nat.lt_irrefl _ hlt
  · intro x _ _ q r hq hr
    rw [h.overSeam_unique hq hr]
    exact Linked.refl
  · exact h'.starts_met (by decide)
  · intro q r hc hlt hs
    obtain ⟨a, b, s, hrows⟩ := h.stretch_of hs.1
    rw [h.parStart_eq s hrows] at hlt
    have := ((h.connected_iff s hrows).mp hc).first
    omega

/-- And no start is linked to another. -/
theorem endLink_eq (stitches : List Nat) : endLink input 3 bands stitches = id := by
  have hmet : ∀ n x, ¬MetAt (parScene 0 input 3 bands) (parStart input 3 bands) n x := by
    rintro n x ⟨y, hy, he, hlt⟩
    rw [h.parStart_adj hy.1 hy.2.1 hy.2.2.1.adj, he] at hlt
    exact Nat.lt_irrefl _ hlt
  have hsews : ∀ n x, ¬SewsAt input 3 bands n x := by
    rintro n x ⟨⟨a, ha⟩, hne, y, hy, hym, rfl⟩
    rw [h.leastOver_eq ha] at hne
    cases hy with
    | inl he => exact hne (h.parStart_adj ha.2 hym (he ▸ (Behind.adj (Or.inl ha.1)).symm))
    | inr hy => exact hne (congrArg _ (h.overSeam_unique ha ⟨hy, hym⟩))
  have hscan : ∀ done, scanLink input 3 bands done = id := by
    intro done
    refine Fold.invariant (P := fun lead : Nat → Nat => lead = id) done id rfl ?_
    rintro b _ _ rfl
    have hlink : metLink (parScene 0 input 3 bands) (parStart input 3 bands) (b.pixels 3) id =
        id :=
      funext (fun n => metLink_of_none (fun x _ => hmet n x))
    unfold callLink
    rw [hlink]
    exact funext (fun n => Links.followed_once (fun hand => Nat.lt_irrefl _ hand.2))
  have hsew : ∀ l, sewLink input 3 bands l = id := by
    intro l
    funext n
    have hnone : Interleave.lastWrite (sewWrite input 3 bands n) l = none :=
      Interleave.lastWrite_none_iff.mpr (fun x _ => if_neg (hsews n x))
    unfold sewLink
    rw [hnone, hscan]
    rfl
  unfold endLink
  rw [hsew]
  exact funext (fun n => Links.root_self rfl)

/-- The pixels of a stretch come down to its top. -/
theorem fallingTo_card (s : Stretch on a b) (stitches : List Nat) :
    (fallingTo input 3 bands stitches (idx 3 (a, 1))).card = b + 1 - a := by
  have hset : fallingTo input 3 bands stitches (idx 3 (a, 1)) =
      (Finset.Ico a (b + 1)).image (fun r => ((r, 1) : Pixel)) := by
    ext p
    unfold fallingTo
    rw [h.endLink_eq, Finset.mem_filter, mem_moving, Links.root_self rfl, Finset.mem_image]
    constructor
    · rintro ⟨hp, he⟩
      obtain ⟨a', b', s', hrows⟩ := h.stretch_of hp
      rw [h.parStart_eq s' hrows] at he
      have ha : a' = a := by
        unfold idx at he
        dsimp only at he
        omega
      obtain ⟨hcol, h1, h2⟩ := hrows
      refine ⟨p.1, Finset.mem_Ico.mpr ⟨ha ▸ h1, ?_⟩, Prod.ext rfl hcol.symm⟩
      by_contra hge
      have := s.le
      exact s.foot (s'.all (b + 1) (by omega) (by omega))
    · rintro ⟨r, hr, rfl⟩
      have hr := Finset.mem_Ico.mp hr
      have hrows : AlongRows a b (r, 1) := ⟨rfl, hr.1, by dsimp only; omega⟩
      exact ⟨h.along s hrows, h.parStart_eq s hrows⟩
  rw [hset, Finset.card_image_of_injective _ (fun a b he => by simpa using he), Nat.card_Ico]

end Column

section twoPoles

/-- The rows of a pole of more than fifty pixels and of one of two, on either side of a seam. -/
def poleRows (r : Nat) : Bool := (1 ≤ r ∧ r ≤ 55) ∨ (59 ≤ r ∧ r ≤ 60)

/-- The two poles. -/
def twoPoles : Buf UInt8 := painted 3 fun p => p.2 = 1 ∧ poleRows p.1

theorem poleRows_iff : poleRows r ↔ (1 ≤ r ∧ r ≤ 55) ∨ (59 ≤ r ∧ r ≤ 60) := by
  unfold poleRows
  rw [decide_eq_true_eq]

theorem twoPoles_column (hh : 62 ≤ height) : Column twoPoles poleRows height := by
  refine painted_column (fun p => decide_eq_true_iff) (fun r hr => ?_)
  rw [poleRows_iff] at hr
  omega

theorem twoPoles_labelled : Column twoPoles poleRows labelledHeight :=
  twoPoles_column (by decide)

theorem poleRows_upper : Stretch poleRows 1 55 := by
  constructor
  · decide
  · intro r h1 h2
    rw [poleRows_iff]
    omega
  · intro r hr
    rw [poleRows_iff]
    omega
  · decide

theorem poleRows_lower : Stretch poleRows 59 60 := by
  constructor
  · decide
  · intro r h1 h2
    rw [poleRows_iff]
    omega
  · intro r hr
    rw [poleRows_iff]
    omega
  · decide

namespace Column

theorem poles (h : Column input poleRows height) (hp : Moving input 3 height p) :
    AlongRows 1 55 p ∨ AlongRows 59 60 p := by
  obtain ⟨hcol, hon⟩ := (h.moving p).mp hp
  rw [poleRows_iff] at hon
  exact hon.imp (fun hr => ⟨hcol, hr⟩) (fun hr => ⟨hcol, hr⟩)

/-- Slot 0 is last written for the lower one, by the stitch. -/
theorem poles_slot (h : Column input poleRows labelledHeight) (l : List Pixel) :
    slotStart input 3 bands l (seamPixels 3 seams) = some (idx 3 (59, 1)) := by
  have hover : OverSeam input 3 (60, 1) (59, 1) :=
    ⟨⟨rfl, Or.inr (Or.inl rfl)⟩, h.along poleRows_lower poleRows_lower.begins⟩
  have hspills : SeamSpills input 3 (60, 1) :=
    ⟨⟨_, hover⟩, Or.inr ⟨(59, 0), ⟨rfl, Or.inl rfl⟩, fun hm =>
      absurd ((h.moving _).mp hm).1 (by decide)⟩⟩
  have hwrite : ∀ x ∈ seamPixels 3 seams, SeamSpills input 3 x →
      seamSpillWrite input 3 bands x = some (idx 3 (59, 1)) := by
    intro x hx hs
    obtain ⟨q, hq⟩ := hs.1
    have := seams_low (mem_seamPixels.mp hx).1
    have := hq.1.1
    have hlower : AlongRows 59 60 q := by
      refine (h.poles hq.2).resolve_left (fun hupper => ?_)
      have := hupper.2
      omega
    rw [← h.parStart_eq poleRows_lower hlower, ← h.leastOver_eq hq]
    exact if_pos hs
  have hmem : (60, 1) ∈ seamPixels 3 seams := by decide
  unfold slotStart
  rw [Interleave.lastWrite_eq_some hmem (hwrite _ hmem hspills)]
  · rfl
  · intro x hx u hu
    by_cases hs : SeamSpills input 3 x
    · exact Option.some.inj (hu.symm.trans (hwrite x hx hs))
    · exact absurd (hu.symm.trans (if_neg hs)) (Option.some_ne_none u)

/-- The larger of the poles is the upper one, for which slot 0 is not last written. -/
theorem poles_safe (h : Column input poleRows labelledHeight) (h' : Column input poleRows 240) :
    LargestSafe input 3 bands seams := by
  have hupper := poleRows_upper.begins
  have hsize := h'.object_ncard poleRows_upper hupper
  have hup : ∀ q, AlongRows 1 55 q → object input 3 240 q = object input 3 240 (1, 1) :=
    fun q hq => object_eq_iff.mpr ((h'.connected_iff poleRows_upper hq).mpr hupper)
  have hlow : ∀ q, AlongRows 59 60 q → object input 3 240 q = object input 3 240 (59, 1) :=
    fun q hq => object_eq_iff.mpr ((h'.connected_iff poleRows_lower hq).mpr poleRows_lower.begins)
  have hsmall : ∀ q, AlongRows 59 60 q → (object input 3 240 q).ncard = 60 + 1 - 59 :=
    fun q hq => h'.object_ncard poleRows_lower hq
  refine ⟨(1, 1), ⟨h'.along poleRows_upper hupper, fun q hq => ?_, fun q hq hlt => ?_⟩,
    fun _ => ⟨?_, ?_⟩⟩
  · rcases h'.poles hq with hq | hq
    · rw [hup q hq]
    · rw [hsmall q hq, hsize]
      decide
  · rcases h'.poles hq with hq | hq
    · unfold firstOf at hlt
      rw [hup q hq] at hlt
      exact absurd hlt (Nat.lt_irrefl _)
    · rw [hsmall q hq, hsize]
      decide
  · have htwo : objects input 3 240 ⊆
        {object input 3 240 (1, 1), object input 3 240 (59, 1)} := by
      rintro _ ⟨q, hq, rfl⟩
      exact (h'.poles hq).imp (hup q) (hlow q)
    have hle := (Set.ncard_le_ncard htwo).trans (Set.ncard_insert_le _ _)
    rw [Set.ncard_singleton] at hle
    exact hle.trans (by decide)
  · rintro ⟨q, hq, hslot, _, hc⟩
    have hrows := (h.connected_iff poleRows_upper hupper).mp hc.symm
    rw [h.poles_slot, Option.some_inj, h.parStart_eq poleRows_upper hrows] at hslot
    exact absurd hslot (by decide)

end Column

/-- The starts of both come back to themselves. -/
theorem mem_returning_poles {n : Nat} {stitches : List Nat} :
    n ∈ returningStarts twoPoles 3 bands stitches ↔ n = idx 3 (1, 1) ∨ n = idx 3 (59, 1) := by
  have hstart : ∀ a b, Stretch poleRows a b → ∃ p ∈ moving twoPoles 3 labelledHeight,
      parStart twoPoles 3 bands p = idx 3 (a, 1) := fun a b s =>
    ⟨(a, 1), mem_moving.mpr (twoPoles_labelled.along s s.begins),
      twoPoles_labelled.parStart_eq s s.begins⟩
  have hself := congrFun (twoPoles_labelled.endLink_eq stitches) n
  unfold returningStarts
  rw [Finset.mem_filter, Finset.mem_image]
  constructor
  · rintro ⟨⟨p, hp, rfl⟩, _⟩
    exact (twoPoles_labelled.poles (mem_moving.mp hp)).imp
      (twoPoles_labelled.parStart_eq poleRows_upper)
      (twoPoles_labelled.parStart_eq poleRows_lower)
  · rintro (rfl | rfl)
    · exact ⟨hstart 1 55 poleRows_upper, hself⟩
    · exact ⟨hstart 59 60 poleRows_lower, hself⟩

end twoPoles

end Motion
