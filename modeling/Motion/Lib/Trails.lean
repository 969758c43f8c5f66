import Motion.Lib.Interleave
import Motion.Lib.Origins

/-! Where the links of a scan lead, told from the points alone: a label is linked to the origin
taken over at the last point at which it was met. -/

namespace Labelling

variable {α ρ : Type} {G : Ground α ρ} {org : α → Nat} {limit n : Nat} {S : Finset α} {x : α}
  {m m' : Marks α ρ} {lead : Nat → Nat}

/-- At `x` the points of an origin are met: an earlier one is taken over beside one of them. -/
def MetAt (G : Ground α ρ) (org : α → Nat) (n : Nat) (x : α) : Prop :=
  ∃ y, G.back x y ∧ org y = n ∧ org x < n

open Classical in
/-- What `x` links an origin to. -/
noncomputable def metWrite (G : Ground α ρ) (org : α → Nat) (n : Nat) (x : α) : Option Nat :=
  if MetAt G org n x then some (org x) else none

/-- Where the visits of `l` leave the links that led as `lead` does. -/
noncomputable def metLink (G : Ground α ρ) (org : α → Nat) (l : List α) (lead : Nat → Nat)
    (n : Nat) : Nat :=
  (Interleave.lastWrite (metWrite G org n) l).getD (lead n)

theorem metLink_of_none {l : List α} (h : ∀ x ∈ l, ¬MetAt G org n x) :
    metLink G org l lead n = lead n := by
  have hnone : Interleave.lastWrite (metWrite G org n) l = none :=
    Interleave.lastWrite_none_iff.mpr (fun x hx => if_neg (h x hx))
  unfold metLink
  rw [hnone, Option.getD_none]

theorem metLink_of_met {l : List α} (h : MetAt G org n x) :
    metLink G org (l ++ [x]) lead n = org x := by
  have hwrite : metWrite G org n x = some (org x) := if_pos h
  unfold metLink
  rw [Interleave.lastWrite_concat hwrite, Option.getD_some]

theorem metLink_of_not {l : List α} (h : ¬MetAt G org n x) :
    metLink G org (l ++ [x]) lead n = metLink G org l lead n := by
  have hwrite : metWrite G org n x = none := if_neg h
  unfold metLink
  rw [Interleave.lastWrite_skip hwrite]

/-- Links of the labels visited lead to the labels of the origins that `lead` says. -/
structure Trails (G : Ground α ρ) (org : α → Nat) (S : Finset α) (m : Marks α ρ)
    (lead : Nat → Nat) : Prop where
  leads : ∀ q ∈ live G S, ∃ r ∈ live G S, org r = lead (org q) ∧ m.lab r = m.link (m.lab q)
  /-- An origin of no point visited leads nowhere. -/
  idle : ∀ n, (∀ q ∈ live G S, org q ≠ n) → lead n = n

theorem Trails.empty : Trails G org ∅ m id := by
  constructor <;> simp [live]

/-- The label some counting point carries, and that point's origin. -/
def Carries (G : Ground α ρ) (org : α → Nat) (S : Finset α) (m : Marks α ρ) (l n : Nat) : Prop :=
  ∃ q ∈ live G S, m.lab q = l ∧ org q = n

theorem Trails.matches (h : Trails G org S m lead)
    (order : ∀ q ∈ live G S, ∀ r ∈ live G S, m.lab q < m.lab r ↔ org q < org r) :
    Links.Matches (Carries G org S m) m.link lead where
  link := by
    rintro _ _ ⟨q, hq, rfl, rfl⟩
    obtain ⟨r, hr, hlead, hlab⟩ := h.leads q hq
    exact ⟨r, hr, hlab, hlead⟩
  order := by
    rintro _ _ _ _ ⟨q, hq, rfl, rfl⟩ ⟨r, hr, rfl, rfl⟩
    exact order q hq r hr

variable [DecidableEq α]

/-- Where an origin is met the visit links its label to the label taken. -/
theorem Visit.met_link (v : Visit G limit S x m m') {q y : α} (hy : G.back x y)
    (he : m.lab y = m.lab q) (hlt : m'.lab x < m.lab q) :
    m'.link (m.lab q) = m'.lab x := by
  cases v with
  | idle off => exact absurd (G.back_from _ _ hy) off
  | fresh l _ _ _ _ _ above lab =>
    have := above y hy
    omega
  | join z _ _ _ _ _ lab relink =>
    have hlink := relink y hy (by omega)
    rw [← he, hlink, lab]

section visit

variable {l : List α} (v : Visit G limit S x m m') (hb : ∀ y, G.back x y → y ∈ S)
  (order : ∀ q ∈ live G (insert x S), ∀ r ∈ live G (insert x S),
    m'.lab q < m'.lab r ↔ org q < org r)

theorem live_insert {q : α} (hq : q ∈ live G S) : q ∈ live G (insert x S) :=
  ⟨Finset.mem_insert_of_mem hq.1, hq.2⟩

include order in
/-- Labels that come in the order of the origins are those of one origin if equal. -/
theorem lab_eq_iff {q r : α} (hq : q ∈ live G (insert x S)) (hr : r ∈ live G (insert x S)) :
    m'.lab q = m'.lab r ↔ org q = org r := by
  have h1 := order q hq r hr
  have h2 := order r hr q hq
  omega

include v hb order

/-- A label carried before is linked where its origin is after the visit. -/
theorem Visit.trails_old (hm : Marked G S m) (h : Trails G org S m (metLink G org l lead)) {q : α}
    (hq : q ∈ live G S) : ∃ r ∈ live G (insert x S),
      org r = metLink G org (l ++ [x]) lead (org q) ∧ m'.lab r = m'.link (m.lab q) := by
  by_cases hmet : MetAt G org (org q) x
  · obtain ⟨y, hy, he, hlt⟩ := hmet
    have hyl : y ∈ live G S := ⟨hb y hy, G.back_on _ _ hy⟩
    have hxl : x ∈ live G (insert x S) := ⟨Finset.mem_insert_self x S, G.back_from _ _ hy⟩
    have hlab := (lab_eq_iff order (live_insert hyl) (live_insert hq)).mpr he
    have hbelow := (order x hxl q (live_insert hq)).mpr hlt
    rw [v.keep y hyl.1, v.keep q hq.1] at hlab
    rw [v.keep q hq.1] at hbelow
    exact ⟨x, hxl, (metLink_of_met ⟨y, hy, he, hlt⟩).symm, (v.met_link hy hlab hbelow).symm⟩
  · rcases v.link_cases hm hq.1 hq.2 with he | ⟨z, hz, hlab, hlt, _, on⟩
    · obtain ⟨r, hr, hlead, hlab⟩ := h.leads q hq
      exact ⟨r, live_insert hr, by rw [metLink_of_not hmet, hlead],
        by rw [v.keep r hr.1, he, hlab]⟩
    · have hzl : z ∈ live G S := ⟨hb z hz, G.back_on _ _ hz⟩
      have hxl : x ∈ live G (insert x S) := ⟨Finset.mem_insert_self x S, on⟩
      have hsame : org z = org q := by
        rw [← lab_eq_iff order (live_insert hzl) (live_insert hq), v.keep z hzl.1, v.keep q hq.1,
          hlab]
      refine absurd ⟨z, hz, hsame, ?_⟩ hmet
      rw [← order x hxl q (live_insert hq), v.keep q hq.1]
      exact hlt

/-- One visit, in a scan whose labels come in the order of the origins. -/
theorem Visit.trails (hm : Marked G S m) (h : Trails G org S m (metLink G org l lead))
    (start : G.on x → (∀ y, G.back x y → limit ≤ m.lab y) → ∀ q ∈ live G S, org q ≠ org x) :
    Trails G org (insert x S) m' (metLink G org (l ++ [x]) lead) := by
  have old := fun q (hq : q ∈ live G S) => v.trails_old hb order hm h hq
  have keep := v.keep
  constructor
  · rintro q ⟨hq, on⟩
    rcases Finset.mem_insert.mp hq with rfl | hq
    · cases v with
      | idle off => exact absurd on off
      | fresh l _ _ unfound _ _ _ lab self =>
        have hnot : ¬MetAt G org (org q) q := fun ⟨_, _, _, hlt⟩ => Nat.lt_irrefl _ hlt
        refine ⟨q, ⟨Finset.mem_insert_self q S, on⟩, ?_, by rw [lab, self]⟩
        rw [metLink_of_not hnot, h.idle _ (start on unfound)]
      | join y _ _ hy _ _ lab =>
        have hyl : y ∈ live G S := ⟨hb y hy, G.back_on _ _ hy⟩
        obtain ⟨r, hr, hlead, hlink⟩ := old y hyl
        have horg : org y = org q := by
          rw [← lab_eq_iff order (live_insert hyl) ⟨Finset.mem_insert_self q S, on⟩,
            keep y hyl.1, lab]
        exact ⟨r, hr, by rw [hlead, horg], by rw [hlink, lab]⟩
    · obtain ⟨r, hr, hlead, hlink⟩ := old q ⟨hq, on⟩
      exact ⟨r, hr, hlead, by rw [hlink, keep q hq]⟩
  · intro n hn
    have hnot : ¬MetAt G org n x := by
      rintro ⟨y, hy, he, _⟩
      exact hn y (live_insert ⟨hb y hy, G.back_on _ _ hy⟩) he
    rw [metLink_of_not hnot]
    exact h.idle n (fun q hq => hn q (live_insert hq))

end visit

end Labelling
