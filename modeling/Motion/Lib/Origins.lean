import Motion.Lib.Classes

/-! The order of the labels, told from the points alone: a point's label is as
early as the earliest absorbing start it descends from. -/

namespace Labelling

variable {α ρ : Type} {G : Ground α ρ} {F : Set α} {pos : α → Nat} {limit : Nat}
  {S : Finset α} {x : α} {m m' : Marks α ρ}

/-- Reached by looking back again and again. -/
def Descends (G : Ground α ρ) : α → α → Prop := Relation.ReflTransGen G.back

/-- Descended from a start whose label neighbours take over. -/
def Absorbed (G : Ground α ρ) (F : Set α) (q : α) : Prop := ∃ s ∈ F, Descends G q s

open Classical in
/-- The position of the earliest absorbing start a point descends from, or its
own position when there is none. -/
noncomputable def origin (G : Ground α ρ) (F : Set α) (pos : α → Nat) (q : α) : Nat :=
  if Absorbed G F q then sInf {n | ∃ s ∈ F, Descends G q s ∧ pos s = n} else pos q

theorem Descends.pos_le (hpos : ∀ x y, G.back x y → pos y < pos x) {q s : α}
    (h : Descends G q s) : pos s ≤ pos q := by
  induction h with
  | refl => exact Nat.le_refl _
  | tail _ hb ih => exact Nat.le_trans (Nat.le_of_lt (hpos _ _ hb)) ih

theorem Descends.joined {q s : α} (hc : ∀ q ∈ S, ∀ y, G.back q y → y ∈ S)
    (hq : q ∈ live G S) (h : Descends G q s) : s ∈ live G S ∧ Joined G S q s := by
  induction h with
  | refl => exact ⟨hq, Linked.refl⟩
  | tail _ hb ih =>
    have hs : _ ∈ live G S := ⟨hc _ ih.1.1 _ hb, G.back_on _ _ hb⟩
    exact ⟨hs, ih.2.trans (Linked.single (G.back_near _ _ hb) ih.1 hs)⟩

theorem origin_le_of_descends {q s : α} (hs : s ∈ F) (h : Descends G q s) :
    origin G F pos q ≤ pos s := by
  rw [origin, if_pos ⟨s, hs, h⟩]
  exact Nat.sInf_le ⟨s, hs, h, rfl⟩

theorem origin_of_not (h : ¬Absorbed G F x) : origin G F pos x = pos x := if_neg h

/-- The origin is the position of a point descended from. -/
theorem origin_spec (G : Ground α ρ) (F : Set α) (pos : α → Nat) (q : α) :
    ∃ s, Descends G q s ∧ pos s = origin G F pos q ∧ (Absorbed G F q → s ∈ F) := by
  by_cases h : Absorbed G F q
  · obtain ⟨t, ht, hd⟩ := h
    have hne : {n | ∃ s ∈ F, Descends G q s ∧ pos s = n}.Nonempty := ⟨pos t, t, ht, hd, rfl⟩
    obtain ⟨s, hs, hds, hp⟩ := Nat.sInf_mem hne
    exact ⟨s, hds, by rw [origin, if_pos ⟨t, ht, hd⟩, hp], fun _ => hs⟩
  · exact ⟨q, Relation.ReflTransGen.refl, (origin_of_not h).symm, fun ha => absurd ha h⟩

theorem origin_le (hpos : ∀ x y, G.back x y → pos y < pos x) (q : α) :
    origin G F pos q ≤ pos q := by
  obtain ⟨s, hd, he, _⟩ := origin_spec G F pos q
  rw [← he]
  exact hd.pos_le hpos

theorem absorbed_iff : Absorbed G F x ↔ x ∈ F ∨ ∃ y, G.back x y ∧ Absorbed G F y := by
  constructor
  · rintro ⟨s, hs, hd⟩
    rcases Relation.ReflTransGen.cases_head hd with rfl | ⟨y, hb, hd⟩
    · exact Or.inl hs
    · exact Or.inr ⟨y, hb, s, hs, hd⟩
  · rintro (hx | ⟨y, hb, s, hs, hd⟩)
    · exact ⟨x, hx, Relation.ReflTransGen.refl⟩
    · exact ⟨s, hs, hd.head hb⟩

/-- A point that looks back at nothing absorbed is its own origin. -/
theorem origin_of_fresh (hb : ∀ y, G.back x y → ¬Absorbed G F y) :
    origin G F pos x = pos x := by
  obtain ⟨s, hd, he, ha⟩ := origin_spec G F pos x
  rcases Relation.ReflTransGen.cases_head hd with rfl | ⟨y, hy, hd⟩
  · exact he.symm
  · by_cases hx : Absorbed G F x
    · exact absurd ⟨s, ha hx, hd⟩ (hb y hy)
    · exact origin_of_not hx

/-- A point takes the origin of the earliest among the neighbours it looks back at. -/
theorem origin_of_join (hpos : ∀ x y, G.back x y → pos y < pos x) {y : α} (hy : G.back x y)
    (ha : Absorbed G F y)
    (hmin : ∀ z, G.back x z → Absorbed G F z → origin G F pos y ≤ origin G F pos z) :
    origin G F pos x = origin G F pos y := by
  have hx : Absorbed G F x := absorbed_iff.mpr (Or.inr ⟨y, hy, ha⟩)
  apply Nat.le_antisymm
  · obtain ⟨s, hd, he, hF⟩ := origin_spec G F pos y
    rw [← he]
    exact origin_le_of_descends (hF ha) (hd.head hy)
  · obtain ⟨s, hd, he, hF⟩ := origin_spec G F pos x
    rcases Relation.ReflTransGen.cases_head hd with rfl | ⟨z, hz, hd⟩
    · have := origin_le (F := F) hpos y
      have := hpos _ _ hy
      omega
    · have hz' : Absorbed G F z := ⟨s, hF hx, hd⟩
      have : origin G F pos z ≤ pos s := origin_le_of_descends (hF hx) hd
      have := hmin z hz hz'
      omega

/-- Labels come in the order of their points' origins, and the absorbed points
are those whose label a neighbour takes over. -/
structure Ordered (G : Ground α ρ) (limit : Nat) (F : Set α) (pos : α → Nat) (S : Finset α)
    (m : Marks α ρ) : Prop where
  low : ∀ q ∈ live G S, m.lab q < limit ↔ Absorbed G F q
  order : ∀ q ∈ live G S, ∀ r ∈ live G S,
    m.lab q < m.lab r ↔ origin G F pos q < origin G F pos r

theorem Ordered.empty : Ordered G limit F pos ∅ m := by
  constructor <;> simp [live]

/-- Where a label is started it must fall into place: taken over or not as the
start absorbs or not, and after the labels whose origin lies before. -/
def InPlace (G : Ground α ρ) (limit : Nat) (F : Set α) (pos : α → Nat) (S : Finset α) (x : α)
    (m : Marks α ρ) (l : Nat) : Prop :=
  (l < limit ↔ x ∈ F) ∧ ∀ q ∈ live G S,
    (m.lab q < l ↔ origin G F pos q < pos x) ∧ (l < m.lab q ↔ pos x < origin G F pos q)

variable [DecidableEq α]

theorem Visit.ordered (h : Ordered G limit F pos S m)
    (hb : ∀ y, G.back x y → y ∈ S) (hpos : ∀ x y, G.back x y → pos y < pos x)
    (v : Visit G limit S x m m')
    (place : G.on x → (∀ y, G.back x y → limit ≤ m.lab y) →
      InPlace G limit F pos S x m (m'.lab x)) :
    Ordered G limit F pos (insert x S) m' := by
  have cases_live : ∀ q ∈ live G (insert x S), q = x ∧ G.on x ∨ q ∈ live G S := by
    rintro q ⟨hq, ha⟩
    rcases Finset.mem_insert.mp hq with rfl | hq
    · exact Or.inl ⟨rfl, ha⟩
    · exact Or.inr ⟨hq, ha⟩
  -- the new point either repeats a visited one or stands in a place of its own
  have new : G.on x → (∃ y ∈ live G S, m'.lab x = m.lab y ∧
        origin G F pos x = origin G F pos y ∧ m.lab y < limit ∧ Absorbed G F x) ∨
      (origin G F pos x = pos x ∧ InPlace G limit F pos S x m (m'.lab x) ∧
        (Absorbed G F x ↔ x ∈ F)) := by
    intro hon
    cases v with
    | idle off => exact absurd hon off
    | fresh l _ _ unfound =>
      have hnone : ∀ y, G.back x y → ¬Absorbed G F y := by
        intro y hy ha
        have := (h.low y ⟨hb y hy, G.back_on _ _ hy⟩).mpr ha
        have := unfound y hy
        omega
      refine Or.inr ⟨origin_of_fresh hnone, place hon unfound, ?_⟩
      rw [absorbed_iff]
      exact ⟨fun hor => hor.resolve_right (fun ⟨y, hy, ha⟩ => hnone y hy ha), Or.inl⟩
    | join y _ _ back below least lab =>
      have hy : y ∈ live G S := ⟨hb y back, G.back_on _ _ back⟩
      have ha := (h.low y hy).mp below
      refine Or.inl ⟨y, hy, lab, origin_of_join hpos back ha ?_, below,
        absorbed_iff.mpr (Or.inr ⟨y, back, ha⟩)⟩
      intro z hz _
      have hz' : z ∈ live G S := ⟨hb z hz, G.back_on _ _ hz⟩
      have := least z hz
      have := h.order z hz' y hy
      omega
  constructor
  · intro q hq
    rcases cases_live q hq with ⟨rfl, hon⟩ | hq
    · rcases new hon with ⟨y, hy, hl, ho, hlt, ha⟩ | ⟨_, hp, ha⟩
      · exact iff_of_true (by omega) ha
      · rw [hp.1, ha]
    · rw [v.keep q hq.1]
      exact h.low q hq
  · intro q hq r hr
    rcases cases_live q hq with ⟨hqx, hon⟩ | hq' <;> rcases cases_live r hr with ⟨hrx, hon'⟩ | hr'
    · rw [hqx, hrx]
      simp
    · rw [v.keep r hr'.1, hqx]
      rcases new hon with ⟨y, hy, hl, ho, _⟩ | ⟨ho, hp, _⟩
      · rw [hl, ho]
        exact h.order y hy r hr'
      · rw [ho]
        exact (hp.2 r hr').2
    · rw [v.keep q hq'.1, hrx]
      rcases new hon' with ⟨y, hy, hl, ho, _⟩ | ⟨ho, hp, _⟩
      · rw [hl, ho]
        exact h.order q hq' y hy
      · rw [ho]
        exact (hp.2 q hq').1
    · rw [v.keep q hq'.1, v.keep r hr'.1]
      exact h.order q hq' r hr'

namespace Ordered

variable (h : Ordered G limit F pos S m)

include h

omit [DecidableEq α] in
theorem lab_eq_iff {q r : α} (hq : q ∈ live G S) (hr : r ∈ live G S) :
    m.lab q = m.lab r ↔ origin G F pos q = origin G F pos r := by
  have h1 := h.order q hq r hr
  have h2 := h.order r hr q hq
  omega

omit [DecidableEq α] in
/-- A label is not its object's least exactly when a point of the object lies
before the label's origin. -/
theorem below_iff (hpos : ∀ x y, G.back x y → pos y < pos x)
    (hc : ∀ q ∈ S, ∀ y, G.back q y → y ∈ S) {q : α} (hq : q ∈ live G S) :
    (∃ r ∈ live G S, Joined G S q r ∧ m.lab r < m.lab q) ↔
      ∃ r ∈ live G S, Joined G S q r ∧ pos r < origin G F pos q := by
  constructor
  · rintro ⟨r, hr, hj, hlt⟩
    have hlt' := (h.order r hr q hq).mp hlt
    obtain ⟨s, hd, he, _⟩ := origin_spec G F pos r
    obtain ⟨hs, hjs⟩ := hd.joined hc hr
    exact ⟨s, hs, hj.trans hjs, by omega⟩
  · rintro ⟨r, hr, hj, hlt⟩
    have := origin_le (F := F) hpos r
    exact ⟨r, hr, hj, (h.order r hr q hq).mpr (by omega)⟩

omit [DecidableEq α] in
/-- Where every label that is not its object's least leads elsewhere, a root is carried
by a point whose origin is where the object begins. -/
theorem root_first (hs : Sound G S m) (hpos : ∀ x y, G.back x y → pos y < pos x)
    (hc : ∀ q ∈ S, ∀ y, G.back q y → y ∈ S)
    (hmet : ∀ q ∈ live G S, (∃ r ∈ live G S, Joined G S q r ∧ m.lab r < m.lab q) →
      m.link (m.lab q) ≠ m.lab q) {q : α} (hq : q ∈ live G S) :
    ∃ t ∈ live G S, m.lab t = Links.root m.link (m.lab q) ∧
      IsLeast (pos '' {r | Joined G S q r}) (origin G F pos t) := by
  obtain ⟨t, ht, hl, hj⟩ := hs.root_carried hq
  refine ⟨t, ht, hl, ?_, ?_⟩
  · obtain ⟨s, hd, he, _⟩ := origin_spec G F pos t
    exact ⟨s, hj.trans (hd.joined hc ht).2, he⟩
  · rintro _ ⟨r, hr, rfl⟩
    by_contra hlt
    have hfix := Links.root_fixed hs.falls ⟨q, hq, rfl⟩
    rw [← hl] at hfix
    have hrl : r ∈ live G S := Linked.mem (T := live G S) hr hq
    exact hmet t ht ((h.below_iff hpos hc ht).mpr ⟨r, hrl, hj.symm.trans hr, by omega⟩) hfix

omit [DecidableEq α] in
/-- Then roots come in the order in which the objects begin. -/
theorem root_lt_iff (hs : Sound G S m) (hpos : ∀ x y, G.back x y → pos y < pos x)
    (hc : ∀ q ∈ S, ∀ y, G.back q y → y ∈ S)
    (hmet : ∀ q ∈ live G S, (∃ r ∈ live G S, Joined G S q r ∧ m.lab r < m.lab q) →
      m.link (m.lab q) ≠ m.lab q) {q r : α} (hq : q ∈ live G S) (hr : r ∈ live G S) :
    Links.root m.link (m.lab q) < Links.root m.link (m.lab r) ↔
      sInf (pos '' {x | Joined G S q x}) < sInf (pos '' {x | Joined G S r x}) := by
  obtain ⟨t, ht, hl, hfirst⟩ := h.root_first hs hpos hc hmet hq
  obtain ⟨t', ht', hl', hfirst'⟩ := h.root_first hs hpos hc hmet hr
  rw [← hl, ← hl', hfirst.csInf_eq, hfirst'.csInf_eq]
  exact h.order t ht t' ht'

end Ordered

end Labelling
