import Motion.Lib.Links
import Motion.Lib.Paths

/-! Labelling by a scan that keeps one overwritable link per label. A visited
point takes the least label among its earlier neighbours, and every other label
it meets there is linked to that one; a point with no usable earlier neighbour
starts a label. Nothing here fixes what the points are. -/

namespace Labelling

/-- What is being scanned: which points count, who touches whom, which
neighbours a point looks back at, and when a cell describes a set of points. -/
structure Ground (α ρ : Type) where
  on : α → Prop
  near : α → α → Prop
  back : α → α → Prop
  describes : ρ → Finset α → Prop
  near_symm : ∀ a b, near a b → near b a
  back_near : ∀ x y, back x y → near x y
  back_from : ∀ x y, back x y → on x
  back_on : ∀ x y, back x y → on y

/-- Labels of points, links of labels, and the cell each label gathers. -/
structure Marks (α ρ : Type) where
  lab : α → Nat
  link : Nat → Nat
  cell : Nat → ρ

variable {α ρ : Type} [DecidableEq α] {G : Ground α ρ} {limit : Nat} {S : Finset α} {x : α}
  {m m' : Marks α ρ}

/-- All that one visit can do. Labels from `limit` on are not taken over from a
neighbour. Slot 0, which background neighbours write, is left open. -/
inductive Visit (G : Ground α ρ) (limit : Nat) (S : Finset α) (x : α) (m m' : Marks α ρ) : Prop
  | idle (off : ¬G.on x) (keep : ∀ q ∈ S, m'.lab q = m.lab q) (lab : m'.lab x = 0)
      (link : ∀ k ≠ 0, m'.link k = m.link k)
      (cell : ∀ k ≠ 0, ∀ T, G.describes (m.cell k) T → G.describes (m'.cell k) T)
  | fresh (l : Nat) (on : G.on x) (keep : ∀ q ∈ S, m'.lab q = m.lab q)
      (unfound : ∀ y, G.back x y → limit ≤ m.lab y) (pos : l ≠ 0)
      (new : ∀ q ∈ S, m.lab q ≠ l) (above : ∀ y, G.back x y → m.lab y < l)
      (lab : m'.lab x = l) (self : m'.link l = l)
      (link : ∀ k ≠ 0, k ≠ l → m'.link k = m.link k)
      (cell : ∀ k ≠ 0, k ≠ l → ∀ T, G.describes (m.cell k) T → G.describes (m'.cell k) T)
      (start : G.describes (m'.cell l) {x})
  | join (y : α) (on : G.on x) (keep : ∀ q ∈ S, m'.lab q = m.lab q)
      (back : G.back x y) (below : m.lab y < limit)
      (least : ∀ z, G.back x z → m.lab y ≤ m.lab z) (lab : m'.lab x = m.lab y)
      (relink : ∀ z, G.back x z → m.lab z ≠ m.lab y → m'.link (m.lab z) = m.lab y)
      (link : ∀ k ≠ 0, (k = m.lab y ∨ ∀ z, G.back x z → m.lab z ≠ k) → m'.link k = m.link k)
      (cell : ∀ k ≠ 0, k ≠ m.lab y → ∀ T, G.describes (m.cell k) T → G.describes (m'.cell k) T)
      (grow : ∀ T, x ∉ T → G.describes (m.cell (m.lab y)) T →
        G.describes (m'.cell (m.lab y)) (insert x T))

theorem Visit.keep (h : Visit G limit S x m m') : ∀ q ∈ S, m'.lab q = m.lab q := by
  cases h <;> assumption

/-- What holds of the labels and links of the visited points, whatever a link stands for. -/
structure Marked (G : Ground α ρ) (S : Finset α) (m : Marks α ρ) : Prop where
  /-- The points looked back at have been visited. -/
  closed : ∀ q ∈ S, ∀ y, G.back q y → y ∈ S
  zero : ∀ q ∈ S, m.lab q = 0 ↔ ¬G.on q
  fall : ∀ q ∈ S, G.on q → m.link (m.lab q) ≤ m.lab q
  /-- A label leads elsewhere exactly when some visit met it beside a lower one. -/
  met : ∀ q ∈ S, G.on q → (m.link (m.lab q) ≠ m.lab q ↔
    ∃ x ∈ S, ∃ y, G.back x y ∧ m.lab y = m.lab q ∧ m.lab x < m.lab q)

/-- What holds after any number of visits. -/
structure Scanned (G : Ground α ρ) (S : Finset α) (m : Marks α ρ) : Prop
    extends Marked G S m where
  /-- A link stands for a contact, also one that replaced another. -/
  touch : ∀ q ∈ S, G.on q → m.link (m.lab q) ≠ m.lab q →
    ∃ y ∈ S, ∃ z ∈ S, G.near y z ∧ G.on y ∧ G.on z ∧
      m.lab y = m.lab q ∧ m.lab z = m.link (m.lab q)
  /-- The points of one label hang together. -/
  solid : ∀ q ∈ S, ∀ r ∈ S, G.on q → m.lab r = m.lab q →
    Linked G.near {p | p ∈ S ∧ m.lab p = m.lab q} q r

omit [DecidableEq α] in
theorem Marked.nonzero (h : Marked G S m) {q : α} (hq : q ∈ S) (ha : G.on q) :
    m.lab q ≠ 0 := fun h0 => (h.zero q hq).mp h0 ha

omit [DecidableEq α] in
theorem Marked.on_of_eq (h : Marked G S m) {q r : α} (hq : q ∈ S) (hr : r ∈ S) (ha : G.on q)
    (he : m.lab r = m.lab q) : G.on r := by
  by_contra hn
  exact h.nonzero hq ha (he ▸ (h.zero r hr).mpr hn)

omit [DecidableEq α] in
theorem Marked.empty : Marked G ∅ m := by
  constructor <;> simp

omit [DecidableEq α] in
theorem Scanned.empty : Scanned G ∅ m := by
  constructor <;> simp [Marked.empty]

section visit

variable (h : Marked G S m) (hs : Scanned G S m) (hx : x ∉ S) (hb : ∀ y, G.back x y → y ∈ S)
  (v : Visit G limit S x m m')

include h hb v in
theorem Visit.zero : ∀ q ∈ insert x S, m'.lab q = 0 ↔ ¬G.on q := by
  intro q hq
  rcases Finset.mem_insert.mp hq with rfl | hq
  · cases v with
    | idle off _ lab => simp [off, lab]
    | fresh l on _ _ pos _ _ lab => simp [on, lab, pos]
    | join y on _ back _ _ lab => simp [on, lab, h.nonzero (hb y back) (G.back_on _ _ back)]
  · rw [v.keep q hq]
    exact h.zero q hq

/-- A visit leaves a visited label's link alone or points it at the label taken. -/
theorem Visit.link_cases (h : Marked G S m) (v : Visit G limit S x m m') {q : α} (hq : q ∈ S)
    (ha : G.on q) :
    m'.link (m.lab q) = m.link (m.lab q) ∨
      ∃ z, G.back x z ∧ m.lab z = m.lab q ∧ m'.lab x < m.lab q ∧
        m'.link (m.lab q) = m'.lab x ∧ G.on x := by
  have hne := h.nonzero hq ha
  cases v with
  | idle _ _ _ link => exact Or.inl (link _ hne)
  | fresh l _ _ _ _ new _ _ _ link => exact Or.inl (link _ hne (new q hq))
  | join y on _ back _ least lab relink link =>
    by_cases hz : ∃ z, G.back x z ∧ m.lab z = m.lab q
    · obtain ⟨z, hz, he⟩ := hz
      by_cases hy : m.lab q = m.lab y
      · exact Or.inl (link _ hne (Or.inl hy))
      · have hl := relink z hz (by rw [he]; exact hy)
        have := least z hz
        rw [he] at hl this
        exact Or.inr ⟨z, hz, he, by omega, by rw [hl, lab], on⟩
    · exact Or.inl (link _ hne (Or.inr (fun z hb he => hz ⟨z, hb, he⟩)))

include h hb v in
theorem Visit.fall : ∀ q ∈ insert x S, G.on q → m'.link (m'.lab q) ≤ m'.lab q := by
  intro q hq ha
  rcases Finset.mem_insert.mp hq with rfl | hq
  · cases v with
    | idle off => exact absurd ha off
    | fresh l _ _ _ _ _ _ lab self => rw [lab, self]
    | join y _ _ back _ _ lab _ link =>
      have hy := hb y back
      have hon := G.back_on _ _ back
      rw [lab, link _ (h.nonzero hy hon) (Or.inl rfl)]
      exact h.fall y hy hon
  · rw [v.keep q hq]
    rcases v.link_cases h hq ha with he | ⟨z, _, _, hlt, he, _⟩
    · rw [he]
      exact h.fall q hq ha
    · omega

include hs hb v in
theorem Visit.touch : ∀ q ∈ insert x S, G.on q → m'.link (m'.lab q) ≠ m'.lab q →
    ∃ y ∈ insert x S, ∃ z ∈ insert x S, G.near y z ∧ G.on y ∧ G.on z ∧
      m'.lab y = m'.lab q ∧ m'.lab z = m'.link (m'.lab q) := by
  have old : ∀ q ∈ S, G.on q → m'.link (m.lab q) ≠ m.lab q →
      ∃ y ∈ insert x S, ∃ z ∈ insert x S, G.near y z ∧ G.on y ∧ G.on z ∧
        m'.lab y = m.lab q ∧ m'.lab z = m'.link (m.lab q) := by
    intro q hq ha hne
    rcases v.link_cases hs.toMarked hq ha with he | ⟨z, hz, hl, _, he, hon⟩
    · rw [he] at hne ⊢
      obtain ⟨y, hy, z, hz, hn, hay, haz, hly, hlz⟩ := hs.touch q hq ha hne
      exact ⟨y, by simp [hy], z, by simp [hz], hn, hay, haz, by rw [v.keep y hy, hly],
        by rw [v.keep z hz, hlz]⟩
    · exact ⟨z, by simp [hb z hz], x, by simp, G.near_symm _ _ (G.back_near _ _ hz),
        G.back_on _ _ hz, hon, by rw [v.keep z (hb z hz), hl], he.symm⟩
  intro q hq ha hne
  rcases Finset.mem_insert.mp hq with rfl | hq
  · cases v with
    | idle off => exact absurd ha off
    | fresh l _ _ _ _ _ _ lab self => exact absurd (by rw [lab, self]) hne
    | join y _ _ back _ _ lab =>
      rw [lab] at hne ⊢
      exact old y (hb y back) (G.back_on _ _ back) hne
  · rw [v.keep q hq] at hne ⊢
    exact old q hq ha hne

include hs hb v in
theorem Visit.solid : ∀ q ∈ insert x S, ∀ r ∈ insert x S, G.on q → m'.lab r = m'.lab q →
    Linked G.near {p | p ∈ insert x S ∧ m'.lab p = m'.lab q} q r := by
  have old : ∀ q ∈ S, ∀ r ∈ S, G.on q → m.lab r = m.lab q →
      Linked G.near {p | p ∈ insert x S ∧ m'.lab p = m.lab q} q r := by
    intro q hq r hr ha he
    refine (hs.solid q hq r hr ha he).mono ?_
    rintro p ⟨hp, hl⟩
    exact ⟨by simp [hp], by rw [v.keep p hp, hl]⟩
  -- the new point beside a visited one of its label: through the neighbour it took it from
  have new : ∀ r ∈ S, G.on x → m.lab r = m'.lab x →
      Linked G.near {p | p ∈ insert x S ∧ m'.lab p = m'.lab x} x r := by
    intro r hr ha he
    cases v with
    | idle off => exact absurd ha off
    | fresh l _ _ _ _ new _ lab => exact absurd (he.trans lab) (new r hr)
    | join y _ keep back _ _ lab =>
      have hy := hb y back
      have hstep : Linked G.near {p | p ∈ insert x S ∧ m'.lab p = m'.lab x} x y :=
        Linked.single (G.back_near _ _ back) ⟨by simp, rfl⟩
          ⟨by simp [hy], by rw [keep y hy, lab]⟩
      rw [lab] at hstep he ⊢
      exact hstep.trans (old y hy r hr (G.back_on _ _ back) he)
  intro q hq r hr ha he
  rcases Finset.mem_insert.mp hq with hqx | hqS <;> rcases Finset.mem_insert.mp hr with hrx | hrS
  · rw [hqx, hrx]
    exact Linked.refl
  · subst hqx
    rw [v.keep r hrS] at he
    exact new r hrS ha he
  · subst hrx
    rw [v.keep q hqS] at he ⊢
    have hon : G.on r := by
      by_contra hn
      have h0 := (v.zero hs.toMarked hb r (by simp)).mpr hn
      exact hs.nonzero hqS ha (he ▸ h0)
    rw [← he]
    exact (new q hqS hon he.symm).symm G.near_symm
  · rw [v.keep r hrS, v.keep q hqS] at he
    rw [v.keep q hqS]
    exact old q hqS r hrS ha he

include h hx hb v in
theorem Visit.met : ∀ q ∈ insert x S, G.on q → (m'.link (m'.lab q) ≠ m'.lab q ↔
    ∃ p ∈ insert x S, ∃ y, G.back p y ∧ m'.lab y = m'.lab q ∧ m'.lab p < m'.lab q) := by
  -- a pair met before stays met, and the other way round
  have lift : ∀ l, (∃ p ∈ S, ∃ y, G.back p y ∧ m.lab y = l ∧ m.lab p < l) ↔
      ∃ p ∈ S, ∃ y, G.back p y ∧ m'.lab y = l ∧ m'.lab p < l := by
    intro l
    constructor
    · rintro ⟨p, hp, y, hy, hl, hlt⟩
      exact ⟨p, hp, y, hy, by rw [v.keep y (h.closed p hp y hy), hl],
        by rw [v.keep p hp]; exact hlt⟩
    · rintro ⟨p, hp, y, hy, hl, hlt⟩
      rw [v.keep y (h.closed p hp y hy)] at hl
      rw [v.keep p hp] at hlt
      exact ⟨p, hp, y, hy, hl, hlt⟩
  have old : ∀ q ∈ S, G.on q → (m'.link (m.lab q) ≠ m.lab q ↔
      ∃ p ∈ insert x S, ∃ y, G.back p y ∧ m'.lab y = m.lab q ∧ m'.lab p < m.lab q) := by
    intro q hq ha
    constructor
    · intro hne
      rcases v.link_cases h hq ha with he | ⟨z, hz, hl, hlt, _, _⟩
      · rw [he] at hne
        obtain ⟨p, hp, hr⟩ := (lift _).mp ((h.met q hq ha).mp hne)
        exact ⟨p, by simp [hp], hr⟩
      · exact ⟨x, by simp, z, hz, by rw [v.keep z (hb z hz), hl], hlt⟩
    · rintro ⟨p, hp, y, hy, hl, hlt⟩
      rcases Finset.mem_insert.mp hp with rfl | hp
      · rw [v.keep y (hb y hy)] at hl
        cases v with
        | idle off =>
          exact absurd (G.back_from _ _ hy) off
        | fresh l _ _ _ _ _ above lab => have := above y hy; omega
        | join w _ _ _ _ _ lab relink =>
          have := relink y hy (by omega)
          rw [hl] at this
          omega
      · have hold := (h.met q hq ha).mpr ((lift _).mpr ⟨p, hp, y, hy, hl, hlt⟩)
        rcases v.link_cases h hq ha with he | ⟨z, _, _, hlt', he, _⟩
        · rwa [he]
        · omega
  intro q hq ha
  rcases Finset.mem_insert.mp hq with rfl | hq
  · cases v with
    | idle off => exact absurd ha off
    | fresh l _ keep _ _ new above lab self =>
      refine iff_of_false (by rw [lab, self]; simp) ?_
      rintro ⟨p, hp, y, hy, hl, hlt⟩
      have hyS : y ∈ S := by
        rcases Finset.mem_insert.mp hp with rfl | hp
        · exact hb y hy
        · exact h.closed p hp y hy
      rw [keep y hyS, lab] at hl
      exact new y hyS hl
    | join y _ keep back _ _ lab =>
      rw [lab]
      exact old y (hb y back) (G.back_on _ _ back)
  · rw [v.keep q hq]
    exact old q hq ha

include h hx hb v in
theorem Visit.marked : Marked G (insert x S) m' where
  closed := by
    intro q hq y hy
    rcases Finset.mem_insert.mp hq with rfl | hq
    · exact Finset.mem_insert_of_mem (hb y hy)
    · exact Finset.mem_insert_of_mem (h.closed q hq y hy)
  zero := v.zero h hb
  fall := v.fall h hb
  met := v.met h hx hb

include hs hx hb v in
/-- One visit keeps everything a scan promises. -/
theorem Visit.scanned : Scanned G (insert x S) m' where
  toMarked := v.marked hs.toMarked hx hb
  touch := v.touch hs hb
  solid := v.solid hs hb

end visit

/-- The visited points of one label. -/
def region (S : Finset α) (m : Marks α ρ) (l : Nat) : Finset α :=
  S.filter (fun q => m.lab q = l)

/-- Each label's cell describes the label's points. -/
def Gathered (G : Ground α ρ) (S : Finset α) (m : Marks α ρ) : Prop :=
  ∀ q ∈ S, G.on q → G.describes (m.cell (m.lab q)) (region S m (m.lab q))

theorem region_visit (v : Visit G limit S x m m') (l : Nat) :
    region (insert x S) m' l = if m'.lab x = l then insert x (region S m l) else region S m l := by
  have hS : S.filter (fun q => m'.lab q = l) = S.filter (fun q => m.lab q = l) :=
    Finset.filter_congr (fun q hq => by rw [v.keep q hq])
  simp only [region, Finset.filter_insert, hS]

theorem Visit.gathered (h : Marked G S m) (hg : Gathered G S m) (hx : x ∉ S)
    (hb : ∀ y, G.back x y → y ∈ S) (v : Visit G limit S x m m') :
    Gathered G (insert x S) m' := by
  have hxr : ∀ l, x ∉ region S m l := fun l hm => hx (Finset.mem_filter.mp hm).1
  have old : ∀ q ∈ S, G.on q →
      G.describes (m'.cell (m.lab q)) (region (insert x S) m' (m.lab q)) := by
    intro q hq ha
    have hne := h.nonzero hq ha
    rw [region_visit v]
    cases v with
    | idle off _ lab _ cell =>
      rw [if_neg (by rw [lab]; exact hne.symm)]
      exact cell _ hne _ (hg q hq ha)
    | fresh l _ _ _ _ new _ lab _ _ cell =>
      rw [if_neg (by rw [lab]; exact (new q hq).symm)]
      exact cell _ hne (new q hq) _ (hg q hq ha)
    | join y _ _ back _ _ lab _ _ cell grow =>
      by_cases he : m.lab y = m.lab q
      · rw [if_pos (by rw [lab]; exact he), ← he]
        exact grow _ (hxr _) (hg y (hb y back) (G.back_on _ _ back))
      · rw [if_neg (by rw [lab]; exact he)]
        exact cell _ hne (Ne.symm he) _ (hg q hq ha)
  intro q hq ha
  rcases Finset.mem_insert.mp hq with rfl | hq
  · cases v with
    | idle off => exact absurd ha off
    | fresh l on keep unfound pos new above lab self link cell start =>
      have hr := region_visit (Visit.fresh l on keep unfound pos new above lab self link cell start) l
      have hempty : region S m l = ∅ :=
        Finset.filter_eq_empty_iff.mpr (fun p hp => new p hp)
      rw [lab, hr, if_pos lab, hempty]
      exact start
    | join y _ _ back _ _ lab =>
      rw [lab]
      exact old y (hb y back) (G.back_on _ _ back)
  · rw [v.keep q hq]
    exact old q hq ha

end Labelling
