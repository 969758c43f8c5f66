import Motion.Lib.Labelling

/-! What the links say once the scan is over: two points are one object when
their labels have one root. When that is exactly the connection between the
points depends on one thing only, which labels lead elsewhere. -/

namespace Labelling

variable {α ρ : Type} {G : Ground α ρ} {S : Finset α} {m : Marks α ρ}

/-- The visited points that count. -/
def live (G : Ground α ρ) (S : Finset α) : Set α := {p | p ∈ S ∧ G.on p}

/-- Connected through points that count. -/
abbrev Joined (G : Ground α ρ) (S : Finset α) : α → α → Prop := Linked G.near (live G S)

theorem Joined.symm {a b : α} (h : Joined G S a b) : Joined G S b a :=
  Linked.symm G.near_symm h

/-- Links fall, and neither a label nor a link ties together points that are
not connected. -/
structure Sound (G : Ground α ρ) (S : Finset α) (m : Marks α ρ) : Prop where
  nonzero : ∀ q ∈ live G S, m.lab q ≠ 0
  fall : ∀ q ∈ live G S, m.link (m.lab q) ≤ m.lab q
  joined : ∀ q ∈ live G S, ∀ r ∈ live G S, m.lab q = m.lab r → Joined G S q r
  carried : ∀ q ∈ live G S, ∃ r ∈ live G S, m.lab r = m.link (m.lab q) ∧ Joined G S q r

/-- The labels some counting point carries. -/
def used (G : Ground α ρ) (S : Finset α) (m : Marks α ρ) (l : Nat) : Prop :=
  ∃ q ∈ live G S, m.lab q = l

theorem Scanned.sound (h : Scanned G S m) : Sound G S m where
  nonzero := fun q hq => h.nonzero hq.1 hq.2
  fall := fun q hq => h.fall q hq.1 hq.2
  joined := by
    intro q hq r hr he
    refine (h.solid q hq.1 r hr.1 hq.2 he.symm).mono ?_
    rintro p ⟨hp, hl⟩
    exact ⟨hp, h.on_of_eq hq.1 hp hq.2 hl⟩
  carried := by
    intro q hq
    by_cases hne : m.link (m.lab q) = m.lab q
    · exact ⟨q, hq, hne.symm, Linked.refl⟩
    · obtain ⟨y, hy, z, hz, hn, hay, haz, hly, hlz⟩ := h.touch q hq.1 hq.2 hne
      refine ⟨z, ⟨hz, haz⟩, hlz, ?_⟩
      have hqy : Joined G S q y := by
        refine (h.solid q hq.1 y hy hq.2 hly).mono ?_
        rintro p ⟨hp, hl⟩
        exact ⟨hp, h.on_of_eq hq.1 hp hq.2 hl⟩
      exact hqy.trans (Linked.single hn ⟨hy, hay⟩ ⟨hz, haz⟩)

namespace Sound

variable (h : Sound G S m)

include h

theorem falls : Links.Falls (used G S m) m.link := by
  rintro l ⟨q, hq, rfl⟩
  obtain ⟨r, hr, hl, _⟩ := h.carried q hq
  exact ⟨⟨r, hr, hl⟩, h.fall q hq⟩

/-- A root is carried by a point connected to the point it is the root of. -/
theorem root_carried {q : α} (hq : q ∈ live G S) :
    ∃ r ∈ live G S, m.lab r = Links.root m.link (m.lab q) ∧ Joined G S q r := by
  refine Links.root_carries (P := fun l => ∃ r ∈ live G S, m.lab r = l ∧ Joined G S q r)
    h.falls ?_ ⟨q, hq, rfl⟩ ⟨q, hq, rfl, Linked.refl⟩
  rintro l - ⟨r, hr, rfl, hj⟩
  obtain ⟨t, ht, hl, hj'⟩ := h.carried r hr
  exact ⟨t, ht, hl, hj.trans hj'⟩

/-- One root, one object. -/
theorem joined_of_root {q r : α} (hq : q ∈ live G S) (hr : r ∈ live G S)
    (he : Links.root m.link (m.lab q) = Links.root m.link (m.lab r)) : Joined G S q r := by
  obtain ⟨q', hq', hl, hj⟩ := h.root_carried hq
  obtain ⟨r', hr', hl', hj'⟩ := h.root_carried hr
  exact (hj.trans (h.joined q' hq' r' hr' (by rw [hl, hl', he]))).trans hj'.symm

/-- If every label that is not its object's least leads elsewhere, then the
root of a label is its object's least label. -/
theorem root_least
    (hmet : ∀ q ∈ live G S, (∃ r ∈ live G S, Joined G S q r ∧ m.lab r < m.lab q) →
      m.link (m.lab q) ≠ m.lab q)
    {q r : α} (hq : q ∈ live G S) (hr : r ∈ live G S) (hj : Joined G S q r) :
    Links.root m.link (m.lab q) ≤ m.lab r := by
  obtain ⟨t, ht, hl, hjt⟩ := h.root_carried hq
  by_contra hlt
  have hfix := Links.root_fixed h.falls ⟨q, hq, rfl⟩
  rw [← hl] at hfix hlt
  exact hmet t ht ⟨r, hr, hjt.symm.trans hj, by omega⟩ hfix

/-- Roots tell objects apart exactly when every label that is not its object's
least leads elsewhere: which elsewhere does not matter. -/
theorem complete_iff :
    (∀ q ∈ live G S, ∀ r ∈ live G S, G.near q r →
      Links.root m.link (m.lab q) = Links.root m.link (m.lab r)) ↔
    ∀ q ∈ live G S, (∃ r ∈ live G S, Joined G S q r ∧ m.lab r < m.lab q) →
      m.link (m.lab q) ≠ m.lab q := by
  constructor
  · rintro hc q hq ⟨r, hr, hj, hlt⟩ hself
    have he : ∀ t, Joined G S q t → Links.root m.link (m.lab q) = Links.root m.link (m.lab t) := by
      intro t hj
      induction hj with
      | refl => rfl
      | tail _ hs ih => exact ih.trans (hc _ hs.2.1 _ hs.2.2 hs.1)
    have := Links.root_le m.link (m.lab r)
    rw [← he r hj, Links.root_self hself] at this
    omega
  · intro hmet q hq r hr hn
    have hj : Joined G S q r := Linked.single hn hq hr
    obtain ⟨q', hq', hl, hj'⟩ := h.root_carried hq
    obtain ⟨r', hr', hl', hjr⟩ := h.root_carried hr
    have h1 := h.root_least hmet hq hr' (hj.trans hjr)
    have h2 := h.root_least hmet hr hq' (hj.symm.trans hj')
    omega

/-- In that case one root and one object are the same thing. -/
theorem root_iff
    (hmet : ∀ q ∈ live G S, (∃ r ∈ live G S, Joined G S q r ∧ m.lab r < m.lab q) →
      m.link (m.lab q) ≠ m.lab q)
    {q r : α} (hq : q ∈ live G S) (hr : r ∈ live G S) :
    Links.root m.link (m.lab q) = Links.root m.link (m.lab r) ↔ Joined G S q r := by
  refine ⟨h.joined_of_root hq hr, fun hj => ?_⟩
  obtain ⟨q', hq', hl, hj'⟩ := h.root_carried hq
  obtain ⟨r', hr', hl', hjr⟩ := h.root_carried hr
  have h1 := h.root_least hmet hq hr' (hj.trans hjr)
  have h2 := h.root_least hmet hr hq' (hj.symm.trans hj')
  omega

/-- Links may be changed to any connected label that is no higher. -/
theorem relink {m' : Marks α ρ} (lab : ∀ q ∈ S, m'.lab q = m.lab q)
    (link : ∀ q ∈ live G S, m'.link (m.lab q) = m.link (m.lab q) ∨
      ∃ a ∈ live G S, m.lab a = m'.link (m.lab q) ∧ Joined G S q a ∧ m.lab a ≤ m.lab q) :
    Sound G S m' where
  nonzero := by
    intro q hq
    rw [lab q hq.1]
    exact h.nonzero q hq
  fall := by
    intro q hq
    rw [lab q hq.1]
    rcases link q hq with he | ⟨a, _, he, _, hle⟩
    · rw [he]
      exact h.fall q hq
    · rwa [← he]
  joined := by
    intro q hq r hr he
    rw [lab q hq.1, lab r hr.1] at he
    exact h.joined q hq r hr he
  carried := by
    intro q hq
    rw [lab q hq.1]
    rcases link q hq with he | ⟨a, ha, he, hj, _⟩
    · obtain ⟨r, hr, hl, hj⟩ := h.carried q hq
      exact ⟨r, hr, by rw [lab r hr.1, he, hl], hj⟩
    · exact ⟨a, ha, by rw [lab a ha.1, he], hj⟩

end Sound

/-- Following the links to the root of a label, one never leaves the points
with that root. -/
theorem Scanned.root_linked (h : Scanned G S m) {q : α} (hq : q ∈ live G S) :
    ∃ r ∈ live G S, m.lab r = Links.root m.link (m.lab q) ∧
      Linked G.near {p | p ∈ live G S ∧
        Links.root m.link (m.lab p) = Links.root m.link (m.lab q)} q r := by
  generalize hT : {p | p ∈ live G S ∧
    Links.root m.link (m.lab p) = Links.root m.link (m.lab q)} = T
  have hmem : ∀ p, p ∈ live G S → Links.root m.link (m.lab p) = Links.root m.link (m.lab q) →
      p ∈ T := by
    intro p hp he
    rw [← hT]
    exact ⟨hp, he⟩
  have hpath := Links.root_carries (i := m.lab q)
    (P := fun l => ∃ r ∈ live G S, m.lab r = l ∧
      Links.root m.link l = Links.root m.link (m.lab q) ∧ Linked G.near T q r)
    h.sound.falls (by
      rintro l - ⟨r, hr, rfl, hroot, hj⟩
      have hup := Links.root_link (h.fall r hr.1 hr.2)
      by_cases hne : m.link (m.lab r) = m.lab r
      · exact ⟨r, hr, hne.symm, hup ▸ hroot, hj⟩
      · obtain ⟨y, hy, z, hz, hn, hay, haz, hly, hlz⟩ := h.touch r hr.1 hr.2 hne
        have hyT : y ∈ T := hmem y ⟨hy, hay⟩ (by rw [hly, hroot])
        have hzT : z ∈ T := hmem z ⟨hz, haz⟩ (by rw [hlz, ← hup, hroot])
        have hry : Linked G.near T r y := by
          refine (h.solid r hr.1 y hy hr.2 hly).mono ?_
          rintro p ⟨hp, hl⟩
          exact hmem p ⟨hp, h.on_of_eq hr.1 hp hr.2 hl⟩ (by rw [hl, hroot])
        exact ⟨z, ⟨hz, haz⟩, hlz, hup ▸ hroot, (hj.trans hry).trans (Linked.single hn hyT hzT)⟩)
    ⟨q, hq, rfl⟩ ⟨q, hq, rfl, rfl, Linked.refl⟩
  obtain ⟨r, hr, hl, _, hj⟩ := hpath
  exact ⟨r, hr, hl, hj⟩

/-- Points with one root are joined by points with that root. -/
theorem Scanned.linked_of_root (h : Scanned G S m) {q r : α} (hq : q ∈ live G S)
    (hr : r ∈ live G S) (he : Links.root m.link (m.lab q) = Links.root m.link (m.lab r)) :
    Linked G.near {p | p ∈ live G S ∧
      Links.root m.link (m.lab p) = Links.root m.link (m.lab q)} q r := by
  obtain ⟨q', hq', hlq, hjq⟩ := h.root_linked hq
  obtain ⟨r', hr', hlr, hjr⟩ := h.root_linked hr
  rw [← he] at hlr hjr
  have hmid : Linked G.near {p | p ∈ live G S ∧
      Links.root m.link (m.lab p) = Links.root m.link (m.lab q)} q' r' := by
    refine (h.solid q' hq'.1 r' hr'.1 hq'.2 (hlr.trans hlq.symm)).mono ?_
    rintro p ⟨hp, hl⟩
    refine ⟨⟨hp, h.on_of_eq hq'.1 hp hq'.2 hl⟩, ?_⟩
    rw [hl, hlq]
    exact Links.root_self (Links.root_fixed h.sound.falls ⟨q, hq, rfl⟩)
  exact (hjq.trans hmid).trans (hjr.symm G.near_symm)

section visit

variable [DecidableEq α] {limit : Nat} {x : α} {m' : Marks α ρ}

omit [DecidableEq α] in
theorem Joined.grow {T : Finset α} (hsub : S ⊆ T) {q r : α} (h : Joined G S q r) :
    Joined G T q r :=
  h.mono (fun _ hp => ⟨hsub hp.1, hp.2⟩)

/-- One visit keeps the links sound, without a word on what they were before. -/
theorem Visit.sound (h : Marked G S m) (hs : Sound G S m) (hx : x ∉ S)
    (hb : ∀ y, G.back x y → y ∈ S) (v : Visit G limit S x m m') : Sound G (insert x S) m' := by
  have hm := v.marked h hx hb
  have grow : ∀ {q r}, Joined G S q r → Joined G (insert x S) q r :=
    fun hj => hj.grow (Finset.subset_insert x S)
  have lift : ∀ {q}, q ∈ live G S → q ∈ live G (insert x S) :=
    fun hq => ⟨Finset.mem_insert_of_mem hq.1, hq.2⟩
  have split : ∀ q ∈ live G (insert x S), q = x ∧ G.on x ∨ q ∈ live G S := by
    rintro q ⟨hq, ha⟩
    rcases Finset.mem_insert.mp hq with rfl | hq
    · exact Or.inl ⟨rfl, ha⟩
    · exact Or.inr ⟨hq, ha⟩
  have beside : ∀ y, G.back x y → y ∈ live G S ∧ Joined G (insert x S) x y := by
    intro y hy
    have hyl : y ∈ live G S := ⟨hb y hy, G.back_on _ _ hy⟩
    exact ⟨hyl, Linked.single (G.back_near _ _ hy) ⟨by simp, G.back_from _ _ hy⟩ (lift hyl)⟩
  -- a new point of a label joins the visited ones through the neighbour it took it from
  have new : G.on x → ∀ r ∈ live G S, m.lab r = m'.lab x → Joined G (insert x S) x r := by
    intro hon r hr he
    cases v with
    | idle off => exact absurd hon off
    | fresh l _ _ _ _ new _ lab => exact absurd (he.trans lab) (new r hr.1)
    | join y _ _ back _ _ lab =>
      obtain ⟨hy, hj⟩ := beside y back
      exact hj.trans (grow (hs.joined y hy r hr (by rw [he, lab])))
  have old : ∀ q ∈ live G S, ∃ r ∈ live G (insert x S), m'.lab r = m'.link (m.lab q) ∧
      Joined G (insert x S) q r := by
    intro q hq
    rcases v.link_cases h hq.1 hq.2 with he | ⟨z, hz, hl, _, he, hon⟩
    · obtain ⟨r, hr, hl, hj⟩ := hs.carried q hq
      exact ⟨r, lift hr, by rw [v.keep r hr.1, he, hl], grow hj⟩
    · obtain ⟨hzl, hj⟩ := beside z hz
      exact ⟨x, ⟨by simp, hon⟩, he.symm, (grow (hs.joined q hq z hzl hl.symm)).trans hj.symm⟩
  constructor
  · intro q hq
    exact hm.nonzero hq.1 hq.2
  · intro q hq
    exact hm.fall q hq.1 hq.2
  · intro q hq r hr he
    rcases split q hq with ⟨rfl, hon⟩ | hq' <;> rcases split r hr with ⟨hrx, hon'⟩ | hr'
    · rw [hrx]
      exact Linked.refl
    · exact new hon r hr' (by rw [← v.keep r hr'.1, he])
    · rw [hrx] at he ⊢
      exact (new hon' q hq' (by rw [← v.keep q hq'.1, he])).symm
    · rw [v.keep q hq'.1, v.keep r hr'.1] at he
      exact grow (hs.joined q hq' r hr' he)
  · intro q hq
    rcases split q hq with ⟨rfl, hon⟩ | hq'
    · cases v with
      | idle off => exact absurd hon off
      | fresh l _ _ _ _ _ _ lab self => exact ⟨q, hq, by rw [lab, self], Linked.refl⟩
      | join y _ _ back _ _ lab =>
        obtain ⟨hy, hj⟩ := beside y back
        obtain ⟨r, hr, hl, hj'⟩ := old y hy
        exact ⟨r, hr, by rw [hl, lab], hj.trans hj'⟩
    · rw [v.keep q hq'.1]
      exact old q hq'

end visit

/-- A link that is followed once more leads elsewhere exactly when it did before. -/
theorem Marked.shorten {m' : Marks α ρ} (h : Marked G S m) (hs : Sound G S m)
    (lab : ∀ q ∈ S, m'.lab q = m.lab q)
    (link : ∀ q ∈ live G S, m'.link (m.lab q) = m.link (m.lab q) ∨
      m'.link (m.lab q) = m.link (m.link (m.lab q))) : Marked G S m' := by
  have hstep : ∀ q ∈ live G S, m'.link (m.lab q) ≤ m.link (m.lab q) ∧
      (m.link (m.lab q) = m.lab q → m'.link (m.lab q) = m.lab q) := by
    intro q hq
    rcases link q hq with he | he
    · rw [he]
      exact ⟨Nat.le_refl _, fun h => h⟩
    · obtain ⟨r, hr, hl, _⟩ := hs.carried q hq
      have hle := hs.fall r hr
      rw [hl] at hle
      rw [he]
      exact ⟨hle, fun hself => by rw [hself, hself]⟩
  constructor
  · exact h.closed
  · intro q hq
    rw [lab q hq]
    exact h.zero q hq
  · intro q hq ha
    rw [lab q hq]
    exact Nat.le_trans (hstep q ⟨hq, ha⟩).1 (h.fall q hq ha)
  · intro q hq ha
    have hmet : (∃ x ∈ S, ∃ y, G.back x y ∧ m'.lab y = m'.lab q ∧ m'.lab x < m'.lab q) ↔
        ∃ x ∈ S, ∃ y, G.back x y ∧ m.lab y = m.lab q ∧ m.lab x < m.lab q := by
      rw [lab q hq]
      constructor
      · rintro ⟨x, hx, y, hy, hl, hlt⟩
        rw [lab y (h.closed x hx y hy)] at hl
        rw [lab x hx] at hlt
        exact ⟨x, hx, y, hy, hl, hlt⟩
      · rintro ⟨x, hx, y, hy, hl, hlt⟩
        exact ⟨x, hx, y, hy, by rw [lab y (h.closed x hx y hy), hl], by rwa [lab x hx]⟩
    rw [hmet, ← h.met q hq ha, lab q hq]
    have hle := hstep q ⟨hq, ha⟩
    have hfall := h.fall q hq ha
    constructor
    · exact fun hne he => hne (hle.2 he)
    · intro hne he
      omega

/-- Following a link once more keeps it sound. -/
theorem Sound.shorten {m' : Marks α ρ} (h : Sound G S m) (lab : ∀ q ∈ S, m'.lab q = m.lab q)
    (link : ∀ q ∈ live G S, m'.link (m.lab q) = m.link (m.lab q) ∨
      m'.link (m.lab q) = m.link (m.link (m.lab q))) : Sound G S m' := by
  refine h.relink lab ?_
  intro q hq
  rcases link q hq with he | he
  · exact Or.inl he
  · obtain ⟨r, hr, hl, hj⟩ := h.carried q hq
    obtain ⟨a, ha, hla, hja⟩ := h.carried r hr
    have h1 := h.fall q hq
    have h2 := h.fall r hr
    exact Or.inr ⟨a, ha, by rw [hla, he, hl], hj.trans hja, by omega⟩

end Labelling
