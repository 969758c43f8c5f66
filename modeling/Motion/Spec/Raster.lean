import Motion.Code.Blob
import Motion.Lib.Fold

namespace Motion

/-- `p` comes before `q` in a row-by-row scan. -/
def Before (p q : Pixel) : Prop := p.1 < q.1 ∨ p.1 = q.1 ∧ p.2 < q.2

theorem mem_upto {a b i : Nat} : i ∈ upto a b ↔ a ≤ i ∧ i < b := by
  simp only [upto, List.mem_range'_1]
  omega

theorem mem_raster {rows cols : List Nat} {p : Pixel} :
    p ∈ raster rows cols ↔ p.1 ∈ rows ∧ p.2 ∈ cols := by
  obtain ⟨r, c⟩ := p
  simp [raster]

theorem upto_sorted (a b : Nat) : (upto a b).Pairwise (· < ·) :=
  List.pairwise_lt_range'

@[simp] theorem upto_self (a : Nat) : upto a a = [] := by simp [upto]

/-- One turn of a counting loop, and the turns before and after it. -/
theorem upto_split {a b c : Nat} (h : a ≤ b) (h' : b < c) :
    upto a c = upto a b ++ b :: upto (b + 1) c := by
  unfold upto
  have hb : b = a + 1 * (b - a) := by omega
  have hc : c - b = (c - (b + 1)) + 1 := by omega
  have hsum : c - a = (b - a) + (c - b) := by omega
  rw [hsum, ← List.range'_append, ← hb, hc, List.range'_succ]

/-- Sorted rows and columns make a scan in raster order. -/
theorem raster_sorted {rows cols : List Nat} (hr : rows.Pairwise (· < ·))
    (hc : cols.Pairwise (· < ·)) : (raster rows cols).Pairwise Before := by
  induction rows with
  | nil => simp [raster]
  | cons r rows ih =>
    rw [List.pairwise_cons] at hr
    change (cols.map (fun col => (r, col)) ++ raster rows cols).Pairwise Before
    rw [List.pairwise_append]
    refine ⟨?_, ih hr.2, ?_⟩
    · rw [List.pairwise_map]
      exact hc.imp (fun h => Or.inr ⟨rfl, h⟩)
    · intro p hp q hq
      obtain ⟨c, _, rfl⟩ := List.mem_map.mp hp
      exact Or.inl (hr.1 _ (mem_raster.mp hq).1)

theorem Before.irrefl (p : Pixel) : ¬Before p p := by
  intro h
  rcases h with h | h <;> omega

theorem Before.asymm {p q : Pixel} (h : Before p q) : ¬Before q p := by
  simp only [Before] at h ⊢
  omega

/-- In a raster scan the visited pixels are the ones before the current one. -/
theorem mem_prefix_iff {l pre post : List Pixel} {x q : Pixel} (hs : l.Pairwise Before)
    (hl : l = pre ++ x :: post) (hq : q ∈ l) : q ∈ pre ↔ Before q x := by
  rw [hl, List.pairwise_append, List.pairwise_cons] at hs
  obtain ⟨_, ⟨hpost, _⟩, hpre⟩ := hs
  constructor
  · intro hm
    exact hpre q hm x (by simp)
  · intro hb
    rw [hl] at hq
    rcases List.mem_append.mp hq with hq | hq
    · exact hq
    · rcases List.mem_cons.mp hq with rfl | hq
      · exact absurd hb (Before.irrefl q)
      · exact absurd hb (hpost q hq).asymm

theorem not_mem_prefix {l pre post : List Pixel} {x : Pixel} (hs : l.Pairwise Before)
    (hl : l = pre ++ x :: post) : x ∉ pre := by
  intro hm
  exact Before.irrefl x ((mem_prefix_iff hs hl (by simp [hl])).mp hm)

theorem interior_sorted (width height : Nat) : (interior width height).Pairwise Before :=
  raster_sorted (upto_sorted _ _) (upto_sorted _ _)

/-- Off the border of the frame. -/
def Inside (width height : Nat) (p : Pixel) : Prop :=
  1 ≤ p.1 ∧ p.1 + 1 < height ∧ 1 ≤ p.2 ∧ p.2 + 1 < width

theorem mem_interior {width height : Nat} {p : Pixel} :
    p ∈ interior width height ↔ Inside width height p := by
  simp only [interior, mem_raster, mem_upto, Inside]
  omega

theorem idx_div {width : Nat} {p : Pixel} (hc : p.2 < width) : idx width p / width = p.1 := by
  unfold idx
  rw [Nat.mul_comm, Nat.mul_add_div (by omega), Nat.div_eq_of_lt hc, Nat.add_zero]

theorem idx_mod {width : Nat} {p : Pixel} (hc : p.2 < width) : idx width p % width = p.2 := by
  unfold idx
  rw [Nat.mul_add_mod', Nat.mod_eq_of_lt hc]

/-- Two pixels of the frame have different indices. -/
theorem idx_inj {width : Nat} {p q : Pixel} (hp : p.2 < width) (hq : q.2 < width)
    (h : idx width p = idx width q) : p = q := by
  simp only [idx] at h
  have hc : p.2 = q.2 := by
    have h1 := congrArg (· % width) h
    simpa [Nat.mod_eq_of_lt hp, Nat.mod_eq_of_lt hq] using h1
  have hr : p.1 = q.1 := by
    rw [hc] at h
    exact Nat.eq_of_mul_eq_mul_right (by omega) (Nat.add_right_cancel h)
  exact Prod.ext hr hc

/-- The scan order is the order of the indices. -/
theorem before_iff_idx {width : Nat} {p q : Pixel} (hp : p.2 < width) (hq : q.2 < width) :
    Before p q ↔ idx width p < idx width q := by
  have key : ∀ a b : Pixel, a.2 < width → Before a b → idx width a < idx width b := by
    rintro ⟨a1, a2⟩ ⟨b1, b2⟩ ha h
    simp only [Before, idx] at *
    rcases h with h | ⟨rfl, h⟩
    · have : (a1 + 1) * width ≤ b1 * width := Nat.mul_le_mul_right _ h
      rw [Nat.add_mul] at this
      omega
    · omega
  refine ⟨key p q hp, fun h => ?_⟩
  by_contra hn
  have hor : Before q p ∨ q = p := by
    by_cases he : q = p
    · exact Or.inr he
    · have : ¬(q.1 = p.1 ∧ q.2 = p.2) := fun hh => he (Prod.ext hh.1 hh.2)
      simp only [Before] at hn ⊢
      omega
  rcases hor with hb | rfl
  · have := key q p hq hb
    omega
  · omega

/-- A border kept at zero, the state the detectors rely on. -/
def BorderZero (width height : Nat) (output : Buf Nat) : Prop :=
  ∀ p : Pixel, p.1 < height → p.2 < width → ¬Inside width height p → output (idx width p) = 0

theorem BorderZero.all (width height : Nat) : BorderZero width height (Buf.all 0) :=
  fun _ _ _ _ => rfl

end Motion
