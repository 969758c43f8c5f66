import Mathlib

namespace Fold

/-- A property of the visited prefix and the state, kept by each visit, holds
when the loop ends. The visit may use which prefix comes before it. -/
theorem prefix_induction {P : List α → β → Prop} {f : β → α → β} (l : List α) (b : β)
    (start : P [] b)
    (step : ∀ pre x post s, l = pre ++ x :: post → P pre s → P (pre ++ [x]) (f s x)) :
    P l (l.foldl f b) := by
  suffices h : ∀ post pre s, l = pre ++ post → P pre s → P l (post.foldl f s) from
    h l [] b rfl start
  intro post
  induction post with
  | nil => intro pre s hl hp; simpa [hl] using hp
  | cons x post ih =>
    intro pre s hl hp
    exact ih (pre ++ [x]) (f s x) (by simp [hl]) (step pre x post s hl hp)

/-- The same for a loop that may stop with nothing. -/
theorem prefix_induction_option {P : List α → β → Prop} {f : β → α → Option β} (l : List α)
    (b r : β) (start : P [] b)
    (step : ∀ pre x post s s', l = pre ++ x :: post → P pre s → f s x = some s' →
      P (pre ++ [x]) s')
    (run : l.foldlM f b = some r) : P l r := by
  suffices h : ∀ post pre s, l = pre ++ post → P pre s → post.foldlM f s = some r → P l r from
    h l [] b rfl start run
  intro post
  induction post with
  | nil =>
    intro pre s hl hp hr
    simp only [List.foldlM_nil, Option.pure_def, Option.some.injEq] at hr
    subst hr
    simpa [hl] using hp
  | cons x post ih =>
    intro pre s hl hp hr
    rw [List.foldlM_cons] at hr
    cases hx : f s x with
    | none => simp [hx] at hr
    | some s' =>
      rw [hx] at hr
      exact ih (pre ++ [x]) s' (by simp [hl]) (step pre x post s s' hl hp hx) hr

/-- A visit may also use how the loop came to it. -/
theorem prefix_induction_run {P : List α → β → Prop} {f : β → α → Option β} (l : List α)
    (b r : β) (start : P [] b)
    (step : ∀ pre x post s s', l = pre ++ x :: post → pre.foldlM f b = some s → P pre s →
      f s x = some s' → P (pre ++ [x]) s')
    (run : l.foldlM f b = some r) : P l r := by
  have h := prefix_induction_option (P := fun pre s => pre.foldlM f b = some s ∧ P pre s) l b r
    ⟨rfl, start⟩ (by
      rintro pre x post s s' hl ⟨hpre, hp⟩ hx
      refine ⟨?_, step pre x post s s' hl hpre hp hx⟩
      rw [List.foldlM_append, hpre]
      simpa using hx) run
  exact h.2

/-- It does not stop if no visit does, after the visits before it. -/
theorem option_isSome {f : β → α → Option β} (l : List α) (b : β)
    (step : ∀ pre x post s, l = pre ++ x :: post → pre.foldlM f b = some s → (f s x).isSome) :
    (l.foldlM f b).isSome := by
  induction l using List.reverseRecOn with
  | nil => rfl
  | append_singleton l x ih =>
    have hl := ih (fun pre y post s hl hs => step pre y (post ++ [x]) s (by simp [hl]) hs)
    obtain ⟨s, hs⟩ := Option.isSome_iff_exists.mp hl
    obtain ⟨s', hs'⟩ := Option.isSome_iff_exists.mp (step l x [] s rfl hs)
    simp [List.foldlM_append, hs, hs']

/-- Two such loops whose visits do the same end the same. -/
theorem option_congr {f g : β → α → Option β} (l : List α) (b : β)
    (h : ∀ x ∈ l, ∀ s, f s x = g s x) : l.foldlM f b = l.foldlM g b := by
  induction l generalizing b with
  | nil => rfl
  | cons x l ih =>
    rw [List.foldlM_cons, List.foldlM_cons, h x (by simp) b]
    exact bind_congr (fun s => ih s (fun y hy => h y (by simp [hy])))

/-- A loop that stops at the visits a test refuses goes through where it refuses none. -/
theorem option_guard (P : α → Prop) [DecidablePred P] (f : β → α → β) (l : List α) (b r : β) :
    l.foldlM (fun b x => if P x then some (f b x) else none) b = some r ↔
      (∀ x ∈ l, P x) ∧ l.foldl f b = r := by
  induction l generalizing b with
  | nil => simp
  | cons x l ih =>
    rw [List.foldlM_cons]
    by_cases hx : P x
    · simp [hx, ih]
    · simp [hx]

/-- A property every visit keeps, wherever it happens. -/
theorem invariant {P : β → Prop} {f : β → α → β} (l : List α) (b : β) (start : P b)
    (step : ∀ x ∈ l, ∀ s, P s → P (f s x)) : P (l.foldl f b) :=
  prefix_induction (P := fun _ s => P s) l b start
    (fun pre x post s hl hs => step x (by simp [hl]) s hs)

/-- Two loops over the same visits stay related, each visit using which prefix
comes before it. -/
theorem prefix_related {R : List α → β → γ → Prop} {f : β → α → β} {g : γ → α → γ}
    (l : List α) (b : β) (c : γ) (start : R [] b c)
    (step : ∀ pre x post s t, l = pre ++ x :: post → R pre s t → R (pre ++ [x]) (f s x) (g t x)) :
    R l (l.foldl f b) (l.foldl g c) := by
  have h := prefix_induction (P := fun pre (st : β × γ) => R pre st.1 st.2)
    (f := fun st x => (f st.1 x, g st.2 x)) l (b, c) start
    (fun pre x post st hl hr => step pre x post st.1 st.2 hl hr)
  have hpair : l.foldl (fun (st : β × γ) x => (f st.1 x, g st.2 x)) (b, c) =
      (l.foldl f b, l.foldl g c) := by
    clear h start step
    induction l generalizing b c with
    | nil => rfl
    | cons x l ih => exact ih (f b x) (g c x)
  rwa [hpair] at h

/-- And two that may stop, if they stop at the same visit. -/
theorem prefix_related_option {R : List α → β → γ → Prop} {f : β → α → Option β}
    {g : γ → α → Option γ} (l : List α) (b : β) (c : γ) (start : R [] b c)
    (step : ∀ pre x post s t, l = pre ++ x :: post → R pre s t →
      (f s x = none ∧ g t x = none) ∨
        ∃ s' t', f s x = some s' ∧ g t x = some t' ∧ R (pre ++ [x]) s' t') :
    (l.foldlM f b = none ∧ l.foldlM g c = none) ∨
      ∃ s t, l.foldlM f b = some s ∧ l.foldlM g c = some t ∧ R l s t := by
  induction l using List.reverseRecOn with
  | nil => exact Or.inr ⟨b, c, rfl, rfl, start⟩
  | append_singleton l x ih =>
    have hl := ih (fun pre y post s t hl hr =>
      step pre y (post ++ [x]) s t (by simp [hl]) hr)
    rw [List.foldlM_append, List.foldlM_append]
    cases hl with
    | inl hstop =>
      left
      rw [hstop.1, hstop.2]
      exact ⟨rfl, rfl⟩
    | inr hgo =>
      obtain ⟨s, t, hs, ht, hr⟩ := hgo
      rw [hs, ht]
      simpa using step l x [] s t rfl hr

/-- The same where the prefix does not matter. -/
theorem related {R : β → γ → Prop} {f : β → α → β} {g : γ → α → γ} (l : List α) (b : β) (c : γ)
    (start : R b c) (step : ∀ x ∈ l, ∀ s t, R s t → R (f s x) (g t x)) :
    R (l.foldl f b) (l.foldl g c) :=
  prefix_related (R := fun _ s t => R s t) l b c start
    (fun pre x post s t hl hr => step x (by simp [hl]) s t hr)

/-- Visits that do nothing may be left out. -/
theorem skip {I : β → Prop} {f : β → α → β} (P : α → Prop) [DecidablePred P] (l : List α) (b : β)
    (start : I b) (keep : ∀ x ∈ l, ∀ s, I s → I (f s x))
    (idle : ∀ x ∈ l, ¬P x → ∀ s, I s → f s x = s) :
    l.foldl f b = (l.filter P).foldl f b := by
  induction l generalizing b with
  | nil => rfl
  | cons x l ih =>
    have hrest : ∀ b, I b → l.foldl f b = (l.filter P).foldl f b := fun b hb =>
      ih b hb (fun y hy => keep y (by simp [hy])) (fun y hy => idle y (by simp [hy]))
    by_cases hx : P x
    · rw [List.filter_cons_of_pos (by simpa using hx), List.foldl_cons, List.foldl_cons]
      exact hrest _ (keep x (by simp) b start)
    · rw [List.filter_cons_of_neg (by simpa using hx), List.foldl_cons,
        idle x (by simp) hx b start]
      exact hrest b start

/-- Where no visit of a loop writes, what was there stays. -/
theorem keeps {f : σ → α → σ} {g : σ → γ} (l : List α) (s : σ)
    (keep : ∀ x ∈ l, ∀ s, g (f s x) = g s) : g (l.foldl f s) = g s :=
  invariant (P := fun t => g t = g s) l s rfl (fun x hx t ht => (keep x hx t).trans ht)

/-- Where the visits that write all write one value, one such visit settles it. -/
theorem settles {f : σ → α → σ} {g : σ → γ} {v : γ} {P : α → Prop} (l : List α) (s : σ)
    (write : ∀ x ∈ l, P x → ∀ s, g (f s x) = v)
    (keep : ∀ x ∈ l, ¬P x → ∀ s, g (f s x) = g s) (some : ∃ x ∈ l, P x) :
    g (l.foldl f s) = v := by
  have h := prefix_induction (P := fun pre t => (∃ x ∈ pre, P x) → g t = v) (f := f) l s
    (by simp) (by
      rintro pre x post t hl ih ⟨y, hy, hh⟩
      have hx : x ∈ l := by simp [hl]
      by_cases hhx : P x
      · exact write x hx hhx t
      · rw [keep x hx hhx t]
        rcases List.mem_append.mp hy with hy | hy
        · exact ih ⟨y, hy, hh⟩
        · exact absurd (List.mem_singleton.mp hy ▸ hh) hhx)
  exact h some

/-- Where each visit writes its own value or leaves what is there, the order of the visits
matters exactly when two of them write different values. -/
theorem order_free_iff [DecidableEq α] (l : List α) (write : α → Option β) (b : β) :
    (∀ s t : List α, s.Perm l → t.Perm l →
      s.foldl (fun b x => (write x).getD b) b = t.foldl (fun b x => (write x).getD b) b) ↔
    ∀ x ∈ l, ∀ y ∈ l, ∀ u v, write x = some u → write y = some v → u = v := by
  constructor
  · intro hall x hx y hy u v hu hv
    by_cases he : y = x
    · rw [he, hu] at hv
      exact Option.some.inj hv
    · -- let the two come last, in either order
      have hxy : l.Perm ((l.erase x).erase y ++ [y, x]) := by
        have hy' : y ∈ l.erase x := (List.mem_erase_of_ne he).mpr hy
        have htwo : l.Perm (x :: y :: (l.erase x).erase y) :=
          (List.perm_cons_erase hx).trans ((List.perm_cons_erase hy').cons x)
        have hcomm : ([y, x] ++ (l.erase x).erase y).Perm ((l.erase x).erase y ++ [y, x]) :=
          List.perm_append_comm
        exact (htwo.trans (List.Perm.swap y x _)).trans hcomm
      have hyx : l.Perm ((l.erase x).erase y ++ [x, y]) :=
        hxy.trans ((List.Perm.swap x y []).append_left _)
      have hlast := hall _ _ hxy.symm hyx.symm
      simpa [List.foldl_append, hu, hv] using hlast
  · intro hagree s t hs ht
    refine (hs.trans ht.symm).foldl_eq' ?_ b
    intro x hx y hy b
    cases hu : write x with
    | none => simp
    | some u =>
      cases hv : write y with
      | none => simp
      | some v =>
        have := hagree x (hs.mem_iff.mp hx) y (hs.mem_iff.mp hy) u v hu hv
        simp [this]

end Fold
