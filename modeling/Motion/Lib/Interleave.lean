import Mathlib

namespace Interleave

/-- A run of several threads: at each turn some thread takes its next step, until
none has a step left. -/
inductive Run : List (List α) → List α → Prop
  | done {threads : List (List α)} (idle : ∀ steps ∈ threads, steps = []) : Run threads []
  | turn {before after : List (List α)} {x : α} {steps trace : List α}
      (rest : Run (before ++ steps :: after) trace) :
      Run (before ++ (x :: steps) :: after) (x :: trace)

/-- A run takes every step of every thread once. -/
theorem Run.perm {threads : List (List α)} {trace : List α} (h : Run threads trace) :
    trace.Perm threads.flatten := by
  induction h with
  | done idle =>
    rw [List.flatten_eq_nil_iff.mpr idle]
  | turn rest ih =>
    simp only [List.flatten_append, List.flatten_cons, List.cons_append] at ih ⊢
    exact (ih.cons _).trans List.perm_middle.symm

theorem Run.mem_iff {threads : List (List α)} {trace : List α} (h : Run threads trace) {x : α} :
    x ∈ trace ↔ ∃ steps ∈ threads, x ∈ steps := by
  rw [h.perm.mem_iff, List.mem_flatten]

/-- And each thread's steps in their order. -/
theorem Run.sublist {threads : List (List α)} {trace steps : List α} (h : Run threads trace)
    (hs : steps ∈ threads) : steps.Sublist trace := by
  induction h generalizing steps with
  | done idle =>
    rw [idle steps hs]
  | @turn before after x rest trace _ ih =>
    simp only [List.mem_append, List.mem_cons] at hs
    rcases hs with hb | rfl | ha
    · exact (ih (by simp [hb])).cons x
    · exact (ih (by simp)).cons_cons x
    · exact (ih (by simp [ha])).cons x

/-- A run that finds the first threads finished is one of the others. -/
theorem Run.skip {before threads : List (List α)} {trace : List α}
    (idle : ∀ steps ∈ before, steps = []) (h : Run threads trace) :
    Run (before ++ threads) trace := by
  induction h with
  | done rest =>
    refine .done ?_
    intro steps hs
    cases List.mem_append.mp hs with
    | inl hs => exact idle steps hs
    | inr hs => exact rest steps hs
  | turn rest ih =>
    rw [← List.append_assoc] at ih ⊢
    exact .turn ih

/-- The threads may run one after another. -/
theorem Run.one_by_one (threads : List (List α)) : Run threads threads.flatten := by
  induction threads with
  | nil => exact .done (by simp)
  | cons steps threads ih =>
    induction steps with
    | nil =>
      change Run ([[]] ++ threads) _
      exact Run.skip (by simp) ih
    | cons x steps ih =>
      change Run ([] ++ (x :: steps) :: threads) _
      exact .turn ih

/-- Where any two of the steps commute, every run ends as the threads one after
another do. -/
theorem Run.foldl_eq {f : σ → α → σ} {threads : List (List α)} {trace : List α}
    (h : Run threads trace)
    (comm : ∀ x ∈ trace, ∀ y ∈ trace, ∀ s, f (f s x) y = f (f s y) x) (s : σ) :
    trace.foldl f s = threads.flatten.foldl f s :=
  h.perm.foldl_eq' comm s

/-- A thread may be kept back until the others are done. -/
theorem Run.keep_back {before after : List (List α)} {trace : List α} (steps : List α)
    (h : Run (before ++ after) trace) : Run (before ++ steps :: after) (trace ++ steps) := by
  generalize hth : before ++ after = threads at h
  induction h generalizing before after with
  | done idle =>
    subst hth
    induction steps with
    | nil =>
      refine .done ?_
      intro rest hrest
      simp only [List.mem_append, List.mem_cons] at hrest
      rcases hrest with hb | rfl | ha
      · exact idle rest (by simp [hb])
      · rfl
      · exact idle rest (by simp [ha])
    | cons x steps ih => exact .turn ih
  | @turn first last x rest trace _ ih =>
    rw [List.cons_append]
    rcases List.append_eq_append_iff.mp hth with ⟨mid, rfl, hmid⟩ | ⟨mid, rfl, hmid⟩
    · -- the turn is taken behind the thread kept back
      have hnext : Run (before ++ steps :: (mid ++ rest :: last)) (trace ++ steps) := ih (by simp)
      have hmove : Run ((before ++ steps :: mid) ++ (x :: rest) :: last) (x :: (trace ++ steps)) :=
        .turn (by simpa using hnext)
      rw [hmid]
      simpa using hmove
    · cases mid with
      | nil =>
        rw [List.nil_append] at hmid
        have hnext : Run (first ++ steps :: rest :: last) (trace ++ steps) := ih rfl
        have hmove : Run ((first ++ [steps]) ++ (x :: rest) :: last) (x :: (trace ++ steps)) :=
          .turn (by simpa using hnext)
        simpa [← hmid] using hmove
      | cons y mid =>
        obtain ⟨rfl, rfl⟩ := List.cons.inj hmid
        have hnext : Run ((first ++ rest :: mid) ++ steps :: after) (trace ++ steps) :=
          ih (by simp)
        have hmove : Run (first ++ (x :: rest) :: (mid ++ steps :: after))
            (x :: (trace ++ steps)) := .turn (by simpa using hnext)
        simpa using hmove

/-- The threads may be listed in any order. -/
theorem Run.of_perm {threads threads' : List (List α)} {trace : List α} (h : Run threads trace)
    (perm : threads.Perm threads') : Run threads' trace := by
  induction h generalizing threads' with
  | done idle =>
    refine .done ?_
    intro steps hs
    exact idle steps (perm.mem_iff.mpr hs)
  | @turn before after x steps trace _ ih =>
    obtain ⟨before', after', rfl⟩ := List.append_of_mem
      (perm.mem_iff.mp (by simp : x :: steps ∈ before ++ (x :: steps) :: after))
    have hrest : (before ++ after).Perm (before' ++ after') :=
      ((List.perm_middle.symm.trans perm).trans List.perm_middle).cons_inv
    refine .turn (ih ?_)
    exact (List.perm_middle.trans (hrest.cons steps)).trans List.perm_middle.symm

/-- The value a list of steps writes last, if it writes. -/
def lastWrite (write : α → Option β) (steps : List α) : Option β :=
  steps.foldl (fun v x => (write x).or v) none

section writes

variable {write : α → Option β} {threads : List (List α)} {trace : List α}

theorem lastWrite_from (write : α → Option β) (steps : List α) (v : Option β) :
    steps.foldl (fun v x => (write x).or v) v = (lastWrite write steps).or v := by
  unfold lastWrite
  induction steps using List.reverseRecOn with
  | nil => rfl
  | append_singleton steps x ih =>
    rw [List.foldl_append, List.foldl_append, ih]
    exact (Option.or_assoc).symm

theorem lastWrite_append (write : α → Option β) (steps rest : List α) :
    lastWrite write (steps ++ rest) = (lastWrite write rest).or (lastWrite write steps) := by
  rw [← lastWrite_from]
  exact List.foldl_append

theorem lastWrite_cons (write : α → Option β) (x : α) (steps : List α) :
    lastWrite write (x :: steps) = (lastWrite write steps).or (write x) := by
  have h := lastWrite_append write [x] steps
  simpa [lastWrite] using h

theorem lastWrite_concat {steps : List α} {x : α} {v : β} (h : write x = some v) :
    lastWrite write (steps ++ [x]) = some v := by
  rw [lastWrite_append, lastWrite_cons, h]
  rfl

theorem lastWrite_skip {steps : List α} {x : α} (h : write x = none) :
    lastWrite write (steps ++ [x]) = lastWrite write steps := by
  rw [lastWrite_append, lastWrite_cons, h]
  rfl

theorem lastWrite_none_iff {steps : List α} :
    lastWrite write steps = none ↔ ∀ x ∈ steps, write x = none := by
  induction steps with
  | nil => simp [lastWrite]
  | cons x steps ih =>
    rw [lastWrite_cons, Option.or_eq_none_iff, ih]
    simp [and_comm]

/-- What is written last is written by one of the steps. -/
theorem lastWrite_mem {steps : List α} {v : β} (hv : lastWrite write steps = some v) :
    ∃ x ∈ steps, write x = some v := by
  induction steps with
  | nil => simp [lastWrite] at hv
  | cons x steps ih =>
    rw [lastWrite_cons] at hv
    cases hlast : lastWrite write steps with
    | some u =>
      rw [hlast, Option.some_or] at hv
      obtain ⟨y, hy, hyv⟩ := ih (hlast.trans hv)
      exact ⟨y, List.mem_cons_of_mem x hy, hyv⟩
    | none =>
      rw [hlast, Option.none_or] at hv
      exact ⟨x, by simp, hv⟩

/-- Where all that write write one value, that one is written last. -/
theorem lastWrite_eq_some {steps : List α} {x : α} {v : β} (hx : x ∈ steps) (hw : write x = some v)
    (same : ∀ y ∈ steps, ∀ u, write y = some u → u = v) : lastWrite write steps = some v := by
  cases hlast : lastWrite write steps with
  | none => exact absurd (hw.symm.trans (lastWrite_none_iff.mp hlast x hx)) (Option.some_ne_none v)
  | some u =>
    obtain ⟨y, hy, hu⟩ := lastWrite_mem hlast
    rw [same y hy u hu]

/-- What a run writes last one of the threads writes last. -/
theorem Run.last_write (h : Run threads trace) {v : β} (hv : lastWrite write trace = some v) :
    ∃ steps ∈ threads, lastWrite write steps = some v := by
  induction h with
  | done => simp [lastWrite] at hv
  | @turn before after x steps trace rest ih =>
    rw [lastWrite_cons] at hv
    cases hlast : lastWrite write trace with
    | some u =>
      rw [hlast, Option.some_or] at hv
      obtain ⟨late, hmem, hlate⟩ := ih (hlast.trans hv)
      simp only [List.mem_append, List.mem_cons] at hmem
      rcases hmem with hb | rfl | ha
      · exact ⟨late, by simp [hb], hlate⟩
      · refine ⟨x :: late, by simp, ?_⟩
        rw [lastWrite_cons, hlate, Option.some_or]
      · exact ⟨late, by simp [ha], hlate⟩
    | none =>
      rw [hlast, Option.none_or] at hv
      refine ⟨x :: steps, by simp, ?_⟩
      have hnone : lastWrite write steps = none := by
        rw [lastWrite_none_iff] at hlast ⊢
        intro y hy
        exact hlast y (rest.mem_iff.mpr ⟨steps, by simp, hy⟩)
      rw [lastWrite_cons, hnone, Option.none_or, hv]

/-- And what a thread writes last some run writes last. -/
theorem Run.write_last {steps : List α} (hs : steps ∈ threads) {v : β}
    (hv : lastWrite write steps = some v) :
    ∃ trace, Run threads trace ∧ lastWrite write trace = some v := by
  obtain ⟨before, after, rfl⟩ := List.append_of_mem hs
  refine ⟨_, (Run.one_by_one (before ++ after)).keep_back steps, ?_⟩
  rw [lastWrite_append, hv, Option.some_or]

/-- All runs write the same last exactly when no two threads write different values last. -/
theorem Run.last_write_iff :
    (∀ s t, Run threads s → Run threads t → lastWrite write s = lastWrite write t) ↔
      ∀ steps ∈ threads, ∀ steps' ∈ threads, ∀ u v, lastWrite write steps = some u →
        lastWrite write steps' = some v → u = v := by
  constructor
  · intro hall steps hs steps' hs' u v hu hv
    obtain ⟨s, hrun, hlast⟩ := Run.write_last hs hu
    obtain ⟨t, hrun', hlast'⟩ := Run.write_last hs' hv
    have hsame := hall s t hrun hrun'
    rw [hlast, hlast'] at hsame
    exact Option.some.inj hsame
  · intro hagree s t hs ht
    cases hu : lastWrite write s with
    | none =>
      rw [lastWrite_none_iff] at hu
      rw [eq_comm, lastWrite_none_iff]
      exact fun x hx => hu x ((hs.perm.trans ht.perm.symm).mem_iff.mpr hx)
    | some u =>
      cases hv : lastWrite write t with
      | none =>
        rw [lastWrite_none_iff] at hv
        have hnone : lastWrite write s = none := lastWrite_none_iff.mpr
          (fun x hx => hv x ((hs.perm.trans ht.perm.symm).mem_iff.mp hx))
        rw [hu] at hnone
        cases hnone
      | some v =>
        obtain ⟨steps, hmem, hlast⟩ := hs.last_write hu
        obtain ⟨steps', hmem', hlast'⟩ := ht.last_write hv
        rw [hagree steps hmem steps' hmem' u v hlast hlast']

end writes

/-- Threads that keep to their own part of the state: a run takes each part where its thread
takes it alone, and stops if one of the threads stops alone. -/
theorem Run.apart {ι : Type*} [DecidableEq ι] {f : σ → α → Option σ} {g : τ → α → Option τ}
    {R : (ι → τ) → σ → Prop} {is : List ι} {steps : ι → List α} {trace : List α}
    (hnodup : is.Nodup) (h : Run (is.map steps) trace)
    (step : ∀ i ∈ is, ∀ x ∈ steps i, ∀ t s, R t s →
      (f s x = none ∧ g (t i) x = none) ∨
        ∃ s' u, f s x = some s' ∧ g (t i) x = some u ∧ R (Function.update t i u) s')
    (t : ι → τ) (s : σ) (start : R t s) :
    (trace.foldlM f s = none ∧ ∃ i ∈ is, (steps i).foldlM g (t i) = none) ∨
      ∃ s' u, trace.foldlM f s = some s' ∧ (∀ i ∈ is, (steps i).foldlM g (t i) = some (u i)) ∧
        R u s' := by
  generalize hth : is.map steps = threads at h
  induction h generalizing steps t s with
  | done idle =>
    refine .inr ⟨s, t, rfl, ?_, start⟩
    intro i hi
    rw [idle (steps i) (hth ▸ List.mem_map_of_mem hi)]
    rfl
  | @turn before after x rest trace _ ih =>
    obtain ⟨is₁, tail, rfl, hbefore, htail⟩ := List.map_eq_append_iff.mp hth
    obtain ⟨i, is₂, rfl, hx, hafter⟩ := List.map_eq_cons_iff.mp htail
    rw [List.nodup_middle, List.nodup_cons, List.mem_append] at hnodup
    obtain ⟨hout, -⟩ := hnodup
    -- the steps that are left once the turn is taken
    have hleft : (is₁ ++ i :: is₂).map (Function.update steps i rest) =
        before ++ rest :: after := by
      have hsame : ∀ js : List ι, i ∉ js → js.map (Function.update steps i rest) = js.map steps :=
        fun js hi => List.map_congr_left
          (fun j hj => Function.update_of_ne (ne_of_mem_of_not_mem hj hi) _ _)
      rw [List.map_append, List.map_cons, Function.update_self,
        hsame is₁ (fun hm => hout (Or.inl hm)), hsame is₂ (fun hm => hout (Or.inr hm)),
        hbefore, hafter]
    have hsub : ∀ j, ∀ y ∈ Function.update steps i rest j, y ∈ steps j := by
      intro j y hy
      by_cases hj : j = i
      · rw [hj, Function.update_self] at hy
        rw [hj, hx]
        exact List.mem_cons_of_mem _ hy
      · rwa [Function.update_of_ne hj] at hy
    have hi : i ∈ is₁ ++ i :: is₂ := by simp
    have hturn : ∀ u, g (t i) x = some u → ∀ j,
        (steps j).foldlM g (t j) =
          (Function.update steps i rest j).foldlM g (Function.update t i u j) := by
      intro u hu j
      by_cases hj : j = i
      · rw [hj, Function.update_self, Function.update_self, hx, List.foldlM_cons, hu]
        rfl
      · rw [Function.update_of_ne hj, Function.update_of_ne hj]
    cases step i hi x (hx ▸ List.mem_cons_self) t s start with
    | inl hstop =>
      refine .inl ⟨?_, i, hi, ?_⟩
      · rw [List.foldlM_cons, hstop.1]
        rfl
      · rw [hx, List.foldlM_cons, hstop.2]
        rfl
    | inr hgo =>
      obtain ⟨s', u, hs, hu, hr⟩ := hgo
      have hrest := ih (fun j hj y hy => step j hj y (hsub j y hy)) (Function.update t i u) s' hr
        hleft
      rw [List.foldlM_cons, hs, Option.bind_eq_bind, Option.bind_some]
      simp only [hturn u hu]
      exact hrest

end Interleave
