import Motion.Proofs.Collect
import Motion.Proofs.Numbering
import Motion.Spec.StartLinks

/-! The links of the table lead as the starts say: after each turn and each call of `label`,
after the stitches and after the redirect pass. -/

namespace Motion
open Labelling

/-- The links of labels lead as `lead` does among their starts, and slot 0 to the start `slot`. -/
structure Tracks (input : Buf UInt8) (width : Nat) (order : List Band) (l : List Pixel)
    (output : Buf Nat) (t : Table w) (lead : Nat → Nat) (slot : Option Nat) : Prop where
  trails : Trails (parScene w input width order) (parStart input width order) l.toFinset
    (marks width output t) lead
  unspilt : slot = none → links t 0 = 0
  spilt : ∀ n, slot = some n → Carries (parScene w input width order)
    (parStart input width order) l.toFinset (marks width output t) (links t 0) n

variable {w width : Nat} {input : Buf UInt8} {order done rest : List Band} {b : Band}
  {top : Band → Nat} {l : List Pixel} {x q : Pixel} {s s' : Scan w} {lead : Nat → Nat}
  {slot : Option Nat} {output : Buf Nat} {t : Table w}

theorem Tracks.start (input : Buf UInt8) (width : Nat) (order : List Band) :
    Tracks input width order [] (Buf.all 0) (Buf.all (Blob.zero (w := w))) id none :=
  ⟨Trails.empty, fun _ => rfl, nofun⟩

/-- Slot 0 holds the label of a start. -/
theorem Tracks.of_carries {n : Nat} (ht : Trails (parScene w input width order)
      (parStart input width order) l.toFinset (marks width output t) lead)
    (hc : Carries (parScene w input width order) (parStart input width order) l.toFinset
      (marks width output t) (links t 0) n) :
    Tracks input width order l output t lead (some n) :=
  ⟨ht, nofun, fun _ hm => Option.some.inj hm ▸ hc⟩

namespace Run

/-- Where a label is taken no label visited started. -/
theorem Turn.start_new {h : Run input width order top l s.output s.blobs} (t : Turn h b x)
    (unfound : ∀ y, (parScene w input width order).back x y → 9999 ≤ s.output (idx width y))
    (hq : q ∈ live (parScene w input width order) l.toFinset) :
    parStart input width order q ≠ parStart input width order x := by
  intro he
  have hcol := (mem_pixels.mp t.mem).2
  obtain ⟨z, hz, hzs⟩ := h.start_mem hq
  have hself : parStart input width order x = idx width x := by
    rw [← parStart_eq w]
    refine origin_of_fresh (fun y hy _ => ?_)
    have hge := unfound y hy
    obtain ⟨b', hb', _, hhi, _⟩ := h.home y ⟨t.ready.seen y hy, hy.2.1⟩
    have := h.tops b' hb'
    have := bands_range hb'
    unfold maxBlobsPerThread at *
    omega
  have hzx : z = x := idx_inj (h.col_lt hz) (by omega) (by rw [hzs, he, hself])
  exact t.new (hzx ▸ hz)

/-- One turn of `label`'s loop. -/
theorem Turn.tracks {h : Run input width order top l s.output s.blobs} (t : Turn h b x)
    {pre done' : List Pixel}
    (ht : Tracks input width order l s.output s.blobs
      (metLink (parScene 0 input width order) (parStart input width order) pre lead)
      (Interleave.lastWrite (spillWrite input width order) done')) :
    Tracks input width order (l ++ [x]) (scanPixel 9999 width input s x).output
      (scanPixel 9999 width input s x).blobs
      (metLink (parScene 0 input width order) (parStart input width order) (pre ++ [x]) lead)
      (Interleave.lastWrite (spillWrite input width order) (done' ++ [x])) := by
  have v := t.ready.visit h.marked
  have hslot := t.slot_zero
  have htrails := v.trails t.ready.seen (by rw [← toFinset_concat]; exact t.ordered_after.order)
    h.marked ht.trails (fun _ unfound q hq => t.start_new unfound hq)
  rw [← toFinset_concat] at htrails
  by_cases hs : Spills input width order x
  · have hwrite : spillWrite input width order x = some (parStart input width order x) :=
      if_pos hs
    obtain ⟨y, hy⟩ := hs.1
    rw [Interleave.lastWrite_concat hwrite]
    exact Tracks.of_carries htrails ⟨x, ⟨by simp, hy.1⟩, (hslot.1 hs).symm, rfl⟩
  · have hwrite : spillWrite input width order x = none := if_neg hs
    have hkeep : links (scanPixel 9999 width input s x).blobs 0 = links s.blobs 0 := hslot.2 hs
    rw [Interleave.lastWrite_skip hwrite]
    refine ⟨htrails, fun hn => ?_, fun n hn => ?_⟩
    · rw [hkeep]
      exact ht.unspilt hn
    · obtain ⟨q, hq, he, horg⟩ := ht.spilt n hn
      have hlive := live_insert (x := x) hq
      rw [← toFinset_concat] at hlive
      refine ⟨q, hlive, ?_, horg⟩
      rw [hkeep, ← he]
      exact v.keep q hq.1

/-- Whose labels a call redirects: those of the starts of its band. -/
theorem turns_iff (h : Run input width order top l output t) (hb : b ∈ bands)
    {i n : Nat} {blobs : Table w}
    (hc : Carries (parScene w input width order) (parStart input width order) l.toFinset
      (marks width output blobs) i n) :
    (b.startLabel ≤ i ∧ i < b.startLabel + maxBlobsPerThread) ↔ IdxIn width b n := by
  obtain ⟨q, hq, rfl, rfl⟩ := hc
  obtain ⟨b', hb', hlo, hhi, hin⟩ := h.home q hq
  have htop := h.tops b' hb'
  have hlab : (marks width output blobs).lab q = output (idx width q) := rfl
  rw [hlab]
  constructor
  · intro hrange
    rcases bands_apart hb hb' with rfl | hap | hap
    · exact hin
    · omega
    · omega
  · intro hin'
    obtain rfl := hin'.unique hb hb' hin
    exact ⟨hlo, by omega⟩

/-- The redirect pass of a call. -/
theorem redirect_tracks (h : Run input width order top l output t) (hb : b ∈ bands)
    (ht : Tracks input width order l output t lead slot) :
    Tracks input width order l output
      ((upto b.startLabel (b.startLabel + maxBlobsPerThread)).foldl redirectUsed t)
      (Links.followed (IdxIn width b) lead) slot := by
  have hrange := bands_range hb
  have hpos : ∀ q ∈ live (parScene w input width order) l.toFinset, output (idx width q) ≠ 0 :=
    fun q hq => h.sound.nonzero q hq
  have turn : Links.Redirects (used (parScene w input width order) l.toFinset
      (marks width output t)) (links (w := w)) redirectUsed := by
    constructor
    · rintro u i _ ⟨r, hr, he⟩
      have h0 := hpos r hr
      have hlab : output (idx width r) = links u i := he
      have hused : redirectUsed u i = redirectEntry u i :=
        redirectUsed_eq (t := u) (i := i) (fun hz => h0 (hlab.trans hz))
      rw [hused]
      exact redirectEntry_self u i
    · intro u i j hne
      unfold links
      rw [redirectUsed_keeps u (Or.inr hne)]
  have hmatch := ht.trails.matches h.ordered.order
  have hpass := Links.redirect_followed (a := b.startLabel)
    (n := b.startLabel + maxBlobsPerThread) turn h.sound.falls
  have hzero : links ((upto b.startLabel (b.startLabel + maxBlobsPerThread)).foldl
      redirectUsed t) 0 = links t 0 := by
    refine Fold.invariant (P := fun u : Table w => links u 0 = links t 0) _ t rfl ?_
    intro i hi u hu
    unfold links at hu ⊢
    rw [redirectUsed_keeps u (Or.inr (by have := mem_upto.mp hi; omega)), hu]
  refine ⟨⟨fun q hq => ?_, fun n hn => ?_⟩, fun hn => hzero.trans (ht.unspilt hn), fun n hn => ?_⟩
  · obtain ⟨r, hr, hlab, horg⟩ := hmatch.followed (fun i n hc => h.turns_iff hb hc)
      (⟨q, hq, rfl, rfl⟩ : Carries _ _ _ _ (output (idx width q)) _)
    exact ⟨r, hr, horg, hlab.trans (hpass _ ⟨q, hq, rfl⟩).symm⟩
  · rw [Links.followed_once, ht.trails.idle n hn]
    rw [ht.trails.idle n hn]
    omega
  · rw [hzero]
    exact ht.spilt n hn

/-- One call of `label`. -/
theorem call_tracks {sh sh' : Shared w} (fair : (done ++ b :: rest).Perm bands)
    (h : Run input width (done ++ b :: rest) top (done.flatMap (Band.pixels width))
      sh.output sh.blobs)
    (htop : top b = b.startLabel) (run : label input width b sh = some sh')
    (ht : Tracks input width (done ++ b :: rest) (done.flatMap (Band.pixels width)) sh.output
      sh.blobs lead (Interleave.lastWrite (spillWrite input width (done ++ b :: rest))
        (done.flatMap (Band.pixels width)))) :
    Tracks input width (done ++ b :: rest) ((done ++ [b]).flatMap (Band.pixels width)) sh'.output
      sh'.blobs (callLink input width (done ++ b :: rest) lead b)
      (Interleave.lastWrite (spillWrite input width (done ++ b :: rest))
        ((done ++ [b]).flatMap (Band.pixels width))) := by
  unfold label at run
  obtain ⟨s, hs, rfl⟩ := Option.map_eq_some_iff.mp run
  have hscan := h.label_scan fair htop (List.append_nil _).symm hs
  have htracks := Fold.prefix_induction_run
    (P := fun pre (s : Scan w) => Tracks input width (done ++ b :: rest)
      (done.flatMap (Band.pixels width) ++ pre) s.output s.blobs
      (metLink (parScene 0 input width (done ++ b :: rest))
        (parStart input width (done ++ b :: rest)) pre lead)
      (Interleave.lastWrite (spillWrite input width (done ++ b :: rest))
        (done.flatMap (Band.pixels width) ++ pre)))
    (b.pixels width) ⟨sh.output, sh.blobs, b.startLabel⟩ s
    (by
      rw [List.append_nil]
      exact ht)
    (by
      rintro pre x post u u' hl hu ih hx
      obtain ⟨rfl, _⟩ := labelPixel_some hx
      have hturn := ((h.label_scan fair htop hl hu).1).turn fair (Function.update_self _ _ _) hl
      have hstep := hturn.tracks ih
      rwa [List.append_assoc] at hstep) hs
  rw [List.flatMap_append, List.flatMap_singleton]
  exact hscan.1.redirect_tracks (fair.mem_iff.mp (by simp)) htracks

end Run

/-- What the calls of `label` leave. -/
theorem runLabels_tracks {sh : Shared w} (fair : order.Perm bands)
    (run : runLabels input width order (Shared.fresh (Buf.all 0)) = some sh) :
    Tracks input width order (order.flatMap (Band.pixels width)) sh.output sh.blobs
      (scanLink input width order order)
      (Interleave.lastWrite (spillWrite input width order)
        (order.flatMap (Band.pixels width))) := by
  refine Fold.prefix_induction_run
    (P := fun pre (sh : Shared w) => Tracks input width order (pre.flatMap (Band.pixels width))
      sh.output sh.blobs (scanLink input width order pre)
      (Interleave.lastWrite (spillWrite input width order) (pre.flatMap (Band.pixels width))))
    order (Shared.fresh (Buf.all 0)) sh (Tracks.start input width order) ?_ run
  rintro pre b post u u' hl hu ih hcall
  have fair' := fair
  rw [hl] at fair'
  obtain ⟨top, h, htop, _⟩ := runLabels_prefix fair' hu
  rw [← hl] at h
  have hlink : scanLink input width order (pre ++ [b]) =
      callLink input width order (scanLink input width order pre) b := by
    unfold scanLink
    rw [List.foldl_append]
    rfl
  rw [hlink]
  subst hl
  exact h.call_tracks fair (htop b (by simp)) hcall ih

section stitches

variable {out : Buf Nat} {blobs t' : Table w} {pre : List Pixel} {stitches : List Nat} {a : Pixel}

/-- The least label above a pixel of a seam is that of the least start. -/
theorem Run.leastOver_eq (h : Bands w input width order top out blobs) (fair : order.Perm bands)
    (ha : OverSeam input width x a)
    (least : ∀ q, OverSeam input width x q → out (idx width a) ≤ out (idx width q)) :
    leastOver input width order x = parStart input width order a := by
  refine Nat.le_antisymm (Nat.sInf_le ⟨a, ha, rfl⟩) ?_
  obtain ⟨q, hq, he⟩ := Nat.sInf_mem
    (⟨_, a, ha, rfl⟩ :
      {n | ∃ q, OverSeam input width x q ∧ parStart input width order q = n}.Nonempty)
  have hlt := h.label_lt fair hq.2 ha.2
  have := least q hq
  unfold leastOver
  rw [← he]
  omega

theorem sewLink_of_sews {n : Nat} (h : SewsAt input width order n x) :
    sewLink input width order (pre ++ [x]) n = leastOver input width order x := by
  have hwrite : sewWrite input width order n x = some (leastOver input width order x) := if_pos h
  unfold sewLink
  rw [Interleave.lastWrite_concat hwrite, Option.getD_some]

theorem sewLink_of_not {n : Nat} (h : ¬SewsAt input width order n x) :
    sewLink input width order (pre ++ [x]) n = sewLink input width order pre n := by
  have hwrite : sewWrite input width order n x = none := if_neg h
  unfold sewLink
  rw [Interleave.lastWrite_skip hwrite]

theorem slotStart_of_spills (h : SeamSpills input width x) :
    slotStart input width order l (pre ++ [x]) = some (leastOver input width order x) := by
  have hwrite : seamSpillWrite input width order x = some (leastOver input width order x) :=
    if_pos h
  unfold slotStart
  rw [Interleave.lastWrite_concat hwrite, Option.some_or]

theorem slotStart_of_not (h : ¬SeamSpills input width x) :
    slotStart input width order l (pre ++ [x]) = slotStart input width order l pre := by
  have hwrite : seamSpillWrite input width order x = none := if_neg h
  unfold slotStart
  rw [Interleave.lastWrite_skip hwrite]

namespace Run

variable (h : Bands w input width order top out blobs) (fair : order.Perm bands)

include h

/-- What a stitch points elsewhere: the labels of the starts sewn there. -/
theorem touched_iff (fair : order.Perm bands) (hx : Inside width labelledHeight x)
    (ha : OverSeam input width x a)
    (least : ∀ q, OverSeam input width x q → out (idx width a) ≤ out (idx width q))
    (hq : Moving input width labelledHeight q) :
    (Touched width out x (out (idx width q)) ∧ out (idx width q) ≠ out (idx width a)) ↔
      SewsAt input width order (parStart input width order q) x := by
  have h0 := (h.label_range fair hq).1
  unfold SewsAt
  rw [h.leastOver_eq fair ha least, Ne, h.label_eq fair hq ha.2]
  constructor
  · rintro ⟨htouch, hne⟩
    obtain ⟨y, hy, hym, he⟩ := h.touched_used hx (by omega) htouch
    exact ⟨⟨a, ha⟩, fun he' => hne he'.symm, y, hy, hym, (h.label_eq fair hym hq).mp he⟩
  · rintro ⟨_, hne, y, hy, hym, he⟩
    have hlab := (h.label_eq fair hym hq).mpr he
    refine ⟨?_, fun he' => hne he'.symm⟩
    cases hy with
    | inl hy => exact Or.inl (hy ▸ hlab.symm)
    | inr hy => exact Or.inr ⟨y, hy, hlab⟩

/-- It writes slot 0 where something above moves, and something there or below does not. -/
theorem touched_zero_iff (fair : order.Perm bands) (hx : Inside width labelledHeight x)
    (ha : OverSeam input width x a) : Touched width out x 0 ↔ SeamSpills input width x := by
  unfold Inside at hx
  have hcol : ∀ q, Above x q → q.2 < width := by
    intro q hq
    have := hq.near
    omega
  have hoff : ∀ q : Pixel, q.2 < width → (out (idx width q) = 0 ↔
      ¬Moving input width labelledHeight q) := by
    intro q hq
    constructor
    · intro h0 hm
      have := (h.label_range fair hm).1
      omega
    · exact fun hn => h.clear hq hn
  unfold SeamSpills
  constructor
  · rintro (he | ⟨q, hq, he⟩)
    · exact ⟨⟨a, ha⟩, Or.inl ((hoff x (by omega)).mp he.symm)⟩
    · exact ⟨⟨a, ha⟩, Or.inr ⟨q, hq, (hoff q (hcol q hq)).mp he⟩⟩
  · rintro ⟨_, hn | ⟨q, hq, hn⟩⟩
    · exact Or.inl ((hoff x (by omega)).mpr hn).symm
    · exact Or.inr ⟨q, hq, (hoff q (hcol q hq)).mpr hn⟩

include fair

omit h in
/-- Links that a stitch at `x` sets to the label of `a`, where a start is sewn to `a`'s. -/
theorem sewn_trails (ha : OverSeam input width x a)
    (hover : leastOver input width order x = parStart input width order a)
    (hsewn : ∀ q, Moving input width labelledHeight q →
      SewsAt input width order (parStart input width order q) x →
        links t' (out (idx width q)) = out (idx width a))
    (hkept : ∀ q, Moving input width labelledHeight q →
      ¬SewsAt input width order (parStart input width order q) x →
        links t' (out (idx width q)) = links t (out (idx width q)))
    (ht : Trails (parScene w input width order) (parStart input width order)
      (order.flatMap (Band.pixels width)).toFinset (marks width out t)
      (sewLink input width order pre)) :
    Trails (parScene w input width order) (parStart input width order)
      (order.flatMap (Band.pixels width)).toFinset (marks width out t')
      (sewLink input width order (pre ++ [x])) := by
  constructor
  · intro q hq
    have hqm := (live_iff w fair).mp hq
    by_cases hs : SewsAt input width order (parStart input width order q) x
    · refine ⟨a, (live_iff w fair).mpr ha.2, ?_, (hsewn q hqm hs).symm⟩
      rw [sewLink_of_sews hs, hover]
    · obtain ⟨r, hr, hlead, hlab⟩ := ht.leads q hq
      refine ⟨r, hr, ?_, hlab.trans (hkept q hqm hs).symm⟩
      rw [sewLink_of_not hs, hlead]
  · intro n hn
    have hs : ¬SewsAt input width order n x := by
      rintro ⟨_, _, y, _, hym, he⟩
      exact hn y ((live_iff w fair).mpr hym) he
    rw [sewLink_of_not hs]
    exact ht.idle n hn

/-- One turn of `stitch`'s loop. -/
theorem stitch_tracks (hx : Inside width labelledHeight x)
    (hs : StitchStep input width out x t t')
    (ht : Tracks input width order (order.flatMap (Band.pixels width)) out t
      (sewLink input width order pre)
      (slotStart input width order (order.flatMap (Band.pixels width)) pre)) :
    Tracks input width order (order.flatMap (Band.pixels width)) out t'
      (sewLink input width order (pre ++ [x]))
      (slotStart input width order (order.flatMap (Band.pixels width)) (pre ++ [x])) := by
  cases hs with
  | idle none same =>
    have hlink : sewLink input width order (pre ++ [x]) = sewLink input width order pre :=
      funext (fun n => sewLink_of_not (fun hn => none _ hn.1.choose_spec))
    rw [hlink, slotStart_of_not (fun hn => none _ hn.1.choose_spec), same]
    exact ht
  | join a ha least write keep =>
    have hover := h.leastOver_eq fair ha least
    have htrails := sewn_trails fair ha hover
      (fun q hq hs => by
        have hk := (h.touched_iff fair hx ha least hq).mpr hs
        unfold links
        rw [write _ hk.1 hk.2])
      (fun q hq hs => by
        have hk := mt (h.touched_iff fair hx ha least hq).mp hs
        unfold links
        rw [keep _ (by tauto)]) ht.trails
    have htouch := h.touched_zero_iff fair hx ha
    by_cases hs : SeamSpills input width x
    · have hzero : out (idx width a) ≠ 0 := by
        have := (h.label_range fair ha.2).1
        omega
      have hslot : links t' 0 = out (idx width a) := by
        unfold links
        rw [write 0 (htouch.mpr hs) hzero.symm]
      rw [slotStart_of_spills hs]
      exact Tracks.of_carries htrails ⟨a, (live_iff w fair).mpr ha.2, hslot.symm, hover.symm⟩
    · have hslot : links t' 0 = links t 0 := by
        unfold links
        rw [keep 0 (Or.inr (mt htouch.mp hs))]
      rw [slotStart_of_not hs]
      refine ⟨htrails, fun hn => hslot.trans (ht.unspilt hn), fun n hn => ?_⟩
      rw [hslot]
      exact ht.spilt n hn

/-- What the calls of `stitch` leave. -/
theorem stitchAll_tracks (hl : ∀ p ∈ l, Inside width labelledHeight p)
    (ht : Tracks input width order (order.flatMap (Band.pixels width)) out blobs
      (scanLink input width order order)
      (Interleave.lastWrite (spillWrite input width order)
        (order.flatMap (Band.pixels width)))) :
    Tracks input width order (order.flatMap (Band.pixels width)) out (stitchAll width out l blobs)
      (sewLink input width order l)
      (slotStart input width order (order.flatMap (Band.pixels width)) l) := by
  refine Fold.prefix_induction (P := fun pre (t : Table w) =>
    Tracks input width order (order.flatMap (Band.pixels width)) out t
      (sewLink input width order pre)
      (slotStart input width order (order.flatMap (Band.pixels width)) pre)) l blobs ht ?_
  intro pre x post t hpre ih
  have hx := hl x (by simp [hpre])
  exact h.stitch_tracks fair hx (h.stitchPixel_step fair hx t) ih

end Run

end stitches

section redirected

variable {out : Buf Nat} {blobs u : Table w} {stitches : List Nat} {i n : Nat}

/-- The label of some moving pixel, and that pixel's start. -/
def StartOf (input : Buf UInt8) (width : Nat) (order : List Band) (out : Buf Nat) (i n : Nat) :
    Prop :=
  ∃ q, Moving input width labelledHeight q ∧ out (idx width q) = i ∧
    parStart input width order q = n

theorem startOf_iff (fair : order.Perm bands) (t : Table w) :
    Carries (parScene w input width order) (parStart input width order)
        (order.flatMap (Band.pixels width)).toFinset (marks width out t) i n ↔
      StartOf input width order out i n := by
  unfold Carries StartOf
  rw [live_par w input width fair]
  rfl

/-- The table the stitches leave, told by its starts. -/
abbrev Sewn (input : Buf UInt8) (width : Nat) (order : List Band) (stitches : List Nat)
    (out : Buf Nat) (t : Table w) : Prop :=
  Tracks input width order (order.flatMap (Band.pixels width)) out t
    (sewLink input width order (seamPixels width stitches))
    (slotStart input width order (order.flatMap (Band.pixels width)) (seamPixels width stitches))

namespace Run

variable (h : Bands w input width order top out blobs) (fair : order.Perm bands)
  (ht : Tracks input width order (order.flatMap (Band.pixels width)) out t lead slot)

include h fair ht

theorem linked : Links.Matches (StartOf input width order out) (links t) lead := by
  have hmatch := ht.trails.matches h.ordered.order
  constructor
  · intro i n hi
    exact (startOf_iff fair t).mp (hmatch.link i n ((startOf_iff fair t).mpr hi))
  · intro i n k m hi hk
    exact hmatch.order i n k m ((startOf_iff fair t).mpr hi) ((startOf_iff fair t).mpr hk)

/-- What the redirect pass leaves. -/
theorem redirected (hu : redirectAll (maxBlobsPerThread * 4) t = u) :
    Links.Matches (StartOf input width order out) (links u) (Links.settled lead) := by
  have hmatch := h.linked fair ht
  have hroot : ∀ i n, StartOf input width order out i n →
      links u i = Links.settled (links t) i := by
    intro i n hi
    rw [← hu]
    refine redirectAll_root (fun i => ∃ n, StartOf input width order out i n) t ?_ ?_ ⟨n, hi⟩
    · rintro _ ⟨_, q, hq, rfl, _⟩
      exact h.label_range fair hq
    · rintro j ⟨m, hj⟩
      exact ⟨_, hmatch.link j m hj⟩
  refine ⟨fun i n hi => ?_, hmatch.order⟩
  rw [hroot i n hi]
  exact hmatch.settled hi

end Run

/-- What a run of `blob_detect_par` leaves of its passes, told by the starts. -/
theorem runLabels_sewn {sh : Shared w} (fair : order.Perm bands) (fair' : stitches.Perm seams)
    (run : runLabels input width order (Shared.fresh (Buf.all 0)) = some sh) :
    Sewn input width order stitches sh.output
      (stitchAll width sh.output (seamPixels width stitches) sh.blobs) := by
  obtain ⟨top, h⟩ := runLabels_run fair run
  exact h.stitchAll_tracks fair (fun p hp => seam_inside fair' hp) (runLabels_tracks fair run)

end redirected

end Motion
