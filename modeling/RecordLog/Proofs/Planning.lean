import Mathlib
import RecordLog.Proofs.LogInPlace

/-!
# What a plan covers

A plan is made from the watermark of a log and the chunks of a later one. The chunks it lists hold
the records of the log that start at the position asked for or later, up to the watermark; the live
segment is listed in addition if it was still live when the chunks were listed.
-/

namespace RecordLog

open Record Segment

theorem filter_line_of_le {segment pos start : Nat} {ps : List Bytes} (h : start ≤ pos) :
    (line segment pos ps).filter (start ≤ ·.start) = line segment pos ps := by
  refine List.filter_eq_self.2 fun r hr => ?_
  have := bounds_of_mem_line hr
  simp only [decide_eq_true_eq]
  omega

theorem filter_line_of_ge {segment pos start : Nat} {ps : List Bytes}
    (h : pos + extent ps ≤ start) : (line segment pos ps).filter (start ≤ ·.start) = [] := by
  refine List.filter_eq_nil_iff.2 fun r hr => ?_
  have := bounds_of_mem_line hr
  simp only [decide_eq_true_eq]
  omega

theorem extent_le_of_prefix {ps qs : List Bytes} (h : ps <+: qs) : extent ps ≤ extent qs := by
  obtain ⟨t, rfl⟩ := h
  simp

theorem Segment.records_eq_flatMap (start : Nat) (ss : List Segment) :
    records start ss = (placed start ss).flatMap fun p => line p.1 p.1 p.2.payloads := by
  induction ss generalizing start with
  | nil => rfl
  | cons s ss ih => simp [records, placed, ih]

namespace Log

variable {l l' : Log} {p : Nat × Segment} {start : Nat}

/-- What a sealed segment of a later log has of the records of this one. -/
def part (l : Log) (p : Nat × Segment) : List Bytes :=
  if p.1 < l.base then p.2.payloads else if p.1 = l.base then l.live.payloads else []

/-- Where a sealed segment of a later log lies, seen from this one. -/
inductive Placement (l : Log) (p : Nat × Segment) : Prop where
  | before (h : p.1 + p.2.size ≤ l.base)
  | live (h : p.1 = l.base) (hpre : l.live.payloads <+: p.2.payloads)
  | after (h : l.stop ≤ p.1) (hlt : l.base < p.1)

theorem Grows.placement (h : l.Grows l') (hpos : ∀ p ∈ placed 0 l'.sealed, 0 < p.2.size)
    (hp : p ∈ placed 0 l'.sealed) : l.Placement p := by
  rcases h.cases with ⟨hs, -, -⟩ | ⟨s, rest, hs, -, hpre⟩
  · have := bounds_of_mem_placed hp
    rw [hs, Nat.zero_add] at this
    exact .before this.2
  · rw [hs, placed_append, Nat.zero_add, List.mem_append, placed, List.mem_cons] at hp
    rcases hp with hp | rfl | hp
    · have := bounds_of_mem_placed hp
      rw [Nat.zero_add] at this
      exact .before this.2
    · exact .live rfl hpre
    · have hle := extent_le_of_prefix hpre
      have hs0 : 0 < s.size := hpos (l.base, s) (by
        rw [hs, placed_append, Nat.zero_add, placed]
        simp [base])
      have hmem := (bounds_of_mem_placed hp).1
      have hstop : l.stop = l.base + extent l.live.payloads := rfl
      change l.base + s.size ≤ p.1 at hmem
      change 0 < s.size at hs0
      change _ ≤ s.size at hle
      exact .after (by omega) (by omega)

section wanted

variable {cfg : Config} {q : Place} {d : Disk} {e : Nat × Chunk}

theorem part_of_wanted (hs : Sealed cfg q d p e) (hpl : l.Placement p)
    (hw : e.2.start < l.stop) :
    l.part p <+: p.2.payloads ∧ min l.stop e.2.stop = p.1 + extent (l.part p) := by
  have hpos := hs.size_pos
  rw [hs.stop]
  rw [hs.start] at hw
  cases hpl with
  | before h =>
    have hle : l.base ≤ l.stop := Nat.le_add_right _ _
    rw [part, if_pos (by omega), Nat.min_eq_right (by omega)]
    exact ⟨List.prefix_refl _, rfl⟩
  | live h hpre =>
    have hle := extent_le_of_prefix hpre
    rw [part, if_neg (by omega), if_pos h, Nat.min_eq_left]
    · exact ⟨hpre, by rw [h]; rfl⟩
    · simp only [stop, Segment.size]
      omega
  | after h hlt => omega

theorem part_of_unwanted (hs : Sealed cfg q d p e) (hpl : l.Placement p)
    (hw : ¬(start < e.2.stop ∧ e.2.start < l.stop)) :
    (line p.1 p.1 (l.part p)).filter (start ≤ ·.start) = [] := by
  have hpos := hs.size_pos
  rw [hs.stop, hs.start] at hw
  cases hpl with
  | before h =>
    have hle : l.base ≤ l.stop := Nat.le_add_right _ _
    rw [part, if_pos (by omega)]
    refine filter_line_of_ge ?_
    simp only [Segment.size] at *
    omega
  | live h hpre =>
    have hle := extent_le_of_prefix hpre
    rw [part, if_neg (by omega), if_pos h]
    by_cases hlive : l.live.payloads = []
    · rw [hlive]
      rfl
    · refine filter_line_of_ge ?_
      have := extent_pos hlive
      simp only [stop, Segment.size] at *
      omega
  | after h hlt =>
    rw [part, if_neg (by omega), if_neg (by omega)]
    rfl

end wanted

theorem records_of_chunks (hs : l'.sealed = l.sealed)
    (hpos : ∀ p ∈ placed 0 l'.sealed, 0 < p.2.size) :
    ((placed 0 l'.sealed).flatMap fun p => line p.1 p.1 (l.part p)) = Segment.records 0 l.sealed := by
  rw [hs] at hpos ⊢
  rw [records_eq_flatMap]
  refine List.flatMap_congr fun p hp => ?_
  have h₁ := (bounds_of_mem_placed hp).2
  have h₂ := hpos p hp
  rw [part, if_pos (by simp only [base]; omega)]

theorem records_of_live (hs : l'.sealed = l.sealed) (hpos : ∀ p ∈ placed 0 l'.sealed, 0 < p.2.size) :
    l.records = ((placed 0 l'.sealed).flatMap fun p => line p.1 p.1 (l.part p)) ++
      line l.base l.base l.live.payloads := by
  rw [records_of_chunks hs hpos, records, records_append]
  simp [Segment.records, base]

theorem records_of_sealed {s : Segment} {rest : List Segment} (hs : l'.sealed = l.sealed ++ s :: rest)
    (hpos : ∀ p ∈ placed 0 l'.sealed, 0 < p.2.size) :
    l.records = (placed 0 l'.sealed).flatMap fun p => line p.1 p.1 (l.part p) := by
  have hold : ∀ p ∈ placed 0 l.sealed, l.part p = p.2.payloads := by
    intro p hp
    have h₁ := (bounds_of_mem_placed hp).2
    have h₂ := hpos p (by rw [hs, placed_append]; exact List.mem_append_left _ hp)
    rw [part, if_pos (by simp only [base]; omega)]
  have hnew : ∀ p ∈ placed (l.base + s.size) rest, l.part p = [] := by
    intro p hp
    have h₁ := (bounds_of_mem_placed hp).1
    have h₂ : 0 < s.size := hpos (l.base, s) (by
      rw [hs, placed_append, Nat.zero_add, placed]
      simp [base])
    rw [part, if_neg (by omega), if_neg (by omega)]
  have hlive : l.part (l.base, s) = l.live.payloads := by simp [part]
  have hrest : ((placed (l.base + s.size) rest).flatMap fun p => line p.1 p.1 (l.part p)) = [] :=
    List.flatMap_eq_nil_iff.2 fun p hp => by rw [hnew p hp]; rfl
  have hfront : ((placed 0 l.sealed).flatMap fun p => line p.1 p.1 (l.part p)) =
      (placed 0 l.sealed).flatMap fun p => line p.1 p.1 p.2.payloads :=
    List.flatMap_congr fun p hp => by rw [hold p hp]
  rw [hs, placed_append, Nat.zero_add, placed, List.flatMap_append, List.flatMap_cons]
  change _ = _ ++ (line l.base l.base (l.part (l.base, s)) ++ _)
  rw [show span l.sealed = l.base from rfl, hrest, hfront, hlive, records, records_append,
    records_eq_flatMap]
  simp [Segment.records, base]

end Log

namespace Segment

variable {cfg : Config} {q : Place} {d : Disk} {ss : List Segment} {es : List (Nat × Chunk)}

theorem map_snd_zip (h : List.Forall₂ (Sealed cfg q d) (placed 0 ss) es) :
    es.map Prod.snd = ((placed 0 ss).zip es).map (·.2.2) := by
  conv_lhs => rw [← List.map_snd_zip (Nat.le_of_eq h.length_eq.symm)]
  rw [List.map_map]
  rfl

theorem flatMap_zip (h : List.Forall₂ (Sealed cfg q d) (placed 0 ss) es)
    (f : Nat × Segment → List Record) :
    (((placed 0 ss).zip es).flatMap fun z => f z.1) = (placed 0 ss).flatMap f := by
  conv_rhs => rw [← List.map_fst_zip (Nat.le_of_eq h.length_eq)]
  rw [List.flatMap_map]

end Segment

theorem forall₂_append_left {α β : Type} {R : α → β → Prop} {as bs : List α} {cs : List β}
    (h : List.Forall₂ R (as ++ bs) cs) :
    ∃ ds es, cs = ds ++ es ∧ List.Forall₂ R as ds ∧ List.Forall₂ R bs es := by
  induction as generalizing cs with
  | nil => exact ⟨[], cs, rfl, .nil, h⟩
  | cons a as ih =>
    cases h with
    | cons hac h =>
      obtain ⟨ds, es, rfl, h₁, h₂⟩ := ih h
      exact ⟨_ :: ds, es, rfl, .cons hac h₁, h₂⟩

theorem exists_of_mem_right {α β : Type} {R : α → β → Prop} {as : List α} {bs : List β} {b : β}
    (h : List.Forall₂ R as bs) (hb : b ∈ bs) : ∃ a ∈ as, R a b := by
  induction h with
  | nil => cases hb
  | cons hab _ ih =>
    rcases List.mem_cons.1 hb with rfl | hb
    · exact ⟨_, List.mem_cons_self, hab⟩
    · obtain ⟨a, ha, hR⟩ := ih hb
      exact ⟨a, List.mem_cons_of_mem _ ha, hR⟩

/-- Whether a chunk starts in what was live below a watermark. -/
def Watermark.covers (m : Watermark) (chunk : Chunk) : Bool :=
  decide (m.start ≤ chunk.start) && decide (chunk.start < m.stop)

namespace Plan

variable {cfg : Config} {q : Place} {d : Disk} {l l' : Log} {es : List (Nat × Chunk)} {start : Nat}

def wants (start stop : Nat) (c : Chunk) : Bool :=
  decide (start < c.stop) && decide (c.start < stop)

/-- The chunks that are wanted, and the live segment unless the last one listed starts with it. -/
theorem sources_build (m : Watermark) (chunks : List Chunk) (start : Nat) :
    (build m chunks start).sources = (chunks.filter (wants start m.stop)).map .chunk ++
      if (chunks.filter (wants start m.stop)).getLast?.any (·.start = m.start) = false ∧
        start < m.stop ∧ 0 < m.pos then [.live m] else [] := by
  simp only [build, Bool.and_eq_true, Bool.not_eq_true', decide_eq_true_eq, and_assoc]
  rfl

/-- If each chunk that is listed has its records and the others have none to show, then all records
are had together. -/
theorem exists_parts {R : Source → List Record → Prop} {stop : Nat}
    {f : (Nat × Segment) × (Nat × Chunk) → List Record}
    (zs : List ((Nat × Segment) × (Nat × Chunk)))
    (hwanted : ∀ z ∈ zs, wants start stop z.2.2 = true → R (.chunk z.2.2) (f z))
    (hunwanted : ∀ z ∈ zs, ¬ wants start stop z.2.2 = true → f z = []) :
    ∃ parts, List.Forall₂ R (((zs.map (·.2.2)).filter (wants start stop)).map .chunk) parts ∧
      parts.flatten = zs.flatMap f := by
  induction zs with
  | nil => exact ⟨[], .nil, rfl⟩
  | cons z zs ih =>
    obtain ⟨parts, hparts, hflat⟩ := ih (fun z hz => hwanted z (List.mem_cons_of_mem _ hz))
      fun z hz => hunwanted z (List.mem_cons_of_mem _ hz)
    by_cases hw : wants start stop z.2.2 = true
    · rw [List.map_cons, List.filter_cons_of_pos hw, List.map_cons]
      refine ⟨f z :: parts, .cons (hwanted z List.mem_cons_self hw) hparts, ?_⟩
      rw [List.flatten_cons, hflat, List.flatMap_cons]
    · rw [List.map_cons, List.filter_cons_of_neg hw]
      refine ⟨parts, hparts, ?_⟩
      rw [List.flatMap_cons, hunwanted z List.mem_cons_self hw, List.nil_append, hflat]

theorem sources_of_before {m : Watermark} {chunks : List Chunk}
    (h : ∀ chunk ∈ chunks, chunk.start < m.start) :
    (build m chunks start).sources = (chunks.filter (wants start m.stop)).map .chunk ++
      if start < m.stop ∧ 0 < m.pos then [.live m] else [] := by
  have hsince : (chunks.filter (wants start m.stop)).getLast?.any
      (fun chunk => decide (chunk.start = m.start)) = false := by
    rw [Option.any_eq_false]
    intro chunk hchunk
    have hlt := h chunk (List.mem_of_mem_filter (List.mem_of_getLast? hchunk))
    rw [decide_eq_false_iff_not]
    exact Nat.ne_of_lt hlt
  simp only [sources_build, hsince, true_and]

theorem sources_of_empty {m : Watermark} (h : m.pos = 0) (chunks : List Chunk) (start : Nat) :
    (build m chunks start).sources = (chunks.filter (wants start m.stop)).map .chunk := by
  rw [sources_build, if_neg (by simp [h]), List.append_nil]

theorem sources_of_live (hs : l'.sealed = l.sealed)
    (h : List.Forall₂ (Sealed cfg q d) (placed 0 l'.sealed) es) :
    (build l.watermark (es.map Prod.snd) start).sources =
      ((es.map Prod.snd).filter (wants start l.stop)).map .chunk ++
        if start < l.stop ∧ 0 < l.live.size then [.live l.watermark] else [] := by
  refine sources_of_before (m := l.watermark) fun chunk hchunk => ?_
  obtain ⟨e, he, rfl⟩ := List.mem_map.1 hchunk
  obtain ⟨p, hp, hpe⟩ := exists_of_mem_right h he
  have hlt := lt_of_mem_placed h hp
  rw [hs] at hlt
  rw [hpe.start]
  exact hlt

theorem sources_of_sealed {s : Segment} {rest : List Segment}
    (hs : l'.sealed = l.sealed ++ s :: rest) (hpre : l.live.payloads <+: s.payloads)
    (h : List.Forall₂ (Sealed cfg q d) (placed 0 l'.sealed) es) :
    (build l.watermark (es.map Prod.snd) start).sources =
      ((es.map Prod.snd).filter (wants start l.stop)).map .chunk := by
  rw [sources_build, if_neg, Log.stop_watermark, List.append_nil]
  rintro ⟨hsince, hlt, hpos⟩
  rw [Log.stop_watermark] at hsince hlt
  rw [hs, placed_append, Nat.zero_add, placed] at h
  obtain ⟨es₁, es₂, rfl, -, h₂⟩ := forall₂_append_left h
  obtain ⟨e, es₂, he, hrest, rfl⟩ := List.forall₂_cons_left_iff.1 h₂
  have hle := extent_le_of_prefix hpre
  have hstop : l.stop = l.base + extent l.live.payloads := rfl
  have hestop : e.2.stop = l.base + s.size := he.stop
  have hestart : e.2.start = l.base := he.start
  have hpos : 0 < extent l.live.payloads := hpos
  change extent l.live.payloads ≤ s.size at hle
  have hlast : (es₂.map Prod.snd).filter (wants start l.stop) = [] := by
    refine List.filter_eq_nil_iff.2 fun c hc => ?_
    obtain ⟨e', he', rfl⟩ := List.mem_map.1 hc
    obtain ⟨p, hp, hpe⟩ := exists_of_mem_right hrest he'
    have hge : l.base + s.size ≤ p.1 := (bounds_of_mem_placed hp).1
    simp only [wants, hpe.start, Bool.and_eq_true, decide_eq_true_eq, not_and]
    omega
  have hwant : wants start l.stop e.2 = true := by
    simp only [wants, Bool.and_eq_true, decide_eq_true_eq]
    omega
  rw [List.map_append, List.map_cons, List.filter_append, List.filter_cons_of_pos hwant, hlast,
    List.getLast?_concat] at hsince
  simp [hestart, Log.watermark] at hsince

/-- Only the last chunk listed is looked at for the segment that was live. If further chunks start
below the watermark, that segment is listed once more. -/
theorem sources_of_since {m : Watermark} {chunks front rest : List Chunk} {chunk : Chunk}
    (hchunks : chunks = front ++ chunk :: rest) (hfront : ∀ x ∈ front, x.start < m.start)
    (heq : chunk.start = m.start) (hrest : ∀ x ∈ rest, m.start < x.start)
    (hstop : ∀ x ∈ chunk :: rest, start < x.stop) (hlt : start < m.stop) (hpos : 0 < m.pos) :
    (build m chunks start).sources = (chunks.filter (wants start m.stop)).map .chunk ++
      if 2 ≤ chunks.countP m.covers then [.live m] else [] := by
  have hmstop : m.stop = m.start + m.pos := rfl
  have hwant : wants start m.stop chunk = true := by
    have := hstop chunk List.mem_cons_self
    simp only [wants, Bool.and_eq_true, decide_eq_true_eq]
    omega
  have hlisted : chunks.filter (wants start m.stop) =
      front.filter (wants start m.stop) ++ chunk :: rest.filter (wants start m.stop) := by
    rw [hchunks, List.filter_append, List.filter_cons_of_pos hwant]
  have hcount : chunks.countP m.covers = (rest.filter (wants start m.stop)).length + 1 := by
    have hbefore : front.countP m.covers = 0 := by
      refine List.countP_eq_zero.2 fun x hx => ?_
      have := hfront x hx
      simp only [Watermark.covers, Bool.and_eq_true, decide_eq_true_eq]
      omega
    have hchunk : m.covers chunk = true := by
      simp only [Watermark.covers, Bool.and_eq_true, decide_eq_true_eq]
      omega
    have hafter : rest.countP m.covers = rest.countP (wants start m.stop) := by
      refine List.countP_congr fun x hx => ?_
      have h₁ := hrest x hx
      have h₂ := hstop x (List.mem_cons_of_mem _ hx)
      simp only [Watermark.covers, wants, Bool.and_eq_true, decide_eq_true_eq]
      omega
    rw [hchunks, List.countP_append, hbefore, Nat.zero_add, List.countP_cons_of_pos hchunk, hafter,
      List.countP_eq_length_filter]
  rw [sources_build, hcount, hlisted]
  cases hlast : rest.filter (wants start m.stop) with
  | nil => simp [heq]
  | cons x xs =>
    have hsince : ((front.filter (wants start m.stop) ++ chunk :: x :: xs).getLast?).any
        (fun chunk => decide (chunk.start = m.start)) = false := by
      rw [Option.any_eq_false]
      intro y hy
      have hmem : y ∈ x :: xs := by
        rw [List.append_cons, List.getLast?_append_of_ne_nil _ (List.cons_ne_nil _ _)] at hy
        exact List.mem_of_getLast? hy
      have := hrest y (List.mem_of_mem_filter (hlast ▸ hmem))
      rw [decide_eq_false_iff_not]
      exact Nat.ne_of_gt this
    rw [hsince, if_pos (by simp [hlt, hpos]), if_pos (by simp)]

end Plan

end RecordLog
