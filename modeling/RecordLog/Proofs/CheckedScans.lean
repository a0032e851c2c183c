import Mathlib
import RecordLog.Proofs.CheckedReading
import RecordLog.Proofs.Interleaving

/-!
# Scans with checked arithmetic

A scan looks for its next item in a loop: each round asks the open cursor, or else opens the next
segment. With checked arithmetic a round does not crash, and it comes to the item of the plain scan
or nearer to it. Each round leaves less to come, in whatever world it takes place, so a scan yields
finitely many items.
-/

namespace RecordLog

open World

namespace Checked

structure Scan where
  reader : Reader
  plan : Plan
  cursor : Option Cursor := none
  failed : Bool := false

namespace Scan

def advance (s : Scan) : Op (Option Item × Scan) := fun w =>
  match s.plan.sources with
  | [] => .ok (some .done, { s with cursor := none }) w
  | source :: rest =>
    let s := { s with plan := { s.plan with sources := rest }, cursor := none }
    match openSource s.reader s.plan.start s.plan.stop source w with
    | .error (.error e) w => .ok (some (.error e), { s with failed := true }) w
    | .error .crash w => .error .crash w
    | .ok cursor w => .ok (none, { s with cursor := some cursor }) w

/-- One round of the loop in which a scan looks for its next item; `none` if the loop goes on. -/
def round (s : Scan) : Op (Option Item × Scan) :=
  if s.failed then pure (some .done, s)
  else
    match s.cursor with
    | none => s.advance
    | some cursor => do
      match ← cursor.next with
      | (some (.ok r), cursor) =>
        let item := if r.start < s.plan.start then none else some (.record r)
        pure (item, { s with cursor := some cursor })
      | (some (.error e), cursor) =>
        pure (some (.error e), { s with cursor := some cursor, failed := true })
      | (none, _) => s.advance

end Scan

end Checked

namespace Scan

variable {s : Scan} {cur cur' : Cursor} {w w' : World}

theorem advance_of_open (hf : s.failed = false) {source : Source} {rest : List Source}
    (h : s.reader.openSource s.plan.start s.plan.stop source w = .ok cur w') :
    s.advance (source :: rest) w =
      { s with plan := { s.plan with sources := rest }, cursor := some cur }.next w' := by
  obtain ⟨reader, ⟨start, stop, sources⟩, cursor, failed⟩ := s
  obtain rfl : failed = false := hf
  simp only [advance, next, h, Bool.false_eq_true, if_false]
  split
  · rfl
  · rfl
  · exact (advance_forget ⟨reader, ⟨start, stop, rest⟩, some cur, false⟩ rest w').symm

section cursor

variable (hf : s.failed = false) (hc : s.cursor = some cur)
include hf hc

theorem next_of_none (h : cur.next = (none, cur')) :
    s.next w = s.advance s.plan.sources w := by
  have hfrom : cur.nextFrom s.plan.start = (none, cur') := by rw [Cursor.nextFrom_eq, h]
  simp only [next, hf, hc, hfrom, Bool.false_eq_true, if_false]

theorem next_of_error {e : Error} (h : cur.next = (some (.error e), cur')) :
    s.next w = (.error e, { s with cursor := some cur', failed := true }, w) := by
  have hfrom : cur.nextFrom s.plan.start = (some (.error e), cur') := by
    rw [Cursor.nextFrom_eq, h]
  simp only [next, hf, hc, hfrom, Bool.false_eq_true, if_false]

theorem next_of_record {r : Record} (h : cur.next = (some (.ok r), cur'))
    (hr : ¬ r.start < s.plan.start) :
    s.next w = (.record r, { s with cursor := some cur' }, w) := by
  have hfrom : cur.nextFrom s.plan.start = (some (.ok r), cur') := by
    rw [Cursor.nextFrom_eq, h]
    exact if_neg hr
  simp only [next, hf, hc, hfrom, Bool.false_eq_true, if_false]

theorem next_of_skipped {r : Record} (h : cur.next = (some (.ok r), cur'))
    (hr : r.start < s.plan.start) : s.next w = { s with cursor := some cur' }.next w := by
  have hfrom : cur.nextFrom s.plan.start = cur'.nextFrom s.plan.start := by
    rw [Cursor.nextFrom_eq, h]
    exact if_pos hr
  obtain ⟨reader, plan, cursor, failed⟩ := s
  obtain rfl : failed = false := hf
  obtain rfl : cursor = some cur := hc
  simp only [next, hfrom, Bool.false_eq_true, if_false]
  split
  · rfl
  · rfl
  · exact (advance_forget ⟨reader, plan, some cur, false⟩ _ w).trans
      (advance_forget ⟨reader, plan, some cur', false⟩ _ w).symm

end cursor

end Scan

namespace Checked

namespace Scan

def plain (s : Scan) : RecordLog.Scan where
  reader := s.reader
  plan := s.plan
  cursor := s.cursor.map Cursor.plain
  failed := s.failed

structure Fits (s : Scan) : Prop where
  sources : ∀ source ∈ s.plan.sources, source.Fits s.plan.stop
  cursor : ∀ c, s.cursor = some c → c.Fits

def Ended (s : Scan) : Prop := s.failed = true ∨ s.cursor = none ∧ s.plan.sources = []

variable {s : Scan}

theorem round_of_ended (h : s.Ended) (w : World) : s.round w = .ok (some .done, s) w := by
  obtain ⟨reader, ⟨start, stop, sources⟩, cursor, failed⟩ := s
  rcases h with h | ⟨hc, hs⟩
  · obtain rfl : failed = true := h
    rfl
  · obtain rfl : cursor = none := hc
    obtain rfl : sources = [] := hs
    cases failed <;> rfl

/-- What a round does for the next item of the plain scan: it tells the item or comes nearer to it,
and does not crash. -/
structure Goes (s : Scan) (w : World) (next : Item × RecordLog.Scan × World) (item : Option Item)
    (s' : Scan) (w' : World) : Prop where
  next_eq : next = match item with
    | some item => (item, s'.plain, w')
    | none => s'.plain.next w'
  returned : item ≠ some .crash
  fits : s'.Fits
  reader : s'.reader = s.reader
  idle : Idle w w'
  nearer : s'.Ended ∧ item ≠ none ∨ RecordLog.Scan.Less s'.plain.left s.plain.left

theorem Fits.advance (hs : s.Fits) (hf : s.failed = false) (h : s.reader.Presumes w)
    (hk : s.reader.config.cipher.KeepsLength) :
    ∃ item s' w', s.advance w = .ok (item, s') w' ∧
      s.Goes w (s.plain.advance s.plan.sources w) item s' w' := by
  obtain ⟨reader, ⟨start, stop, sources⟩, cursor, failed⟩ := s
  obtain rfl : failed = false := hf
  cases sources with
  | nil =>
    exact ⟨_, _, w, rfl, rfl, by simp, ⟨hs.sources, fun _ hc => by cases hc⟩, rfl, .refl w,
      .inl ⟨.inr ⟨rfl, rfl⟩, by simp⟩⟩
  | cons source rest =>
    have hrest : ∀ source ∈ rest, source.Fits stop :=
      fun source hsource => hs.sources source (List.mem_cons_of_mem _ hsource)
    have hopens : Opens (openSource reader start stop source) _ w :=
      opens_source h hk (hs.sources source List.mem_cons_self)
    have hless (c : Option RecordLog.Cursor) : RecordLog.Scan.Less
        (RecordLog.Scan.left ⟨reader, ⟨start, stop, rest⟩, c, false⟩)
        (plain ⟨reader, ⟨start, stop, source :: rest⟩, cursor, false⟩).left :=
      .left _ _ (Nat.lt_succ_self _)
    cases hopens with
    | @cursor c w' hx hy hc hi =>
      refine ⟨none, ⟨reader, ⟨start, stop, rest⟩, some c, false⟩, w', ?_, ?_, by simp,
        ⟨hrest, ?_⟩, rfl, hi, .inr (hless _)⟩
      · simp only [Scan.advance, hx]
      · exact RecordLog.Scan.advance_of_open rfl hy
      · rintro _ ⟨⟩
        exact hc
    | @error e w' hx hy hi =>
      refine ⟨some (.error e), ⟨reader, ⟨start, stop, rest⟩, none, true⟩, w', ?_, ?_, by simp,
        ⟨hrest, fun _ hc => by cases hc⟩, rfl, hi, .inl ⟨.inl rfl, by simp⟩⟩
      · simp only [Scan.advance, hx]
      · simp only [plain, RecordLog.Scan.advance, hy]
        rfl

theorem Fits.round (hs : s.Fits) (h : s.reader.Presumes w)
    (hk : s.reader.config.cipher.KeepsLength) :
    ∃ item s' w', s.round w = .ok (item, s') w' ∧ s.Goes w (s.plain.next w) item s' w' := by
  by_cases hf : s.failed = true
  · have hnext : s.plain.next w = (.done, s.plain, w) := if_pos hf
    exact ⟨some .done, s, w, round_of_ended (.inl hf) w, hnext, by simp, hs, rfl, .refl w,
      .inl ⟨.inl hf, by simp⟩⟩
  have hadvance := hs.advance (Bool.eq_false_iff.2 hf) h hk
  obtain ⟨reader, plan, cursor, failed⟩ := s
  obtain rfl : failed = false := Bool.eq_false_iff.2 hf
  cases cursor with
  | none => exact hadvance
  | some c =>
    obtain ⟨found, c', hx, hplain, hc⟩ := (hs.cursor c rfl).next w
    have hfits (failed : Bool) : Fits ⟨reader, plan, some c', failed⟩ := by
      refine ⟨hs.sources, ?_⟩
      rintro _ ⟨⟩
      exact hc
    rcases found with _ | e | x
    · have hround : Scan.round ⟨reader, plan, some c, false⟩ w =
          Scan.advance ⟨reader, plan, some c, false⟩ w := Op.bind_of_ok hx
      rw [hround, RecordLog.Scan.next_of_none rfl rfl hplain]
      exact hadvance
    · have hround : Scan.round ⟨reader, plan, some c, false⟩ w =
          .ok (some (.error e), ⟨reader, plan, some c', true⟩) w := Op.bind_of_ok hx
      exact ⟨_, _, w, hround, RecordLog.Scan.next_of_error rfl rfl hplain, by simp, hfits true, rfl,
        .refl w, .inl ⟨.inl rfl, by simp⟩⟩
    · have hround : Scan.round ⟨reader, plan, some c, false⟩ w =
          .ok (if x.start < plan.start then none else some (.record x),
            ⟨reader, plan, some c', false⟩) w := Op.bind_of_ok hx
      have hless := RecordLog.Cursor.rest_lt_of_next hplain
      refine ⟨_, _, w, hround, ?_, ?_, hfits false, rfl, .refl w,
        .inr (.right _ (Nat.succ_lt_succ hless))⟩
      · by_cases hlt : x.start < plan.start
        · rw [if_pos hlt]
          exact RecordLog.Scan.next_of_skipped rfl rfl hplain hlt
        · rw [if_neg hlt]
          exact RecordLog.Scan.next_of_record rfl rfl hplain hlt
      · split <;> simp

theorem Fits.next {s : Scan} {w : World} (hs : s.Fits) (h : s.reader.Presumes w)
    (hk : s.reader.config.cipher.KeepsLength) :
    ∃ (item : Item) (s' : Scan) (w' : World), s.plain.next w = (item, s'.plain, w') ∧
      item ≠ .crash ∧ s'.Fits ∧ s'.reader = s.reader ∧ Idle w w' := by
  obtain ⟨item, s', w', -, hgoes⟩ := hs.round h hk
  cases item with
  | some item =>
    exact ⟨item, s', w', hgoes.next_eq, fun hitem => hgoes.returned (congrArg some hitem),
      hgoes.fits, hgoes.reader, hgoes.idle⟩
  | none =>
    have hless := hgoes.nearer.resolve_left fun hended => hended.2 rfl
    obtain ⟨item, s'', w'', hnext, hitem, hfits, hreader, hi⟩ := hgoes.fits.next
      (hgoes.reader ▸ h.idle hgoes.idle) (hgoes.reader ▸ hk)
    exact ⟨item, s'', w'', hgoes.next_eq.trans hnext, hitem, hfits, hreader.trans hgoes.reader,
      hgoes.idle.trans hi⟩
termination_by s.plain.left
decreasing_by exact hless

theorem Fits.collect (hs : s.Fits) (h : s.reader.Presumes w)
    (hk : s.reader.config.cipher.KeepsLength) : (s.plain.collect w).2.1 ≠ .crash := by
  generalize hp : s.plain = p
  fun_induction RecordLog.Scan.collect p w generalizing s with
  | case1 p w r p' w' hn _ records rest heq ih =>
    obtain ⟨item, s', w'', hnext, -, hfits, hreader, hi⟩ := hs.next h hk
    rw [hp, hn] at hnext
    cases hnext
    have hrest := ih hfits (hreader ▸ h.idle hi) (hreader ▸ hk) rfl
    rwa [heq] at hrest
  | case2 p w hn =>
    obtain ⟨item, s', w', hnext, hitem, -⟩ := hs.next h hk
    rw [← hp, hnext]
    exact hitem

/-- A scan after so many rounds, each of them in a world of its own. -/
def after (s : Scan) (worlds : Nat → World) : Nat → Scan
  | 0 => s
  | i + 1 =>
    match (s.after worlds i).round (worlds i) with
    | .ok (_, s') _ => s'
    | .error _ _ => s.after worlds i

theorem after_of_ended {worlds : Nat → World} {n i : Nat} (h : (s.after worlds n).Ended)
    (hi : n ≤ i) : s.after worlds i = s.after worlds n := by
  induction i, hi using Nat.le_induction with
  | base => rfl
  | succ i _ ih => rw [after, ih, round_of_ended h]

section rounds

variable {worlds : Nat → World} (hs : s.Fits) (h : ∀ i, s.reader.Presumes (worlds i))
  (hk : s.reader.config.cipher.KeepsLength)
include hs h hk

theorem Fits.after (i : Nat) :
    (s.after worlds i).Fits ∧ (s.after worlds i).reader = s.reader ∧
      ∃ item w', (s.after worlds i).round (worlds i) = .ok (item, s.after worlds (i + 1)) w' ∧
        (s.after worlds i).Goes (worlds i) ((s.after worlds i).plain.next (worlds i)) item
          (s.after worlds (i + 1)) w' := by
  have hround (i : Nat) (hfits : (s.after worlds i).Fits)
      (hreader : (s.after worlds i).reader = s.reader) :
      ∃ item w', (s.after worlds i).round (worlds i) = .ok (item, s.after worlds (i + 1)) w' ∧
        (s.after worlds i).Goes (worlds i) ((s.after worlds i).plain.next (worlds i)) item
          (s.after worlds (i + 1)) w' := by
    obtain ⟨item, s', w', hx, hgoes⟩ := hfits.round (hreader ▸ h i) (hreader ▸ hk)
    have hafter : s.after worlds (i + 1) = s' := by rw [Scan.after, hx]
    rw [hafter]
    exact ⟨item, w', hx, hgoes⟩
  induction i with
  | zero => exact ⟨hs, rfl, hround 0 hs rfl⟩
  | succ i ih =>
    obtain ⟨-, hreader, item, w', -, hgoes⟩ := ih
    have hreader' := hgoes.reader.trans hreader
    exact ⟨hgoes.fits, hreader', hround (i + 1) hgoes.fits hreader'⟩

theorem Fits.exists_ended : ∃ n, (s.after worlds n).Ended := by
  have hwf : WellFounded RecordLog.Scan.Less :=
    WellFounded.prod_lex Nat.lt_wfRel.wf Nat.lt_wfRel.wf
  have hfrom (m : Nat × Nat) : ∀ i, (s.after worlds i).plain.left = m →
      ∃ n, (s.after worlds n).Ended := by
    induction m using hwf.induction with
    | _ m ih =>
      rintro i rfl
      obtain ⟨-, -, item, w', -, hgoes⟩ := hs.after h hk i
      rcases hgoes.nearer with ⟨hended, -⟩ | hless
      · exact ⟨i + 1, hended⟩
      · exact ih _ hless (i + 1) rfl
  exact hfrom _ 0 rfl

end rounds

end Scan

end Checked

/-- Whatever the index lists and the files hold, no sum, difference or range is out of bounds when
a plan is made, when its segments are opened and when a scan goes through them, though everything
may change between its rounds; and from some round on it yields nothing. -/
theorem Reader.reading_never_crashes (r : Reader) (hk : r.config.cipher.KeepsLength)
    (start : Nat) {w : World} (hw : r.Presumes w) :
    Checked.plan r start w = r.plan start w ∧ ¬ (r.plan start).Crashes w ∧
      ∀ plan w', r.plan start w = .ok plan w' →
        (∀ source ∈ plan.sources, ∀ v, r.Presumes v →
          (Checked.Cursor.plain <$> Checked.openSource r start plan.stop source) v =
              r.openSource start plan.stop source v ∧
            ¬ (r.openSource start plan.stop source).Crashes v) ∧
        ∀ worlds : Nat → World, (∀ i, r.Presumes (worlds i)) →
          ∃ (scans : Nat → Checked.Scan) (items : Nat → Option Item),
            scans 0 = { reader := r, plan } ∧
            (∀ i, ∃ v, (scans i).round (worlds i) = .ok (items i, scans (i + 1)) v ∧
              items i ≠ some .crash ∧
              (scans i).plain.next (worlds i) = match items i with
                | some item => (item, (scans (i + 1)).plain, v)
                | none => (scans (i + 1)).plain.next v) ∧
            (∀ i, ((scans i).plain.collect (worlds i)).2.1 ≠ .crash) ∧
            ∃ n, ∀ i, n ≤ i → items i = some .done := by
  rcases Checked.plan_eq hw start with ⟨plan, w', hx, hy, hfits⟩ | ⟨e, w', hx, hy⟩
  swap
  · refine ⟨hx.trans hy.symm, Op.not_crashes_of_error hy, fun plan w' hplan => ?_⟩
    rw [hy] at hplan
    cases hplan
  refine ⟨hx.trans hy.symm, Op.not_crashes_of_ok hy, fun plan' w'' hplan => ?_⟩
  rw [hy] at hplan
  cases hplan
  refine ⟨fun source hsource v hv => ?_, fun worlds hworlds => ?_⟩
  · have hopens : Checked.Opens (Checked.openSource r start plan.stop source) _ v :=
      Checked.opens_source hv hk (hfits source hsource)
    exact ⟨hopens.map_plain_eq, hopens.not_crashes⟩
  let s : Checked.Scan := { reader := r, plan }
  have hs : s.Fits := ⟨hfits, fun c hc => by cases hc⟩
  choose item v hround hgoes using fun i => (hs.after hworlds hk i).2.2
  refine ⟨s.after worlds, item, rfl,
    fun i => ⟨v i, hround i, (hgoes i).returned, (hgoes i).next_eq⟩, fun i => ?_, ?_⟩
  · obtain ⟨hfits, hreader, -⟩ := hs.after hworlds hk i
    exact hfits.collect (hreader ▸ hworlds i) (hreader ▸ hk)
  · obtain ⟨n, hended⟩ := hs.exists_ended hworlds hk
    refine ⟨n, fun i hi => ?_⟩
    have hafter := Checked.Scan.after_of_ended hended hi
    have hdone := Checked.Scan.round_of_ended (hafter ▸ hended) (worlds i)
    rw [hround i] at hdone
    injection hdone with hdone
    exact (Prod.mk.inj hdone).1

/-- An index with overlapping chunks under keys of no meaning, and a live segment with no file. -/
def World.overlapping : World :=
  { World.blank with
    disk :=
      { names := ⟨[(["a"], .file 0), (["b"], .file 1)]⟩
        files := [.bytes (Sparse.ofBytes [2, 9, 0]), .bytes (Sparse.ofBytes [2, 7, 2, 6])] }
    stores := [{ medium := .memory {
      chunks := ⟨[(9, ⟨"a", 2, 3, 3, 2⟩), (40, ⟨"b", 0, 4, 4, 2⟩)]⟩ } }]
    marks := [⟨2, 5, 0⟩] }

/-- The chunk that starts where the missing file does is read a second time in its place. -/
theorem Reader.reading_never_crashes_overlapping :
    ∃ (r : Reader) (w : World), r.Presumes w ∧ Checked.plan r 1 w = r.plan 1 w ∧
      ∃ plan w', r.plan 1 w = .ok plan w' ∧
        plan.sources = [.chunk ⟨"a", 2, 3, 3, 2⟩, .chunk ⟨"b", 0, 4, 4, 2⟩, .live ⟨2, 5, 0⟩] ∧
        (∀ source ∈ plan.sources, ¬ (r.openSource 1 plan.stop source).Crashes w) ∧
        r.readFrom 1 w = ([⟨[9], 2, 2, 4⟩, ⟨[], 2, 4, 5⟩, ⟨[6], 0, 2, 4⟩, ⟨[9], 2, 2, 4⟩,
          ⟨[], 2, 4, 5⟩], .done) := by
  have hpresumes : Reader.Presumes ⟨.plain, 0, 0⟩ .overlapping := by
    refine ⟨World.Calm.returns rfl, by decide, ?_⟩
    rintro _ ⟨⟩ _ _ ⟨⟩
    decide
  have hkeeps : Config.plain.cipher.KeepsLength := by
    rintro _ _ x y ⟨⟩
    rfl
  obtain ⟨hplan, -, hall⟩ := Reader.reading_never_crashes ⟨.plain, 0, 0⟩ hkeeps 1 hpresumes
  have hplanned : (Reader.plan ⟨.plain, 0, 0⟩ 1).passes (fun plan _ => plan.sources ==
      [.chunk ⟨"a", 2, 3, 3, 2⟩, .chunk ⟨"b", 0, 4, 4, 2⟩, .live ⟨2, 5, 0⟩])
      .overlapping = true := by
    decide +kernel
  obtain ⟨plan, w', hop, hsources⟩ := Op.exists_of_passes hplanned
  obtain ⟨hopens, -⟩ := hall plan w' hop
  let writer : Writer := ⟨.plain, 0, 0, ⟨.fresh 0 0 0, 0, 0⟩, {}⟩
  exact ⟨_, _, hpresumes, hplan, plan, w', hop, by simpa using hsources,
    fun source hsource => (hopens source hsource _ hpresumes).2,
    Reader.readFrom_of_readAmid (s := (writer, .overlapping)) (by decide +kernel)
      (by decide +kernel)⟩

end RecordLog
