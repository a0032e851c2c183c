import Mathlib
import RecordLog.Proofs.Refinement
import RecordLog.Proofs.UnlinkedLives

/-!
# A live file that is unlinked loses nothing

If the live file of a log is removed by somebody else, its writer goes on as if it was still there,
since it has the file open. Readers miss it and say so, until the segment is sealed. From then on
nobody can tell that it was ever gone.
-/

namespace RecordLog

open Record Segment

variable {cfg : Config} {q : Place} {l l' : Log} {c c' : Catalog} {id : StoreId} {writer : Writer}
  {w w' : World} {g : Ledger} {s s' : Writer × World} {first : Nat}

/-- The ledger after steps of a writer. -/
def Ledger.through (g : Ledger) : List Step → Writer × World → Ledger
  | [], _ => g
  | step :: steps, s =>
    (g.after step.action (step.take s).1 s.1 (step.take s).2.1).through steps (step.take s).2

theorem Ledger.records_through (g : Ledger) (steps : List Step) (s : Writer × World) :
    (g.through steps s).records = g.records ++ (run steps s).1 := by
  induction steps generalizing g s with
  | nil => exact (List.append_nil _).symm
  | cons step steps ih => rw [through, ih, run, after, List.append_assoc]

theorem Held.run (h : Held cfg q l c writer id w g) (steps : List Step) :
    ∃ l' c', Held cfg q l' c' (run steps (writer, w)).2.1 id (run steps (writer, w)).2.2
        (g.through steps (writer, w)) ∧
      Follows q l c (writer, w) l' c' (run steps (writer, w)).2 := by
  induction steps generalizing l c writer w g with
  | nil => exact ⟨l, c, h, h.settled.refl⟩
  | cons step steps ih =>
    obtain ⟨l₁, c₁, -, -, -, hf, h₁⟩ := h.act_outcome step
    obtain ⟨l₂, c₂, h₂, hf₂⟩ := ih h₁
    exact ⟨l₂, c₂, h₂, hf.trans hf₂⟩

theorem Held.remove_live (h : Held cfg q l c writer id w g) :
    w.disk.remove (writer.config.locate writer.buffer.file) =
        .ok (w.disk.without (q ++ [bufferFileName l.base])) ∧
      Writer.Lacks writer.config q l.base (writer, w)
        (writer, w.without (q ++ [bufferFileName l.base])) := by
  have hc := h.settled.carries
  refine ⟨?_, rfl, rfl, ?_, ?_, ⟨hc.home, ?_⟩, rfl⟩
  · rw [hc.file_eq, Disk.remove, Disk.resolve_of_reaches hc.home (LogName.live l.base).plain
      hc.reaches, hc.linked]
    rfl
  · rw [hc.file_eq, hc.start_eq]
  · rw [hc.start_eq]
  · rw [hc.linked]
    exact fun hf => by cases hf

/-- Without a name, scans that need the live segment show the records before it and then report its
file as missing, though the writer goes on, as long as that does not seal the segment. -/
def Writer.Starves (p : Place) (s : Writer × World) : Prop :=
  ∀ start listing waits shown, s.1.reader.readAmid start listing waits (s.1, s.2.without p) = shown →
    start < s.1.buffer.stop → 0 < s.1.buffer.pos →
    shown.after.1.buffer.start = s.1.buffer.start →
    Store.HasRoom shown.after.1.store shown.after.1.buffer.stop shown.after.2 →
    shown.last = .error (.io "open live buffer" IoCause.noEntry) ∧
      shown.stop = some s.1.buffer.stop ∧
      ∃ all, s.1.reader.readFrom 0 s.2 = (all, .done) ∧
        shown.records = (all.filter (·.start < s.1.buffer.start)).filter (start ≤ ·.start)

/-- A log has no need of a name. Whatever can happen to it can happen without the name, a writer is
answered the same, and a scan shows the payloads that the ledger tells. -/
def Moment.Needless (cfg : Config) (p : Place) (n : Moment) : Prop :=
  ∀ n', Relation.ReflTransGen (Turn cfg) n n' →
    Relation.ReflTransGen (Turn cfg) { n with world := n.world.without p }
        { n' with world := n'.world.without p } ∧
      ∀ writer, n'.writer = some writer →
        (∀ steps, answers steps (writer, n'.world.without p) = answers steps (writer, n'.world)) ∧
          (Store.HasRoom writer.store writer.buffer.stop n'.world →
            ∃ all, writer.reader.readFrom 0 (n'.world.without p) = (all, .done) ∧
              writer.Shows (n'.world.without p) (n'.ledger.records.map Prod.fst) 0 all)

theorem Settled.starves (h : Settled q l c s)
    (hl : Writer.Lacks s.1.config q l.base s (s.1, s.2.without (q ++ [bufferFileName l.base]))) :
    Writer.Starves (q ++ [bufferFileName l.base]) s := by
  intro start listing waits shown hshown hstart hpos hafter hroom
  have hc := h.carries
  rw [hc.stop_eq] at hstart ⊢
  rw [hc.pos_eq] at hpos
  rw [hc.start_eq] at hafter ⊢
  obtain ⟨l₁, c₁, ⟨s₁, hf, hl₁⟩, herror⟩ := h.readAmid_lost hl hstart hpos listing waits hshown
  have hc₁ := hf.settled.carries
  rw [hl₁.same, hl₁.world.eq] at hroom
  have hlist := hc₁.listable hroom
  have hbase : l₁.base = l.base := by rw [← hc₁.start_eq, ← hl₁.same, hafter]
  obtain ⟨hrecords, hlast, hstop⟩ := herror hbase (by
    rw [hl₁.world.eq, ← hf.store]
    exact hlist)
  refine ⟨hlast, hstop, l.records, ?_, ?_⟩
  · have hread := h.readFrom (hf.listable (hf.store ▸ hlist)) (Log.boundary_of_told (.inl rfl))
    rwa [filter_start_zero] at hread
  · rw [hrecords, Log.filter_records]

theorem Held.needless (h : Held cfg q l c writer id w g) (hz : cfg.compressor.Lawful)
    (hc : cfg.cipher.Lawful) (hlt : first < l.base)
    (hl : w.disk.Loose cfg q (bufferFileName first)) :
    Moment.Needless cfg (q ++ [bufferFileName first]) ⟨some writer, id, w, g⟩ := by
  rintro ⟨o, id₁, w₁, g₁⟩ hturns
  obtain ⟨_, l₁, c₁, hturns', ⟨hl₁, rfl⟩, h₁, hlt₁⟩ :=
    Moment.turns_without hz hc (.held h) hlt ⟨hl, rfl⟩ hturns
  refine ⟨hturns', fun writer₁ hw => ?_⟩
  obtain rfl : o = some writer₁ := hw
  cases h₁ with
  | held h₁ =>
    have hc₁ := h₁.settled.carries
    have hlacks : World.Lacks writer₁.config q (bufferFileName first) w₁ (w₁.without _) :=
      World.Lacks.alike ⟨hl₁, rfl⟩ h₁.alike
    refine ⟨fun steps => ?_, fun hroom => ?_⟩
    · have hs : Writer.Lacks writer₁.config q first (writer₁, w₁) (writer₁, w₁.without _) :=
        ⟨rfl, rfl, hc₁.file_eq.trans (congrArg bufferFileName hc₁.start_eq.symm),
          hc₁.start_eq ▸ Nat.le_of_lt hlt₁, hlacks⟩
      exact (hs.run steps).1
    · have hset := h₁.settled.without hlacks.loose (Nat.ne_of_lt hlt₁)
      have hlist := hset.carries.listable hroom
      have hzero : l₁.Boundary 0 := Log.boundary_of_told (.inl rfl)
      have hread := hset.readFrom hlist hzero
      have hshows := hset.shows hlist hzero
      rw [filter_start_zero] at hread hshows
      refine ⟨l₁.records, hread, ?_⟩
      rw [h₁.tells.records, map_told]
      exact hshows

theorem Settled.lt_of_sealLive (h : Settled q l c s) (hpos : 0 < s.1.buffer.pos)
    {k : Circumstances} {answer : Option Nat} (hseal : (Step.take ⟨.sealLive, k⟩ s).1 = .ok answer) :
    s.1.buffer.start < (Step.take ⟨.sealLive, k⟩ s).2.1.buffer.start := by
  obtain ⟨l', c', s₁, ho, -, hf⟩ := h.take_outcome ⟨.sealLive, k⟩
  rw [h.carries.start_eq, hf.settled.carries.start_eq]
  rw [hseal] at ho
  cases ho with
  | empty hnil => exact absurd (h.carries.pos_eq_zero.2 hnil) (Nat.ne_of_gt hpos)
  | sealed hne _ _ _ =>
    rw [Log.base_rotate]
    exact Writer.base_lt_stop hne

/-- If the live file is unlinked, all later operations answer what they would have answered and leave
what they would have left, but for the name. Scans starve until the segment is sealed, which sealing
what is in it does. After that there is no need of the name, and the log has all payloads that were
appended. -/
theorem Life.loses_nothing (h : Life cfg (some writer) id w g) (hz : cfg.compressor.Lawful)
    (hc : cfg.cipher.Lawful) :
    ∃ p, w.disk.remove (writer.config.locate writer.buffer.file) = .ok (w.disk.without p) ∧
      ∀ steps {appended : List (Bytes × Nat)} {s : Writer × World},
        run steps (writer, w) = (appended, s) →
        answers steps (writer, w.without p) = answers steps (writer, w) ∧
          run steps (writer, w.without p) = (appended, (s.1, s.2.without p)) ∧
          (s.1.buffer.start = writer.buffer.start → Writer.Starves p s ∧
            ∀ k answer, 0 < s.1.buffer.pos →
              (Step.take ⟨.sealLive, k⟩ (s.1, s.2.without p)).1 = .ok answer →
                (Step.take ⟨.sealLive, k⟩ (s.1, s.2.without p)).2.1.buffer.start ≠
                  writer.buffer.start) ∧
          (s.1.buffer.start ≠ writer.buffer.start →
            (g.through steps (writer, w)).records = g.records ++ appended ∧
              Moment.Needless cfg p ⟨some s.1, id, s.2, g.through steps (writer, w)⟩) := by
  obtain ⟨q, l, c, hheld⟩ := h.held hz hc
  obtain ⟨hd, hlost⟩ := hheld.remove_live
  refine ⟨_, hd, fun steps appended s hrun => ?_⟩
  obtain ⟨hanswers, happended, hl⟩ := hlost.run steps
  obtain ⟨l', c', hheld', hf⟩ := hheld.run steps
  have hrecords := g.records_through steps (writer, w)
  rw [hrun] at happended hl hheld' hf hrecords
  have hstate : (run steps (writer, w.without (q ++ [bufferFileName l.base]))).2 =
      (s.1, s.2.without (q ++ [bufferFileName l.base])) := Prod.ext hl.same hl.world.eq
  rw [hstate] at hl
  have hstart : writer.buffer.start = l.base := hheld.settled.carries.start_eq
  have hstart' : s.1.buffer.start = l'.base := hf.settled.carries.start_eq
  refine ⟨hanswers, Prod.ext happended hstate, fun hsame => ⟨?_, fun k answer hpos hseal => ?_⟩,
    fun hne => ⟨hrecords, ?_⟩⟩
  · have hbase : l.base = l'.base := by rw [← hstart, ← hstart', hsame]
    rw [hbase] at hl ⊢
    exact hf.settled.starves (hf.config ▸ hl)
  · obtain ⟨hanswer, hnext⟩ := hl.take ⟨.sealLive, k⟩
    rw [hanswer] at hseal
    rw [hnext.same, ← hsame]
    exact Nat.ne_of_gt (hf.settled.lt_of_sealLive hpos hseal)
  · have hlt : l.base < l'.base :=
      Nat.lt_of_le_of_ne hf.grows.base_le fun heq => hne (by rw [hstart, hstart', heq])
    exact hheld'.needless hz hc hlt (hl.world.alike hheld.alike.symm).loose

/-- A scan misses the live file and says so, after an append that cannot seal the segment, one that
fits and a checkpoint, until another append has sealed the segment. -/
theorem loses_nothing_unsealed :
    let steps : List Step := [⟨.append [3, 4] (by decide), { refuses := true }⟩,
      ⟨.append [] (by decide), {}⟩, ⟨.checkpoint, {}⟩]
    ∃ writer w g d s s', Life .plain (some writer) 0 w g ∧ g.records = [([1, 2], 3)] ∧
      w.disk.remove (writer.config.locate writer.buffer.file) = .ok d ∧
      run steps (writer, { w with disk := d }) = ([([], 4)], s) ∧
      s.1.reader.readFrom 0 s.2 = ([], .error (.io "open live buffer" IoCause.noEntry)) ∧
      run (steps ++ [⟨.append [5] (by decide), {}⟩]) (writer, { w with disk := d }) =
        ([([], 4), ([5], 6)], s') ∧
      ∃ all, s'.1.reader.readFrom 0 s'.2 = (all, .done) ∧
        s'.1.Shows s'.2 [[1, 2], [], [5]] 0 all := by
  intro steps
  let more := steps ++ [⟨.append [5] (by decide), {}⟩]
  have hlife := (Life.found World.sound_blank (World.Calm.returns rfl) (by decide) Founding.blank
    rfl).act ⟨.append [1, 2] (by decide), {}⟩
  obtain ⟨writer, w, g, hlife, hrecords, hzero, hfacts⟩ :
      ∃ writer w g, Life .plain (some writer) 0 w g ∧ g.records = [([1, 2], 3)] ∧
        writer.buffer.start = 0 ∧
        (w.disk.remove (writer.config.locate writer.buffer.file)).toOption.any (fun d =>
          let out := run steps (writer, { w with disk := d })
          let shown := out.2.1.reader.readAmid 0 [] (fun _ => {}) out.2
          let out' := run more (writer, { w with disk := d })
          out.1 == [([], 4)] && out.2.1.buffer.start == 0 && out.2.1.buffer.pos == 4 &&
            shown.after.1.buffer.start == 0 &&
            !shown.after.2.stores[shown.after.1.store]?.any (·.medium.inFile) &&
            out'.1 == [([], 4), ([5], 6)] && out'.2.1.buffer.start == 4 &&
            !out'.2.2.stores[out'.2.1.store]?.any (·.medium.inFile)) = true :=
    ⟨_, _, _, hlife, by decide +kernel, by decide +kernel, by decide +kernel⟩
  obtain ⟨p, hp, hlost⟩ :=
    hlife.loses_nothing Compressor.lawful_identity Cipher.lawful_identity
  rw [hp] at hfacts
  rcases hrun : run steps (writer, w) with ⟨appended, s⟩
  rcases hrun' : run more (writer, w) with ⟨appended', s'⟩
  obtain ⟨-, hgone, hbefore, -⟩ := hlost _ hrun
  obtain ⟨-, hgone', -, hsealed⟩ := hlost _ hrun'
  have hworld : ({ w with disk := w.disk.without p } : World) = w.without p := rfl
  simp only [Except.toOption, Option.any_some, hworld, hgone, hgone', Bool.and_eq_true, beq_iff_eq, Bool.not_eq_true'] at hfacts
  obtain ⟨⟨⟨⟨⟨⟨⟨rfl, hstart⟩, hpos⟩, hafter⟩, hmemory⟩, rfl⟩, hstart'⟩, hmemory'⟩ := hfacts
  refine ⟨writer, w, g, _, _, _, hlife, hrecords, hp, hgone, ?_, hgone', ?_⟩
  · obtain ⟨hstarves, -⟩ := hbefore (hstart.trans hzero.symm)
    obtain ⟨hlast, -, all, -, hshown⟩ := hstarves 0 [] (fun _ => {}) _ rfl
      (by rw [BufferState.stop]; omega) (by omega) (hafter.trans hstart.symm) (.of_memory hmemory)
    refine Reader.readFrom_of_readAmid (s := (s.1, s.2.without p)) ?_ hlast
    rw [hshown, hstart]
    simp
  · obtain ⟨hall, hneedless⟩ := hsealed (by rw [hstart', hzero]; decide)
    obtain ⟨all, hread, hshows⟩ := ((hneedless _ .refl).2 s'.1 rfl).2 (.of_memory hmemory')
    rw [hall, hrecords] at hshows
    exact ⟨all, hread, hshows⟩

end RecordLog
