import Mathlib
import RecordLog.Proofs.Outlines
import RecordLog.Proofs.Refinement

/-!
# Operations that fail

An operation that fails leaves a log as it was before, or, if it was an append that had already
made room for its record, as sealing the live segment leaves it. The live file holds the records of
the live segment and nothing else, and whatever succeeds from then on succeeds in the same way.
-/

namespace RecordLog

open Record Segment

def World.tables (w : World) (id : StoreId) : Option Tables :=
  w.stores[id]?.map (·.tables w.disk)

/-- A failure did not get anywhere: nothing changed that a writer, its readers or a later opening
go by. -/
structure Untouched (s s' : Writer × World) : Prop where
  writer : s'.1 = s.1
  mark : s'.2.marks[s.1.mark]? = s.2.marks[s.1.mark]?
  tables : s'.2.tables s.1.store = s.2.tables s.1.store

/-- The live file holds the records that its segment counts, encoded in one piece, and they are the
last of some payloads. -/
def Writer.Clean (writer : Writer) (w : World) (payloads : List Bytes) : Prop :=
  ∃ ps f bytes, ps <:+ payloads ∧ ps.length = writer.buffer.records ∧
    w.disk.find (writer.config.locate writer.buffer.file) = .ok (.file f) ∧
    w.disk.content f = .bytes bytes ∧ bytes.size = writer.buffer.pos ∧
    (contents ps).length = writer.buffer.pos ∧
    (ps ≠ [] → writer.config.cipher.encodeAt writer.buffer.id 0 (contents ps) = .ok bytes.toBytes)

/-- Two writers whose logs differ in their salts and their files at most. -/
structure SameLog (s s' : Writer × World) : Prop where
  state : { s'.1.buffer.state with salt := 0 } = { s.1.buffer.state with salt := 0 }
  stats : s'.1.stats = s.1.stats
  scan : Store.HasRoom s.1.store s.1.buffer.stop s.2 →
    Store.HasRoom s'.1.store s'.1.buffer.stop s'.2 →
      s'.1.reader.readFrom 0 s'.2 = s.1.reader.readFrom 0 s.2

variable {q : Place} {l l' : Log} {c c' : Catalog} {writer : Writer} {w w' : World}
  {s s' : Writer × World} {g : Ledger} {cfg : Config} {id : StoreId}

theorem World.tables_under (i : StoreId) (k : Circumstances) :
    (w.under i k).tables id = w.tables id := by
  simp only [tables, under, List.getElem?_modify]
  cases w.stores[id]? with
  | none => rfl
  | some s =>
    simp only [Option.map_eq_map, Option.map_some]
    split <;> rfl

theorem World.tables_changes {F : Footprint} (hk : Store.Keeps q id c w) (hs : w.disk.Sound)
    (hF : F.InLog q w.disk) (hc : World.Changes F w w') : w'.tables id = w.tables id := by
  obtain ⟨s, hst, -, -, hm⟩ := hk
  rw [tables, tables, hc.stores, hst, Option.map_some, Option.map_some]
  cases hmed : s.medium with
  | memory c' => simp only [Store.tables, hmed]
  | file f =>
    rw [hmed] at hm
    have hcontent := (hm.1.changes hs hF hc.disk).2
    simp only [Store.tables, hmed, hcontent]

theorem Writer.Unmoved.untouched (h : Carries q l c writer w)
    (hu : Unmoved q l c writer w s') : Untouched (writer, w) s' where
  writer := hu.same
  mark := by
    obtain ⟨F, -, hch⟩ := hu.changes
    rw [hch.marks]
  tables := by
    obtain ⟨F, hF, hch⟩ := hu.changes
    exact World.tables_changes h.index h.sound hF.inLog hch

theorem untouched_under_left {i : StoreId} {k : Circumstances} :
    Untouched (writer, w.under i k) s' ↔ Untouched (writer, w) s' :=
  ⟨fun h => ⟨h.writer, h.mark, h.tables.trans (World.tables_under _ _)⟩,
    fun h => ⟨h.writer, h.mark, h.tables.trans (World.tables_under _ _).symm⟩⟩

theorem untouched_under_right {i : StoreId} {k : Circumstances} :
    Untouched s (writer, w.under i k) ↔ Untouched s (writer, w) :=
  ⟨fun h => ⟨h.writer, h.mark, (World.tables_under _ _).symm.trans h.tables⟩,
    fun h => ⟨h.writer, h.mark, (World.tables_under _ _).trans h.tables⟩⟩

theorem Writer.Carries.clean (h : Carries q l c writer w) (hc : writer.config.cipher.Lawful) :
    writer.Clean w l.payloads := by
  obtain ⟨x, hx, hw⟩ := h.file.written
  have hflat : (l.live.payloads.map encode).flatten = contents l.live.payloads :=
    List.flatMap_def.symm
  refine ⟨l.live.payloads, writer.buffer.handle, x, List.suffix_append _ _, h.records_eq.symm, ?_,
    hx, h.file.size_eq hx, ?_, fun hne => ?_⟩
  · rw [h.file_eq, Disk.find_of_reaches h.home (LogName.live l.base).plain h.reaches, h.linked]
  · rw [h.file.pos, hflat]
  · rw [← hflat]
    exact hw.encodeAt_eq hc (by simpa using hne)

theorem Writer.MadeRoom.take_sealLive {data : Bytes} {l₁ : Log} {c₁ : Catalog}
    {s₁ : Writer × World} {k : Circumstances}
    (h : Carries q l c writer (w.under writer.store k))
    (hf : writer.buffer.fits (size data) = false)
    (hm : MadeRoom q l c writer (w.under writer.store k) data l₁ c₁ s₁) :
    (Step.mk .sealLive k).take (writer, w) = (.ok none, (s₁.1, s₁.2.under s₁.1.store {})) := by
  have hpos : ¬ writer.buffer.pos = 0 := fun h0 => not_fits_pos h hf (h.pos_eq_zero.1 h0)
  have hseal : sealLive (writer, w.under writer.store k) =
      rotate (writer, w.under writer.store k) := by
    simp only [sealLive, Writing.writer, bind, EStateM.bind, get, getThe, MonadStateOf.get,
      EStateM.get, pure, EStateM.pure, hpos, if_false]
  cases hm with
  | fits hf' =>
    rw [hf] at hf'
    cases hf'
  | sealed _ hrot _ _ _ =>
    simp only [Step.take, Action.perform, Writing.attempt, bind, EStateM.bind, hseal, hrot, pure,
      EStateM.pure]

/-- Logs of one outline cannot be told apart. -/
theorem Settled.sameLog (h : Settled q l c s) (h' : Settled q l' c' s')
    (ho : l'.outline s'.1 = l.outline s.1) : SameLog s s' where
  state := by
    have hstate : s'.1.buffer.state = l'.state s'.1.buffer.capacity := h'.carries.state
    rw [hstate, show s.1.buffer.state = _ from h.carries.state, Log.state_outline,
      Log.state_outline, ho]
  stats := congrArg Outline.stats ho
  scan hr hr' := by
    have hrecords : l'.records = l.records := by
      rw [Log.records_outline, Log.records_outline, show l'.sealed.map Segment.payloads = _ from
        congrArg Outline.sealed ho, show l'.live.payloads = _ from congrArg Outline.live ho]
      rfl
    rw [h.readFrom (h.carries.listable hr) (Log.boundary_of_told (.inl rfl)),
      h'.readFrom (h'.carries.listable hr') (Log.boundary_of_told (.inl rfl)), hrecords]

theorem Settled.sameLog_run (h : Settled q l c s) (h' : Settled q l' c' s')
    (hcfg : s'.1.config = s.1.config) (ho : l'.outline s'.1 = l.outline s.1) (steps : List Step)
    (hok : ∀ answer ∈ answers steps s, ∃ n, answer = .ok n)
    (hok' : ∀ answer ∈ answers steps s', ∃ n, answer = .ok n) :
    answers steps s' = answers steps s ∧
      SameLog (RecordLog.run steps s).2 (RecordLog.run steps s').2 := by
  obtain ⟨l₁, c₁, hf, hanswers, hrun⟩ := h.outline_eq steps hok
  obtain ⟨l₁', c₁', hf', hanswers', hrun'⟩ := h'.outline_eq steps hok'
  rw [hcfg, ho] at hanswers' hrun'
  exact ⟨hanswers'.trans hanswers.symm, hf.settled.sameLog hf'.settled (hrun'.trans hrun.symm)⟩

/-- An operation that fails changes nothing, or, if it is an append to a full segment, what sealing
that segment in the same circumstances changes. In either case the live file holds the records of
the live segment, and steps that succeed from then on answer and lead to what they would without
the operation, or with the sealing in its place. -/
theorem Life.untouched_of_error (h : Life cfg (some writer) id w g) (hz : cfg.compressor.Lawful)
    (hc : cfg.cipher.Lawful) (step : Step) {stop : Stop} {s' : Writer × World}
    (hfail : step.take (writer, w) = (.error stop, s')) :
    ∃ s₀, (s₀ = (writer, w) ∨ ∃ data hd, step.action = .append data hd ∧
        writer.buffer.fits (size data) = false ∧
        (Step.mk .sealLive step.circumstances).take (writer, w) = (.ok none, s₀)) ∧
      Untouched s₀ s' ∧ s'.1.Clean s'.2 (g.records.map Prod.fst) ∧
      ∀ later, (∀ answer ∈ answers later s₀, ∃ n, answer = .ok n) →
        (∀ answer ∈ answers later s', ∃ n, answer = .ok n) →
          answers later s' = answers later s₀ ∧ SameLog (run later s₀).2 (run later s').2 := by
  obtain ⟨q, l, c, hheld⟩ := h.held hz hc
  have hset := hheld.settled
  have hready := hset.ready step.circumstances
  have hpay : g.records.map Prod.fst = l.payloads := by
    rw [hheld.tells.records, map_told]
  obtain ⟨l', c', s₁, ho, hs', hf⟩ := hset.take_outcome step
  rw [hfail] at ho hs' hf
  have hset' := hf.settled
  dsimp only at ho hs' hset'
  obtain ⟨action, k⟩ := step
  cases ho with
  | @refused _ _ w₁ hu =>
    refine ⟨(writer, w), .inl rfl, ?_, ?_, fun later hok hok' => ?_⟩
    · rw [hs', untouched_under_right]
      exact untouched_under_left.1 (hu.untouched hready.carries)
    · rw [hpay]
      exact hset'.carries.clean hset'.cipher
    · exact hset.sameLog_run hset' hf.config (by rw [hs']) later hok hok'
  | @madeRoom data hd _ _ _ s₁ w₁ hfits hroom hu =>
    have hcar := hroom.carries hready.carries
    have hseal := hroom.take_sealLive hready.carries hfits
    have hset₀ : Settled q l' c' (s₁.1, s₁.2.under s₁.1.store {}) :=
      .of_carries hcar (hroom.config.1 ▸ hset.compressor) (hroom.config.1 ▸ hset.cipher)
    refine ⟨_, .inr ⟨data, hd, rfl, hfits, hseal⟩, ?_, ?_, fun later hok hok' => ?_⟩
    · rw [hs', untouched_under_right, untouched_under_left]
      exact hu.untouched hcar
    · rw [hpay, ← hroom.payloads_eq]
      exact hset'.carries.clean hset'.cipher
    · exact hset₀.sameLog_run hset' (by rw [hs']) (by rw [hs']) later hok hok'

/-- Circumstances in which no bytes of a live segment can be encoded. -/
def Circumstances.unencodable : Circumstances where
  faults := ({} : Table Hook Fault).insert .encodeAt ⟨0, false, 0⟩
  returns h f hf := by
    rw [Table.get?_insert] at hf
    split at hf
    · cases hf
      rfl
    · simp at hf

/-- An append seals a full segment and fails after that. -/
theorem untouched_of_error_unencodable :
    ∃ writer id w g s₀ s', Life .plain (some writer) id w g ∧
      (Step.mk (.append [3, 4] (by decide)) .unencodable).take (writer, w) =
        (.error (.error (.transform "injected encode_at failure")), s') ∧
      s'.1.buffer.start = 3 ∧ Untouched s₀ s' ∧ s'.1.Clean s'.2 [[1, 2]] := by
  obtain ⟨writer, w, hop, hrecords, hfail, hstart⟩ : ∃ writer w,
      Writer.resume .plain 0 .blank = .ok writer w ∧
      let step : Step := ⟨.append [1, 2] (by decide), {}⟩
      let s := (step.take (writer, w.under writer.store {})).2
      let failing : Step := ⟨.append [3, 4] (by decide), .unencodable⟩
      step.action.appended (step.take (writer, w.under writer.store {})).1 = [([1, 2], 3)] ∧
        (failing.take s).1 = .error (.error (.transform "injected encode_at failure")) ∧
        (failing.take s).2.1.buffer.start = 3 :=
    ⟨_, _, rfl, by decide +kernel, by decide +kernel, by decide +kernel⟩
  have hlife := (Life.found World.sound_blank (World.Calm.returns rfl) (by decide) Founding.blank
    hop).act ⟨.append [1, 2] (by decide), {}⟩
  obtain ⟨s₀, -, huntouched, hclean, -⟩ := hlife.untouched_of_error Compressor.lawful_identity
    Cipher.lawful_identity ⟨.append [3, 4] (by decide), .unencodable⟩ (Prod.ext hfail rfl)
  simp only [Ledger.after, hrecords] at hclean
  exact ⟨_, _, _, _, s₀, _, hlife, Prod.ext hfail rfl, hstart, huntouched, hclean⟩

end RecordLog
