import Mathlib
import RecordLog.Proofs.Passages
import RecordLog.Proofs.Recovery

/-!
# The largest payload of a log

A writer takes note of the size of each payload that it appends, and a checkpoint keeps what was
noted. A seal keeps the records and nothing else. So a writer knows of a payload as large as any in
its log, but for records that were only ever sealed: their own writer went without a checkpoint
after them.
-/

namespace RecordLog

open Record Segment

/-- What a writer does, short of a checkpoint. -/
inductive Works : Moment → Moment → Prop where
  | act {writer : Writer} {id : StoreId} {w : World} {g : Ledger} {step : Step}
      (h : step.action.kept (step.take (writer, w)).1 = none) :
      Works ⟨some writer, id, w, g⟩
        ⟨some (step.take (writer, w)).2.1, id, (step.take (writer, w)).2.2,
          g.after step.action (step.take (writer, w)).1 writer (step.take (writer, w)).2.1⟩

namespace Moment

variable {cfg : Config} {n n' : Moment} {r : Bytes × Nat}

/-- A record that the writer of a log appended, with no checkpoint after it so far. -/
def Pending (cfg : Config) (n : Moment) (r : Bytes × Nat) : Prop :=
  ∃ m m', Life cfg m.writer m.index m.world m.ledger ∧ Works m m' ∧
    m'.ledger.records = m.ledger.records ++ [r] ∧ Relation.ReflTransGen Works m' n

theorem Pending.works (h : n.Pending cfg r) (hw : Works n n') : n'.Pending cfg r := by
  obtain ⟨m, m', hlife, happends, hrecords, hturns⟩ := h
  exact ⟨m, m', hlife, happends, hrecords, hturns.tail hw⟩

/-- A record that had been sealed when its writer went without a checkpoint after it. -/
def Overlooked (cfg : Config) (n : Moment) (r : Bytes × Nat) : Prop :=
  ∃ m m' writer, m.Pending cfg r ∧ m.writer = some writer ∧ r.2 ≤ writer.buffer.start ∧
    Turn cfg m m' ∧ m'.writer = none ∧ Relation.ReflTransGen (Turn cfg) m' n

theorem Overlooked.turn (h : n.Overlooked cfg r) (ht : Turn cfg n n') : n'.Overlooked cfg r := by
  obtain ⟨m, m', writer, hpending, hwriter, hsealed, hleaves, hgone, hturns⟩ := h
  exact ⟨m, m', writer, hpending, hwriter, hsealed, hleaves, hgone, hturns.tail ht⟩

/-- What a checkpoint kept of the sizes, and what the writer noted, bounds all records but those
that were overlooked. One that is pending is durable only where it was sealed. -/
structure Notes (cfg : Config) (n : Moment) : Prop where
  writer : ∀ writer, n.writer = some writer → n.ledger.stats.maxValue ≤ writer.stats.maxValue
  records : ∀ r ∈ n.ledger.records, r.1.length ≤ n.ledger.stats.maxValue ∨ n.Overlooked cfg r ∨
    ∃ writer, n.writer = some writer ∧ r.1.length ≤ writer.stats.maxValue ∧ n.Pending cfg r ∧
      (n.ledger.durable < r.2 ∨ r.2 ≤ writer.buffer.start)

section operations

variable {writer writer' : Writer} (h : n.Notes cfg) (ht : Turn cfg n n')
  (hn : n.writer = some writer) (hn' : n'.writer = some writer')
  (hmono : writer.stats.maxValue ≤ writer'.stats.maxValue)
include h ht hn hn' hmono

theorem Notes.of_kept (hrecords : n'.ledger.records = n.ledger.records)
    (hstats : n'.ledger.stats = writer.stats) : n'.Notes cfg := by
  refine ⟨fun writer'' hw => ?_, fun r hr => ?_⟩
  · obtain rfl : writer' = writer'' := Option.some.inj (hn'.symm.trans hw)
    exact hstats ▸ hmono
  · rw [hstats]
    rcases h.records r (hrecords ▸ hr) with hle | hover | ⟨writer'', hw, hle, -⟩
    · exact .inl (hle.trans (h.writer writer hn))
    · exact .inr (.inl (hover.turn ht))
    · obtain rfl : writer = writer'' := Option.some.inj (hn.symm.trans hw)
      exact .inl hle

theorem Notes.of_works (hworks : Works n n') (hstats : n'.ledger.stats = n.ledger.stats)
    (hlive : writer'.buffer.start = writer.buffer.start ∧ n'.ledger.durable = n.ledger.durable ∨
      ∀ r ∈ n.ledger.records, r.2 ≤ writer'.buffer.start)
    (hnew : ∀ r ∈ n'.ledger.records, r ∈ n.ledger.records ∨
      r.1.length ≤ writer'.stats.maxValue ∧ n'.Pending cfg r ∧ n'.ledger.durable < r.2) :
    n'.Notes cfg := by
  refine ⟨fun writer'' hw => ?_, fun r hr => ?_⟩
  · obtain rfl : writer' = writer'' := Option.some.inj (hn'.symm.trans hw)
    exact hstats ▸ (h.writer writer hn).trans hmono
  rw [hstats]
  rcases hnew r hr with hr | ⟨hle, hpending, hdurable⟩
  · refine (h.records r hr).imp_right (Or.imp (fun hover => hover.turn ht) ?_)
    rintro ⟨writer'', hw, hle, hpending, hsafe⟩
    obtain rfl : writer = writer'' := Option.some.inj (hn.symm.trans hw)
    refine ⟨writer', hn', hle.trans hmono, hpending.works hworks, ?_⟩
    rcases hlive with ⟨hstart, hdurable⟩ | hsealed
    · rwa [hstart, hdurable]
    · exact .inr (hsealed r hr)
  · exact .inr (.inr ⟨writer', hn', hle, hpending, .inl hdurable⟩)

end operations

end Moment

variable {cfg : Config} {q : Place} {l l' : Log} {c c' : Catalog} {n n' : Moment} {id : StoreId}
  {writer : Writer} {w w' : World} {g : Ledger} {a : Action}
  {answer : Except Stop (Option Nat)} {s' : Writer × World}

theorem Action.appended_of_kept {pos : Nat} (h : a.kept answer = some pos) :
    a.appended answer = [] := by
  cases a with
  | checkpoint => rfl
  | _ => cases h

theorem Log.durable_le_stop (l : Log) : l.durable ≤ l.stop := by
  have hle : l.cut.live.size ≤ l.live.size := extent_le_of_prefix (List.take_prefix _ _)
  exact Nat.add_le_add_left hle _

namespace Outcome

theorem maxValue_le (ho : Outcome q l c writer w a answer l' c' s') :
    writer.stats.maxValue ≤ s'.1.stats.maxValue := by
  cases ho with
  | appended hroom _ _ =>
    rw [← hroom.config.2.2.2]
    exact Nat.le_max_left _ _
  | madeRoom _ hroom _ => exact Nat.le_of_eq (by rw [hroom.config.2.2.2])
  | _ => exact Nat.le_refl _

theorem noted_of_appended (h : Writer.Carries q l c writer w)
    (ho : Outcome q l c writer w a answer l' c' s') {r : Bytes × Nat} (hr : r ∈ a.appended answer) :
    a.appended answer = [r] ∧ r.1.length ≤ s'.1.stats.maxValue ∧ l'.durable < r.2 := by
  cases ho with
  | @appended data hd l₁ c₁ s₁ w' hroom _ _ =>
    obtain rfl := List.mem_singleton.1 hr
    refine ⟨rfl, Nat.le_max_right _ _, ?_⟩
    have hle := l₁.durable_le_stop
    have hpos := size_pos data
    rw [durable_push (hroom.carries h).kept, Log.stop_push]
    omega
  | refused _ => cases a <;> cases hr
  | _ => cases hr

/-- The live segment is still the one it was, or starts where the log ended. It does so if the log was
made durable without a checkpoint. -/
theorem base_eq (ho : Outcome q l c writer w a answer l' c' s') (hk : a.kept answer = none) :
    a.covers answer writer.buffer.state s'.1.buffer.state = false ∧ l'.base = l.base ∨
      l'.base = l.stop := by
  cases ho with
  | appended hroom _ _ =>
    rw [Log.base_push]
    cases hroom with
    | fits hf => exact .inl ⟨by simp [Action.covers, Buffer.state, hf], rfl⟩
    | sealed _ _ _ _ _ => exact .inr (Log.base_rotate _ _)
  | refused _ => exact .inl ⟨by simp [Action.covers], rfl⟩
  | madeRoom hfits hroom _ =>
    cases hroom with
    | fits hf => rw [hf] at hfits; cases hfits
    | sealed _ _ _ _ _ => exact .inr (Log.base_rotate _ _)
  | empty hnil => exact .inr (by simp [Log.stop, Segment.size, hnil])
  | sealed _ _ _ _ => exact .inr (Log.base_rotate _ _)
  | kept _ _ => cases hk
  | _ => exact .inl ⟨rfl, rfl⟩

end Outcome

theorem Held.stop_le_of_mem (h : Held cfg q l c writer id w g) {r : Bytes × Nat}
    (hr : r ∈ g.records) : r.2 ≤ writer.buffer.stop := by
  rw [h.tells.records] at hr
  rw [h.settled.carries.stop_eq, Log.stop_eq]
  exact (bounds_of_mem_told hr).2.trans_eq (Nat.zero_add _)

theorem Moment.Notes.act (h : Notes cfg ⟨some writer, id, w, g⟩)
    (hlife : Life cfg (some writer) id w g) (hheld : Held cfg q l c writer id w g) (step : Step) :
    Notes cfg ⟨some (step.take (writer, w)).2.1, id, (step.take (writer, w)).2.2,
      g.after step.action (step.take (writer, w)).1 writer (step.take (writer, w)).2.1⟩ := by
  have hturn : Turn cfg _ _ := .act writer id w g step
  obtain ⟨l', c', s₁, ho, hs₁, -, hheld'⟩ := hheld.act_outcome step
  have hcarries := (hheld.settled.ready step.circumstances).carries
  have hmono : writer.stats.maxValue ≤ (step.take (writer, w)).2.1.stats.maxValue := by
    rw [hs₁]
    exact ho.maxValue_le
  cases hk : step.action.kept (step.take (writer, w)).1 with
  | some n =>
    have hnone := Action.appended_of_kept hk
    exact h.of_kept hturn rfl rfl hmono (by simp [Ledger.after, hnone]) (by simp [Ledger.after, hk])
  | none =>
    have hworks : Works ⟨some writer, id, w, g⟩ _ := .act hk
    refine h.of_works hturn rfl rfl hmono hworks (by simp [Ledger.after, hk]) ?_ fun r hr => ?_
    · rw [hheld'.settled.carries.start_eq, hheld.settled.carries.start_eq]
      rcases ho.base_eq hk with ⟨hcovers, hsame⟩ | hsealed
      · have hbuffer : (step.take (writer, w)).2.1.buffer = s₁.1.buffer := by rw [hs₁]
        exact .inl ⟨hsame, by simp [Ledger.after, hbuffer, hcovers]⟩
      · refine .inr fun r hr => ?_
        rw [hsealed, ← hheld.settled.carries.stop_eq]
        exact hheld.stop_le_of_mem hr
    · refine (List.mem_append.1 hr).imp_right fun hr => ?_
      obtain ⟨hone, hle, hdurable⟩ := ho.noted_of_appended hcarries hr
      refine ⟨?_, ⟨_, _, hlife, hworks, congrArg (g.records ++ ·) hone, .refl⟩, ?_⟩
      · rw [hs₁]
        exact hle
      · exact hheld'.tells.durable ▸ hdurable

theorem Turn.notes (hz : cfg.compressor.Lawful) (hc : cfg.cipher.Lawful) (h : n.Notes cfg)
    (hlife : Life cfg n.writer n.index n.world n.ledger) (ht : Turn cfg n n') : n'.Notes cfg := by
  have hgone {writer : Writer} (hn : n.writer = some writer) (hn' : n'.writer = none)
      (hg : n'.ledger = n.ledger.cut) : n'.Notes cfg := by
    refine ⟨fun _ hw => (by rw [hn'] at hw; cases hw), fun r hr => ?_⟩
    rw [hg] at hr ⊢
    obtain ⟨hr, hdurable⟩ := List.mem_filter.1 hr
    rw [decide_eq_true_iff] at hdurable
    rcases h.records r hr with hle | hover | ⟨writer', hw, -, hpending, hlost | hsealed⟩
    · exact .inl hle
    · exact .inr (.inl (hover.turn ht))
    · omega
    · exact .inr (.inl ⟨n, n', writer', hpending, hw, hsealed, ht, hn', .refl⟩)
  have hwithout (hn : n.writer = none) (hg : n'.ledger = n.ledger)
      (hw : ∀ writer, n'.writer = some writer → writer.stats = n.ledger.stats) :
      n'.Notes cfg := by
    refine ⟨fun writer hwriter => ?_, fun r hr => ?_⟩
    · rw [hg, hw writer hwriter]
    · rw [hg] at hr ⊢
      rcases h.records r hr with hle | hover | ⟨writer', hwriter, -⟩
      · exact .inl hle
      · exact .inr (.inl (hover.turn ht))
      · rw [hn] at hwriter
        cases hwriter
  cases ht with
  | act writer id w g step =>
    obtain ⟨q, l, c, hheld⟩ := hlife.held hz hc
    exact h.act hlife hheld step
  | drop writer id w g => exact hgone rfl rfl rfl
  | close id g hclose => exact hgone rfl rfl rfl
  | release g hclose => exact hwithout rfl rfl fun _ hw => by cases hw
  | stay g hcfg he k hop => exact hwithout rfl rfl fun _ hw => by cases hw
  | enter g hcfg hsize he k hop =>
    obtain ⟨q, l, c, capacity, hleft⟩ := hlife.left hz hc
    obtain ⟨-, -, hstats, -⟩ := (hleft.ends_enter hcfg he k).ok hop
    refine hwithout rfl rfl ?_
    rintro _ ⟨⟩
    exact hstats.trans hleft.tells.stats.symm

theorem Life.notes (hz : cfg.compressor.Lawful) (hc : cfg.cipher.Lawful)
    (h : Life cfg n.writer n.index n.world n.ledger) : n.Notes cfg := by
  refine Life.turns (motive := Moment.Notes cfg) ?_ (fun hlife h ht => ht.notes hz hc h hlife) h
  intro w w' op writer _ _ _ _
  exact ⟨fun _ _ => Nat.zero_le _, fun r hr => by cases hr⟩

theorem map_line_told (segment pos : Nat) (ps : List Bytes) :
    (line segment pos ps).map (fun r => (r.data, r.next)) = told pos ps := by
  induction ps generalizing pos with
  | nil => rfl
  | cons p ps ih => simp [line, told, ih]

theorem Held.readFrom_zero (h : Held cfg q l c writer id w g)
    (hroom : Store.HasRoom id writer.buffer.stop w) :
    ∃ records, writer.reader.readFrom 0 w = (records, .done) ∧
      records.map (fun r => (r.data, r.next)) = g.records := by
  have hlist := h.settled.carries.listable (h.store ▸ hroom)
  have hread := h.settled.readFrom hlist (Log.boundary_of_told (.inl rfl))
  rw [filter_start_zero] at hread
  refine ⟨l.records, hread, ?_⟩
  have hmap := congrArg (List.map fun x => (x.1, x.2.2)) (map_records 0 (l.sealed ++ [l.live]))
  simp only [List.map_map, Function.comp_def] at hmap
  rw [h.tells.records, Log.records, hmap, map_line_told]
  simp [Log.payloads]

/-- In the life of a log, a scan from the start shows no payload beyond the largest that its writer
knows of, but for records that were overlooked. -/
theorem Life.length_le_maxValue (h : Life cfg (some writer) id w g) (hz : cfg.compressor.Lawful)
    (hc : cfg.cipher.Lawful) (hroom : Store.HasRoom id writer.buffer.stop w) :
    ∃ records, writer.reader.readFrom 0 w = (records, .done) ∧
      ∀ r ∈ records, r.data.length ≤ writer.stats.maxValue ∨
        Moment.Overlooked cfg ⟨some writer, id, w, g⟩ (r.data, r.next) := by
  obtain ⟨q, l, c, hheld⟩ := h.held hz hc
  obtain ⟨records, hread, hmap⟩ := hheld.readFrom_zero hroom
  have hnotes := Life.notes (n := ⟨some writer, id, w, g⟩) hz hc h
  refine ⟨records, hread, fun r hr => ?_⟩
  have hmem : (r.data, r.next) ∈ g.records :=
    hmap ▸ List.mem_map_of_mem (f := fun r : Record => (r.data, r.next)) hr
  rcases hnotes.records _ hmem with hle | hover | ⟨_, ⟨⟩, hle, -⟩
  · exact .inl (hle.trans (hnotes.writer writer rfl))
  · exact .inr hover
  · exact .inl hle

/-- A payload was sealed and its writer went. The next writer appended a smaller one. -/
theorem length_le_maxValue_overlooked :
    ∃ writer id w g, Life .plain (some writer) id w g ∧
      writer.reader.readFrom 0 w = ([⟨[1, 2], 0, 0, 3⟩, ⟨[5], 3, 3, 5⟩], .done) ∧
      writer.stats.maxValue = 1 ∧
      Moment.Overlooked .plain ⟨some writer, id, w, g⟩ ([1, 2], 3) := by
  have hleft := (((Life.found World.sound_blank (World.Calm.returns rfl) (by decide) Founding.blank
    rfl).act ⟨.append [1, 2] (by decide), {}⟩).act ⟨.sealLive, {}⟩).drop
  let step : Step := ⟨.append [5] (by decide), {}⟩
  obtain ⟨writer, w, hlife, hfacts⟩ := hleft.reopen (.refl _) (by decide)
    (.of_open (by decide +kernel)) (fun writer w =>
      let s := (step.take (writer, w)).2
      let shown := s.1.reader.readAmid 0 [] (fun _ => {}) s
      shown.records == [⟨[1, 2], 0, 0, 3⟩, ⟨[5], 3, 3, 5⟩] && shown.last == .done &&
        s.1.stats.maxValue == 1 && !s.2.stores[0]?.any (·.medium.inFile)) (by decide +kernel)
  have hlife := hlife.act step
  simp only [Bool.and_eq_true, beq_iff_eq, Bool.not_eq_true'] at hfacts
  obtain ⟨⟨⟨hrecords, hlast⟩, hmax⟩, hmemory⟩ := hfacts
  have hshown := Reader.readFrom_of_readAmid hrecords hlast
  obtain ⟨records, hread, hbound⟩ := hlife.length_le_maxValue Compressor.lawful_identity
    Cipher.lawful_identity (.of_memory hmemory)
  obtain rfl : _ = records := congrArg Prod.fst (hshown.symm.trans hread)
  refine ⟨_, _, _, _, hlife, hread, hmax, ?_⟩
  refine (hbound ⟨[1, 2], 0, 0, 3⟩ (by simp)).resolve_left ?_
  rw [hmax]
  decide

/-- Until then, the next writer knows of no payload at all, though there is one in its log. -/
theorem overlooked_payload_unbounded :
    ∃ writer id w g records, Life .plain (some writer) id w g ∧
      writer.reader.readFrom 0 w = (records, .done) ∧
      ∃ r ∈ records, writer.stats.maxValue < r.data.length := by
  have hleft := (((Life.found World.sound_blank (World.Calm.returns rfl) (by decide) Founding.blank
    rfl).act ⟨.append [1, 2] (by decide), {}⟩).act ⟨.sealLive, {}⟩).drop
  obtain ⟨writer, w, hlife, hfacts⟩ := hleft.reopen (.refl _) (by decide)
    (.of_open (by decide +kernel)) (fun writer w =>
      let shown := writer.reader.readAmid 0 [] (fun _ => {}) (writer, w)
      shown.records == [⟨[1, 2], 0, 0, 3⟩] && shown.last == .done &&
        writer.stats.maxValue == 0) (by decide +kernel)
  simp only [Bool.and_eq_true, beq_iff_eq] at hfacts
  obtain ⟨⟨hrecords, hlast⟩, hmax⟩ := hfacts
  refine ⟨_, _, _, _, _, hlife, Reader.readFrom_of_readAmid hrecords hlast,
    ⟨[1, 2], 0, 0, 3⟩, by simp, ?_⟩
  rw [hmax]
  decide

end RecordLog
