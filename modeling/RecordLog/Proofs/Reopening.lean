import Mathlib
import RecordLog.Proofs.Operations

/-!
# Opening a log

`Log.Lies` is what a folder and an index hold of a log once its writer is gone. Opening it cuts the
live segment back to what the index describes, and an opening that fails leaves the durable part of
the log where it was. Over an index that is empty, opening starts an empty log.
-/

namespace RecordLog

open Record Segment

variable {α : Type} {q : Place} {id : StoreId} {l : Log} {c : Catalog} {cfg : Config}
  {w w' : World} {capacity : Nat}

namespace Store

/-- A unit of work that does other things too: what they did remains if the index refuses. -/
theorem ends_within {work : Tables → Op (α × Tables)} {Q : α → Catalog → World → Prop}
    {E : World → Prop} (hk : Keeps q id c w) (hr : w.Returns)
    (hwork : ∀ t w₁, World.Idle w w₁ → t.Represents c →
      (∀ s, w.stores[id]? = some s → t.inFile = s.medium.inFile) → Ends (work t) w₁
      (fun r w₂ => r.2.inFile = t.inFile ∧ w₂.disk.Sound ∧ Keeps q id c w₂ ∧
        w₂.stores = w.stores ∧ ∃ c', r.2.Represents c' ∧ Q r.1 c' w₂)
      fun stop w₂ => (∃ e, stop = .error e) ∧ w₂.stores = w.stores ∧ E w₂) :
    Ends (within id work) w (fun a w' => ∃ c' w₂, Q a c' w₂ ∧ Commits q id c' w₂ w')
      fun stop w' => (∃ e, stop = .error e) ∧
        ((World.Idle w w' ∧ ¬ w.Calm) ∨ E w' ∨
          ((∃ a c', Q a c' w') ∧ ∀ s, w.stores[id]? = some s → s.failCommits = true)) := by
  have hs := hk
  obtain ⟨s, hs, -⟩ := hs
  refine (ends_begin hk.offers .update).bind ?_ ?_
  swap
  · rintro stop w' ⟨hi, hf, hc⟩
    exact ⟨hf hr, .inl ⟨hi, hc⟩⟩
  rintro t w₁ ⟨hi, ht, hform⟩
  refine Ends.bind (P := fun r w₂ => r.2.inFile = t.inFile ∧ w₂.disk.Sound ∧ Keeps q id c w₂ ∧
      w₂.stores = w.stores ∧ ∃ c', r.2.Represents c' ∧ Q r.1 c' w₂)
    (F := fun stop w₂ => (∃ e, stop = .error e) ∧ E w₂) ?_ ?_ ?_
  · refine Ends.catch_stop (hwork t w₁ hi ht hform) ?_
    rintro stop w₂ ⟨⟨e, rfl⟩, hst, hE⟩
    refine (ends_lookup (hst ▸ hs)).bind ?_ fun _ _ hF => hF.elim
    rintro s' w₃ ⟨-, rfl⟩
    exact ends_throw ⟨⟨e, rfl⟩, hE⟩
  · rintro ⟨a, t'⟩ w₂ ⟨hin, hsound, hk₂, hst, c', ht', hQ⟩
    refine (ends_commit hsound hk₂ (hst ▸ hs) ht' (hin.trans (hform s hs))).bind ?_ ?_
    · intro _ w₃ hcom
      exact ends_pure ⟨c', w₂, hQ, hcom⟩
    · rintro stop w₃ ⟨rfl, he, hfail⟩
      refine ⟨he, .inr (.inr ⟨⟨a, c', hQ⟩, fun s' hs' => ?_⟩)⟩
      rw [hs] at hs'
      cases hs'
      exact hfail
  · rintro stop w₂ ⟨he, hE⟩
    exact ⟨he, .inr (.inl hE)⟩

end Store

/-- A folder holds a log that no writer has, as its index describes it. -/
structure Log.Lies (cfg : Config) (q : Place) (capacity : Nat) (l : Log) (c : Catalog)
    (d : Disk) : Prop where
  home : d.enter cfg.path = .ok q
  sound : d.Sound
  chunks : List.Forall₂ (Sealed cfg q d) (placed 0 l.sealed) c.chunks.entries
  writable : ∀ x ∈ l.live.payloads, Writable x
  reaches : cfg.Reaches (bufferFileName l.base)
  live : ∃ bytes, d.Holds (q ++ [bufferFileName l.base]) bytes ∧
    Written cfg.cipher ⟨l.base, l.live.salt⟩ 0 (l.live.payloads.map encode) bytes
  kept : l.kept ≤ l.live.payloads.length
  described : c.buffer = some (l.cut.state capacity)

theorem Writer.Carries.lies {writer : Writer} (h : Carries q l c writer w) :
    l.Lies writer.config q writer.buffer.capacity c w.disk where
  home := h.home
  sound := h.sound
  chunks := h.chunks
  writable := h.writable
  reaches := h.reaches
  live := by
    obtain ⟨x, hx, hw⟩ := h.file.written
    exact ⟨x.toBytes, ⟨_, x, h.linked, hx, rfl⟩, h.id_eq ▸ hw⟩
  kept := h.kept
  described := h.described

namespace Log.Lies

theorem written_cut {bytes : Bytes}
    (hw : Written cfg.cipher ⟨l.base, l.live.salt⟩ 0 (l.live.payloads.map encode) bytes) :
    l.cut.live.size ≤ bytes.length ∧
      Written cfg.cipher ⟨l.base, l.live.salt⟩ 0 (l.cut.live.payloads.map encode)
        (bytes.take l.cut.live.size) := by
  have hsplit : l.live.payloads.map encode =
      l.cut.live.payloads.map encode ++ (l.live.payloads.drop l.kept).map encode := by
    rw [← List.map_append, Log.cut, List.take_append_drop]
  rw [hsplit] at hw
  refine ⟨?_, ?_⟩
  · rw [hw.length_eq, List.flatten_append, List.length_append, length_flatten_map_encode]
    exact Nat.le_add_right _ _
  · have := hw.take
    rwa [length_flatten_map_encode] at this

end Log.Lies

namespace Writer

theorem ends_answer {t : Tables} {r : Request} {E : Stop → World → Prop} (ht : t.Represents c)
    (hr : c.Small → r.Readable c) (hE : ¬ (t.inFile = true → c.Small) → ∀ e, E (.error e) w) :
    Ends (Op.ofExcept (t.answer r)) w
      (fun x w' => w' = w ∧ x.2.inFile = t.inFile ∧ ∃ c', c.answer r = .ok (x.1, c') ∧
        x.2.Represents c') E := by
  refine (Op.ends_ofExcept _ w).mono ?_ ?_
  · rintro ⟨a, t'⟩ w' ⟨hw, ha⟩
    exact ⟨hw, Tables.inFile_answer ha, ht.answer ha⟩
  · rintro stop _ ⟨rfl, e, he, rfl⟩
    refine hE (fun hsmall => ?_) e
    obtain ⟨a, t', ha⟩ := ht.exists_answer fun hf => hr (hsmall hf)
    rw [ha] at he
    cases he

/-- Over an index that describes a live segment, opening a log opens that segment. -/
theorem ends_resume_work {t : Tables} {s : BufferState} {P : Buffer → World → Prop}
    {E : Stop → World → Prop} (ht : t.Represents c) (hs : c.buffer = some s)
    (hopen : Ends (Buffer.resume cfg s) w P E)
    (hE : ¬ (t.inFile = true → c.Small) → ∀ e, E (.error e) w) :
    Ends (do
        let (stats, tables) ← Op.ofExcept (t.answer .stats)
        let (state, tables) ← Op.ofExcept (tables.answer .buffer)
        match state with
        | some state => return ((← Buffer.resume cfg state, stats.getD {}), tables)
        | none =>
          let buffer ← Buffer.create cfg 0
          let (_, tables) ← Op.ofExcept (tables.answer (.putBuffer buffer.state))
          return ((buffer, stats.getD {}), tables)) w
      (fun r w' => r.2.inFile = t.inFile ∧ r.2.Represents c ∧ r.1.2 = c.stats.getD {} ∧ P r.1.1 w')
      E := by
  refine (ends_answer (r := .stats) ht (·.stats) hE).bind ?_ fun _ _ h => h
  rintro ⟨stats, t₁⟩ w₁ ⟨hw₁, hin₁, c₁, hc₁, ht₁⟩
  obtain ⟨rfl, rfl⟩ := Prod.mk.inj (Except.ok.inj hc₁)
  rw [hw₁]
  refine (ends_answer (r := .buffer) ht₁ (·.buffer) (hin₁ ▸ hE)).bind ?_ fun _ _ h => h
  rintro ⟨state, t₂⟩ w₂ ⟨hw₂, hin₂, c₂, hc₂, ht₂⟩
  obtain ⟨rfl, rfl⟩ := Prod.mk.inj (Except.ok.inj hc₂)
  rw [hw₂]
  dsimp only
  rw [hs]
  exact hopen.bind (fun b w₃ hP => ends_pure ⟨hin₂.trans hin₁, ht₂, rfl, hP⟩) fun _ _ h => h

theorem ends_resume_buffer (h : l.Lies cfg q capacity c w.disk) (hr : w.Returns)
    (hi : World.Idle w w') :
    Ends (Buffer.resume cfg (l.cut.state capacity)) w'
      (Buffer.Opened cfg q (l.cut.state capacity) w)
      fun stop w'' => (∃ e, stop = .error e) ∧ World.Idle w w'' ∧ ¬ w.Calm := by
  obtain ⟨bytes, hb, hw⟩ := h.live
  refine (Buffer.ends_resume (hi.disk ▸ h.sound) (hi.disk ▸ h.home) (LogName.live l.base).plain
    (.inr ⟨bytes, hi.disk ▸ hb, (Log.Lies.written_cut hw).1⟩)).mono ?_ ?_
  · exact fun b w'' ho => ho.after_idle hi
  · rintro stop w'' ⟨hi', hf, hcalm⟩
    refine ⟨hf (hi.returns hr), hi.trans hi', fun hc => ?_⟩
    obtain ⟨id, x, hid, -⟩ := hb
    exact hcalm (hi.calm hc) h.reaches id (hi.disk ▸ hid)

variable {b : Buffer}

theorem moves_opened (id : StoreId) (h : l.Lies cfg q capacity c w.disk)
    (ho : Buffer.Opened cfg q (l.cut.state capacity) w b w') :
    World.Moves q id l.base w w' :=
  World.Moves.ofChanges h.sound (footprint_live q l w.disk) ho.changes

theorem carries_opened (h : l.Lies cfg q capacity c w.disk)
    (ho : Buffer.Opened cfg q (l.cut.state capacity) w b w') :
    b.Carries cfg.cipher (l.cut.live.payloads.map encode) w' := by
  obtain ⟨bytes, hb, hw⟩ := h.live
  obtain ⟨x, hx, -, hfront⟩ := ho.content
  have hpos : b.pos = l.cut.live.size := congrArg BufferState.pos ho.state
  have hid : b.id = ⟨l.base, l.live.salt⟩ := by
    rw [BufferState.id, ho.state]
    rfl
  refine ⟨?_, ?_, (ho.changes.disk.sound h.sound).there _ _ ho.linked, x, hx, ?_⟩
  · rw [hpos, length_flatten_map_encode]
    rfl
  · rw [hpos]
    exact ho.head
  · rw [hfront bytes hb, hid]
    exact (Log.Lies.written_cut hw).2

theorem lies_opened (h : l.Lies cfg q capacity c w.disk)
    (ho : Buffer.Opened cfg q (l.cut.state capacity) w b w') :
    l.cut.Lies cfg q capacity c w'.disk := by
  have hm : World.Moves q 0 l.base w w' := moves_opened 0 h ho
  have hfile := carries_opened h ho
  obtain ⟨x, hx, hw⟩ := hfile.written
  have hid : b.id = ⟨l.base, l.live.salt⟩ := by
    rw [BufferState.id, ho.state]
    rfl
  exact {
    home := hm.enter _ h.home
    sound := hm.sound
    chunks := Sealed.moves h.chunks hm
    writable := fun y hy => h.writable y (List.mem_of_mem_take hy)
    reaches := h.reaches
    live := ⟨x.toBytes, ⟨_, x, ho.linked, hx, rfl⟩, hid ▸ hw⟩
    kept := by simpa [Log.cut] using h.kept
    described := by rw [h.described, Log.cut_cut] }

theorem lies_commits (h : l.Lies cfg q capacity c w.disk)
    (hk : Store.Keeps q id c w) (hcom : Store.Commits q id c w w') :
    l.Lies cfg q capacity c w'.disk := by
  have hm : World.Moves q id l.base w w' := .ofCommits h.sound hcom ⟨_, hk.choose_spec.1⟩
  have hsame := World.Moves.sameFile_of_commits h.sound hcom (.live l.base)
  obtain ⟨bytes, hb, hw⟩ := h.live
  exact { h with
    home := hm.enter _ h.home
    sound := hm.sound
    chunks := Sealed.moves h.chunks hm
    live := ⟨bytes, hsame.holds hb, hw⟩ }

theorem carries_reopened {b : Buffer} {writer : Writer} {w₁ : World} {stats : Stats}
    (h : l.Lies cfg q capacity c w.disk) (hk : Store.Keeps q id c w)
    (ho : Buffer.Opened cfg q (l.cut.state capacity) w b w₁) (hcom : Store.Commits q id c w₁ w')
    (hw : writer = ⟨cfg, id, w'.marks.length, b, stats⟩) :
    Carries q l.cut c writer { w' with marks := w'.marks ++ [b.watermark] } := by
  subst hw
  have hl₁ := lies_opened h ho
  have hl := lies_commits hl₁ (hk.changes h.sound (footprint_live q l w.disk).inLog ho.changes) hcom
  have hsame := World.Moves.sameFile_of_commits hl₁.sound hcom (.live l.base)
  obtain ⟨F, -, -, hch⟩ := hcom.disk
  have hfile := (carries_opened h ho).frame (hsame.content _ ho.linked) (by rw [hcom.heads])
    hch.grown
  have hcap : b.capacity = capacity := congrArg BufferState.capacity ho.state
  have hmark : b.watermark = l.cut.watermark := by
    rw [ho.state]
    rfl
  exact {
    home := hl.home
    sound := hl.sound
    index := hcom.keeps
    chunks := hl.chunks
    state := ho.state.trans (hcap ▸ rfl)
    file := hfile.frame rfl rfl (Nat.le_refl _)
    writable := hl.writable
    linked := hsame.names.trans ho.linked
    reaches := hl.reaches
    mark := by simp [hmark]
    kept := hl.kept
    described := hcap ▸ hl.described }

/-- Opening goes back to what the index describes. An opening that fails loses nothing of that. -/
theorem ends_resume (h : l.Lies cfg q capacity c w.disk) (hk : Store.Keeps q id c w)
    (hr : w.Returns) :
    Ends (resume cfg id) w
      (fun writer w' => writer.config = cfg ∧ writer.store = id ∧ writer.stats = c.stats.getD {} ∧
        writer.buffer.capacity = capacity ∧ Carries q l.cut c writer w' ∧
        World.Moves q id l.base w w')
      fun stop w' => (∃ e, stop = .error e) ∧ World.Moves q id l.base w w' ∧
        (l.Lies cfg q capacity c w'.disk ∨ l.cut.Lies cfg q capacity c w'.disk) ∧
        Store.Keeps q id c w' ∧
        (w.Calm → Store.Legible id c w → ∀ s, w.stores[id]? = some s → s.failCommits = true) := by
  refine (Store.ends_within (Q := fun r c' w₂ => c' = c ∧ r.2 = c.stats.getD {} ∧
      Buffer.Opened cfg q (l.cut.state capacity) w r.1 w₂)
    (E := fun w₂ => World.Idle w w₂ ∧ (w.Calm → Store.Legible id c w → False)) hk hr
    fun t w₁ hi ht hform => ?_).bind ?_ ?_
  · have hF := (footprint_live q l w.disk).inLog
    have hstore := hk
    obtain ⟨s, hs, -⟩ := hstore
    refine (ends_resume_work (E := fun stop w₂ => (∃ e, stop = .error e) ∧ w₂.stores = w.stores ∧
      World.Idle w w₂ ∧ (w.Calm → Store.Legible id c w → False)) ht h.described
      ((ends_resume_buffer h hr hi).mono (fun _ _ ho => ho) ?_) ?_).mono ?_ fun _ _ hE => hE
    · rintro stop w₂ ⟨he, hi₂, hcalm⟩
      exact ⟨he, hi₂.stores, hi₂, fun hc _ => hcalm hc⟩
    · exact fun hlarge e => ⟨⟨e, rfl⟩, hi.stores, hi, fun _ hlegible =>
        hlarge fun hf => hlegible s hs (hform s hs ▸ hf)⟩
    · rintro r w₂ ⟨hin, ht', hstats, ho⟩
      exact ⟨hin, ho.changes.disk.sound h.sound, hk.changes h.sound hF ho.changes,
        ho.changes.stores, c, ht', rfl, hstats, ho⟩
  · rintro ⟨b, stats⟩ w₁ ⟨c', w₂, ⟨rfl, hstats, ho⟩, hcom⟩
    have hk₂ := hk.changes h.sound (footprint_live q l w.disk).inLog ho.changes
    have hm := (moves_opened id h ho).trans (.ofCommits (lies_opened h ho).sound hcom
      ⟨_, hk₂.choose_spec.1⟩)
    exact ends_of_eq_ok (a := ⟨cfg, id, w₁.marks.length, b, stats⟩)
      (t := { w₁ with marks := w₁.marks ++ [b.watermark] }) rfl
      ⟨rfl, rfl, hstats, congrArg BufferState.capacity ho.state, carries_reopened h hk ho hcom rfl,
        hm.trans (moves_marks hm.sound id l.base (w₁.marks ++ [b.watermark]))⟩
  · rintro stop w' ⟨he, (⟨hi, hcalm⟩ | ⟨hi, hcalm⟩ | ⟨⟨⟨b, stats⟩, c', -, -, ho⟩, hfail⟩)⟩
    · exact ⟨he, .ofIdle h.sound hi, .inl (hi.disk ▸ h), hk.idle hi, fun hc => absurd hc hcalm⟩
    · exact ⟨he, .ofIdle h.sound hi, .inl (hi.disk ▸ h), hk.idle hi,
        fun hc hs => (hcalm hc hs).elim⟩
    · exact ⟨he, moves_opened id h ho, .inr (lies_opened h ho),
        hk.changes h.sound (footprint_live q l w.disk).inLog ho.changes, fun _ _ => hfail⟩

theorem carries_created {salt : UInt64} {b : Buffer} {writer : Writer}
    (hs : w.disk.Sound) (hq : w.disk.enter cfg.path = .ok q)
    (ho : Buffer.Opened cfg q (.fresh 0 cfg.capacity salt) w b w')
    {w'' : World} (hcom : Store.Commits q id { buffer := some b.state } w' w'')
    (hw : writer = ⟨cfg, id, w''.marks.length, b, {}⟩) :
    Carries q { live := ⟨[], salt⟩ } { buffer := some b.state } writer
      { w'' with marks := w''.marks ++ [b.watermark] } := by
  subst hw
  have hs' := ho.changes.disk.sound hs
  have hq' := ho.changes.disk.enter hq
  have hsame := World.Moves.sameFile_of_commits hs' hcom (.live 0)
  obtain ⟨F, -, -, hch⟩ := hcom.disk
  have hfile := (ho.carries_nil (c := cfg.cipher) hs' rfl).frame (hsame.content _ ho.linked)
    (by rw [hcom.heads]) hch.grown
  exact {
    home := hch.enter hq'
    sound := hch.sound hs'
    index := hcom.keeps
    chunks := .nil
    state := by
      rw [ho.state]
      rfl
    file := hfile.frame rfl rfl (Nat.le_refl _)
    writable := fun x hx => by simp at hx
    linked := hsame.names.trans ho.linked
    reaches := ho.reaches
    mark := by
      have : b.watermark = ({ live := ⟨[], salt⟩ } : Log).watermark := by
        rw [ho.state]
        rfl
      simp [this]
    kept := Nat.zero_le _
    described := by
      refine congrArg some ?_
      rw [Buffer.state, ho.state]
      rfl }

theorem ends_resume_empty (hs : w.disk.Sound) (hq : w.disk.enter cfg.path = .ok q)
    (hk : Store.Keeps q id {} w) (hr : w.Returns) :
    Ends (resume cfg id) w
      (fun writer w' => ∃ salt, writer.config = cfg ∧ writer.store = id ∧ writer.stats = {} ∧
        writer.buffer.capacity = cfg.capacity ∧
        Carries q { live := ⟨[], salt⟩ } { buffer := some writer.buffer.state } writer w' ∧
        World.Moves q id 0 w w')
      fun stop _ => ∃ e, stop = .error e := by
  have hF : ({ places := [q ++ [bufferFileName 0]] } : Footprint).From q 0 w.disk :=
    footprint_live q { live := ⟨[], 0⟩ } w.disk
  refine (Store.ends_within (Q := fun r c' w₂ => c' = { buffer := some r.1.state } ∧ r.2 = {} ∧
      ∃ salt, Buffer.Opened cfg q (.fresh 0 cfg.capacity salt) w r.1 w₂)
    (E := fun _ => True) hk hr fun t w₁ hi ht hform => ?_).bind ?_ ?_
  · refine (ends_answer (r := .stats) ht (·.stats) fun _ e =>
      ⟨⟨e, rfl⟩, hi.stores, trivial⟩).bind ?_ fun _ _ hE => hE
    rintro ⟨stats, t₁⟩ w₂ ⟨hw₂, hin₁, c₁, hc₁, ht₁⟩
    obtain ⟨rfl, rfl⟩ := Prod.mk.inj (Except.ok.inj hc₁)
    rw [hw₂]
    refine (ends_answer (r := .buffer) ht₁ (·.buffer) fun _ e =>
      ⟨⟨e, rfl⟩, hi.stores, trivial⟩).bind ?_ fun _ _ hE => hE
    rintro ⟨state, t₂⟩ w₃ ⟨hw₃, hin₂, c₂, hc₂, ht₂⟩
    obtain ⟨rfl, rfl⟩ := Prod.mk.inj (Except.ok.inj hc₂)
    rw [hw₃]
    refine (Buffer.ends_create (hi.disk ▸ hs) (hi.disk ▸ hq) 0).bind ?_ ?_
    · rintro b w₂ ⟨salt, ho⟩
      have ho := ho.after_idle hi
      refine (ends_answer (r := .putBuffer b.state) ht₂ (fun _ => trivial) fun _ e =>
        ⟨⟨e, rfl⟩, ho.changes.stores, trivial⟩).bind ?_ fun _ _ hE => hE
      rintro ⟨u, t₃⟩ _ ⟨rfl, hin₃, c₃, hc₃, ht₃⟩
      obtain ⟨-, rfl⟩ := Prod.mk.inj (Except.ok.inj hc₃)
      exact ends_pure ⟨hin₃.trans (hin₂.trans hin₁), ho.changes.disk.sound hs,
        hk.changes hs hF.inLog ho.changes, ho.changes.stores, _, ht₃, rfl, rfl, salt, ho⟩
    · rintro stop w₂ ⟨hi₂, hf⟩
      exact ⟨hf (hi.returns hr), hi₂.stores.trans hi.stores, trivial⟩
  · rintro ⟨b, stats⟩ w₁ ⟨c', w₂, ⟨rfl, rfl, salt, ho⟩, hcom⟩
    have hcap : b.capacity = cfg.capacity := congrArg BufferState.capacity ho.state
    have hk₂ := hk.changes hs hF.inLog ho.changes
    have hopened : World.Moves q id 0 w w₂ := .ofChanges hs hF ho.changes
    have hm := hopened.trans (.ofCommits hopened.sound hcom ⟨_, hk₂.choose_spec.1⟩)
    exact ends_of_eq_ok (a := ⟨cfg, id, w₁.marks.length, b, {}⟩)
      (t := { w₁ with marks := w₁.marks ++ [b.watermark] }) rfl
      ⟨salt, rfl, rfl, rfl, hcap, carries_created hs hq ho hcom rfl,
        hm.trans (moves_marks hm.sound id 0 (w₁.marks ++ [b.watermark]))⟩
  · rintro stop w' ⟨he, -⟩
    exact he

end Writer

end RecordLog
