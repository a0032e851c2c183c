import Mathlib
import RecordLog.Proofs.Bookkeeping
import RecordLog.Proofs.Turns

/-!
# The books of a log through its life

`Moment.Books` says that the books of a log are in order, whether it has a writer or not. A turn
keeps them so, and `Moment.Passage` lists what a turn can be to them: a posting, a writer that goes
or comes, or nothing at all. Compressor and cipher may be anything.
-/

namespace RecordLog

open Record

variable {cfg cfg' : Config} {q : Place} {c c' : Catalog} {s : BufferState} {id id' : StoreId}
  {w w' : World} {g : Ledger} {writer : Writer} {op : Op Writer} {n n' : Moment}

namespace Writer

theorem ends_resume_any (hq : w.disk.enter cfg.path = .ok q) (hs : w.disk.Sound)
    (hk : Store.Keeps q id c w) (hr : w.Returns) (hb : c.buffer = some s) (hd : c.Describes s) :
    Ends (resume cfg id) w
      (fun writer w' => writer.config = cfg ∧ writer.store = id ∧ writer.buffer.toBufferState = s ∧
        Books q c writer w' ∧ Store.Touched id w.stores w'.stores)
      fun _ w' => w'.disk.enter cfg.path = .ok q ∧ w'.disk.Sound ∧ Store.Keeps q id c w' ∧
        Store.Touched id w.stores w'.stores := by
  have hF := inLog_live (q := q) s.start w.disk
  refine (Store.ends_within (Q := fun r c' w₂ => c' = c ∧
      World.Changes { places := [q ++ [bufferFileName s.start]] } w w₂ ∧
      r.1.toBufferState = s ∧ w₂.disk.names.get? (q ++ [bufferFileName s.start]) =
        some (.file r.1.handle))
    (E := fun w₂ => World.Changes { places := [q ++ [bufferFileName s.start]] } w w₂) hk hr
    fun t w₁ hi ht _ => ?_).bind ?_ ?_
  · have hresume := Buffer.confined_resume (s := s) (hi.disk ▸ hq)
      (hd.file ▸ (LogName.live s.start).plain) (hi.disk ▸ hs) (hi.returns hr)
    rw [hd.file] at hresume
    refine (ends_resume_work (E := fun stop w₂ => (∃ e, stop = .error e) ∧ w₂.stores = w.stores ∧
      World.Changes { places := [q ++ [bufferFileName s.start]] } w w₂) ht hb
      (hresume.mono (fun _ _ h => h) ?_) ?_).mono ?_ fun _ _ hE => hE
    · rintro stop w₂ ⟨he, hc⟩
      exact ⟨he, hc.stores.trans hi.stores, hi.changes.trans hc⟩
    · exact fun _ e => ⟨⟨e, rfl⟩, hi.stores, hi.changes⟩
    · rintro r w₂ ⟨hin, ht', -, hc, hstate, hlinked⟩
      have hc := hi.changes.trans hc
      exact ⟨hin, hc.disk.sound hs, hk.changes hs hF hc, hc.stores, c, ht', rfl, hc, hstate,
        hlinked⟩
  · rintro ⟨b, stats⟩ w₁ ⟨c', w₂, ⟨rfl, hc, hstate, hlinked⟩, hcom⟩
    obtain ⟨F, -, -, hch⟩ := hcom.disk
    have hk₂ := hk.changes hs hF hc
    have hsame := World.Moves.sameFile_of_commits (hc.disk.sound hs) hcom (.live s.start)
    obtain ⟨st, hst, -⟩ := hk₂
    refine ends_of_eq_ok (a := ⟨cfg, id, w₁.marks.length, b, stats⟩)
      (t := { w₁ with marks := w₁.marks ++ [b.watermark] }) rfl ⟨rfl, rfl, hstate, ?_, ?_⟩
    · exact {
        home := hch.enter (hc.disk.enter hq)
        sound := hch.sound (hc.disk.sound hs)
        index := hcom.keeps
        describes := hstate.symm ▸ hd
        linked := by
          rw [hstate]
          exact hsame.names.trans hlinked
        mark := by simp }
    · exact .inr ⟨st, c', hc.stores ▸ hst, (hcom.stores st hst).trans (by rw [hc.stores])⟩
  · rintro stop w' ⟨-, (⟨hi, -⟩ | hc | ⟨⟨r, c', -, hc, -⟩, -⟩)⟩
    · exact ⟨hi.disk ▸ hq, hi.disk ▸ hs, hk.idle hi, .inl hi.stores⟩
    · exact ⟨hc.disk.enter hq, hc.disk.sound hs, hk.changes hs hF hc, .inl hc.stores⟩
    · exact ⟨hc.disk.enter hq, hc.disk.sound hs, hk.changes hs hF hc, .inl hc.stores⟩

end Writer

structure Moment.Books (cfg : Config) (q : Place) (c : Catalog) (n : Moment) : Prop where
  home : n.world.disk.enter cfg.path = .ok q
  sound : n.world.disk.Sound
  index : ∃ s, n.world.stores[n.index]? = some s ∧ s.poisoned = false ∧
    s.medium.Keeps q c n.world.disk
  alone : Store.Alone n.index n.world.stores
  calm : n.world.Calm
  durable : ∃ s, c.buffer = some s ∧ n.ledger.durable = s.stop ∧ c.Describes s
  counts : n.ledger.Counts (n.writer.elim n.ledger.durable (·.buffer.stop))
  writer : ∀ writer, n.writer = some writer → cfg.Alike writer.config ∧ writer.store = n.index ∧
    writer.Books q c n.world

def Moment.Indexes (n : Moment) (c : Catalog) : Prop :=
  ∃ t, n.world.tables n.index = some t ∧ t.Represents c

/-- What a turn is to the books of a log. -/
inductive Moment.Passage (c : Catalog) : Moment → Catalog → Moment → Prop where
  | act {writer : Writer} {id : StoreId} {w : World} {g : Ledger} {step : Step} {c' : Catalog}
      {pieces : List Piece}
      (hp : Posting writer.config.capacity writer.buffer.toBufferState c step.action
        (step.take (writer, w)).1 (step.take (writer, w)).2.1.buffer.toBufferState c' pieces)
      (hw : (step.take (writer, w)).2.2.pieces = w.pieces ++ pieces) :
      Passage c ⟨some writer, id, w, g⟩ c' ⟨some (step.take (writer, w)).2.1, id,
        (step.take (writer, w)).2.2,
        g.after step.action (step.take (writer, w)).1 writer (step.take (writer, w)).2.1⟩
  | leave {n n' : Moment} (hn : n'.writer = none) (hg : n'.ledger.durable = n.ledger.durable)
      (hw : n'.world.pieces = n.world.pieces) : Passage c n c n'
  | enter {n n' : Moment} {writer : Writer} (hn : n.writer = none) (hn' : n'.writer = some writer)
      (hb : c.buffer = some writer.buffer.toBufferState) (hg : n'.ledger = n.ledger)
      (hw : n'.world.pieces = n.world.pieces) : Passage c n c n'

namespace Moment.Books

theorem indexes (h : n.Books cfg q c) : n.Indexes c := by
  obtain ⟨s, hs, -, hk⟩ := h.index
  exact Store.tables_of_keeps hs hk

theorem act (h : Books cfg q c ⟨some writer, id, w, g⟩) (step : Step) :
    ∃ c', Books cfg q c' ⟨some (step.take (writer, w)).2.1, id, (step.take (writer, w)).2.2,
        g.after step.action (step.take (writer, w)).1 writer (step.take (writer, w)).2.1⟩ ∧
      Passage c ⟨some writer, id, w, g⟩ c' ⟨some (step.take (writer, w)).2.1, id,
        (step.take (writer, w)).2.2,
        g.after step.action (step.take (writer, w)).1 writer (step.take (writer, w)).2.1⟩ := by
  obtain ⟨halike, rfl, hbooks⟩ := h.writer writer rfl
  obtain ⟨c', pieces, hposting, hproceeds, hpieces⟩ :=
    (hbooks.under (k := step.circumstances)).attempted World.returns_under step.action
  obtain ⟨s, hs, hdurable, -⟩ := h.durable
  have hcounts : g.Counts writer.buffer.stop := h.counts
  have hend := hproceeds.books.under (k := {})
  obtain ⟨st, hst, -, hpoison, hkeeps⟩ := hend.index
  have hstore : (step.take (writer, w)).2.1.store = writer.store := hproceeds.store
  have halone : Store.Alone writer.store (step.take (writer, w)).2.2.stores :=
    ((h.alone.under writer.store step.circumstances).touched hproceeds.stores).under _ {}
  have hconfig : (step.take (writer, w)).2.1.config = writer.config := hproceeds.config
  have hdescribes : c'.Describes (step.take (writer, w)).2.1.buffer.toBufferState := hend.describes
  obtain ⟨s', hs', -, -⟩ := hdescribes.described
  have hpath : cfg.path = (step.take (writer, w)).2.1.config.path := by
    rw [hconfig]
    exact halike.path.symm
  refine ⟨c', ?_, .act hposting hpieces⟩
  exact {
    home := by
      rw [hpath]
      exact hend.home
    sound := hend.sound
    index := ⟨st, hstore ▸ hst, hpoison, hkeeps⟩
    alone := halone
    calm := World.calm_under
    durable := by
      have hkept (s'' : BufferState) (hs'' : c.buffer = some s'') : g.durable = s''.stop := by
        rw [hs] at hs''
        cases hs''
        exact hdurable
      refine ⟨s', hs', ?_, hdescribes.cut hs'⟩
      rw [← hposting.durable_eq hbooks.describes hkept hs', ← hcounts.stop_eq]
      rfl
    counts := by
      obtain ⟨happended, hstop⟩ := hposting.appended_eq_told
      have hcounts' := hcounts.after writer (step.take (writer, w)).2.1 happended
      rwa [← hstop] at hcounts'
    writer := by
      rintro _ ⟨⟩
      exact ⟨hconfig ▸ halike, hstore, hend⟩ }

theorem drop (h : Books cfg q c ⟨some writer, id, w, g⟩) : Books cfg q c ⟨none, id, w, g.cut⟩ :=
  { h with
    counts := h.counts.cut
    writer := fun _ hw => by cases hw }

theorem close (h : Books cfg q c ⟨none, id, w, g⟩) (hc : Store.close id w = .ok () w') :
    Books cfg q c ⟨none, id, w', g⟩ := by
  obtain ⟨s, hs, hp, hk⟩ := h.index
  have hs : w.stores[id]? = some s := hs
  rw [Store.close_eq hs] at hc
  cases hc
  obtain ⟨hlt, -⟩ := List.getElem?_eq_some_iff.1 hs
  exact {
    home := h.home
    sound := h.sound
    index := ⟨_, List.getElem?_set_self hlt, hp, hk⟩
    alone := h.alone.close hs
    calm := h.calm
    durable := h.durable
    counts := h.counts
    writer := fun _ hw => by cases hw }

/-- Every way back leads to what the index describes, and one that fails leaves the index alone. -/
theorem ends_enter (h : Books cfg q c ⟨none, id, w, g⟩) (ha : cfg.Alike cfg')
    (he : Entrance cfg' id w op id') (k : Circumstances) (hb : c.buffer = some s) :
    Ends op (w.under id k)
      (fun writer w' => Books cfg q c ⟨some writer, id', w'.under id' {}, g⟩ ∧
        writer.buffer.toBufferState = s)
      fun _ w' => Books cfg q c
        ⟨none, id', (w'.under id' {}).giveBack w.stores.length, g⟩ := by
  obtain ⟨st, hst, hp, hk⟩ := h.index
  obtain ⟨s', hs', hdurable, hdescribes⟩ := h.durable
  rw [hb] at hs'
  obtain rfl := Option.some.inj hs'
  have hq : w.disk.enter cfg'.path = .ok q := ha.path ▸ h.home
  obtain ⟨w₁, heq, hdisk, hfaults, hkeeps, halone, -⟩ := he.resumes hq hst hp hk h.alone k
  have hr : w₁.Returns := by
    intro hook f hf
    exact k.returns hook f (hfaults ▸ hf)
  have hspec := Writer.ends_resume_any (hdisk ▸ hq) (hdisk ▸ h.sound) hkeeps hr hb hdescribes
  refine ⟨fun hx => ?_, fun hx => ?_⟩
  · rename_i writer w'
    obtain ⟨hcfg, hstore, hstate, hbooks, htouched⟩ := hspec.ok (heq ▸ hx)
    subst hcfg hstore
    have hend := hbooks.under (k := {})
    obtain ⟨st', hst', -, hp', hk'⟩ := hend.index
    refine ⟨?_, hstate⟩
    exact {
      home := ha.path ▸ hend.home
      sound := hend.sound
      index := ⟨st', hst', hp', hk'⟩
      alone := (halone.touched htouched).under _ {}
      calm := World.calm_under
      durable := ⟨s, hb, hdurable, hdescribes⟩
      counts := by
        have hstop : writer.buffer.stop = g.durable := by rw [hstate, ← hdurable]
        exact hstop ▸ h.counts
      writer := by
        rintro _ ⟨⟩
        exact ⟨ha, rfl, hend⟩ }
  · rename_i stop w'
    obtain ⟨hhome, hsound, hkeeps', htouched⟩ := hspec.error (heq ▸ hx)
    obtain ⟨st', hst', -, hp', hk'⟩ := hkeeps'.under (k := {})
    exact {
      home := ha.path ▸ hhome
      sound := hsound
      index := by
        refine ⟨if id' < w.stores.length then st' else { st' with closed := true }, ?_, ?_, ?_⟩
        · simp only [World.giveBack, List.getElem?_mapIdx, hst', Option.map_some]
        · split <;> exact hp'
        · split <;> exact hk'
      alone := ((halone.touched htouched).under id' {}).mono fun _ _ => World.exists_of_giveBack
      calm := World.calm_giveBack World.calm_under _
      durable := ⟨s, hb, hdurable, hdescribes⟩
      counts := h.counts
      writer := fun _ hw => by cases hw }

end Moment.Books

theorem Turn.books (h : n.Books cfg q c) (ht : Turn cfg n n') :
    ∃ c', n'.Books cfg q c' ∧ Moment.Passage c n c' n' := by
  cases ht with
  | act writer id w g step => exact h.act step
  | drop writer id w g => exact ⟨c, h.drop, .leave rfl rfl rfl⟩
  | @close writer w w' id g hclose =>
    obtain ⟨-, hstore, -⟩ := h.writer writer rfl
    have hstore : writer.store = id := hstore
    have hclose' : Store.close id w = .ok () w' := hstore ▸ hclose
    exact ⟨c, h.drop.close hclose', .leave rfl rfl ((Store.quiet_close id w).ok hclose').pieces⟩
  | @release id w w' g hclose =>
    exact ⟨c, h.close hclose, .leave rfl rfl ((Store.quiet_close id w).ok hclose).pieces⟩
  | @enter cfg' id id' w w' op writer g ha hsize he k hop =>
    obtain ⟨s, hs, -, -⟩ := h.durable
    obtain ⟨hbooks, hstate⟩ := (h.ends_enter ha he k hs).ok hop
    exact ⟨c, hbooks, .enter rfl rfl (hstate ▸ hs) rfl ((he.ends_marks _).ok hop).1.pieces⟩
  | @stay cfg' id id' w w' op stop g ha he k hop =>
    obtain ⟨s, hs, -, -⟩ := h.durable
    exact ⟨c, (h.ends_enter ha he k hs).error hop,
      .leave rfl rfl ((he.ends_marks _).error hop).pieces⟩

theorem Founding.books (hf : Founding cfg w op) (hs : w.disk.Sound) (hr : w.Returns)
    (hop : op w = .ok writer w') :
    ∃ q, Moment.Books cfg q { buffer := some writer.buffer.toBufferState }
        ⟨some writer, writer.store, w'.under writer.store {}, {}⟩ ∧
      ∃ salt, writer.buffer.toBufferState = .fresh 0 cfg.capacity salt := by
  obtain ⟨q, salt, rfl, -, hcap, halone, hcar⟩ := hf.opened hs hr hop
  have hstate : writer.buffer.toBufferState = .fresh 0 writer.config.capacity salt := by
    rw [← hcap]
    exact hcar.state
  have hdescribes : Catalog.Describes { buffer := some writer.buffer.toBufferState }
      writer.buffer.toBufferState := by
    rw [hstate]
    exact ⟨rfl, rfl, BufferState.sized_fresh _ _ _, _, rfl, .refl _, BufferState.sized_fresh _ _ _⟩
  have hbooks : Writer.Books q { buffer := some writer.buffer.toBufferState } writer w' := {
    home := hcar.home
    sound := hcar.sound
    index := hcar.index
    describes := hdescribes
    linked := by
      rw [hcar.start_eq]
      exact hcar.linked
    mark := by
      rw [hcar.watermark_eq]
      exact hcar.mark }
  have hend := hbooks.under (k := {})
  obtain ⟨st, hst, -, hp, hk⟩ := hend.index
  refine ⟨q, ?_, salt, hstate⟩
  exact {
    home := hend.home
    sound := hend.sound
    index := ⟨st, hst, hp, hk⟩
    alone := halone.under _ {}
    calm := World.calm_under
    durable := ⟨_, rfl, by rw [hstate]; rfl, hdescribes⟩
    counts := by
      have hstop : writer.buffer.stop = 0 := by rw [hstate]; rfl
      exact hstop ▸ Ledger.Counts.empty
    writer := by
      rintro _ ⟨⟩
      exact ⟨.refl _, rfl, hend⟩ }

/-- What holds when a log is founded, and is kept by every turn, holds all through its life. -/
theorem Life.turns {motive : Moment → Prop}
    (found : ∀ {w w' : World} {op : Op Writer} {writer : Writer}, w.disk.Sound → w.Returns →
      Founding cfg w op → op w = .ok writer w' →
      motive ⟨some writer, writer.store, w'.under writer.store {}, {}⟩)
    (turn : ∀ {n n' : Moment}, Life cfg n.writer n.index n.world n.ledger → motive n →
      Turn cfg n n' → motive n')
    (h : Life cfg n.writer n.index n.world n.ledger) : motive n := by
  obtain ⟨o, id, w, g⟩ := n
  dsimp only at h
  induction h with
  | found hs hr _ hf hop => exact found hs hr hf hop
  | act h step ih => exact turn (n := ⟨_, _, _, _⟩) h ih (.act _ _ _ _ step)
  | drop h ih => exact turn (n := ⟨_, _, _, _⟩) h ih (.drop _ _ _ _)
  | close h hc ih => exact turn (n := ⟨_, _, _, _⟩) h ih (.close _ _ hc)
  | release h hc ih => exact turn (n := ⟨_, _, _, _⟩) h ih (.release _ hc)
  | enter h ha hsize he k hop ih =>
    exact turn (n := ⟨_, _, _, _⟩) h ih (.enter _ ha hsize he k hop)
  | stay h ha he k hop ih => exact turn (n := ⟨_, _, _, _⟩) h ih (.stay _ ha he k hop)

theorem Life.books (h : Life cfg n.writer n.index n.world n.ledger) : ∃ q c, n.Books cfg q c := by
  refine Life.turns (motive := fun n => ∃ q c, n.Books cfg q c) ?_ ?_ h
  · intro w w' op writer hs hr hf hop
    obtain ⟨q, hbooks, -⟩ := hf.books hs hr hop
    exact ⟨q, _, hbooks⟩
  · rintro n n' - ⟨q, c, hbooks⟩ ht
    obtain ⟨c', hbooks', -⟩ := ht.books hbooks
    exact ⟨q, c', hbooks'⟩

end RecordLog
