import Mathlib
import RecordLog.Proofs.Ledgers
import RecordLog.Proofs.OpenFolder
import RecordLog.Proofs.Runs

/-!
# The life of a log

A log is founded over an empty index and then had by one writer after the other, each with settings
of its own, as long as they agree on the folder and the transforms. `Life` lists what can happen to
it, with the ledger of what was told: operations that succeed or fail, writers that go, and openings
that succeed or fail. `Held` and `Left` are what all of this preserves, with a writer and without.
-/

namespace RecordLog

open Record Segment

/-- Settings of the same log: all but the size of segments and the flushing agrees. -/
structure Config.Alike (cfg cfg' : Config) : Prop where
  folder : cfg'.folder = cfg.folder
  compressor : cfg'.compressor = cfg.compressor
  cipher : cfg'.cipher = cfg.cipher

namespace Config.Alike

variable {cfg cfg' cfg'' : Config}

theorem refl (cfg : Config) : Alike cfg cfg := ⟨rfl, rfl, rfl⟩

theorem symm (h : Alike cfg cfg') : Alike cfg' cfg :=
  ⟨h.folder.symm, h.compressor.symm, h.cipher.symm⟩

theorem eq (h : Alike cfg cfg') :
    cfg' = { cfg with capacity := cfg'.capacity, sync := cfg'.sync } := by
  obtain ⟨h₁, h₂, h₃⟩ := h
  rw [← h₁, ← h₂, ← h₃]

theorem path (h : Alike cfg cfg') : cfg'.path = cfg.path := congrArg Path.ofString h.folder

end Config.Alike

theorem Log.Lies.alike {cfg cfg' : Config} {q : Place} {capacity : Nat} {l : Log} {c : Catalog}
    {d : Disk} (ha : cfg.Alike cfg') (h : l.Lies cfg q capacity c d) :
    l.Lies cfg' q capacity c d := by
  rw [ha.eq]
  have hreach {name : String} (hr : cfg.Reaches name) :
      { cfg with capacity := cfg'.capacity, sync := cfg'.sync : Config }.Reaches name :=
    ⟨hr.short, hr.path⟩
  exact {
    home := h.home
    sound := h.sound
    chunks := h.chunks.imp fun p e hs =>
      { hs with
        reaches := hreach hs.reaches
        liveReaches := hreach hs.liveReaches }
    writable := h.writable
    reaches := hreach h.reaches
    live := h.live
    kept := h.kept
    described := h.described }

namespace World

/-- Closes the indexes that were opened since there were so many of them. -/
def giveBack (w : World) (n : Nat) : World :=
  { w with stores := w.stores.mapIdx fun i s => if i < n then s else { s with closed := true } }

end World

/-- The ways to a log that has no index yet, or an empty one. -/
inductive Founding (cfg : Config) (w : World) : Op Writer → Prop where
  | shared {q : Place} {id : StoreId} (hq : w.disk.enter cfg.path = .ok q)
      (hk : Store.Keeps q id {} w) (ha : Store.Alone id w.stores) :
      Founding cfg w (Writer.resume cfg id)
  | folder (hv : ∀ q, (w.disk.createFolders cfg.path).2.enter cfg.path = .ok q →
        Store.Vacant q (w.disk.createFolders cfg.path).2) :
      Founding cfg w (Writer.openFolder cfg)

/-- The ways back to a log: over its index as long as that is open, or over the index in the folder
once nobody has that open. They end with the index that is named last. -/
inductive Entrance (cfg : Config) (id : StoreId) (w : World) : Op Writer → StoreId → Prop where
  | shared {s : Store} (hs : w.stores[id]? = some s) (hc : s.closed = false) :
      Entrance cfg id w (Writer.resume cfg id) id
  | folder {s : Store} {f : FileId} (hs : w.stores[id]? = some s) (hc : s.closed = true)
      (hm : s.medium = .file f)
      (hf : w.disk.find (cfg.locate indexFileName) = .ok (.file f)) :
      Entrance cfg id w (Writer.openFolder cfg) w.stores.length

/-- What happens to a log: its writer, if there is one, its index, the world, and the ledger. -/
inductive Life (cfg : Config) : Option Writer → StoreId → World → Ledger → Prop where
  | found {w w' : World} {op : Op Writer} {writer : Writer} (hs : w.disk.Sound) (hr : w.Returns)
      (hsize : cfg.capacity < 2 ^ 64) (hf : Founding cfg w op) (hop : op w = .ok writer w') :
      Life cfg (some writer) writer.store (w'.under writer.store {}) {}
  | act {writer : Writer} {id : StoreId} {w : World} {g : Ledger}
      (h : Life cfg (some writer) id w g) (step : Step) :
      Life cfg (some (step.take (writer, w)).2.1) id (step.take (writer, w)).2.2
        (g.after step.action (step.take (writer, w)).1 writer (step.take (writer, w)).2.1)
  | drop {writer : Writer} {id : StoreId} {w : World} {g : Ledger}
      (h : Life cfg (some writer) id w g) : Life cfg none id w g.cut
  | close {writer : Writer} {id : StoreId} {w w' : World} {g : Ledger}
      (h : Life cfg (some writer) id w g) (hc : writer.close w = .ok () w') :
      Life cfg none id w' g.cut
  | release {id : StoreId} {w w' : World} {g : Ledger} (h : Life cfg none id w g)
      (hc : Store.close id w = .ok () w') : Life cfg none id w' g
  | enter {cfg' : Config} {id id' : StoreId} {w w' : World} {g : Ledger} {op : Op Writer}
      {writer : Writer} (h : Life cfg none id w g) (hcfg : cfg.Alike cfg')
      (hsize : cfg'.capacity < 2 ^ 64) (he : Entrance cfg' id w op id') (k : Circumstances)
      (hop : op (w.under id k) = .ok writer w') :
      Life cfg (some writer) id' (w'.under id' {}) g
  | stay {cfg' : Config} {id id' : StoreId} {w w' : World} {g : Ledger} {op : Op Writer}
      {stop : Stop} (h : Life cfg none id w g) (hcfg : cfg.Alike cfg')
      (he : Entrance cfg' id w op id') (k : Circumstances)
      (hop : op (w.under id k) = .error stop w') :
      Life cfg none id' ((w'.under id' {}).giveBack w.stores.length) g

variable {cfg cfg' : Config} {q : Place} {l : Log} {c : Catalog} {id id' : StoreId}
  {writer : Writer} {w w' : World} {g : Ledger} {capacity : Nat} {op : Op Writer}

/-- A log that a writer has. -/
structure Held (cfg : Config) (q : Place) (l : Log) (c : Catalog) (writer : Writer)
    (id : StoreId) (w : World) (g : Ledger) : Prop where
  settled : Settled q l c (writer, w)
  store : writer.store = id
  alike : cfg.Alike writer.config
  alone : Store.Alone id w.stores
  tells : g.Tells l c
  configSize : writer.config.capacity < 2 ^ 64
  bufferSize : writer.buffer.capacity < 2 ^ 64
  stats : writer.stats.Small
  keptStats : ∀ st, c.stats = some st → st.Small

/-- A log that is left to its index and its folder. -/
structure Left (cfg : Config) (q : Place) (l : Log) (c : Catalog) (capacity : Nat)
    (id : StoreId) (w : World) (g : Ledger) : Prop where
  lies : l.Lies cfg q capacity c w.disk
  index : ∃ s, w.stores[id]? = some s ∧ s.poisoned = false ∧ s.failCommits = false ∧
    s.medium.Keeps q c w.disk
  calm : w.Calm
  alone : Store.Alone id w.stores
  tells : g.Tells l.cut c
  bufferSize : capacity < 2 ^ 64
  keptStats : ∀ st, c.stats = some st → st.Small

theorem Store.Alone.mono {ss ss' : List Store} (h : Alone id ss)
    (hss : ∀ (i : Nat) (s' : Store), ss'[i]? = some s' →
      ∃ s : Store, ss[i]? = some s ∧ s'.medium = s.medium ∧ (s.closed = true → s'.closed = true)) :
    Alone id ss' := by
  intro s' f hs' hf j t' ht' hne
  obtain ⟨s, hs, hm, -⟩ := hss id s' hs'
  obtain ⟨t, ht, hmt, hcl⟩ := hss j t' ht'
  have := h s f hs (hm.symm.trans hf) j t ht hne
  unfold holds at this ⊢
  rw [hmt]
  cases hc : t.closed with
  | true => simp [hcl hc]
  | false =>
    have hne : (t.medium == .file f) = false := by simpa [hc] using this
    rw [hne, Bool.false_and]

theorem World.exists_of_under {k : Circumstances} {i : Nat} {s' : Store}
    (h : (w.under id k).stores[i]? = some s') :
    ∃ s, w.stores[i]? = some s ∧ s'.medium = s.medium ∧ s'.closed = s.closed ∧
      s'.poisoned = s.poisoned := by
  simp only [World.under, List.getElem?_modify] at h
  obtain ⟨s, hs, rfl⟩ := Option.map_eq_some_iff.1 h
  refine ⟨s, hs, ?_⟩
  split <;> exact ⟨rfl, rfl, rfl⟩

theorem Store.Alone.under (h : Alone id w.stores) (i : StoreId) (k : Circumstances) :
    Alone id (w.under i k).stores :=
  h.mono fun _ _ hs' => by
    obtain ⟨s, hs, hm, hc, -⟩ := World.exists_of_under hs'
    exact ⟨s, hs, hm, fun h => hc.trans h⟩

theorem World.calm_giveBack (h : w.Calm) (n : Nat) : (w.giveBack n).Calm := h

theorem World.exists_of_giveBack {n i : Nat} {s' : Store}
    (h : (w.giveBack n).stores[i]? = some s') :
    ∃ s, w.stores[i]? = some s ∧ s'.medium = s.medium ∧ (s.closed = true → s'.closed = true) := by
  simp only [World.giveBack, List.getElem?_mapIdx] at h
  obtain ⟨s, hs, rfl⟩ := Option.map_eq_some_iff.1 h
  refine ⟨s, hs, ?_⟩
  split
  · exact ⟨rfl, fun h => h⟩
  · exact ⟨rfl, fun _ => rfl⟩

theorem Store.close_eq {s : Store} (hs : w.stores[id]? = some s) :
    close id w = .ok () { w with stores := w.stores.set id { s with closed := true } } := by
  simp only [close, modify, modifyGet, MonadStateOf.modifyGet, EStateM.modifyGet, hs]

theorem Store.Alone.close {s : Store} (h : Alone id w.stores) (hs : w.stores[id]? = some s) :
    Alone id (w.stores.set id { s with closed := true }) := by
  refine h.mono fun i s' hs' => ?_
  rw [List.getElem?_set] at hs'
  split at hs'
  · rename_i heq
    obtain rfl := heq
    split at hs'
    · cases hs'
      exact ⟨s, hs, rfl, fun _ => rfl⟩
    · cases hs'
  · exact ⟨s', hs', rfl, fun h => h⟩

theorem Store.Alone.free {s : Store} {f : FileId} (h : Alone id w.stores)
    (hs : w.stores[id]? = some s) (hc : s.closed = true) (hm : s.medium = .file f)
    (k : Circumstances) : (w.under id k).stores.any (holds f) = false := by
  have hunder : (w.under id k).stores[id]? = some { s with failCommits := k.refuses } := by
    rw [World.getElem?_stores_under, hs]
    rfl
  refine List.any_eq_false.2 fun s' hs' => ?_
  obtain ⟨j, hj⟩ := List.getElem?_of_mem hs'
  by_cases hne : j = id
  · rw [hne, hunder] at hj
    cases hj
    simp [holds, hc]
  · rw [(h.under id k) _ f hunder hm j s' hj hne]
    exact Bool.false_ne_true

theorem Writer.openFolder_of_closed {s : Store} {f : FileId} (hq : w.disk.enter cfg.path = .ok q)
    (hs : w.stores[id]? = some s) (hc : s.closed = true) (hm : s.medium = .file f)
    (hk : s.medium.Keeps q c w.disk) (ha : Store.Alone id w.stores)
    (hf : w.disk.find (cfg.locate indexFileName) = .ok (.file f)) (k : Circumstances) :
    openFolder cfg (w.under id k) = resume cfg w.stores.length { w.under id k with
      stores := (w.under id k).stores ++ [{ medium := .file f, watched := false }] } := by
  obtain ⟨hreach, hname⟩ := Disk.find_eq_ok hq plain_index hf
  rw [hm] at hk
  obtain ⟨-, t, damage, ht, hz, -⟩ := hk
  have hlen : (w.under id k).stores.length = w.stores.length := by
    simp [World.under]
  rw [openFolder_eq (w := w.under id k) hq hreach hname ht hz (ha.free hs hc hm k), hlen]

theorem Entrance.resumes {s : Store} (he : Entrance cfg id w op id')
    (hq : w.disk.enter cfg.path = .ok q) (hs : w.stores[id]? = some s) (hp : s.poisoned = false)
    (hk : s.medium.Keeps q c w.disk) (ha : Store.Alone id w.stores) (k : Circumstances) :
    ∃ w₁ : World, op (w.under id k) = Writer.resume cfg id' w₁ ∧ w₁.disk = w.disk ∧
      w₁.faults = k.faults ∧ Store.Keeps q id' c w₁ ∧ Store.Alone id' w₁.stores ∧
      ∃ s₁, w₁.stores[id']? = some s₁ ∧ s₁.medium = s.medium ∧
        (s₁.failCommits = true → k.refuses = true) := by
  have hunder : (w.under id k).stores[id]? = some { s with failCommits := k.refuses } := by
    rw [World.getElem?_stores_under, hs]
    rfl
  cases he with
  | shared hs' hc =>
    rw [hs] at hs'
    cases hs'
    exact ⟨w.under id k, rfl, rfl, rfl, ⟨_, hunder, hc, hp, hk⟩, ha.under _ _, _, hunder, rfl,
      fun h => h⟩
  | @folder s' f hs' hc hm hf =>
    rw [hs] at hs'
    cases hs'
    have heq := Writer.openFolder_of_closed hq hs hc hm hk ha hf k
    rw [hm] at hk
    have hlen : (w.under id k).stores.length = w.stores.length := by
      simp [World.under]
    have hnew : ((w.under id k).stores ++ [{ medium := .file f, watched := false }])[
        w.stores.length]? = some { medium := .file f, watched := false } := by
      rw [← hlen]
      simp
    refine ⟨_, heq, rfl, rfl, ⟨_, hnew, rfl, rfl, hk⟩, ?_, _, hnew, hm.symm, fun h => by cases h⟩
    rw [← hlen]
    exact Store.alone_append fun f' hf' => by
      cases hf'
      exact ha.free hs hc hm k

namespace Held

theorem act_outcome (h : Held cfg q l c writer id w g) (step : Step) :
    ∃ l' c' s₁, Outcome q l c writer (w.under writer.store step.circumstances) step.action
        (step.take (writer, w)).1 l' c' s₁ ∧
      (step.take (writer, w)).2 = (s₁.1, s₁.2.under s₁.1.store {}) ∧
      Follows q l c (writer, w) l' c' (step.take (writer, w)).2 ∧
      Held cfg q l' c' (step.take (writer, w)).2.1 id (step.take (writer, w)).2.2
        (g.after step.action (step.take (writer, w)).1 writer (step.take (writer, w)).2.1) := by
  obtain ⟨l', c', s₁, ho, hs₁, hf⟩ := h.settled.take_outcome step
  have hready := (h.settled.ready step.circumstances).carries
  have hmoves := (ho.moves hready).stores
  have hwriter : (step.take (writer, w)).2.1 = s₁.1 := by rw [hs₁]
  refine ⟨l', c', s₁, ho, hs₁, hf, hf.settled, hf.store.trans h.store, hf.config ▸ h.alike, ?_, ?_,
    ?_, ?_, ?_, ?_⟩
  · have ha : Store.Alone id (w.under writer.store step.circumstances).stores := h.alone.under _ _
    rw [hs₁]
    exact Store.Alone.under (ha.touched (h.store ▸ hmoves)) _ _
  · rw [hwriter]
    exact ho.tells hready h.tells
  · exact hf.config ▸ h.configSize
  · rw [hwriter]
    rcases ho.capacity_le with hcap | hcap
    · exact hcap ▸ h.bufferSize
    · exact hcap ▸ h.configSize
  · rw [hwriter]
    exact ho.small_stats h.stats
  · intro st hst
    rw [ho.stats_eq] at hst
    split at hst
    · cases hst
      exact h.stats
    · exact h.keptStats st hst

theorem act (h : Held cfg q l c writer id w g) (step : Step) :
    ∃ l' c', Held cfg q l' c' (step.take (writer, w)).2.1 id (step.take (writer, w)).2.2
        (g.after step.action (step.take (writer, w)).1 writer (step.take (writer, w)).2.1) ∧
      l.cut.Grows l'.cut ∧ c.chunks.entries <+: c'.chunks.entries := by
  obtain ⟨l', c', s₁, ho, -, hf, h'⟩ := h.act_outcome step
  exact ⟨l', c', h', ho.cut_grows (h.settled.ready step.circumstances).carries, hf.entries⟩

theorem left (h : Held cfg q l c writer id w g) :
    Left cfg q l c writer.buffer.capacity id w g.cut where
  lies := h.settled.carries.lies.alike h.alike.symm
  index := by
    obtain ⟨s, hs, -, hp, hk⟩ := h.settled.carries.index
    exact ⟨s, h.store ▸ hs, hp, h.settled.willing s hs, hk⟩
  calm := h.settled.calm
  alone := h.alone
  tells := h.tells.cut
  bufferSize := h.bufferSize
  keptStats := h.keptStats

end Held

namespace Left

theorem close (h : Left cfg q l c capacity id w g) (hc : Store.close id w = .ok () w') :
    Left cfg q l c capacity id w' g := by
  obtain ⟨s, hs, hp, hf, hk⟩ := h.index
  rw [Store.close_eq hs] at hc
  cases hc
  obtain ⟨hlt, -⟩ := List.getElem?_eq_some_iff.1 hs
  exact { h with
    index := ⟨_, List.getElem?_set_self hlt, hp, hf, hk⟩
    alone := h.alone.close hs }

theorem enter_eq (h : Left cfg q l c capacity id w g) (ha : cfg.Alike cfg')
    (he : Entrance cfg' id w op id') (k : Circumstances) :
    ∃ w₁ : World, op (w.under id k) = Writer.resume cfg' id' w₁ ∧ w₁.disk = w.disk ∧
      w₁.faults = k.faults ∧ Store.Keeps q id' c w₁ ∧ Store.Alone id' w₁.stores ∧
      ∃ s s₁, w.stores[id]? = some s ∧ w₁.stores[id']? = some s₁ ∧ s₁.medium = s.medium ∧
        (s₁.failCommits = true → k.refuses = true) := by
  obtain ⟨s, hs, hp, -, hk⟩ := h.index
  obtain ⟨w₁, heq, hdisk, hfaults, hkeeps, halone, s₁, hs₁, hm, hfail⟩ :=
    he.resumes (ha.path ▸ h.lies.home) hs hp hk h.alone k
  exact ⟨w₁, heq, hdisk, hfaults, hkeeps, halone, s, s₁, hs, hs₁, hm, hfail⟩

theorem ends_enter (h : Left cfg q l c capacity id w g) (ha : cfg.Alike cfg')
    (he : Entrance cfg' id w op id') (k : Circumstances) :
    Ends op (w.under id k)
      (fun writer w' => writer.config = cfg' ∧ writer.store = id' ∧
        writer.stats = c.stats.getD {} ∧ writer.buffer.capacity = capacity ∧
        Writer.Carries q l.cut c writer w' ∧ Store.Alone id' w'.stores ∧
        (∀ s s', w.stores[id]? = some s → w'.stores[id']? = some s' →
          s'.medium.inFile = s.medium.inFile) ∧
        (k.faults = {} → k.refuses = false → w'.under id' {} = w'))
      fun _ w' => (l.Lies cfg' q capacity c w'.disk ∨ l.cut.Lies cfg' q capacity c w'.disk) ∧
        Store.Keeps q id' c w' ∧ Store.Alone id' w'.stores ∧
        (k.faults = {} → k.refuses = false → ¬ Store.Legible id c w) := by
  obtain ⟨w₁, heq, hdisk, hfaults, hkeeps, halone, s, s₁, hs, hs₁, hm, hfail⟩ := h.enter_eq ha he k
  have hr : w₁.Returns := by
    intro hook f hf
    exact k.returns hook f (hfaults ▸ hf)
  have hspec := Writer.ends_resume (hdisk.symm ▸ h.lies.alike ha) hkeeps hr
  refine ⟨fun hx => ?_, fun hx => ?_⟩
  · obtain ⟨hcfg, hst, hstats, hcap, hcar, hmoves⟩ := hspec.ok (heq ▸ hx)
    refine ⟨hcfg, hst, hstats, hcap, hcar, halone.touched hmoves.stores, fun s₀ s' hs₀ hs' => ?_,
      fun hk hrf => World.under_eq_self (hmoves.calm (hfaults.trans hk)) fun s' hs' => ?_⟩
    · rw [hs] at hs₀
      cases hs₀
      rw [(hmoves.stores.kept hs₁ hs').1, hm]
    · rw [(hmoves.stores.kept hs₁ hs').2, Bool.eq_false_iff]
      intro hf
      rw [hfail hf] at hrf
      cases hrf
  · obtain ⟨-, hmoves, hlies, hkeeps', hcalm⟩ := hspec.error (heq ▸ hx)
    refine ⟨hlies, hkeeps', halone.touched hmoves.stores, fun hk hrf hleg => ?_⟩
    have := hcalm (hfaults.trans hk) (fun s₂ hs₂ hin => ?_) s₁ hs₁
    · have := hfail this
      rw [hrf] at this
      cases this
    · rw [hs₁] at hs₂
      cases hs₂
      exact hleg s hs (hm ▸ hin)

theorem enter (h : Left cfg q l c capacity id w g) (hz : cfg.compressor.Lawful)
    (hc : cfg.cipher.Lawful) (ha : cfg.Alike cfg') (hsize : cfg'.capacity < 2 ^ 64)
    (he : Entrance cfg' id w op id') {k : Circumstances}
    (hop : op (w.under id k) = .ok writer w') :
    Held cfg q l.cut c writer id' (w'.under id' {}) g := by
  obtain ⟨hcfg, hst, hstats, hcap, hcar, halone, -⟩ := (h.ends_enter ha he k).ok hop
  have hset : Settled q l.cut c (writer, w'.under writer.store {}) :=
    .of_carries hcar (hcfg ▸ ha.compressor ▸ hz) (hcfg ▸ ha.cipher ▸ hc)
  refine ⟨hst ▸ hset, hst, hcfg ▸ ha, halone.under _ _, h.tells, hcfg ▸ hsize,
    hcap ▸ h.bufferSize, ?_, h.keptStats⟩
  rw [hstats]
  cases hcs : c.stats with
  | none => exact ⟨by decide, by decide⟩
  | some st => exact h.keptStats st hcs

theorem stay (h : Left cfg q l c capacity id w g) (ha : cfg.Alike cfg')
    (he : Entrance cfg' id w op id') {k : Circumstances} {stop : Stop}
    (hop : op (w.under id k) = .error stop w') :
    ∃ l', l'.cut = l.cut ∧
      Left cfg q l' c capacity id' ((w'.under id' {}).giveBack w.stores.length) g := by
  obtain ⟨hlies, hkeeps, halone, -⟩ := (h.ends_enter ha he k).error hop
  obtain ⟨s, hs, -, hp, hk⟩ := hkeeps
  have hindex : ∃ s, ((w'.under id' {}).giveBack w.stores.length).stores[id']? = some s ∧
      s.poisoned = false ∧ s.failCommits = false ∧
      s.medium.Keeps q c ((w'.under id' {}).giveBack w.stores.length).disk := by
    have hget : (w'.under id' {}).stores[id']? = some { s with failCommits := false } := by
      rw [World.getElem?_stores_under, hs]
      rfl
    have hback : ((w'.under id' {}).giveBack w.stores.length).stores[id']? =
        some (if id' < w.stores.length then { s with failCommits := false }
          else { s with failCommits := false, closed := true }) := by
      simp only [World.giveBack, List.getElem?_mapIdx, hget, Option.map_some]
    refine ⟨_, hback, ?_⟩
    split <;> exact ⟨hp, rfl, hk⟩
  have halone' : Store.Alone id' ((w'.under id' {}).giveBack w.stores.length).stores :=
    (halone.under id' {}).mono fun _ _ => World.exists_of_giveBack
  have hcalm : ((w'.under id' {}).giveBack w.stores.length).Calm :=
    World.calm_giveBack World.calm_under _
  rcases hlies with hlies | hlies
  · exact ⟨l, rfl, hlies.alike ha.symm, hindex, hcalm, halone', h.tells, h.bufferSize,
      h.keptStats⟩
  · refine ⟨l.cut, Log.cut_cut l, hlies.alike ha.symm, hindex, hcalm, halone', ?_, h.bufferSize,
      h.keptStats⟩
    rw [Log.cut_cut]
    exact h.tells

end Left

theorem Founding.opened (hf : Founding cfg w op) (hs : w.disk.Sound) (hr : w.Returns)
    (hop : op w = .ok writer w') :
    ∃ q salt, writer.config = cfg ∧ writer.stats = {} ∧
      writer.buffer.capacity = cfg.capacity ∧ Store.Alone writer.store w'.stores ∧
      Writer.Carries q { live := ⟨[], salt⟩ } { buffer := some writer.buffer.state } writer w' := by
  cases hf with
  | shared hq hk ha =>
    obtain ⟨salt, hcfg, hst, hstats, hcap, hcar, hmoves⟩ :=
      (Writer.ends_resume_empty hs hq hk hr).ok hop
    exact ⟨_, salt, hcfg, hstats, hcap, hst ▸ ha.touched hmoves.stores, hcar⟩
  | folder hv =>
    obtain ⟨q, salt, hcfg, hstats, hcap, hcar, halone, -⟩ :=
      (Writer.ends_openFolder_new hs hr hv).ok hop
    exact ⟨q, salt, hcfg, hstats, hcap, halone, hcar⟩

section life

variable (hz : cfg.compressor.Lawful) (hc : cfg.cipher.Lawful)
include hz hc

theorem Founding.held (hf : Founding cfg w op) (hs : w.disk.Sound) (hr : w.Returns)
    (hsize : cfg.capacity < 2 ^ 64) (hop : op w = .ok writer w') :
    ∃ q salt, Held cfg q { live := ⟨[], salt⟩ } { buffer := some writer.buffer.state } writer
      writer.store (w'.under writer.store {}) {} := by
  obtain ⟨q, salt, rfl, hstats, hcap, halone, hcar⟩ := hf.opened hs hr hop
  exact ⟨q, salt, {
    settled := .of_carries hcar hz hc
    store := rfl
    alike := .refl _
    alone := halone.under _ _
    tells := ⟨rfl, rfl, rfl, rfl⟩
    configSize := hsize
    bufferSize := hcap ▸ hsize
    stats := hstats ▸ ⟨by decide, by decide⟩
    keptStats := fun st hst => by cases hst }⟩

/-- What all that happens to a log preserves. -/
theorem Life.invariant {o : Option Writer} (h : Life cfg o id w g) :
    (∀ writer, o = some writer → ∃ q l c, Held cfg q l c writer id w g) ∧
      (o = none → ∃ q l c capacity, Left cfg q l c capacity id w g) := by
  induction h with
  | found hs hr hsize hf hop =>
    refine ⟨fun writer hw => ?_, fun hw => by cases hw⟩
    cases hw
    obtain ⟨q, salt, hheld⟩ := hf.held hz hc hs hr hsize hop
    exact ⟨q, _, _, hheld⟩
  | act _ step ih =>
    refine ⟨fun writer hw => ?_, fun hw => by cases hw⟩
    cases hw
    obtain ⟨q, l, c, hheld⟩ := ih.1 _ rfl
    obtain ⟨l', c', hheld', -⟩ := hheld.act step
    exact ⟨q, l', c', hheld'⟩
  | drop _ ih =>
    refine ⟨fun writer hw => (by cases hw), fun _ => ?_⟩
    obtain ⟨q, l, c, hheld⟩ := ih.1 _ rfl
    exact ⟨q, l, c, _, hheld.left⟩
  | close _ hclose ih =>
    refine ⟨fun writer hw => (by cases hw), fun _ => ?_⟩
    obtain ⟨q, l, c, hheld⟩ := ih.1 _ rfl
    exact ⟨q, l, c, _, hheld.left.close (hheld.store ▸ hclose)⟩
  | release _ hclose ih =>
    refine ⟨fun writer hw => (by cases hw), fun _ => ?_⟩
    obtain ⟨q, l, c, capacity, hleft⟩ := ih.2 rfl
    exact ⟨q, l, c, capacity, hleft.close hclose⟩
  | enter _ ha hsize he k hop ih =>
    refine ⟨fun writer hw => ?_, fun hw => by cases hw⟩
    cases hw
    obtain ⟨q, l, c, capacity, hleft⟩ := ih.2 rfl
    exact ⟨q, l.cut, c, hleft.enter hz hc ha hsize he hop⟩
  | stay _ ha he k hop ih =>
    refine ⟨fun writer hw => (by cases hw), fun _ => ?_⟩
    obtain ⟨q, l, c, capacity, hleft⟩ := ih.2 rfl
    obtain ⟨l', -, hleft'⟩ := hleft.stay ha he hop
    exact ⟨q, l', c, capacity, hleft'⟩

theorem Life.held (h : Life cfg (some writer) id w g) : ∃ q l c, Held cfg q l c writer id w g :=
  (h.invariant hz hc).1 _ rfl

theorem Life.left (h : Life cfg none id w g) : ∃ q l c capacity, Left cfg q l c capacity id w g :=
  (h.invariant hz hc).2 rfl

end life

end RecordLog
